/-
# Identifiers

The words that can never be a binding, the grammar of identifiers, and two ways to make one out of
arbitrary text: `sanitize` keeps the spelling and joins what separators divide with underscores,
`parameterName` writes the words in camel case unless the text is an identifier as it stands.
-/

import OpenApiClient.Text.Words

namespace OpenApiClient
namespace TypeScript

/-- Reserved and strict-mode words, which can never be a bare binding. -/
def reservedWords : List String := [
  "arguments", "await", "break", "case", "catch", "class", "const", "continue", "debugger",
  "default", "delete", "do", "else", "enum", "eval", "export", "extends", "false", "finally",
  "for", "function", "if", "implements", "import", "in", "instanceof", "interface", "let", "new",
  "null", "package", "private", "protected", "public", "return", "static", "super", "switch",
  "this", "throw", "true", "try", "typeof", "var", "void", "while", "with", "yield"]

/-- Whether the name is a reserved word. -/
def isReserved (name : String) : Bool := reservedWords.contains name

/-- Whether an identifier may start with the character. -/
def isStart (c : Char) : Bool := Text.isAlphabetic c || c == '_' || c == '$'

/-- Whether an identifier may hold the character. -/
def isPart (c : Char) : Bool := Text.isAlphanumeric c || c == '_' || c == '$'

/-- Whether the characters can be written unquoted as an identifier. -/
def identifierChars : List Char → Bool
  | [] => false
  | c :: cs => isStart c && cs.all isPart

/-- Whether the name can be written unquoted as an identifier. -/
def isIdentifier (name : String) : Bool := identifierChars name.toList

theorem isPart_of_isStart {c : Char} (h : isStart c = true) : isPart c = true := by
  simp only [isStart, isPart, Bool.or_eq_true] at h ⊢
  rcases h with (h | h) | h
  · exact Or.inl (Or.inl (Text.isAlphanumeric_of_isAlphabetic h))
  · exact Or.inl (Or.inr h)
  · exact Or.inr h

/-- The identifier characters of a text, what separators divide joined by an underscore; `pending`
tells that a separator was passed, `started` that something is written already. -/
def joinParts (pending started : Bool) : List Char → List Char
  | [] => []
  | c :: cs =>
    if isPart c then
      (if pending && started then ['_', c] else [c]) ++ joinParts false true cs
    else joinParts true started cs

/-- A text as an identifier: its parts joined by underscores, one more underscore in front of a
leading ASCII digit, and `unnamed` when nothing is left. -/
def sanitizeChars (cs : List Char) : List Char :=
  let body := joinParts false false cs
  if body.isEmpty then "unnamed".toList
  else match cs with
    | c :: _ => if c.isDigit then '_' :: body else body
    | [] => body

/-- A text as an identifier. -/
def sanitize (name : String) : String := .ofList (sanitizeChars name.toList)

/-- A text as the name of a parameter: itself if it is an identifier, else its words in camel case,
after an underscore where those would not start one. -/
def parameterName (name : String) : String :=
  if isIdentifier name then name
  else
    let camel := Text.camel (sanitizeChars name.toList)
    if identifierChars camel then .ofList camel else .ofList ('_' :: camel)

end TypeScript
end OpenApiClient
