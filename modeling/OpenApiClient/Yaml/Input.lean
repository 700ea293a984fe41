/-
# The characters of a YAML text

A text may hold printable characters, tabs and line breaks. Every kind of line break but the
separators of lines and paragraphs counts as a line feed. The lexer looks at characters together
with their places; a null character stands at the end.
-/

namespace OpenApiClient
namespace Yaml

/-- A character and its place. -/
structure Glyph where
  char : Char
  line : Nat
  /-- How many characters stand before it in its line. -/
  column : Nat
  /-- How many bytes those take. -/
  offset : Nat
deriving DecidableEq, Repr

/-- What is left of a text. -/
abbrev Input := List Glyph

/-- Whether a text may hold the character. -/
def isAllowed (c : Char) : Bool :=
  let n := c.toNat
  n == 0x9 || n == 0xA || n == 0xD || (0x20 ≤ n && n ≤ 0x7E) || n == 0x85 ||
    (0xA0 ≤ n && n ≤ 0xD7FF) || (0xE000 ≤ n && n ≤ 0xFFFD) || 0x10000 ≤ n

/-- The text with a line feed for every line break but the separators. -/
def unifyBreaks : List Char → List Char
  | [] => []
  | '\r' :: '\n' :: cs => '\n' :: unifyBreaks cs
  | c :: cs => (if c = '\r' ∨ c = '\x85' then '\n' else c) :: unifyBreaks cs

/-- Whether the character breaks a line. -/
def isBreak (c : Char) : Bool := c == '\n' || c == '\u2028' || c == '\u2029'

/-- Whether the character is a blank in a line. -/
def isBlank (c : Char) : Bool := c == ' ' || c == '\t'

/-- What stands at the end of a text. -/
def endChar : Char := '\x00'

/-- Whether the character ends a line. -/
def isLineEnd (c : Char) : Bool := isBreak c || c == endChar

/-- Whether the character ends a word. -/
def isWordEnd (c : Char) : Bool := isBlank c || isLineEnd c

/-- Whether names of anchors, handles and directives may hold the character. -/
def isNameChar (c : Char) : Bool := c.isAlphanum || c == '_' || c == '-'

/-- Whether the character is an indicator of collections in flow style. -/
def isFlowIndicator (c : Char) : Bool :=
  c == ',' || c == '[' || c == ']' || c == '\x7b' || c == '\x7d'

/-- The characters of a text from a place on. -/
def place (line column offset : Nat) : List Char → Input
  | [] => [⟨endChar, line, column, offset⟩]
  | c :: cs =>
    ⟨c, line, column, offset⟩ ::
      if isBreak c then place (line + 1) 0 0 cs
      else place line (column + 1) (offset + c.utf8Size) cs

namespace Input

/-- The characters of a text, unless there is one that it may not hold. -/
def ofText? (text : String) : Option Input :=
  if text.toList.all isAllowed then some (place 0 0 0 (unifyBreaks text.toList)) else none

/-- The input after a number of characters. -/
def after (i : Input) (n : Nat) : Input := i.drop n

/-- The character at an offset. -/
def charAt (i : Input) (k : Nat) : Char := ((i[k]?).map (·.char)).getD endChar

/-- The next character. -/
def head (i : Input) : Char := i.charAt 0

/-- The place of the next character in its line. -/
def column (i : Input) : Nat := ((i.head?).map (·.column)).getD 0

/-- The line of the next character. -/
def line (i : Input) : Nat := ((i.head?).map (·.line)).getD 0

/-- The bytes before the next character in its line. -/
def offset (i : Input) : Nat := ((i.head?).map (·.offset)).getD 0

/-- The characters at the start with the property, and what follows. -/
def spanChars (p : Char → Bool) (i : Input) : List Char × Input :=
  let (word, rest) := i.span fun g => p g.char
  (word.map (·.char), rest)

/-- The input without the characters at the start with the property. -/
def dropChars (p : Char → Bool) (i : Input) : Input := i.dropWhile fun g => p g.char

/-- Whether the characters stand here as a word of their own, at the start of a line. -/
def startsLine (i : Input) (word : List Char) : Bool :=
  i.column == 0 && (i.take word.length).map (·.char) == word && isWordEnd (i.charAt word.length)

/-- Whether a document starts or ends here. -/
def isDocumentMark (i : Input) : Bool :=
  i.startsLine ['-', '-', '-'] || i.startsLine ['.', '.', '.']

/-- The input without blanks and a comment. -/
def dropComment (i : Input) : Input :=
  let i := i.dropChars isBlank
  if i.head == '#' then i.dropChars (!isLineEnd ·) else i

/-- The input after the end of its line, if nothing but blanks and a comment is left of it. -/
def endLine? (i : Input) : Option Input :=
  match i.dropComment with
  | g :: rest =>
    if isBreak g.char then some rest else if g.char == endChar then some (g :: rest) else none
  | [] => some []

end Input

end Yaml
end OpenApiClient
