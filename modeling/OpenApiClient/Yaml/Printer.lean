/-
# YAML text

A value is written in block style: an entry of a mapping or an item of a sequence on lines of its
own, those inside another indented by two spaces, except that the items of a sequence stand under
the key that they belong to. Empty collections are written in brackets.

A string is written as it is where that reads back as the same string: it must not look like
another scalar, nor like a part of the notation. Other strings stand in single quotes, those of
several lines as a literal block, and those with characters or spaces that neither can hold in
double quotes, with escapes.
-/

import OpenApiClient.Json.Printer
import OpenApiClient.Yaml.Atom
import OpenApiClient.Yaml.Input

namespace OpenApiClient
namespace Yaml

/-- How a string is written. -/
inductive Form where
  | plain
  | singleQuoted
  | doubleQuoted
  | literal
deriving DecidableEq, Repr

/-- Whether a text in one line would be taken for something else than a string. -/
def isMistakable (s : String) : Bool :=
  hasNeedlessZero (unsigned s.toList) ||
    match plainScalar? s with
    | some (.string _) => false
    | _ => true

/-- Whether a character can stand for itself. -/
def isPrintable (c : Char) : Bool :=
  isAllowed c && c != '\t' && c != '\r' && c != '\x85' && c != '\ufeff'

/-- Whether there are two neighbours of which the first has one property and the second another. -/
def haveNeighbours (p q : Char → Bool) (cs : List Char) : Bool :=
  (cs.zip cs.tail).any fun (a, b) => p a && q b

/-- Whether what follows ends a word. -/
def endsWord : List Char → Bool
  | [] => true
  | c :: _ => isWordEnd c

/-- Whether a text starts with a part of the notation. -/
def startsAsNotation : List Char → Bool
  | [] => false
  | c :: cs =>
    "#,[]\x7b\x7d&*!|>'\"%@`".toList.contains c || (['?', ':', '-'].contains c && endsWord cs) ||
      List.isPrefixOf ['-', '-', '-'] (c :: cs) || List.isPrefixOf ['.', '.', '.'] (c :: cs)

/-- Whether a colon ends a word in a text. -/
def holdsKeyMark : List Char → Bool
  | [] => false
  | c :: cs => (c == ':' && endsWord cs) || holdsKeyMark cs

/-- Whether a text can be written as it is, if it is not mistaken for another scalar. -/
def isPlain (cs : List Char) : Bool :=
  !(startsAsNotation cs || holdsKeyMark cs || haveNeighbours isWordEnd (· == '#') cs ||
    cs.any isBreak || cs.head? == some ' ' || cs.getLast? == some ' ')

/-- The form that a string is written in. -/
def formOf (s : String) : Form :=
  let cs := s.toList
  if !cs.all isPrintable || haveNeighbours (· == ' ') isBreak cs then .doubleQuoted
  else if cs.contains '\n' then if cs.getLast? == some ' ' then .doubleQuoted else .literal
  else if !isMistakable s && isPlain cs then .plain
  else if haveNeighbours isBreak (· == ' ') cs then .doubleQuoted
  else .singleQuoted

/-- Spaces. -/
def spaces (n : Nat) : List Char := List.replicate n ' '

/-- Text on several lines, in which the characters after a break are indented. -/
def indentLines (indent : Nat) (afterBreak : Bool) : List Char → List Char
  | [] => []
  | c :: cs =>
    if isBreak c then c :: indentLines indent true cs
    else (if afterBreak then spaces indent else []) ++ c :: indentLines indent false cs

/-- A character in single quotes. -/
def quoteChar (c : Char) : List Char := if c = '\'' then ['\'', '\''] else [c]

/-- The digits of a code in base sixteen. -/
def codeDigits (width n : Nat) : List Char :=
  ((List.range width).map fun k =>
    (Nat.digitChar (n / Decimal.twoPow (4 * k) % 16)).toUpper).reverse

/-- A character in double quotes. -/
def escapeChar (c : Char) : List Char :=
  let short : List (Char × Char) := [('\x00', '0'), ('\x07', 'a'), ('\x08', 'b'), ('\t', 't'),
    ('\n', 'n'), ('\x0b', 'v'), ('\x0c', 'f'), ('\r', 'r'), ('\x1b', 'e'), ('"', '"'),
    ('\\', '\\'), ('\x85', 'N'), ('\u2028', 'L'), ('\u2029', 'P')]
  match short.lookup c with
  | some d => ['\\', d]
  | none =>
    let n := c.toNat
    if isPrintable c then [c]
    else if n ≤ 0xFF then '\\' :: 'x' :: codeDigits 2 n
    else if n ≤ 0xFFFF then '\\' :: 'u' :: codeDigits 4 n
    else '\\' :: 'U' :: codeDigits 8 n

/-- What the head of a literal block says about the text: that its first line is indented by two
spaces, where the text does not show it, and what is to be done with the breaks at its end. -/
def blockHints (cs : List Char) : List Char :=
  (match cs with
    | c :: _ => if c = ' ' ∨ isBreak c then ['2'] else []
    | [] => []) ++
  match cs.reverse with
  | a :: b :: _ => if !isBreak a then ['-'] else if isBreak b then ['+'] else []
  | [a] => if isBreak a then ['+'] else ['-']
  | [] => ['-']

/-- A string, whose further lines are indented. -/
def stringText (indent : Nat) (s : String) : String :=
  let cs := s.toList
  match formOf s with
  | .plain => s
  | .singleQuoted => .ofList ('\'' :: indentLines indent false (cs.flatMap quoteChar ++ ['\'']))
  | .doubleQuoted => .ofList ('"' :: cs.flatMap escapeChar ++ ['"'])
  | .literal => .ofList ('|' :: blockHints cs ++ '\n' :: indentLines indent true cs)

/-- What ends the last line of a string. A block ends it by itself if its text does. -/
def stringEnd (s : String) : String :=
  if formOf s == .literal && s.toList.getLast?.any isBreak then "" else "\n"

/-- Parts on lines of their own, the first one at the current place, the others indented. -/
def stacked (indent : Nat) (parts : List String) : String :=
  (String.ofList (spaces indent)).intercalate parts

/-- How far the value of a key is indented. -/
def inner (indent : Nat) : Json → Nat
  | .array _ => indent
  | _ => indent + 2

/-- What stands between a key and its value. -/
def gap (indent : Nat) : Json → String
  | .array (_ :: _) => "\n" ++ String.ofList (spaces indent)
  | .object (_ :: _) => "\n" ++ String.ofList (spaces (indent + 2))
  | _ => " "

mutual

/-- A value from the current place to the end of its last line, its further lines indented. -/
def nodeText (indent : Nat) : Json → String
  | .array items => if items.isEmpty then "[]\n" else stacked indent (itemTexts indent items)
  | .object entries =>
    if entries.isEmpty then "\x7b\x7d\n" else stacked indent (entryTexts indent entries)
  | .null => "null\n"
  | .bool b => if b then "true\n" else "false\n"
  | .number n => n.text ++ "\n"
  | .string s => stringText indent s ++ stringEnd s

/-- The items of a sequence. -/
def itemTexts (indent : Nat) : List Json → List String
  | [] => []
  | x :: xs => ("- " ++ nodeText (indent + 2) x) :: itemTexts indent xs

/-- The entries of a mapping. -/
def entryTexts (indent : Nat) : List (String × Json) → List String
  | [] => []
  | e :: es =>
    (stringText indent e.1 ++ ":" ++ gap indent e.2 ++ nodeText (inner indent e.2) e.2) ::
      entryTexts indent es

end

/-- A document of one value. -/
def text (j : Json) : String := nodeText 0 j

end Yaml
end OpenApiClient
