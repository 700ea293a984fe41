/-
# JSON text

A value is written in one line without blanks (`compact`), or with every item and entry on a line
of its own, indented by two spaces a level (`pretty`), in which empty arrays and objects stay on
one line.

In a string the quote, the backslash and the control characters are escaped, those with a short
form by it (`\n`) and the others by their code (`\u001f`); every other character stands for itself.
Floating point numbers are written with a point or an exponent, so that they read back as such.
A number that is not finite has no JSON text and is written `null`.
-/

import OpenApiClient.Decimal.Shortest
import OpenApiClient.Json.Value

namespace OpenApiClient

/-- A number as JSON text. -/
def Number.text : Number → String
  | .int n => toString n
  | .float x => if x.isFinite then x.scientific else "null"

namespace Json

/-- A character as it stands in a string literal. -/
def escapeChar (c : Char) : List Char :=
  if c = '"' then ['\\', '"']
  else if c = '\\' then ['\\', '\\']
  else if c = '\x08' then ['\\', 'b']
  else if c = '\x0c' then ['\\', 'f']
  else if c = '\n' then ['\\', 'n']
  else if c = '\r' then ['\\', 'r']
  else if c = '\t' then ['\\', 't']
  else if c.toNat < 0x20 then
    ['\\', 'u', '0', '0', Nat.digitChar (c.toNat / 16), Nat.digitChar (c.toNat % 16)]
  else [c]

/-- A string literal. -/
def literal (s : String) : String := .ofList ('"' :: s.toList.flatMap escapeChar ++ ['"'])

mutual

/-- The value in one line. -/
def compact : Json → String
  | .null => "null"
  | .bool b => if b then "true" else "false"
  | .number n => n.text
  | .string s => literal s
  | .array items => "[" ++ ",".intercalate (compactItems items) ++ "]"
  | .object entries => "\x7b" ++ ",".intercalate (compactEntries entries) ++ "\x7d"

/-- The items of an array, each in one line. -/
def compactItems : List Json → List String
  | [] => []
  | x :: xs => compact x :: compactItems xs

/-- The entries of an object, each in one line. -/
def compactEntries : List (String × Json) → List String
  | [] => []
  | e :: es => (literal e.1 ++ ":" ++ compact e.2) :: compactEntries es

end

/-- Parts on lines of their own between two brackets, the closing one indented by `indent`. -/
def block (opening closing indent : String) (parts : List String) : String :=
  if parts.isEmpty then opening ++ closing
  else
    opening ++ "\n" ++ ",\n".intercalate (parts.map fun p => indent ++ "  " ++ p) ++ "\n" ++
      indent ++ closing

mutual

/-- The value on several lines, the first one at the current place, the others indented. -/
def prettyAt (indent : String) : Json → String
  | .array items => block "[" "]" indent (prettyItems (indent ++ "  ") items)
  | .object entries => block "\x7b" "\x7d" indent (prettyEntries (indent ++ "  ") entries)
  | .null => "null"
  | .bool b => if b then "true" else "false"
  | .number n => n.text
  | .string s => literal s

/-- The items of an array on several lines. -/
def prettyItems (indent : String) : List Json → List String
  | [] => []
  | x :: xs => prettyAt indent x :: prettyItems indent xs

/-- The entries of an object on several lines. -/
def prettyEntries (indent : String) : List (String × Json) → List String
  | [] => []
  | e :: es => (literal e.1 ++ ": " ++ prettyAt indent e.2) :: prettyEntries indent es

end

/-- The value on several lines. -/
def pretty (j : Json) : String := prettyAt "" j

end Json

end OpenApiClient
