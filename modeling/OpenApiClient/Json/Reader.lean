/-
# Reading JSON text

`read? limit text` reads one value with blanks around it. The tree keeps the order and the
repetitions of keys. Unreadable, though well formed, are strings with half of a surrogate pair,
numerals without a value, and collections at a depth of `limit` or more.
-/

import OpenApiClient.Json.Number
import OpenApiClient.Source.Tree

namespace OpenApiClient
namespace Json
namespace Reader

/-- Whether the character is a blank of JSON text. -/
def isSpace (c : Char) : Bool := c == ' ' || c == '\n' || c == '\t' || c == '\r'

/-- The text without leading blanks. -/
def skipSpaces (cs : List Char) : List Char := cs.dropWhile isSpace

/-- What a string literal is made of. -/
inductive Piece where
  | char (c : Char)
  /-- The first half of a surrogate pair. -/
  | high (n : Nat)
  /-- The second half of a surrogate pair. -/
  | low (n : Nat)
deriving DecidableEq, Repr

/-- The value of a digit of base sixteen. -/
def hexValue? (c : Char) : Option Nat :=
  if c.isDigit then some (c.toNat - '0'.toNat)
  else if 'a' ≤ c ∧ c ≤ 'f' then some (c.toNat - 'a'.toNat + 10)
  else if 'A' ≤ c ∧ c ≤ 'F' then some (c.toNat - 'A'.toNat + 10)
  else none

/-- The value of digits of base sixteen. -/
def hexNumber? (cs : List Char) : Option Nat :=
  cs.foldlM (fun m c => (hexValue? c).map (m * 16 + ·)) 0

/-- The piece with the code of 16 bits. -/
def Piece.ofCode (n : Nat) : Piece :=
  if 0xD800 ≤ n ∧ n < 0xDC00 then .high n
  else if 0xDC00 ≤ n ∧ n < 0xE000 then .low n
  else .char (.ofNat n)

/-- The character of an escape by one letter. -/
def shortEscape? : Char → Option Char
  | '"' => some '"'
  | '\\' => some '\\'
  | '/' => some '/'
  | 'b' => some '\x08'
  | 'f' => some '\x0c'
  | 'n' => some '\n'
  | 'r' => some '\r'
  | 't' => some '\t'
  | _ => none

/-- The pieces of a string literal after its opening quote, and what follows the closing one. -/
def pieces? : List Char → Option (List Piece × List Char)
  | [] => none
  | '"' :: r => some ([], r)
  | '\\' :: 'u' :: a :: b :: c :: d :: r => do
    let n ← hexNumber? [a, b, c, d]
    let (ps, rest) ← pieces? r
    return (.ofCode n :: ps, rest)
  | '\\' :: e :: r => do
    let c ← shortEscape? e
    let (ps, rest) ← pieces? r
    return (.char c :: ps, rest)
  | c :: r =>
    if c.toNat < 0x20 then none
    else do
      let (ps, rest) ← pieces? r
      return (.char c :: ps, rest)

/-- The characters of a string literal; halves of surrogate pairs must come together. -/
def joinPieces? : List Piece → Option (List Char)
  | [] => some []
  | .char c :: ps => (joinPieces? ps).map (c :: ·)
  | .high h :: .low l :: ps =>
    (joinPieces? ps).map (.ofNat (0x10000 + (h - 0xD800) * 0x400 + (l - 0xDC00)) :: ·)
  | _ => none

/-- A string literal after its opening quote as a leaf, and what follows it. -/
def stringLeaf? (cs : List Char) : Option (Datum × List Char) :=
  (pieces? cs).map fun (ps, rest) => match joinPieces? ps with
    | some s => (.leaf (.string (.ofList s)), rest)
    | none => (.unreadable, rest)

/-- A number as a leaf, and what follows it. -/
def numberLeaf? (cs : List Char) : Option (Datum × List Char) :=
  (Numeral.read? cs).map fun (n, rest) => match n.value? with
    | some x => (.leaf (.number x), rest)
    | none => (.unreadable, rest)

/-- A value without parts at the start of a text, and what follows it. -/
def leaf? : List Char → Option (Datum × List Char)
  | '"' :: r => stringLeaf? r
  | 'n' :: 'u' :: 'l' :: 'l' :: r => some (.leaf .null, r)
  | 't' :: 'r' :: 'u' :: 'e' :: r => some (.leaf (.bool true), r)
  | 'f' :: 'a' :: 'l' :: 's' :: 'e' :: r => some (.leaf (.bool false), r)
  | cs => numberLeaf? cs

/-- A collection, unreadable beyond the limit of depth. -/
def within (limit depth : Nat) (t : Datum) : Datum := if depth < limit then t else .unreadable

mutual

/-- A value inside `depth` collections, and what follows it. The fuel bounds the count of values
and separators. -/
def value? (limit : Nat) : (fuel depth : Nat) → List Char → Option (Datum × List Char)
  | 0, _, _ => none
  | fuel + 1, depth, cs =>
    match skipSpaces cs with
    | '[' :: r => match skipSpaces r with
      | ']' :: rest => some (within limit (depth + 1) (.sequence []), rest)
      | r => (items? limit fuel (depth + 1) r).map fun (ts, rest) =>
          (within limit (depth + 1) (.sequence ts), rest)
    | '\x7b' :: r => match skipSpaces r with
      | '\x7d' :: rest => some (within limit (depth + 1) (.mapping []), rest)
      | r => (entries? limit fuel (depth + 1) r).map fun (es, rest) =>
          (within limit (depth + 1) (.mapping es), rest)
    | r => leaf? r

/-- The items of an array up to its closing bracket, at least one, and what follows it. -/
def items? (limit : Nat) : (fuel depth : Nat) → List Char → Option (List Datum × List Char)
  | 0, _, _ => none
  | fuel + 1, depth, cs => do
    let (t, r) ← value? limit fuel depth cs
    match skipSpaces r with
    | ']' :: rest => return ([t], rest)
    | ',' :: r => do
      let (ts, rest) ← items? limit fuel depth r
      return (t :: ts, rest)
    | _ => none

/-- The entries of an object up to its closing brace, at least one, and what follows it. -/
def entries? (limit : Nat) : (fuel depth : Nat) → List Char →
    Option (List (Datum × Datum) × List Char)
  | 0, _, _ => none
  | fuel + 1, depth, cs => do
    match skipSpaces cs with
    | '"' :: r => do
      let (k, r) ← stringLeaf? r
      match skipSpaces r with
      | ':' :: r => do
        let (v, r) ← value? limit fuel depth r
        match skipSpaces r with
        | '\x7d' :: rest => return ([(k, v)], rest)
        | ',' :: r => do
          let (es, rest) ← entries? limit fuel depth r
          return ((k, v) :: es, rest)
        | _ => none
      | _ => none
    | _ => none

end

end Reader

/-- The value that a text holds. -/
def read? (limit : Nat) (text : String) : Option Datum :=
  let cs := text.toList
  match Reader.value? limit (2 * cs.length + 1) 0 cs with
  | some (t, rest) => if (Reader.skipSpaces rest).isEmpty then some t else none
  | none => none

/-- The greatest depth of collections that documents are read to, exclusive. -/
def depthLimit : Nat := 128

/-- The value that the text of a document holds. -/
def readDocument? (text : String) : Option Datum := read? depthLimit text

end Json
end OpenApiClient
