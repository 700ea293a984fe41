/-
# JSON values

Numbers are integers or binary floating point numbers, and keep which of the two they were written
as. The entries of an object keep their order; where a value is *sorted*, every object lists its
keys in increasing order, each once, and of entries that share a key the last one counts.

`same` is equality of values, which for floating point numbers is not equality of their forms: the
two zeros are the same.
-/

import OpenApiClient.Decimal.Double
import OpenApiClient.Entries

namespace OpenApiClient

/-- A number as data holds it. -/
inductive Number where
  | int (n : Int)
  | float (x : Decimal.Double)
deriving DecidableEq, Repr

/-- Whether two numbers have one kind and one value. -/
def Number.same : Number → Number → Bool
  | .int a, .int b => a == b
  | .float a, .float b => a.same b
  | _, _ => false

/-- A JSON value. -/
inductive Json where
  | null
  | bool (value : Bool)
  | number (value : Number)
  | string (value : String)
  | array (items : List Json)
  | object (entries : List (String × Json))
deriving Inhabited

namespace Json

mutual

/-- Whether two values are equal. -/
def same : Json → Json → Bool
  | .null, .null => true
  | .bool a, .bool b => a == b
  | .number a, .number b => a.same b
  | .string a, .string b => a == b
  | .array xs, .array ys => sameItems xs ys
  | .object xs, .object ys => sameEntries xs ys
  | _, _ => false

/-- Whether two lists hold equal values. -/
def sameItems : List Json → List Json → Bool
  | [], [] => true
  | x :: xs, y :: ys => same x y && sameItems xs ys
  | _, _ => false

/-- Whether two lists hold equal entries. -/
def sameEntries : List (String × Json) → List (String × Json) → Bool
  | [], [] => true
  | x :: xs, y :: ys => x.1 == y.1 && same x.2 y.2 && sameEntries xs ys
  | _, _ => false

end

/-- The map with a value written to a key, where keys are in increasing order. -/
def putSorted {α : Type} (k : String) (v : α) : Entries α → Entries α
  | [] => [(k, v)]
  | e :: es =>
    match compare k e.1 with
    | .lt => (k, v) :: e :: es
    | .eq => (k, v) :: es
    | .gt => e :: putSorted k v es

/-- The entries in increasing order of their keys; of those that share a key the last one counts. -/
def sortEntries {α : Type} (es : Entries α) : Entries α :=
  es.foldl (fun m e => putSorted e.1 e.2 m) []

mutual

/-- The value with all objects sorted. -/
def sorted : Json → Json
  | .array items => .array (sortedItems items)
  | .object entries => .object (sortEntries (sortedEntries entries))
  | x => x

/-- The values with all objects inside them sorted. -/
def sortedItems : List Json → List Json
  | [] => []
  | x :: xs => sorted x :: sortedItems xs

/-- The entries with all objects inside them sorted. -/
def sortedEntries : List (String × Json) → List (String × Json)
  | [] => []
  | e :: es => (e.1, sorted e.2) :: sortedEntries es

end

/-- The value at a key of an object. -/
def field? (j : Json) (key : String) : Option Json :=
  match j with
  | .object es => Entries.at? es key
  | _ => none

/-- The text of a string value. -/
def string? : Json → Option String
  | .string s => some s
  | _ => none

/-- The truth of a Boolean value. -/
def bool? : Json → Option Bool
  | .bool b => some b
  | _ => none

/-- The values of an array. -/
def items? : Json → Option (List Json)
  | .array xs => some xs
  | _ => none

/-- The entries of an object. -/
def entries? : Json → Option (Entries Json)
  | .object es => some es
  | _ => none

/-- A list of strings as an array. -/
def strings (xs : List String) : Json := .array (xs.map .string)

end Json

end OpenApiClient
