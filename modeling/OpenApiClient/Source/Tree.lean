/-
# Trees that texts are read into

A JSON or YAML text is read into a tree of sequences and mappings. Its leaves keep what the text
said, because what a leaf means can depend on what is asked for at its place: in YAML the plain
text `3.0` is a number by itself and a string where a string is expected. The class `Leaf` says
what can be asked.

Some parts of a text are well formed and yet hold no value: a number out of range, half of a
surrogate pair, collections nested too deep, a collection with a local tag. They can be skipped, but
not read. `Tree.unreadable` stands for the first three, and for parts that are skipped in any case;
a tagged collection can be read only where its kind is known beforehand, so it is kept under
`Tree.tagged`.

`typed?` turns a tree into a `Datum`, in which every leaf is read as the scalar that it is by
itself; it fails if any part of the tree cannot be read.
-/

import OpenApiClient.Json.Value

namespace OpenApiClient

/-- A value without parts. -/
inductive Scalar where
  | null
  | bool (value : Bool)
  | number (value : Number)
  /-- The integer zero with a minus sign, which counts nothing. -/
  | minusZero
  | string (value : String)
deriving DecidableEq, Repr

/-- A tree of sequences and mappings over leaves of type `α`. -/
inductive Tree (α : Type) where
  | leaf (value : α)
  | sequence (items : List (Tree α))
  | mapping (entries : List (Tree α × Tree α))
  | tagged (collection : Tree α)
  | unreadable

/-- The key of a field: its name, or its position among the fields of the structure. -/
inductive FieldKey where
  | name (s : String)
  | position (n : Nat)
deriving DecidableEq, Repr

/-- What can be asked of a leaf. `none` answers that it cannot be read so. -/
class Leaf (α : Type) where
  /-- The scalar that the leaf is by itself. -/
  scalar? : α → Option Scalar
  /-- The leaf as a string. -/
  text? : α → Option String
  /-- The leaf as a truth value. -/
  flag? : α → Option Bool
  /-- Whether the leaf stands for an absent value. -/
  absent? : α → Option Bool
  /-- Whether the leaf stands for a collection without elements. -/
  isVoid : α → Bool
  /-- The leaf as the name of a choice. -/
  choice? : α → Option String
  /-- The leaf as the key of a field. -/
  fieldKey? : α → Option FieldKey
  /-- Whether a structure may be given as the sequence of its fields, and a choice as a mapping
  from its name to nothing. -/
  isLoose : Bool

/-- Data of known types: a tree whose leaves are scalars. -/
abbrev Datum := Tree Scalar

/-- A scalar is read as what it is. -/
instance : Leaf Scalar where
  scalar? := some
  text? | .string s => some s | _ => none
  flag? | .bool b => some b | _ => none
  absent? | .null => some true | _ => some false
  isVoid _ := false
  choice? | .string s => some s | _ => none
  fieldKey?
    | .string s => some (.name s)
    | .number (.int n) => if 0 ≤ n then some (.position n.toNat) else none
    | _ => none
  isLoose := true

namespace Tree

variable {α : Type} [Leaf α]

mutual

/-- The tree with every leaf read as the scalar that it is by itself. -/
def typed? : Tree α → Option Datum
  | .leaf a => (Leaf.scalar? a).map .leaf
  | .sequence items => (typedItems? items).map .sequence
  | .mapping entries => (typedEntries? entries).map .mapping
  | .tagged _ => none
  | .unreadable => none

/-- The trees of a sequence with their leaves read. -/
def typedItems? : List (Tree α) → Option (List Datum)
  | [] => some []
  | t :: ts => match typed? t, typedItems? ts with
    | some d, some ds => some (d :: ds)
    | _, _ => none

/-- The entries of a mapping with their leaves read. -/
def typedEntries? : List (Tree α × Tree α) → Option (List (Datum × Datum))
  | [] => some []
  | e :: es => match typed? e.1, typed? e.2, typedEntries? es with
    | some k, some v, some rest => some ((k, v) :: rest)
    | _, _, _ => none

end

mutual

/-- The number of layers of the tree. -/
def depth {α : Type} : Tree α → Nat
  | .leaf _ => 1
  | .sequence items => depthOfItems items + 1
  | .mapping entries => depthOfEntries entries + 1
  | .tagged t => depth t + 1
  | .unreadable => 1

/-- The greatest number of layers among the trees. -/
def depthOfItems {α : Type} : List (Tree α) → Nat
  | [] => 0
  | t :: ts => max (depth t) (depthOfItems ts)

/-- The greatest number of layers among the values of the entries. -/
def depthOfEntries {α : Type} : List (Tree α × Tree α) → Nat
  | [] => 0
  | e :: es => max (depth e.2) (depthOfEntries es)

end

/-- The tree under the tag, if it has one. -/
def plain : Tree α → Tree α
  | .tagged t => t
  | t => t

/-- The tree as a string. -/
def text? : Tree α → Option String
  | .leaf a => Leaf.text? a
  | _ => none

/-- The tree as a truth value. -/
def flag? : Tree α → Option Bool
  | .leaf a => Leaf.flag? a
  | _ => none

/-- The tree as a value that may be absent, which `read` reads when it is not. -/
def optional? {β : Type} (read : Tree α → Option β) : Tree α → Option (Option β)
  | .leaf a => match Leaf.absent? a with
    | some true => some none
    | some false => (read (.leaf a)).map some
    | none => none
  | t => (read t).map some

/-- The items of a sequence. -/
def items? (t : Tree α) : Option (List (Tree α)) :=
  match t.plain with
  | .sequence items => some items
  | .leaf a => if Leaf.isVoid a then some [] else none
  | _ => none

/-- The entries of a mapping. -/
def entries? (t : Tree α) : Option (List (Tree α × Tree α)) :=
  match t.plain with
  | .mapping entries => some entries
  | .leaf a => if Leaf.isVoid a then some [] else none
  | _ => none

/-- The items of a sequence, each read by `read`. -/
def list? {β : Type} (read : Tree α → Option β) (t : Tree α) : Option (List β) :=
  t.items?.bind fun items => items.mapM read

/-- An entry of a mapping with its key as a string and its value read by `read`. -/
def readPair? {β : Type} (read : Tree α → Option β) (e : Tree α × Tree α) : Option (String × β) :=
  match text? e.1, read e.2 with
  | some k, some v => some (k, v)
  | _, _ => none

/-- The entries of a mapping from strings, each value read by `read`; of entries that share a key
the last one counts, at the place of the first. -/
def map? {β : Type} (read : Tree α → Option β) (t : Tree α) : Option (Entries β) :=
  t.entries?.bind fun entries => (entries.mapM (readPair? read)).map Entries.ofList

/-- The tree as one of the names; where the source is loose about it, also a mapping from the name
or from its position to nothing. -/
def choice? (names : List String) : Tree α → Option String
  | .leaf a => (Leaf.choice? a).filter (· ∈ names)
  | .mapping [(.leaf k, .leaf v)] =>
    if Leaf.isLoose α && Leaf.absent? v == some true then
      match Leaf.fieldKey? k with
      | some (.name s) => if s ∈ names then some s else none
      | some (.position n) => names[n]?
      | none => none
    else none
  | _ => none

end Tree

/-- A scalar as a JSON value; a number that is not finite becomes `null`. -/
def Scalar.toJson : Scalar → Json
  | .null => .null
  | .bool b => .bool b
  | .number (.float x) => if x.isFinite then .number (.float x) else .null
  | .number n => .number n
  | .minusZero => .number (.int 0)
  | .string s => .string s

namespace Tree

variable {α : Type} [Leaf α]

mutual

/-- The tree as a sorted JSON value. -/
def json? : Tree α → Option Json
  | .leaf a => (Leaf.scalar? a).map Scalar.toJson
  | .sequence items => (jsonItems? items).map .array
  | .mapping entries => (jsonEntries? entries).map fun es => .object (Json.sortEntries es)
  | .tagged _ => none
  | .unreadable => none

/-- The items of a sequence as JSON values. -/
def jsonItems? : List (Tree α) → Option (List Json)
  | [] => some []
  | t :: ts => match json? t, jsonItems? ts with
    | some j, some js => some (j :: js)
    | _, _ => none

/-- The entries of a mapping as JSON values with their keys. -/
def jsonEntries? : List (Tree α × Tree α) → Option (Entries Json)
  | [] => some []
  | e :: es => match e.1.text?, json? e.2, jsonEntries? es with
    | some k, some v, some rest => some ((k, v) :: rest)
    | _, _, _ => none

end

end Tree

namespace Json

mutual

/-- A JSON value as data. -/
def toDatum : Json → Datum
  | .null => .leaf .null
  | .bool b => .leaf (.bool b)
  | .number n => .leaf (.number n)
  | .string s => .leaf (.string s)
  | .array items => .sequence (itemsToData items)
  | .object entries => .mapping (entriesToData entries)

/-- The items of an array as data. -/
def itemsToData : List Json → List Datum
  | [] => []
  | x :: xs => toDatum x :: itemsToData xs

/-- The entries of an object as data. -/
def entriesToData : List (String × Json) → List (Datum × Datum)
  | [] => []
  | e :: es => (.leaf (.string e.1), toDatum e.2) :: entriesToData es

end

end Json

end OpenApiClient
