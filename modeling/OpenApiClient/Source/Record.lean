/-
# Reading structures

A structure is read from a mapping: keys that name no field are skipped, a field named twice is an
error. Where the source is loose about it, a structure may also be the sequence of its fields in
order: there may be no more items than fields, and only fields with a default may be left out at
the end.

`Tree.record?` finds the tree of every field; `required?`, `optional?` and `withDefault?` read it.
-/

import OpenApiClient.Source.Tree

namespace OpenApiClient

/-- A field of a structure: its name, and whether it has a default. -/
structure Field where
  name : String
  hasDefault : Bool := false
deriving DecidableEq, Repr

namespace Field

/-- A field that has a default. -/
def orDefault (name : String) : Field := ⟨name, true⟩

/-- The field that a key means, if it means one. -/
def ofKey? (fields : List Field) : FieldKey → Option String
  | .name s => (fields.find? (·.name == s)).map (·.name)
  | .position n => fields[n]?.map (·.name)

end Field

namespace Tree

variable {α : Type} [Leaf α]

/-- The key of a field. -/
def fieldKey? : Tree α → Option FieldKey
  | .leaf a => Leaf.fieldKey? a
  | _ => none

/-- The fields that a mapping gives, in order; each at most once. -/
def fieldsOfEntries? (fields : List Field) : List (Tree α × Tree α) → Option (Entries (Tree α))
  | [] => some []
  | e :: es =>
    match e.1.fieldKey?, fieldsOfEntries? fields es with
    | some key, some rest => match Field.ofKey? fields key with
      | some name => if Entries.has rest name then none else some ((name, e.2) :: rest)
      | none => some rest
    | _, _ => none

/-- The fields that a sequence gives. -/
def fieldsOfItems? : List Field → List (Tree α) → Option (Entries (Tree α))
  | [], [] => some []
  | [], _ :: _ => none
  | fields, [] => if fields.all (·.hasDefault) then some [] else none
  | f :: fields, t :: ts => (fieldsOfItems? fields ts).map ((f.name, t) :: ·)

/-- The fields that a tree gives. -/
def record? (fields : List Field) (t : Tree α) : Option (Entries (Tree α)) :=
  match t.plain with
  | .mapping entries => fieldsOfEntries? fields entries
  | .sequence items => if Leaf.isLoose α then fieldsOfItems? fields items else none
  | .leaf a => if Leaf.isVoid a then some [] else none
  | _ => none

end Tree

namespace Record

variable {α β : Type} [Leaf α]

/-- A field that must be there. -/
def required? (r : Entries (Tree α)) (name : String) (read : Tree α → Option β) : Option β :=
  (Entries.at? r name).bind read

/-- A field that may be missing or stand for an absent value. -/
def optional? (r : Entries (Tree α)) (name : String) (read : Tree α → Option β) :
    Option (Option β) :=
  match Entries.at? r name with
  | some t => t.optional? read
  | none => some none

/-- A field that may be missing. -/
def withDefault? (r : Entries (Tree α)) (name : String) (default : β) (read : Tree α → Option β) :
    Option β :=
  match Entries.at? r name with
  | some t => read t
  | none => some default

end Record

end OpenApiClient
