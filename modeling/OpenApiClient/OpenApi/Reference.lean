/-
# References

A reference points at an entry of a section of the components: `#/components/schemas/Account`. In
the name a slash is written `~1` and a tilde `~0`. A reference may lead to another one; following
the chain ends at a value, at a name that is missing, at a pointer that does not fit its place, or
never.

Chains of schemas visit each name at most once before they repeat, so as many steps as there are
schemas, and one more, tell whether they end. Chains of other components are watched for a pointer
that comes again.
-/

import OpenApiClient.OpenApi.Document
import OpenApiClient.Text.Split

namespace OpenApiClient
namespace OpenApi

/-- A section of the components. -/
inductive Section where
  | schemas
  | parameters
  | requestBodies
  | responses
deriving DecidableEq, Repr

/-- The name of a section. -/
def Section.name : Section → String
  | .schemas => "schemas"
  | .parameters => "parameters"
  | .requestBodies => "requestBodies"
  | .responses => "responses"

/-- Why a reference leads nowhere. -/
inductive ReferenceError where
  /-- The chain of references never ends. -/
  | circular (start : String)
  /-- The pointer points at no component. -/
  | malformed (pointer : String)
  /-- The pointer points into another section than its place asks for. -/
  | wrongSection (expected : Section) (found pointer : String)
  /-- There is no such component. -/
  | missing (target : String)
deriving DecidableEq, Repr

/-- The text of an error. -/
def ReferenceError.message : ReferenceError → String
  | .circular start => "circular reference detected: " ++ start
  | .malformed pointer => "invalid reference format: " ++ pointer
  | .wrongSection expected found pointer =>
    "invalid reference format: expected section '" ++ expected.name ++ "', got '" ++ found ++
      "' in " ++ pointer
  | .missing target => "reference target not found: " ++ target

/-- A name as it stands in a pointer. -/
def escapeName (name : String) : String :=
  Text.replaceCharIn '/' "~1" (Text.replaceCharIn '~' "~0" name)

/-- The name that stands in a pointer. -/
def unescapeName (token : String) : String :=
  Text.replacePairIn '~' '0' "~" (Text.replacePairIn '~' '1' "/" token)

/-- What every pointer at a component starts with. -/
def pointerStart : String := "#/components/"

/-- The pointer at a component. -/
def pointerTo (s : Section) (name : String) : String :=
  pointerStart ++ s.name ++ "/" ++ escapeName name

/-- The name of the component of a section that a pointer points at. -/
def targetName (s : Section) (pointer : String) : Except ReferenceError String :=
  match (Text.dropStart? pointerStart pointer).bind (Text.cutFirst? '/') with
  | none => .error (.malformed pointer)
  | some (found, token) =>
    if found = s.name then .ok (unescapeName token)
    else .error (.wrongSection s found pointer)

/-- The name of the schema that a pointer points at. -/
def componentName (pointer : String) : Except ReferenceError String :=
  targetName .schemas pointer

namespace Components

/-- The schema that a name leads to in as many steps as there is fuel. -/
def follow (c : Components) (start : String) : (fuel : Nat) → (name : String) →
    Except ReferenceError SchemaObject
  | 0, _ => .error (.circular start)
  | fuel + 1, name => match c.schemas.at? name with
    | none => .error (.missing name)
    | some (.inline s) => .ok s
    | some (.ref pointer) => match componentName pointer with
      | .ok next => follow c start fuel next
      | .error e => .error e

/-- The schema that a name leads to. -/
def schema (c : Components) (name : String) : Except ReferenceError SchemaObject :=
  c.follow name (c.schemas.length + 1) name

/-- The object that a schema is or leads to. -/
def resolve (c : Components) : Schema → Except ReferenceError SchemaObject
  | .inline s => .ok s
  | .ref pointer => (componentName pointer).bind c.schema

/-- Whether there is a schema of the name. -/
def hasSchema (c : Components) (name : String) : Bool := c.schemas.has name

end Components

/-- Values that are kept in a section of the components. -/
class Kept (α : Type) where
  /-- The section that they are kept in. -/
  place : Section
  /-- The entries of that section. -/
  entries : Components → Entries (Referable α)

instance : Kept Parameter := ⟨.parameters, Components.parameters⟩

instance : Kept RequestBody := ⟨.requestBodies, Components.requestBodies⟩

instance : Kept Response := ⟨.responses, Components.responses⟩

namespace Components

variable {α : Type} [Kept α]

/-- The value that a reference leads to in as many steps as there is fuel, if no pointer comes
again; `seen` are the pointers so far. -/
def followItem (c : Components) : (fuel : Nat) → (seen : List String) → Referable α →
    Except ReferenceError α
  | _, _, .item x => .ok x
  | 0, _, .ref pointer => .error (.circular pointer)
  | fuel + 1, seen, .ref pointer =>
    if pointer ∈ seen then .error (.circular pointer)
    else match targetName (Kept.place α) pointer with
      | .error e => .error e
      | .ok name => match (Kept.entries c).at? name with
        | none => .error (.missing pointer)
        | some next => followItem c fuel (pointer :: seen) next

/-- The value that is written in place or that a reference leads to. The pointers of a chain are
the first one and those of the section, so a chain that is longer repeats one of them. -/
def resolveItem (c : Components) (item : Referable α) : Except ReferenceError α :=
  c.followItem ((Kept.entries (α := α) c).length + 2) [] item

end Components

end OpenApi
end OpenApiClient
