/-
# Empty values

The empty value of a component is built from its type: the empty string, zero, `false`, an empty
array, an object with the empty values of those properties that must be there and be something. A
component has none, which is written as `undefined`, if a type of the client stands for it, if it is
a choice, or if its value would have to hold itself.
-/

import OpenApiClient.Client.Settings
import OpenApiClient.OpenApi.Reference
import OpenApiClient.TypeScript.Declaration

namespace OpenApiClient
namespace Client

open OpenApi TypeScript

/-- A computation on the way through components; the state are the components that it is in. -/
abbrev Visiting := ExceptT ReferenceError (StateM (List String))

/-- A computation after which a component is left, whether it fails or not. -/
def leaving {α : Type} (component : String) (m : Visiting α) : Visiting α :=
  ExceptT.mk do
    let result ← m.run
    modify (·.erase component)
    return result

/-- What a schema gives to empty values. -/
structure Emptiness where
  /-- The empty value of the schema. -/
  value : Visiting Expr
  /-- The entries of an object that inherits from the schema, added to others. -/
  extend : List ObjectEntry → Visiting (List ObjectEntry)

namespace Emptiness

/-- A schema inside an object, with what it gives. -/
abbrev Nested := Schema × Emptiness

/-- Whether there is an entry for a key. -/
def hasEntry (es : List ObjectEntry) (key : String) : Bool :=
  es.any fun
    | .shorthand k => k == key
    | .entry k _ => k == key

/-- The entries with one for a required property, unless there is one or the property may be
nothing. -/
def addRequired (s : SchemaOf Nested) (es : List ObjectEntry) (name : String) :
    Visiting (List ObjectEntry) :=
  match Entries.at? s.properties name with
  | none => return es
  | some p =>
    if hasEntry es name || p.1.isNullable then return es
    else do return es ++ [.entry name (← p.2.value)]

/-- The entries with those of what an object inherits, and of its required properties. -/
def addEntries (s : SchemaOf Nested) (es : List ObjectEntry) : Visiting (List ObjectEntry) := do
  let es ← s.allOf.foldlM (fun es p => p.2.extend es) es
  s.required.foldlM (addRequired s) es

variable (component : String → Visiting Expr)

/-- The empty value of the component that a pointer points at, where `component` gives those of
components. -/
def pointee (pointer : String) : Visiting Expr := do component (← componentName pointer)

/-- The empty value of an object. -/
def valueOf (s : SchemaOf Nested) : Visiting Expr := do
  if s.typeVariable.isSome || !s.enumeration.isEmpty then return .undefined
  match s.wrapped? fun p => p.1.pointer? with
  | some pointer => if s.isNullable then return .undefined else pointee component pointer
  | none =>
    let o : SchemaObject := s.map Prod.fst
    if Schema.isUnion o then return .undefined
    match s.singleType? with
    | some .string => return .string ""
    | some .number => return .number (.ofNat 0)
    | some .integer => return .number (.ofNat 0)
    | some .boolean => return .bool false
    | some .array => return .array []
    | some .null => return .undefined
    | _ =>
      if !Schema.isObjectLike o && s.additionalProperties.isNone then return .undefined
      else return .object (← addEntries s [])

/-- What a reference gives. -/
def ofPointer (pointer : String) : Emptiness where
  value := pointee component pointer
  extend es := do
    match ← pointee component pointer with
    | .object more => return es ++ more
    | _ => return es

/-- What an object gives. -/
def ofObject (s : SchemaOf Nested) : Emptiness := ⟨valueOf component s, addEntries s⟩

/-- What a schema gives. -/
def ofSchema : Schema → Emptiness := Schema.para (ofPointer component) (ofObject component)

end Emptiness

/-- The empty value of a component. As no component is entered twice at a time, the fuel bounds the
components. -/
def emptyValue (c : Components) (transfers : Entries TransferTarget) :
    (fuel : Nat) → (component : String) → Visiting Expr
  | 0, _ => return .undefined
  | fuel + 1, component => do
    if transfers.has component || (← get).contains component then return .undefined
    modify (component :: ·)
    let s ← c.schema component
    leaving component (Emptiness.ofSchema (emptyValue c transfers fuel) (.inline s)).value

/-- The empty value of a component, entered from outside. -/
def emptyValueOf (c : Components) (transfers : Entries TransferTarget) (component : String) :
    Except ReferenceError Expr :=
  ((emptyValue c transfers (c.schemas.length + 1) component).run.run []).1

end Client
end OpenApiClient
