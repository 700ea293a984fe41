/-
# Schemas

A schema is a reference or an object written in place. `SchemaOf α` is the object whose nested
schemas are `α`s, so that what is said about one layer is said without recursion; `Schema.fold`
carries it through all layers. The main equation is `fold_inline`: a fold reads an object by
reading the schemas inside it.

The keywords are those of OpenAPI 3.0 and 3.1 that the types of a client depend on, together with
the extensions for backend classes and their type parameters.
-/

import OpenApiClient.Json.Value

namespace OpenApiClient
namespace OpenApi

/-- A value of the keyword `type`. -/
inductive SchemaType where
  | string
  | number
  | integer
  | boolean
  | array
  | object
  | null
deriving DecidableEq, Repr

/-- What the keyword `type` says: one type, or a list of types. -/
inductive TypeSet where
  | single (type : SchemaType)
  | multiple (types : List SchemaType)
deriving DecidableEq, Repr

/-- The property that tells the cases of a polymorphic schema apart. -/
structure Discriminator where
  propertyName : String
  mapping : Entries String := []
deriving DecidableEq, Repr

/-- What the keyword `additionalProperties` says. -/
inductive Additional (α : Type) where
  | allowed (value : Bool)
  | schema (value : α)
deriving DecidableEq, Repr

/-- A schema object whose nested schemas are `α`s. -/
structure SchemaOf (α : Type) where
  type : Option TypeSet := none
  format : Option String := none
  title : Option String := none
  description : Option String := none
  nullable : Option Bool := none
  properties : List (String × α) := []
  required : List String := []
  additionalProperties : Option (Additional α) := none
  items : Option α := none
  allOf : List α := []
  oneOf : List α := []
  anyOf : List α := []
  discriminator : Option Discriminator := none
  enumeration : List Json := []
  readOnly : Option Bool := none
  deprecated : Option Bool := none
  /-- The backend class of a schema written in place. -/
  className : Option String := none
  /-- The names of the type parameters that a component declares. -/
  typeParameters : List String := []
  /-- The type parameter that the schema stands for. -/
  typeVariable : Option String := none
  /-- The types that a component is applied to, one for each of its type parameters. -/
  typeArguments : Option (List α) := none

/-- A schema: a reference to one, or an object written in place. -/
inductive Schema where
  | ref (pointer : String)
  | inline (object : SchemaOf Schema)

/-- A schema written in place. -/
abbrev SchemaObject := SchemaOf Schema

instance : Inhabited Schema := ⟨.inline {}⟩

/-- What the keyword says, with nested schemas replaced. -/
def Additional.map {α β : Type} (f : α → β) : Additional α → Additional β
  | .allowed b => .allowed b
  | .schema s => .schema (f s)

/-- The schema that the keyword gives. -/
def Additional.schema? {α : Type} : Additional α → Option α
  | .allowed _ => none
  | .schema s => some s

namespace SchemaOf

variable {α β : Type}

/-- The object with its nested schemas replaced. -/
def map (f : α → β) (s : SchemaOf α) : SchemaOf β where
  type := s.type
  format := s.format
  title := s.title
  description := s.description
  nullable := s.nullable
  properties := List.map (fun e => (e.1, f e.2)) s.properties
  required := s.required
  additionalProperties := s.additionalProperties.map (·.map f)
  items := s.items.map f
  allOf := s.allOf.map f
  oneOf := s.oneOf.map f
  anyOf := s.anyOf.map f
  discriminator := s.discriminator
  enumeration := s.enumeration
  readOnly := s.readOnly
  deprecated := s.deprecated
  className := s.className
  typeParameters := s.typeParameters
  typeVariable := s.typeVariable
  typeArguments := s.typeArguments.map (·.map f)

/-- The nested schemas, in the order in which they are looked at. -/
def children (s : SchemaOf α) : List α :=
  Entries.values s.properties ++ s.items.toList ++ s.allOf ++ s.oneOf ++ s.anyOf ++
    (s.additionalProperties.bind Additional.schema?).toList ++ s.typeArguments.getD []

/-- Whether the schema admits `null`. -/
def isNullable (s : SchemaOf α) : Bool :=
  s.nullable == some true || match s.type with
    | some (.multiple ts) => ts.contains .null
    | _ => false

/-- The only type other than `null`, if there is just one. -/
def singleType? (s : SchemaOf α) : Option SchemaType :=
  match s.type with
  | some (.single t) => some t
  | some (.multiple ts) => match ts.filter (· != .null) with
    | [t] => some t
    | _ => none
  | none => none

/-- The only member of the only composition, in an object without properties. -/
def onlyMember? (s : SchemaOf α) : Option α :=
  if s.properties.isEmpty then
    match [s.allOf, s.anyOf, s.oneOf].filter (!·.isEmpty) with
    | [[member]] => some member
    | _ => none
  else none

/-- The pointer of a reference in a wrapper that attaches more to it, such as being nullable or the
types that it is applied to. -/
def wrapped? (pointer? : α → Option String) (s : SchemaOf α) : Option String :=
  s.onlyMember?.bind pointer?

end SchemaOf

namespace Schema

/-- The pointer of a reference. -/
def pointer? : Schema → Option String
  | .ref p => some p
  | .inline _ => none

/-- The object of a schema written in place. -/
def object? : Schema → Option SchemaObject
  | .ref _ => none
  | .inline s => some s

/-- Whether an object is a polymorphic base: a choice between schemas, without properties of its
own. -/
def isUnion (s : SchemaObject) : Bool :=
  (!s.oneOf.isEmpty || !s.anyOf.isEmpty) && s.properties.isEmpty && (s.wrapped? pointer?).isNone

/-- Whether an object has properties, its own or inherited, or may have some. -/
def isObjectLike (s : SchemaObject) : Bool :=
  !s.properties.isEmpty || !s.allOf.isEmpty ||
    (s.singleType? == some .object && s.additionalProperties.isNone)

section Fold

variable {β : Type} (onRef : String → β) (onObject : SchemaOf β → β)

mutual

/-- A value computed from the leaves of a schema upwards: references by `onRef`, objects by
`onObject` from the values of the schemas inside them. -/
def fold : Schema → β
  | .ref p => onRef p
  | .inline s => onObject {
      type := s.type
      format := s.format
      title := s.title
      description := s.description
      nullable := s.nullable
      properties := foldEntries s.properties
      required := s.required
      additionalProperties := foldAdditional s.additionalProperties
      items := foldOption s.items
      allOf := foldList s.allOf
      oneOf := foldList s.oneOf
      anyOf := foldList s.anyOf
      discriminator := s.discriminator
      enumeration := s.enumeration
      readOnly := s.readOnly
      deprecated := s.deprecated
      className := s.className
      typeParameters := s.typeParameters
      typeVariable := s.typeVariable
      typeArguments := foldArguments s.typeArguments }

/-- The values of schemas. -/
def foldList : List Schema → List β
  | [] => []
  | s :: ss => fold s :: foldList ss

/-- The values of the schemas of a map. -/
def foldEntries : List (String × Schema) → List (String × β)
  | [] => []
  | e :: es => (e.1, fold e.2) :: foldEntries es

/-- The value of a schema that may be missing. -/
def foldOption : Option Schema → Option β
  | none => none
  | some s => some (fold s)

/-- The value of the schema that `additionalProperties` may give. -/
def foldAdditional : Option (Additional Schema) → Option (Additional β)
  | none => none
  | some (.allowed b) => some (.allowed b)
  | some (.schema s) => some (.schema (fold s))

/-- The values of type arguments. -/
def foldArguments : Option (List Schema) → Option (List β)
  | none => none
  | some ss => some (foldList ss)

end

theorem foldList_eq (ss : List Schema) :
    foldList onRef onObject ss = ss.map (fold onRef onObject) := by
  induction ss with
  | nil => rfl
  | cons s ss ih => simp [foldList, ih]

theorem foldEntries_eq (es : List (String × Schema)) :
    foldEntries onRef onObject es = es.map fun e => (e.1, fold onRef onObject e.2) := by
  induction es with
  | nil => rfl
  | cons e es ih => simp [foldEntries, ih]

@[simp] theorem fold_ref (p : String) : fold onRef onObject (.ref p) = onRef p := by
  simp [fold]

/-- **A fold goes layer by layer.**  It reads an object by reading the schemas inside it. -/
theorem fold_inline (s : SchemaObject) :
    fold onRef onObject (.inline s) = onObject (s.map (fold onRef onObject)) := by
  have h₁ : foldOption onRef onObject s.items = s.items.map (fold onRef onObject) := by
    cases s.items <;> simp [foldOption]
  have h₂ : foldAdditional onRef onObject s.additionalProperties =
      s.additionalProperties.map (·.map (fold onRef onObject)) := by
    rcases s.additionalProperties with _ | (_ | _) <;> simp [foldAdditional, Additional.map]
  have h₃ : foldArguments onRef onObject s.typeArguments =
      s.typeArguments.map (·.map (fold onRef onObject)) := by
    cases s.typeArguments <;> simp [foldArguments, foldList_eq]
  simp only [fold, foldList_eq, foldEntries_eq, h₁, h₂, h₃, SchemaOf.map]

end Fold

/-- The pointers of the references in a schema, in the order in which they are looked at. -/
def pointers : Schema → List String := fold (fun p => [p]) fun s => s.children.flatten

/-- The pointer of a reference, which may be wrapped. -/
def target? : Schema → Option String
  | .ref p => some p
  | .inline s => s.wrapped? pointer?

/-- The first of the types that a wrapped reference is applied to. -/
def firstArgument? : Schema → Option Schema
  | .ref _ => none
  | .inline s => s.typeArguments.bind (·.head?)

/-- Whether a schema admits `null`. A reference says nothing about it. -/
def isNullable : Schema → Bool
  | .ref _ => false
  | .inline s => s.isNullable

/-- Whether a schema is that of `null` alone. -/
def isNull : Schema → Bool
  | .ref _ => false
  | .inline s => s.singleType? == some .null && s.properties.isEmpty

section Para

variable {β : Type} (onRef : String → β) (onObject : SchemaOf (Schema × β) → β)

/-- A schema with the value computed from it, where the values of objects are computed from the
schemas inside them and their values. -/
def withPara : Schema → Schema × β :=
  fold (fun p => (.ref p, onRef p)) fun s => (.inline (s.map Prod.fst), onObject s)

/-- A value computed from the leaves of a schema upwards, where objects are read together with the
schemas inside them. -/
def para (s : Schema) : β := (withPara onRef onObject s).2

end Para

end Schema

end OpenApi
end OpenApiClient
