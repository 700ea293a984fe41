/-
# Reading schemas

A schema is read from data of known types. A mapping with a string under `$ref` is a reference,
whatever else it holds; anything else must be a schema object.

One layer is read by `SchemaOf.ofDatum?`, given how nested schemas are read. `Schema.ofDatum?` ties
the knot: as many layers as the data has are enough.
-/

import OpenApiClient.OpenApi.Schema
import OpenApiClient.Source.Record

namespace OpenApiClient
namespace OpenApi

/-- The types of the keyword `type`, in the order in which they are counted. -/
def SchemaType.all : List SchemaType :=
  [.string, .number, .integer, .boolean, .array, .object, .null]

/-- The name of a type. -/
def SchemaType.name : SchemaType → String
  | .string => "string"
  | .number => "number"
  | .integer => "integer"
  | .boolean => "boolean"
  | .array => "array"
  | .object => "object"
  | .null => "null"

/-- The type of a name. -/
def SchemaType.ofName? (s : String) : Option SchemaType := all.find? (·.name == s)

/-- A value of the keyword `type`. -/
def SchemaType.ofDatum? (t : Datum) : Option SchemaType :=
  (t.choice? (all.map name)).bind ofName?

/-- What the keyword `type` says. -/
def TypeSet.ofDatum? (t : Datum) : Option TypeSet :=
  ((SchemaType.ofDatum? t).map .single).or ((t.list? SchemaType.ofDatum?).map .multiple)

/-- The discriminator of a schema. -/
def Discriminator.ofDatum? (t : Datum) : Option Discriminator := do
  let r ← t.record? [⟨"propertyName", false⟩, .orDefault "mapping"]
  return {
    propertyName := ← Record.required? r "propertyName" Tree.text?
    mapping := ← Record.withDefault? r "mapping" [] (Tree.map? Tree.text?) }

/-- The pointer of a reference. -/
def pointerOfDatum? : Datum → Option String
  | .mapping entries =>
    (Tree.fieldsOfEntries? [⟨"$ref", false⟩] entries).bind fun r =>
      Record.required? r "$ref" Tree.text?
  | _ => none

section Layer

variable {α : Type} (nested : Datum → Option α)

/-- What the keyword `additionalProperties` says. -/
def Additional.ofDatum? (t : Datum) : Option (Additional α) :=
  (t.flag?.map .allowed).or ((nested t).map .schema)

/-- The types that a component is applied to. -/
def argumentsOfDatum? (t : Datum) : Option (List α) :=
  (t.record? [.orDefault "allOf"]).bind fun r =>
    Record.withDefault? r "allOf" [] (Tree.list? nested)

/-- The fields of a schema object. -/
def SchemaOf.fields : List Field := [
  ⟨"type", false⟩, ⟨"format", false⟩, ⟨"title", false⟩, ⟨"description", false⟩,
  ⟨"nullable", false⟩, .orDefault "properties", .orDefault "required",
  ⟨"additionalProperties", false⟩, ⟨"items", false⟩, .orDefault "allOf", .orDefault "oneOf",
  .orDefault "anyOf", ⟨"discriminator", false⟩, .orDefault "enum", ⟨"readOnly", false⟩,
  ⟨"deprecated", false⟩, ⟨"x-class-name", false⟩, .orDefault "x-type-parameters",
  ⟨"x-type-variable", false⟩, ⟨"x-type-arguments", false⟩]

/-- One layer of a schema object. -/
def SchemaOf.ofDatum? (t : Datum) : Option (SchemaOf α) := do
  let r ← t.record? fields
  return {
    type := ← Record.optional? r "type" TypeSet.ofDatum?
    format := ← Record.optional? r "format" Tree.text?
    title := ← Record.optional? r "title" Tree.text?
    description := ← Record.optional? r "description" Tree.text?
    nullable := ← Record.optional? r "nullable" Tree.flag?
    properties := ← Record.withDefault? r "properties" [] (Tree.map? nested)
    required := ← Record.withDefault? r "required" [] (Tree.list? Tree.text?)
    additionalProperties :=
      ← Record.optional? r "additionalProperties" (Additional.ofDatum? nested)
    items := ← Record.optional? r "items" nested
    allOf := ← Record.withDefault? r "allOf" [] (Tree.list? nested)
    oneOf := ← Record.withDefault? r "oneOf" [] (Tree.list? nested)
    anyOf := ← Record.withDefault? r "anyOf" [] (Tree.list? nested)
    discriminator := ← Record.optional? r "discriminator" Discriminator.ofDatum?
    enumeration := ← Record.withDefault? r "enum" [] (Tree.list? Tree.json?)
    readOnly := ← Record.optional? r "readOnly" Tree.flag?
    deprecated := ← Record.optional? r "deprecated" Tree.flag?
    className := ← Record.optional? r "x-class-name" Tree.text?
    typeParameters := ← Record.withDefault? r "x-type-parameters" [] (Tree.list? Tree.text?)
    typeVariable := ← Record.optional? r "x-type-variable" Tree.text?
    typeArguments := ← Record.optional? r "x-type-arguments" (argumentsOfDatum? nested) }

end Layer

namespace Schema

/-- A schema of at most as many layers as there is fuel. -/
def layers? : (fuel : Nat) → Datum → Option Schema
  | 0, _ => none
  | fuel + 1, t => match pointerOfDatum? t with
    | some p => some (.ref p)
    | none => (SchemaOf.ofDatum? (layers? fuel) t).map .inline

/-- The schema that data describes. -/
def ofDatum? (t : Datum) : Option Schema := layers? (t.depth + 1) t

/-- The schema that a tree describes. -/
def read? {α : Type} [Leaf α] (t : Tree α) : Option Schema := t.typed?.bind ofDatum?

end Schema

end OpenApi
end OpenApiClient
