/-
# Writing schemas

A schema is written with its keywords in a fixed order. What is absent or empty is left out, but a
wrapper of type arguments always says what it applies to.
-/

import OpenApiClient.OpenApi.Schema.Reader

namespace OpenApiClient
namespace OpenApi

/-- An entry that is left out when there is no value. -/
def entryOf {α : Type} (key : String) (write : α → Json) : Option α → List (String × Json)
  | some x => [(key, write x)]
  | none => []

/-- An entry with a list, left out when it is empty. -/
def entryOfList {α : Type} (key : String) (write : α → Json) (xs : List α) :
    List (String × Json) :=
  if xs.isEmpty then [] else [(key, .array (xs.map write))]

/-- A map as an object. -/
def mapToJson {α : Type} (write : α → Json) (es : List (String × α)) : Json :=
  .object (es.map fun e => (e.1, write e.2))

/-- An entry with a map, left out when it is empty. -/
def entryOfMap {α : Type} (key : String) (write : α → Json) (es : List (String × α)) :
    List (String × Json) :=
  if es.isEmpty then [] else [(key, mapToJson write es)]

/-- A type as a value of the keyword `type`. -/
def SchemaType.toJson (t : SchemaType) : Json := .string t.name

/-- The value of the keyword `type`. -/
def TypeSet.toJson : TypeSet → Json
  | .single t => t.toJson
  | .multiple ts => .array (ts.map (·.toJson))

/-- The value of the keyword `discriminator`. -/
def Discriminator.toJson (d : Discriminator) : Json :=
  .object (("propertyName", .string d.propertyName) :: entryOfMap "mapping" .string d.mapping)

/-- A reference. -/
def referenceToJson (pointer : String) : Json := .object [("$ref", .string pointer)]

/-- The value of the keyword `additionalProperties`. -/
def Additional.toJson : Additional Json → Json
  | .allowed b => .bool b
  | .schema s => s

/-- A schema object whose nested schemas are written. -/
def SchemaOf.toJson (s : SchemaOf Json) : Json :=
  .object (
    entryOf "type" TypeSet.toJson s.type ++ (
    entryOf "format" .string s.format ++ (
    entryOf "title" .string s.title ++ (
    entryOf "description" .string s.description ++ (
    entryOf "nullable" .bool s.nullable ++ (
    entryOfMap "properties" id s.properties ++ (
    entryOfList "required" .string s.required ++ (
    entryOf "additionalProperties" Additional.toJson s.additionalProperties ++ (
    entryOf "items" id s.items ++ (
    entryOfList "allOf" id s.allOf ++ (
    entryOfList "oneOf" id s.oneOf ++ (
    entryOfList "anyOf" id s.anyOf ++ (
    entryOf "discriminator" Discriminator.toJson s.discriminator ++ (
    entryOfList "enum" id s.enumeration ++ (
    entryOf "readOnly" .bool s.readOnly ++ (
    entryOf "deprecated" .bool s.deprecated ++ (
    entryOf "x-class-name" .string s.className ++ (
    entryOfList "x-type-parameters" .string s.typeParameters ++ (
    entryOf "x-type-variable" .string s.typeVariable ++
    entryOf "x-type-arguments" (fun ss => .object [("allOf", .array ss)])
      s.typeArguments)))))))))))))))))))

/-- A schema as a JSON value. -/
def Schema.toJson : Schema → Json := Schema.fold referenceToJson SchemaOf.toJson

end OpenApi
end OpenApiClient
