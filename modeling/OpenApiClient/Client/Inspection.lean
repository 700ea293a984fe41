/-
# Inspection

What a document holds, at a glance: its title, its endpoints with their methods, and the schemas
that can be reached from its operations, each with its kind.

References are looked for in the JSON form of operations and schemas, in the order of keys. Reached
schemas are listed in the order in which they are found, each once.
-/

import OpenApiClient.Client.Endpoint
import OpenApiClient.OpenApi.Document.Writer

namespace OpenApiClient
namespace Client

open OpenApi

/-- The pointer of a reference. -/
def referencePointer : String × Json → List String
  | ("$ref", .string p) => [p]
  | _ => []

mutual

/-- The pointers of all references in a value. -/
def pointersIn : Json → List String
  | .array items => pointersInItems items
  | .object entries => pointersInEntries entries
  | _ => []

/-- The pointers of all references in values. -/
def pointersInItems : List Json → List String
  | [] => []
  | x :: xs => pointersIn x ++ pointersInItems xs

/-- The pointers of all references in entries. -/
def pointersInEntries : List (String × Json) → List String
  | [] => []
  | e :: es => (referencePointer e ++ pointersIn e.2) ++ pointersInEntries es

end

/-- The names of the schemas that a value refers to. -/
def schemasIn (j : Json) : List String :=
  (pointersIn j.sorted).filterMap fun p => (componentName p).toOption

/-- The names of the schemas that operations refer to. -/
def schemasOfOperations (d : Document) : List String :=
  d.operations.flatMap fun (_, _, o) => schemasIn o.toJson

/-- The names of the schemas that a schema refers to. -/
def schemasOfSchema (c : Components) (name : String) : List String :=
  ((c.schemas.at? name).map fun s => schemasIn s.toJson).getD []

/-- The names in a queue, and those reached from them, after those in `seen`. A name leaves the
queue at each step and each schema fills it once, so the fuel bounds the references. -/
def reach (c : Components) : (fuel : Nat) → (queue seen : List String) → List String
  | 0, _, seen => seen
  | _, [], seen => seen
  | fuel + 1, name :: queue, seen =>
    if name ∈ seen then reach c fuel queue seen
    else reach c fuel (queue ++ schemasOfSchema c name) (seen ++ [name])

/-- The names of the schemas that can be reached from the operations of a document. -/
def reachableSchemas (d : Document) : List String :=
  let c := d.parts
  let start := schemasOfOperations d
  let inner := c.schemas.keys.flatMap (schemasOfSchema c)
  reach c (start.length + inner.length) start []

/-- The kind of a schema. -/
def kindOf : Schema → String
  | .ref _ => "alias"
  | .inline s =>
    if !s.enumeration.isEmpty then "enum"
    else if (!s.oneOf.isEmpty || !s.anyOf.isEmpty) && s.properties.isEmpty then "union"
    else if !s.properties.isEmpty || !s.allOf.isEmpty then "object"
    else "alias"

/-- The kind of a component; it may be missing. -/
def kindOfComponent (c : Components) (name : String) : String :=
  ((c.schemas.at? name).map kindOf).getD "missing"

/-- What a document holds, with keys in order. -/
def inspect (d : Document) : Json :=
  let endpoints := (callsByEndpoint d).map fun (name, calls) =>
    let methods := calls.map fun c =>
      Json.object
        [("http", .string c.verb.text), ("name", .string c.name), ("path", .string c.path)]
    Json.object [("methods", .array methods), ("name", .string name)]
  let schemas := (reachableSchemas d).map fun name =>
    Json.object [("kind", .string (kindOfComponent d.parts name)), ("name", .string name)]
  .object [
    ("endpoints", .array endpoints),
    ("info", .object [("title", .string d.info.title), ("version", .string d.info.version)]),
    ("schemas", .array schemas)]

end Client
end OpenApiClient
