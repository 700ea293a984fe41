/-
# Endpoints

The operations of a document, by the endpoint that they belong to. To a client an operation is a
method with a name, arguments, and the schema of what it gives back. The arguments are the
parameters of the operation, and after them the properties of the body; a body without properties is
one argument.
-/

import OpenApiClient.OpenApi.OperationName
import OpenApiClient.OpenApi.Reference
import OpenApiClient.Text.Blank

namespace OpenApiClient
namespace Client

open OpenApi

/-- An operation and the name by which clients call it. -/
structure Call where
  verb : Verb
  path : String
  operation : Operation
  name : String

/-- The operations of a document by endpoint, both in the order in which they come. -/
def callsByEndpoint (d : Document) : Entries (List Call) :=
  .group (d.operations.map fun (path, verb, operation) =>
    let endpoint := operation.endpoint path
    (endpoint, ⟨verb, path, operation, operation.wireName endpoint verb path⟩))

/-- The first call whose name came before. -/
def repeated? : (names : List String) → List Call → Option Call
  | _, [] => none
  | names, c :: cs => if c.name ∈ names then some c else repeated? (c.name :: names) cs

/-- An argument of a method. -/
structure Argument where
  name : String
  schema : Option Schema
  /-- Whether the argument may be missing. -/
  isNullable : Bool

/-- A method of an endpoint. -/
structure Method where
  /-- The name by which clients call it. -/
  name : String
  /-- The name of its wrapper in the file of the endpoint. -/
  localName : String
  arguments : List Argument
  /-- The schema of what it gives back, if it gives something back. -/
  response : Option Schema

/-- Whether a method may give back nothing in the place of a value. -/
def Method.responseIsNullable (m : Method) : Bool := m.response.any (·.isNullable)

/-- An endpoint. -/
structure Endpoint where
  name : String
  file : String
  methods : List Method

/-- The endpoints of a client. -/
structure Backbone where
  endpoints : List Endpoint := []
  /-- The components that the types of methods name. -/
  referenced : List String := []

/-- The argument that a parameter is passed as. -/
def Argument.ofParameter (p : OpenApi.Parameter) : Argument :=
  ⟨p.name, p.schema, !p.required || p.schema.any (·.isNullable)⟩

/-- The arguments that a body is passed as. -/
def Argument.ofBody (b : RequestBody) : List Argument :=
  match payload? b.content with
  | none => []
  | some s => match s.object?.filter (!·.properties.isEmpty) with
    | some o => o.properties.map fun ((name, p) : String × Schema) =>
        ⟨name, some p, !o.required.contains name || p.isNullable⟩
    | none => [⟨"body", some s, !b.required⟩]

/-- The arguments of an operation. -/
def argumentsOf (c : Components) (o : Operation) : Except ReferenceError (List Argument) := do
  let parameters ← o.parameters.mapM c.resolveItem
  let body ← o.requestBody.mapM c.resolveItem
  return parameters.map Argument.ofParameter ++ body.toList.flatMap Argument.ofBody

/-- The response of a successful operation: that of status 200, else the first of a status that
starts with 2, else the one for all other statuses. -/
def successResponse? (o : Operation) : Option (Referable Response) :=
  (o.responses.at? "200").or
    (((o.responses.find? fun e => Text.startsWith "2" e.1).map (·.2)).or
      (o.responses.at? "default"))

/-- The schema of what an operation gives back. -/
def responseOf (c : Components) (o : Operation) : Except ReferenceError (Option Schema) := do
  let response ← (successResponse? o).mapM c.resolveItem
  return response.bind (payload? ·.content)

/-- What is said about an operation. -/
def documentation? (o : Operation) : Option String :=
  let texts := (o.summary.toList ++ o.description.toList).map fun s =>
    String.ofList (Text.trim s.toList)
  let parts := distinct (texts.filter (!·.isEmpty)) ++
    if o.deprecated = some true then ["@deprecated"] else []
  if parts.isEmpty then none else some ("\n\n".intercalate parts)

end Client
end OpenApiClient
