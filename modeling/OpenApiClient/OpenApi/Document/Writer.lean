/-
# Writing documents

A document is written with its fields in a fixed order. What is absent or empty is left out; only
the content and the necessity of a request body, the necessity of a parameter and the description
of a response are always there.
-/

import OpenApiClient.OpenApi.Document.Reader
import OpenApiClient.OpenApi.Schema.Writer

namespace OpenApiClient
namespace OpenApi

/-- A reference or a value written by `write`. -/
def Referable.toJson {α : Type} (write : α → Json) : Referable α → Json
  | .ref p => referenceToJson p
  | .item x => write x

/-- A payload as a JSON value. -/
def MediaType.toJson (m : MediaType) : Json := .object (entryOf "schema" Schema.toJson m.schema)

/-- A parameter as a JSON value. -/
def Parameter.toJson (p : Parameter) : Json :=
  .object ([("name", .string p.name), ("in", .string p.location.name),
      ("required", .bool p.required)] ++
    (entryOf "schema" Schema.toJson p.schema ++ entryOf "description" .string p.description))

/-- The body of a request as a JSON value. -/
def RequestBody.toJson (b : RequestBody) : Json :=
  .object ([("content", mapToJson MediaType.toJson b.content), ("required", .bool b.required)] ++
    entryOf "description" .string b.description)

/-- A response as a JSON value. -/
def Response.toJson (r : Response) : Json :=
  .object (("description", .string r.description) ::
    entryOfMap "content" MediaType.toJson r.content)

/-- An operation as a JSON value. -/
def Operation.toJson (o : Operation) : Json :=
  .object (
    entryOf "operationId" .string o.operationId ++ (
    entryOf "summary" .string o.summary ++ (
    entryOf "description" .string o.description ++ (
    entryOfList "tags" .string o.tags ++ (
    entryOfList "parameters" (Referable.toJson Parameter.toJson) o.parameters ++ (
    entryOf "requestBody" (Referable.toJson RequestBody.toJson) o.requestBody ++ (
    entryOfMap "responses" (Referable.toJson Response.toJson) o.responses ++
    entryOf "deprecated" .bool o.deprecated)))))))

/-- The operations of a path as a JSON value. -/
def PathItem.toJson (p : PathItem) : Json :=
  .object (
    entryOf "summary" .string p.summary ++ (
    entryOf "description" .string p.description ++ (
    entryOfList "parameters" (Referable.toJson Parameter.toJson) p.parameters ++ (
    entryOf "get" Operation.toJson p.get ++ (
    entryOf "post" Operation.toJson p.post ++ (
    entryOf "put" Operation.toJson p.put ++ (
    entryOf "delete" Operation.toJson p.delete ++ (
    entryOf "patch" Operation.toJson p.patch ++ (
    entryOf "options" Operation.toJson p.options ++ (
    entryOf "head" Operation.toJson p.head ++
    entryOf "trace" Operation.toJson p.trace))))))))))

/-- Components as a JSON value. -/
def Components.toJson (c : Components) : Json :=
  .object (
    entryOfMap "schemas" Schema.toJson c.schemas ++ (
    entryOfMap "parameters" (Referable.toJson Parameter.toJson) c.parameters ++ (
    entryOfMap "requestBodies" (Referable.toJson RequestBody.toJson) c.requestBodies ++
    entryOfMap "responses" (Referable.toJson Response.toJson) c.responses)))

/-- Title and version as a JSON value. -/
def Info.toJson (i : Info) : Json :=
  .object ([("title", .string i.title), ("version", .string i.version)] ++
    entryOf "description" .string i.description)

/-- A document as a JSON value. -/
def Document.toJson (d : Document) : Json :=
  .object ([("openapi", .string d.openapi), ("info", d.info.toJson)] ++
    (entryOfMap "paths" PathItem.toJson d.paths ++
    entryOf "components" Components.toJson d.components))

end OpenApi
end OpenApiClient
