/-
# Reading documents

The fixed structure of a document is read from a tree as its source gives it. Where a reference may
stand for a value, the tree is first read as data of known types, and a reference is tried before
the value.

`Document.read?` gives the tree a shape; it does not look at the version that the document states.
-/

import OpenApiClient.OpenApi.Document
import OpenApiClient.OpenApi.Schema.Reader
import OpenApiClient.Source.Extent

namespace OpenApiClient
namespace OpenApi

variable {α : Type} [Leaf α]

/-- A reference, or else a value read by `read`. -/
def Referable.read? {β : Type} (read : Datum → Option β) (t : Tree α) : Option (Referable β) :=
  t.typed?.bind fun d => match pointerOfDatum? d with
    | some p => some (.ref p)
    | none => (read d).map .item

/-- A payload. -/
def MediaType.read? (t : Tree α) : Option MediaType := do
  let r ← t.record? [⟨"schema", false⟩]
  return { schema := ← Record.optional? r "schema" Schema.read? }

/-- Payloads by media type. -/
def Content.read? (t : Tree α) : Option Content := t.map? MediaType.read?

/-- The places of parameters, in the order in which they are counted. -/
def Location.all : List Location := [.query, .header, .path, .cookie]

/-- The name of a place. -/
def Location.name : Location → String
  | .query => "query"
  | .header => "header"
  | .path => "path"
  | .cookie => "cookie"

/-- A place for parameters. -/
def Location.read? (t : Tree α) : Option Location :=
  (t.choice? (all.map name)).bind fun s => all.find? (·.name == s)

/-- A parameter. -/
def Parameter.read? (t : Tree α) : Option Parameter := do
  let r ← t.record?
    [⟨"name", false⟩, ⟨"in", false⟩, .orDefault "required", ⟨"schema", false⟩,
      ⟨"description", false⟩]
  return {
    name := ← Record.required? r "name" Tree.text?
    location := ← Record.required? r "in" Location.read?
    required := ← Record.withDefault? r "required" false Tree.flag?
    schema := ← Record.optional? r "schema" Schema.read?
    description := ← Record.optional? r "description" Tree.text? }

/-- The body of a request. -/
def RequestBody.read? (t : Tree α) : Option RequestBody := do
  let r ← t.record? [.orDefault "content", .orDefault "required", ⟨"description", false⟩]
  return {
    content := ← Record.withDefault? r "content" [] Content.read?
    required := ← Record.withDefault? r "required" false Tree.flag?
    description := ← Record.optional? r "description" Tree.text? }

/-- A response. -/
def Response.read? (t : Tree α) : Option Response := do
  let r ← t.record? [.orDefault "description", .orDefault "content"]
  return {
    description := ← Record.withDefault? r "description" "" Tree.text?
    content := ← Record.withDefault? r "content" [] Content.read? }

/-- A parameter or a reference to one. -/
def parameterOrRef? : Tree α → Option (Referable Parameter) := Referable.read? Parameter.read?

/-- The body of a request or a reference to one. -/
def requestBodyOrRef? : Tree α → Option (Referable RequestBody) :=
  Referable.read? RequestBody.read?

/-- A response or a reference to one. -/
def responseOrRef? : Tree α → Option (Referable Response) := Referable.read? Response.read?

/-- The fields of an operation. -/
def Operation.fields : List Field := [
  ⟨"operationId", false⟩, ⟨"summary", false⟩, ⟨"description", false⟩, .orDefault "tags",
  .orDefault "parameters", ⟨"requestBody", false⟩, .orDefault "responses", ⟨"deprecated", false⟩]

/-- An operation. -/
def Operation.read? (t : Tree α) : Option Operation := do
  let r ← t.record? fields
  return {
    operationId := ← Record.optional? r "operationId" Tree.text?
    summary := ← Record.optional? r "summary" Tree.text?
    description := ← Record.optional? r "description" Tree.text?
    tags := ← Record.withDefault? r "tags" [] (Tree.list? Tree.text?)
    parameters := ← Record.withDefault? r "parameters" [] (Tree.list? parameterOrRef?)
    requestBody := ← Record.optional? r "requestBody" requestBodyOrRef?
    responses := ← Record.withDefault? r "responses" [] (Tree.map? responseOrRef?)
    deprecated := ← Record.optional? r "deprecated" Tree.flag? }

/-- The fields with the operations of a path. -/
def PathItem.verbFields : List Field :=
  ["get", "post", "put", "delete", "patch", "options", "head", "trace"].map (⟨·, false⟩)

/-- The fields of a path. -/
def PathItem.fields : List Field :=
  [⟨"summary", false⟩, ⟨"description", false⟩, .orDefault "parameters"] ++ verbFields

/-- The parts of a path that are read. -/
def PathItem.extent : Extent :=
  .ofFields fields (verbFields.map fun f => (f.name, .ofFields Operation.fields []))

/-- The operations of a path. -/
def PathItem.read? (t : Tree α) : Option PathItem := do
  let r ← t.record? fields
  return {
    summary := ← Record.optional? r "summary" Tree.text?
    description := ← Record.optional? r "description" Tree.text?
    parameters := ← Record.withDefault? r "parameters" [] (Tree.list? parameterOrRef?)
    get := ← Record.optional? r "get" Operation.read?
    post := ← Record.optional? r "post" Operation.read?
    put := ← Record.optional? r "put" Operation.read?
    delete := ← Record.optional? r "delete" Operation.read?
    patch := ← Record.optional? r "patch" Operation.read?
    options := ← Record.optional? r "options" Operation.read?
    head := ← Record.optional? r "head" Operation.read?
    trace := ← Record.optional? r "trace" Operation.read? }

/-- The fields of components. -/
def Components.fields : List Field :=
  ["schemas", "parameters", "requestBodies", "responses"].map .orDefault

/-- Components. -/
def Components.read? (t : Tree α) : Option Components := do
  let r ← t.record? fields
  return {
    schemas := ← Record.withDefault? r "schemas" [] (Tree.map? Schema.read?)
    parameters := ← Record.withDefault? r "parameters" [] (Tree.map? parameterOrRef?)
    requestBodies := ← Record.withDefault? r "requestBodies" [] (Tree.map? requestBodyOrRef?)
    responses := ← Record.withDefault? r "responses" [] (Tree.map? responseOrRef?) }

/-- The fields of title and version. -/
def Info.fields : List Field := [⟨"title", false⟩, ⟨"version", false⟩, ⟨"description", false⟩]

/-- Title and version. -/
def Info.read? (t : Tree α) : Option Info := do
  let r ← t.record? fields
  return {
    title := ← Record.required? r "title" Tree.text?
    version := ← Record.required? r "version" Tree.text?
    description := ← Record.optional? r "description" Tree.text? }

/-- The fields of a document. -/
def Document.fields : List Field :=
  [⟨"openapi", false⟩, ⟨"info", false⟩, .orDefault "paths", ⟨"components", false⟩]

/-- The parts of a document that are read. What a reference may stand for is read whole, so that
only above those places something is skipped. -/
def Document.extent : Extent := .ofFields fields [
  ("info", .ofFields Info.fields []), ("paths", .values PathItem.extent),
  ("components", .ofFields Components.fields [])]

/-- A document. -/
def Document.read? (t : Tree α) : Option Document := do
  let r ← t.record? fields
  return {
    openapi := ← Record.required? r "openapi" Tree.text?
    info := ← Record.required? r "info" Info.read?
    paths := ← Record.withDefault? r "paths" [] (Tree.map? PathItem.read?)
    components := ← Record.optional? r "components" Components.read? }

end OpenApi
end OpenApiClient
