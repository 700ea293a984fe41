/-
# Documents

A document describes the operations of a service by path and verb, and holds components that
operations and other components refer to: schemas, parameters, request bodies and responses.
-/

import OpenApiClient.OpenApi.Schema

namespace OpenApiClient
namespace OpenApi

/-- A reference to a component, or a value written in place. -/
inductive Referable (α : Type) where
  | ref (pointer : String)
  | item (value : α)

/-- The pointer of a reference. -/
def Referable.pointer? {α : Type} : Referable α → Option String
  | .ref p => some p
  | .item _ => none

/-- A payload of one media type. -/
structure MediaType where
  schema : Option Schema := none

/-- Payloads by media type. -/
abbrev Content := Entries MediaType

/-- The schema of the payload: that of `application/json` if it is there, else of the first
entry. -/
def payload? (content : Content) : Option Schema :=
  ((content.at? "application/json").or content.values.head?).bind (·.schema)

/-- Where a parameter is passed. -/
inductive Location where
  | query
  | header
  | path
  | cookie
deriving DecidableEq, Repr

/-- A parameter of an operation. -/
structure Parameter where
  name : String
  location : Location
  required : Bool := false
  schema : Option Schema := none
  description : Option String := none

/-- The body of a request. -/
structure RequestBody where
  content : Content := []
  required : Bool := false
  description : Option String := none

/-- A response. -/
structure Response where
  description : String := ""
  content : Content := []

/-- An operation. -/
structure Operation where
  operationId : Option String := none
  summary : Option String := none
  description : Option String := none
  tags : List String := []
  parameters : List (Referable Parameter) := []
  requestBody : Option (Referable RequestBody) := none
  /-- Responses by status. -/
  responses : Entries (Referable Response) := []
  deprecated : Option Bool := none

/-- A verb of HTTP. -/
inductive Verb where
  | get
  | post
  | put
  | delete
  | patch
  | options
  | head
  | trace
deriving DecidableEq, Repr

/-- The verb as it stands in a request. -/
def Verb.text : Verb → String
  | .get => "GET"
  | .post => "POST"
  | .put => "PUT"
  | .delete => "DELETE"
  | .patch => "PATCH"
  | .options => "OPTIONS"
  | .head => "HEAD"
  | .trace => "TRACE"

/-- The operations of a path, and the parameters that they share. -/
structure PathItem where
  summary : Option String := none
  description : Option String := none
  parameters : List (Referable Parameter) := []
  get : Option Operation := none
  post : Option Operation := none
  put : Option Operation := none
  delete : Option Operation := none
  patch : Option Operation := none
  options : Option Operation := none
  head : Option Operation := none
  trace : Option Operation := none

namespace PathItem

/-- The operations in the order of their verbs. -/
def operations (p : PathItem) : List (Verb × Operation) :=
  [(Verb.get, p.get), (.post, p.post), (.put, p.put), (.delete, p.delete), (.patch, p.patch),
    (.options, p.options), (.head, p.head), (.trace, p.trace)].filterMap
    fun (verb, operation) => operation.map (verb, ·)

/-- The path item with each of its operations changed, by its position among them. -/
def mapOperations (p : PathItem) (f : Nat → Operation → Operation) : PathItem :=
  let change (verb : Verb) : Operation → Operation :=
    f ((p.operations.map Prod.fst).idxOf verb)
  { p with
    get := p.get.map (change .get)
    post := p.post.map (change .post)
    put := p.put.map (change .put)
    delete := p.delete.map (change .delete)
    patch := p.patch.map (change .patch)
    options := p.options.map (change .options)
    head := p.head.map (change .head)
    trace := p.trace.map (change .trace) }

end PathItem

/-- What can be referred to. -/
structure Components where
  schemas : Entries Schema := []
  parameters : Entries (Referable Parameter) := []
  requestBodies : Entries (Referable RequestBody) := []
  responses : Entries (Referable Response) := []

/-- The title and version of a service. -/
structure Info where
  title : String
  version : String
  description : Option String := none
deriving DecidableEq, Repr

/-- A document. -/
structure Document where
  /-- The version of the description format. -/
  openapi : String
  info : Info
  paths : Entries PathItem := []
  components : Option Components := none

namespace Document

/-- A document without paths and components. -/
def blank (title : String) : Document where
  openapi := "3.0.1"
  info := { title, version := "1.0.0" }

/-- The components of a document; none when the section is missing. -/
def parts (d : Document) : Components := d.components.getD {}

/-- The operations of a document with their paths. -/
def operations (d : Document) : List (String × Verb × Operation) :=
  d.paths.flatMap fun (path, item) => item.operations.map fun (verb, op) => (path, verb, op)

end Document

end OpenApi
end OpenApiClient
