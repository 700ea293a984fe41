/-
# Validation

A document is valid when each of its references leads to a value. The parts are looked at in a
fixed order, so that the first reference that does not decides the error: the operations of all
paths with what they refer to, then the components section by section.
-/

import OpenApiClient.OpenApi.Reference

namespace OpenApiClient
namespace OpenApi

namespace Components

/-- All references in a schema lead to a schema. -/
def checkSchema (c : Components) (s : Schema) : Except ReferenceError Unit :=
  s.pointers.forM fun p => discard (c.resolve (.ref p))

/-- All references in a schema that may be missing lead to a schema. -/
def checkSchema? (c : Components) : Option Schema → Except ReferenceError Unit
  | none => .ok ()
  | some s => c.checkSchema s

/-- All references in payloads lead to a schema. -/
def checkContent (c : Components) (content : Content) : Except ReferenceError Unit :=
  content.values.forM fun m => c.checkSchema? m.schema

/-- A parameter can be found, and the references in it lead to a schema. -/
def checkParameter (c : Components) (p : Referable Parameter) : Except ReferenceError Unit := do
  c.checkSchema? (← c.resolveItem p).schema

/-- The body of a request can be found, and the references in it lead to a schema. -/
def checkRequestBody (c : Components) (b : Referable RequestBody) : Except ReferenceError Unit := do
  c.checkContent (← c.resolveItem b).content

/-- A response can be found, and the references in it lead to a schema. -/
def checkResponse (c : Components) (r : Referable Response) : Except ReferenceError Unit := do
  c.checkContent (← c.resolveItem r).content

/-- All references of an operation lead to a value. -/
def checkOperation (c : Components) (o : Operation) : Except ReferenceError Unit := do
  o.parameters.forM c.checkParameter
  o.requestBody.toList.forM c.checkRequestBody
  o.responses.values.forM c.checkResponse

/-- All references of a path lead to a value. -/
def checkPath (c : Components) (p : PathItem) : Except ReferenceError Unit := do
  p.parameters.forM c.checkParameter
  p.operations.forM fun e => c.checkOperation e.2

/-- All references of the components lead to a value. -/
def check (c : Components) : Except ReferenceError Unit := do
  c.schemas.forM fun e => do
    c.checkSchema e.2
    discard (c.schema e.1)
  c.parameters.values.forM c.checkParameter
  c.requestBodies.values.forM c.checkRequestBody
  c.responses.values.forM c.checkResponse

end Components

/-- All references of a document lead to a value. -/
def Document.validate (d : Document) : Except ReferenceError Unit := do
  d.paths.values.forM d.parts.checkPath
  d.parts.check

end OpenApi
end OpenApiClient
