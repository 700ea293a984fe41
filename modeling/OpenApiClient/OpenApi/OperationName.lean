/-
# Endpoints and names of operations

An operation belongs to the endpoint of its first tag. Its name is taken from its identity, without
the endpoint in front and the verb behind (`AccountEndpoint_save_POST` is `save`); an operation
without one is named by its path, `/AccountEndpoint/save`, or for what it does.
-/

import OpenApiClient.Naming
import OpenApiClient.OpenApi.Document

namespace OpenApiClient
namespace OpenApi
namespace Operation

/-- The endpoint that an operation of a path belongs to. -/
def endpoint (path : String) (o : Operation) : String :=
  match o.tags with
  | tag :: _ => tag
  | [] => Naming.routeEndpoint path

/-- An identity without the endpoint in front and the verb behind. -/
def shortName (endpoint : String) (verb : Verb) (id : String) : String :=
  let id := (Text.dropStart? (endpoint ++ "_") id).getD id
  (Text.dropEnd? ("_" ++ verb.text) id).getD id

/-- The name that a path gives to an operation of the endpoint. -/
def pathName (endpoint : String) (verb : Verb) (path : String) : String :=
  match (Naming.routeSegments path).reverse with
  | last :: first :: _ =>
    if first = endpoint ∧ !Text.startsWith "\x7b" last then last
    else Naming.routeName verb.text path
  | _ => Naming.routeName verb.text path

/-- The name by which a client calls an operation. -/
def wireName (endpoint : String) (verb : Verb) (path : String) (o : Operation) : String :=
  match (o.operationId.map (shortName endpoint verb)).filter (!·.isEmpty) with
  | some name => name
  | none => pathName endpoint verb path

end Operation
end OpenApi
end OpenApiClient
