/-
# Models

A component that a client needs has a model: a module of its own with one declaration, its default
export.
-/

import OpenApiClient.TypeScript.Declaration

namespace OpenApiClient
namespace Client

/-- The model of a component. -/
structure Model where
  file : String
  /-- The module, from the output root. -/
  module : String
  /-- The name of its declaration. -/
  identifier : String
  /-- An expression of an empty value. -/
  emptyValue : TypeScript.Expr := .undefined

end Client
end OpenApiClient
