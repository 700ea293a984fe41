/-
# Subscriptions

A method that streams values is one whose response is of a push class. Its wrapper subscribes to the
values instead of calling for one.
-/

import OpenApiClient.Client.Backbone
import OpenApiClient.Client.Replacement

namespace OpenApiClient
namespace Client

open OpenApi TypeScript

/-- Whether a response is of one of the classes. -/
def isPushed (classes : List String) (response : Schema) : Except ReferenceError Bool := do
  let className := response.object?.bind (·.className)
  if className.any classes.contains then return true
  return (← referencedComponent? response).any classes.contains

/-- The schema of streamed values: that of the items, or the first type argument. -/
def streamedItem? (response : Schema) : Option Schema :=
  (response.object?.bind (·.items)).or response.firstArgument?

/-- The type of streamed values. -/
def TypeContext.streamedType (c : TypeContext) (response : Schema) : Mapping Ty :=
  match streamedItem? response with
  | some s => c.nullableTypeOf s
  | none => return .basic .unknown

/-- The replacement by subscriptions. -/
def subscriptions (classes : List String) : Replacement Unit where
  pass := .push
  select response := do return if ← isPushed classes response then some () else none
  build := fun _ c v endpoint method response arguments => do
    let item ← c.streamedType response
    let subscription ← Mapping.importNamed v.frontendPackage "Subscription" true
    let client ← Mapping.importDefault v.clientModule clientName false
    return (.named subscription [item],
      .call (.member (.ident client) "subscribe") [] [.string endpoint, .string method, arguments])
  label := fun _ => "subscription"
  plural := "push methods"

end Client
end OpenApiClient
