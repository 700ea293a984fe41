/-
# Replacement of wrappers

For some methods a wrapper should do something else than call the client. A replacement selects
them by the schema of their response; their wrappers get a new result and return a new expression,
and keep their names, parameters and documentation.
-/

import OpenApiClient.Client.Run
import OpenApiClient.Client.Wrapper

namespace OpenApiClient
namespace Client

open OpenApi TypeScript

/-- A replacement of wrappers; what is known about a selected method is a `κ`. -/
structure Replacement (κ : Type) where
  pass : Pass
  /-- Whether a method with the response is selected. -/
  select : (response : Schema) → Except ReferenceError (Option κ)
  /-- The result of a wrapper and what it returns, given the object of its arguments. -/
  build : κ → TypeContext → Conventions → (endpoint method : String) → (response : Schema) →
    (arguments : Expr) → Mapping (Ty × Expr)
  /-- What a wrapper becomes. -/
  label : κ → String
  /-- What the new wrappers are called. -/
  plural : String

namespace Replacement

variable {κ : Type} (w : Replacement κ) (j : Job)

/-- The wrapper of a method in a file is replaced. -/
def replace (f : Module.File) (e : Endpoint) (m : Method) (response : Schema) (k : κ) :
    Action Unit := do
  let wrapper ← Wrapper.inFile f m.localName
  let c := j.types (← get)
  let ((result, returned), f, _) ←
    (w.build k c j.settings.conventions e.name m.name response wrapper.arguments).inFile f
  Action.write (← replaceFunction f (wrapper.returning m.localName result returned))
  j.note w.pass .debug (e.name ++ "." ++ m.name ++ " -> " ++ w.label k)

/-- The wrapper of a method is replaced if the method is selected. Tells whether it was. -/
def replaceSelected (e : Endpoint) (m : Method) : Action Bool := do
  let some response := m.response | return false
  let some f := (← get).sources.at? e.file | return false
  let some k ← w.select response | return false
  w.replace j f e m response k
  return true

/-- The pass that replaces the wrappers of selected methods. -/
def run : Action Unit := do
  let backbone ← Action.backbone w.pass
  let replaced ← backbone.endpoints.mapM fun e => e.methods.mapM (w.replaceSelected j e)
  j.note w.pass .info (toString (replaced.flatten.count true) ++ " " ++ w.plural)

end Replacement

/-- The component that a schema refers to, directly or through a wrapper. -/
def referencedComponent? (s : Schema) : Except ReferenceError (Option String) :=
  s.target?.mapM componentName

end Client
end OpenApiClient
