/-
# Modules of components

A module is written for each component that the endpoints need: those that their types name, those
that the declarations of these name, and so on. Components that a type of the client stands for have
none. Two components must not have one file.
-/

import OpenApiClient.Client.Model.Declaration
import OpenApiClient.Client.Model.EmptyValue
import OpenApiClient.Client.Run

namespace OpenApiClient
namespace Client

open OpenApi TypeScript

/-- The module of a component is written. Gives its model and the components named. -/
def writeModel (j : Job) (component : String) : Action (Model × List String) := do
  let path := Naming.modelFile component
  let run ← get
  let f := run.sources.openFile path Pass.model.path
  let (identifier, bindings) := f.bindings.declare (Naming.simpleName component)
  let (declaration, f, referenced) ←
    ((j.types run (some (component, identifier))).declarationOf component identifier).inFile
      { f with bindings }
  let f := f.push declaration
  Action.write { f with bindings := f.bindings.exportDefault identifier }
  j.note .model .debug (component ++ " -> " ++ path)
  return ({ file := path, module := Naming.modelModule component, identifier }, referenced)

/-- The modules of the components in a queue, and of those that they need, are written after those
in `models`. Each component is taken once, so the fuel bounds the components. -/
def writeNeeded (j : Job) (transfers : Entries TransferTarget) :
    (fuel : Nat) → (queue : List String) → Entries Model → Action (Entries Model)
  | 0, _, models => return models
  | fuel + 1, queue, models =>
    match queue.dropWhile fun n => models.has n || transfers.has n with
    | [] => return models
    | component :: queue => do
      let file := Naming.modelFile component
      if let some (owner, _) := models.find? (·.2.file == file) then
        throw (.fault (.sharedFile owner component file))
      let (model, referenced) ← writeModel j component
      writeNeeded j transfers fuel (queue ++ referenced) (models ++ [(component, model)])

/-- The pass that writes the modules of components. -/
def writeModels (j : Job) : Action Unit := do
  let backbone ← Action.backbone .model
  let transfers := (← get).transfers
  let c := j.document.parts
  let models ← writeNeeded j transfers (c.schemas.length + 1) backbone.referenced []
  let models ← models.mapM fun (component, m) => do
    return (component, { m with emptyValue := ← emptyValueOf c transfers component })
  j.note .model .info (toString models.length ++ " models generated")
  modify fun r => { r with models := some models }

end Client
end OpenApiClient
