/-
# Generation

A client is generated from a document by passes, one after another. The first failure ends the run,
and nothing is written then. The document is loaded from a text, a value or a file that may refer to
others, and all its references must lead somewhere.
-/

import OpenApiClient.Bundle
import OpenApiClient.Client.Model.Module
import OpenApiClient.Client.SignalConstruction
import OpenApiClient.Client.Subscription
import OpenApiClient.Client.Union
import OpenApiClient.OpenApi.Validation

namespace OpenApiClient
namespace Client

open OpenApi

/-- What a pass does. -/
def Pass.execute (j : Job) : Pass → Action Unit
  | .transferTypes => registerTargets j
  | .backbone => writeBackbone j
  | .model => writeModels j
  | .subtypes => flattenUnions j
  | .push => (subscriptions j.settings.pushClasses).run j
  | .signals => do (signalConstructions (← get).models).run j

/-- Where a document comes from. -/
inductive Origin where
  | text (text : String)
  | value (value : Json)
  /-- The path of a file. -/
  | path (files : Files) (path : String)

/-- Why a client cannot be generated. -/
inductive GenerationError where
  /-- A name in the settings is not that of a pass. -/
  | unknownPass (name : String)
  | load (error : Bundle.LoadError)
  | pass (pass : Pass) (error : PassError)
deriving DecidableEq, Repr

/-- The text of an error. -/
def GenerationError.message : GenerationError → String
  | .unknownPass name => "unknown plugin: " ++ name
  | .load e => e.message
  | .pass p e => "plugin " ++ p.path ++ " failed: " ++ e.message

/-- The passes of names. -/
def Pass.ofNames (names : List String) : Except GenerationError (List Pass) :=
  names.mapM fun name => match Pass.ofName? name with
    | some p => .ok p
    | none => .error (.unknownPass name)

/-- A document whose references lead somewhere. -/
def validated (d : Except DocumentError Document) : Except Bundle.LoadError Document := do
  let d ← d.mapError .document
  d.validate.mapError .reference
  return d

/-- The log lines about loading a document, and the document. -/
def load : Origin → List LogLine × Except Bundle.LoadError Document
  | .text text => ([], validated (Document.ofText text))
  | .value value => ([], validated (Document.ofJson value))
  | .path files path =>
    let start : LogLine := ⟨.debug, "tsgen_core::generator", "loading " ++ path⟩
    match Bundle.ofFile files path with
    | .error e => ([start], .error e)
    | .ok b =>
      (start :: b.added.map fun name =>
          ⟨.debug, "tsgen_core::parse::external", "bundled external schema " ++ name⟩,
        validated (Document.ofJson b.document))

/-- The result of a run, and its log. -/
structure Outcome (α : Type) where
  log : List LogLine
  result : Except GenerationError α

/-- The passes are executed one after another. -/
def executeAll (j : Job) (passes : List Pass) : ExceptT (Pass × PassError) (StateM Run) Unit :=
  passes.forM fun p => do
    modify fun r => { r with
      log := r.log ++ [⟨.debug, "tsgen_core::generator", "executing plugin " ++ p.path⟩] }
    (p.execute j).adapt (p, ·)

/-- The log lines about writing the files of a run to a directory. -/
def outputLines (directory : String) (s : Module.Sources) : List LogLine :=
  (s.skipped.map fun path => ⟨.debug, "tsgen_core::emit", "skipping empty file " ++ path⟩) ++
  s.outputs.map fun o =>
    ⟨.debug, "tsgen_core::generator",
      "emitted " ++ Files.join directory o.path ++ " from " ++ o.origin⟩

/-- The files of a client, which the caller will write to a directory. -/
def generate (settings : Settings) (directory : String) (origin : Origin) :
    Outcome (List Module.Output) :=
  match Pass.ofNames settings.passes with
  | .error e => ⟨[], .error e⟩
  | .ok passes => match load origin with
    | (log, .error e) => ⟨log, .error (.load e)⟩
    | (log, .ok document) =>
      let start : LogLine := ⟨.info, "tsgen_core::generator",
        "generating client for " ++ document.info.title ++ " (" ++
          toString document.paths.length ++ " paths)"⟩
      let j : Job := ⟨document, settings⟩
      match (executeAll j passes).run.run { Run.start settings with log := log ++ [start] } with
      | (.error (p, e), run) => ⟨run.log, .error (.pass p e)⟩
      | (.ok _, run) =>
        ⟨run.log ++ outputLines directory run.sources, .ok run.sources.outputs⟩

end Client
end OpenApiClient
