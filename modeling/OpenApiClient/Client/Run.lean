/-
# Runs

A run works on one document with one set of settings. Its passes share the files under
construction, the targets of schemas, and what the passes before them found out.

An `Action` is a step of a run. When it fails, what was logged before stays.
-/

import OpenApiClient.Client.Endpoint
import OpenApiClient.Client.Error
import OpenApiClient.Client.Log
import OpenApiClient.Client.Model
import OpenApiClient.Client.TypeMapping
import OpenApiClient.Module.File

namespace OpenApiClient
namespace Client

open OpenApi

/-- What a run is given. -/
structure Job where
  document : Document
  settings : Settings

/-- The state of a run. -/
structure Run where
  sources : Module.Sources
  /-- The targets of schemas. -/
  transfers : Entries TransferTarget := []
  backbone : Option Backbone := none
  /-- The models by component. -/
  models : Option (Entries Model) := none
  log : List LogLine := []

/-- A step of a run. -/
abbrev Action := ExceptT PassError (StateM Run)

/-- The state at the start. -/
def Run.start (s : Settings) : Run where
  sources := { extension := s.conventions.extension, suffixing := s.suffixing }

/-- The results of references as results of a step. -/
instance : MonadLift (Except ReferenceError) Action where
  monadLift x := ExceptT.mk (pure (x.mapError .reference))

/-- The results of exports as results of a step. -/
instance : MonadLift (Except Module.DuplicateExport) Action where
  monadLift x := ExceptT.mk (pure (x.mapError .duplicateExport))

/-- The results of checks as results of a step. -/
instance : MonadLift (Except Fault) Action where
  monadLift x := ExceptT.mk (pure (x.mapError .fault))

namespace Action

/-- A line is logged. -/
def log (level : Level) (target message : String) : Action Unit :=
  modify fun r => { r with log := r.log ++ [⟨level, target, message⟩] }

/-- The endpoints that were found before. -/
def backbone (reader : Pass) : Action Backbone := do
  match (← get).backbone with
  | some b => return b
  | none => throw (.missingSlot .backbone reader)

/-- The models that were made before. -/
def models (reader : Pass) : Action (Entries Model) := do
  match (← get).models with
  | some ms => return ms
  | none => throw (.missingSlot .models reader)

/-- A file is written to the run. -/
def write (f : Module.File) : Action Unit :=
  modify fun r => { r with sources := r.sources.put f }

end Action

namespace Job

variable (j : Job)

/-- A line about the document is logged for a pass. -/
def note (pass : Pass) (level : Level) (message : String) : Action Unit :=
  Action.log level pass.path ("[" ++ j.document.info.title ++ "] " ++ message)

/-- What types are told from in a file; `own` is the component that the file declares. -/
def types (r : Run) (own : Option (String × String) := none) : TypeContext where
  components := j.document.parts
  transfers := r.transfers
  own

end Job

/-- The result of telling types for a file, the file with what they need, and the components that
were named. -/
def Mapping.inFile {α : Type} (m : Mapping α) (f : Module.File) :
    Except ReferenceError (α × Module.File × List String) :=
  match m.run.run { bindings := f.bindings } with
  | (.ok a, s) => .ok (a, { f with bindings := s.bindings }, s.referenced)
  | (.error e, _) => .error e

end Client
end OpenApiClient
