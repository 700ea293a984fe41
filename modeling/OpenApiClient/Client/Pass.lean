/-
# Passes

A client is generated by passes over one document. Each writes to the files of the run and to the
results that later passes read; settings choose the passes and their order, and may repeat one.
-/

namespace OpenApiClient
namespace Client

/-- A pass. -/
inductive Pass where
  /-- Registers the schemas that stand for types of the client. -/
  | transferTypes
  /-- Writes a module for each endpoint, with a function for each of its methods. -/
  | backbone
  /-- Writes a module for each schema that the endpoints need. -/
  | model
  /-- Makes polymorphic bases unions of their subtypes. -/
  | subtypes
  /-- Makes functions of streaming methods subscribe. -/
  | push
  /-- Makes functions that return signals construct them. -/
  | signals
deriving DecidableEq, Repr

namespace Pass

/-- The passes in their usual order. -/
def usual : List Pass := [.transferTypes, .backbone, .model, .subtypes, .push, .signals]

/-- The name of a pass in settings. -/
def name : Pass → String
  | .transferTypes => "transfer-types"
  | .backbone => "backbone"
  | .model => "model"
  | .subtypes => "subtypes"
  | .push => "push"
  | .signals => "signals"

/-- The identity of a pass in files, logs and errors. -/
def path : Pass → String
  | .transferTypes => "tsgen_plugins::transfer_types"
  | .backbone => "tsgen_plugins::backbone"
  | .model => "tsgen_plugins::model"
  | .subtypes => "tsgen_plugins::subtypes"
  | .push => "tsgen_plugins::push"
  | .signals => "tsgen_plugins::signals"

/-- The pass of a name. -/
def ofName? (name : String) : Option Pass := usual.find? (·.name == name)

@[simp] theorem ofName?_name (p : Pass) : ofName? p.name = some p := by
  cases p <;> decide

end Pass

end Client
end OpenApiClient
