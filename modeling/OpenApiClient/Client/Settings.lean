/-
# Settings

What a run is asked for: the document, the output directory, the passes in their order, and the
conventions of the generated modules. Everything has a default.
-/

import OpenApiClient.Client.Pass
import OpenApiClient.Module.Scope
import OpenApiClient.Source.Extent

namespace OpenApiClient
namespace Client

/-- The type that stands in the client for a schema of the service. -/
structure TransferTarget where
  /-- The name of the type, which may be a keyword. -/
  name : String
  /-- The module that it is imported from; none for what is known everywhere. -/
  module : Option String := none
deriving DecidableEq, Repr

/-- The conventions of generated modules. -/
structure Conventions where
  /-- What specifiers of modules in the output end with. -/
  extension : String := ".js"
  /-- The package of the types that calls of endpoints need. -/
  frontendPackage : String := "@vaadin/hilla-frontend"
  /-- The package of the signal types. -/
  signalsPackage : String := "@vaadin/hilla-react-signals"
  /-- The module whose default export calls endpoints. -/
  clientModule : String := "./connect-client.default"
deriving DecidableEq, Repr

/-- The settings of a run. -/
structure Settings where
  input : String := "openapi.json"
  output : String := "frontend/generated"
  /-- The names of the passes, in the order in which they run. -/
  passes : List String := Pass.usual.map (·.name)
  suffixing : Module.Suffixing := .whenTaken
  conventions : Conventions := {}
  /-- The targets of schemas, over those that are built in. -/
  transferTypes : Entries TransferTarget := []
  /-- The backend classes whose values are streamed. -/
  pushClasses : List String := [
    "reactor.core.publisher.Flux", "com.vaadin.hilla.runtime.transfertypes.EndpointSubscription"]
deriving DecidableEq, Repr

section Reading

variable {α : Type} [Leaf α]

/-- The name of a way to give suffixes. -/
def suffixingName : Module.Suffixing → String
  | .whenTaken => "first_keeps_name"
  | .always => "always_suffix"

/-- A way to give suffixes. -/
def readSuffixing? (t : Tree α) : Option Module.Suffixing :=
  let all := [Module.Suffixing.whenTaken, .always]
  (t.choice? (all.map suffixingName)).bind fun s => all.find? (suffixingName · == s)

/-- The fields that say how names are given. -/
def namingFields : List Field := [.orDefault "collision_suffix"]

/-- How names are given. -/
def readNaming? (t : Tree α) : Option Module.Suffixing :=
  (t.record? namingFields).bind fun r =>
    Record.withDefault? r "collision_suffix" .whenTaken readSuffixing?

/-- The fields of the conventions. -/
def Conventions.fields : List Field := [
  .orDefault "extension", .orDefault "frontend_package", .orDefault "signals_package",
  .orDefault "client_module"]

/-- The conventions of generated modules. -/
def Conventions.read? (t : Tree α) : Option Conventions := do
  let r ← t.record? fields
  let usual : Conventions := {}
  return {
    extension := ← Record.withDefault? r "extension" usual.extension Tree.text?
    frontendPackage := ← Record.withDefault? r "frontend_package" usual.frontendPackage Tree.text?
    signalsPackage := ← Record.withDefault? r "signals_package" usual.signalsPackage Tree.text?
    clientModule := ← Record.withDefault? r "client_module" usual.clientModule Tree.text? }

/-- The fields of a target. -/
def TransferTarget.fields : List Field := [⟨"name", false⟩, .orDefault "module"]

/-- The target of a schema. -/
def TransferTarget.read? (t : Tree α) : Option TransferTarget := do
  let r ← t.record? fields
  return {
    name := ← Record.required? r "name" Tree.text?
    module := ← Record.optional? r "module" Tree.text? }

/-- The fields of settings. -/
def Settings.fields : List Field := [
  .orDefault "input", .orDefault "output", .orDefault "plugins", .orDefault "naming",
  .orDefault "output_options", .orDefault "transfer_types", .orDefault "push_classes"]

/-- The parts of settings that are read. -/
def Settings.extent : Extent := .ofFields fields [
  ("naming", .ofFields namingFields []), ("output_options", .ofFields Conventions.fields []),
  ("transfer_types", .values (.ofFields TransferTarget.fields []))]

/-- The settings that a tree gives. -/
def Settings.read? (t : Tree α) : Option Settings := do
  let r ← t.record? fields
  let usual : Settings := {}
  return {
    input := ← Record.withDefault? r "input" usual.input Tree.text?
    output := ← Record.withDefault? r "output" usual.output Tree.text?
    passes := ← Record.withDefault? r "plugins" usual.passes (Tree.list? Tree.text?)
    suffixing := ← Record.withDefault? r "naming" usual.suffixing readNaming?
    conventions := ← Record.withDefault? r "output_options" usual.conventions Conventions.read?
    transferTypes :=
      ← Record.withDefault? r "transfer_types" [] (Tree.map? TransferTarget.read?)
    pushClasses :=
      ← Record.withDefault? r "push_classes" usual.pushClasses (Tree.list? Tree.text?) }

end Reading

/-- A file of settings with the defaults written out. -/
def usualSettingsText : String := "\n".intercalate [
  "# tsgen configuration",
  "input: openapi.json",
  "output: frontend/generated",
  "",
  "# Plugins run in this order; later plugins read what earlier ones stored.",
  "plugins:",
  "  - transfer-types",
  "  - backbone",
  "  - model",
  "  - subtypes",
  "  - push",
  "  - signals",
  "",
  "naming:",
  "  collision_suffix: first_keeps_name  # first_keeps_name | always_suffix",
  "",
  "output_options:",
  "  extension: .js",
  "  frontend_package: \"@vaadin/hilla-frontend\"",
  "  signals_package: \"@vaadin/hilla-react-signals\"",
  "  client_module: ./connect-client.default",
  "",
  "transfer_types: \x7b\x7d",
  "  # java.time.LocalDate:",
  "  #   name: string",
  "  # com.example.Money:",
  "  #   name: Money",
  "  #   module: ./money",
  "",
  "push_classes:",
  "  - reactor.core.publisher.Flux",
  "  - com.vaadin.hilla.runtime.transfertypes.EndpointSubscription",
  ""]

end Client
end OpenApiClient
