/-
# Targets of schemas

Some schemas of the backend stand for types that the client has already, and no model is made of
them. Settings add targets to those that are built in, or replace them.
-/

import OpenApiClient.Client.Run

namespace OpenApiClient
namespace Client

/-- A kind of signal: a value that is shared between clients. -/
inductive Signal where
  | number
  | value
  | list
deriving DecidableEq, Repr

namespace Signal

/-- The kinds of signals. -/
def all : List Signal := [.number, .value, .list]

/-- The name of the class of a signal. -/
def className : Signal → String
  | .number => "NumberSignal"
  | .value => "ValueSignal"
  | .list => "ListSignal"

/-- The schema of a signal. -/
def schema (s : Signal) : String := "com.vaadin.hilla.signals." ++ s.className

/-- The signal of a schema. -/
def ofSchema? (component : String) : Option Signal := all.find? (·.schema == component)

end Signal

/-- The targets that are built in. -/
def builtInTargets (c : Conventions) : Entries TransferTarget := [
  ("java.util.UUID", { name := "string" }),
  ("com.fasterxml.jackson.databind.JsonNode", { name := "unknown" }),
  ("com.fasterxml.jackson.databind.node.ObjectNode", { name := "unknown" }),
  ("com.fasterxml.jackson.databind.node.ArrayNode", { name := "unknown" }),
  ("org.springframework.web.multipart.MultipartFile", { name := "File" }),
  ("com.vaadin.hilla.runtime.transfertypes.EndpointSubscription",
    { name := "EndpointSubscription", module := some c.frontendPackage })] ++
  Signal.all.map fun s => (s.schema, { name := s.className, module := some c.signalsPackage })

/-- Targets registered over others. -/
def registerAll (ts more : Entries TransferTarget) : Entries TransferTarget :=
  more.foldl (fun ts e => ts.put e.1 e.2) ts

/-- The pass that registers the targets of schemas. -/
def registerTargets (j : Job) : Action Unit := do
  let configured := j.settings.transferTypes
  if let some (schema, _) := configured.find? (·.2.name.isEmpty) then
    throw (.fault (.namelessTarget schema))
  modify fun r => { r with
    transfers :=
      registerAll (registerAll r.transfers (builtInTargets j.settings.conventions)) configured }
  j.note .transferTypes .debug (toString (← get).transfers.length ++ " transfer types registered")

end Client
end OpenApiClient
