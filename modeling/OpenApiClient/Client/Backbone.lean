/-
# Modules of endpoints

Each endpoint has a module with a wrapper for each of its methods. The wrappers get their names
first, before any import; a wrapper is exported under the name of its method. The parameters of a
wrapper are named so that they do not hide the client that it calls.
-/

import OpenApiClient.Client.Run
import OpenApiClient.Naming

namespace OpenApiClient
namespace Client

open OpenApi TypeScript

/-- The name that the client is asked for by. -/
def clientName : String := "client"

/-- The type that an argument has as a parameter. -/
def TypeContext.argumentType (c : TypeContext) (a : Argument) : Mapping Ty := do
  let type ← match a.schema with
    | some s => c.typeOf s
    | none => pure (.basic .unknown)
  return if a.isNullable then type.orUndefined else type

/-- The type of what a method gives back. -/
def TypeContext.responseType (c : TypeContext) : Option Schema → Mapping Ty
  | some s => c.nullableTypeOf s
  | none => return .basic .void

/-- The names of the parameters for arguments, and of the one for the request, in a function that
calls the client. -/
def parameterNames (client : String) (arguments : List String) : List String × String :=
  let scope := ((({} : Module.Scope).bind client false).2)
  let (names, scope) := scope.bindAll (arguments.map parameterName)
  (names, (scope.bind "init" false).1)

/-- The entry that passes an argument. -/
def argumentEntry (argument parameter : String) : ObjectEntry :=
  if parameter = argument then .shorthand parameter else .entry argument (.ident parameter)

/-- The wrapper of a method. -/
def TypeContext.wrapper (c : TypeContext) (v : Conventions) (endpoint : String) (call : Call)
    (m : Method) : Mapping Function := do
  let types ← m.arguments.mapM c.argumentType
  let result ← c.responseType m.response
  let request ← Mapping.importNamed v.frontendPackage "EndpointRequestInit" true
  let client ← Mapping.importDefault v.clientModule clientName false
  let arguments := m.arguments.map (·.name)
  let (names, init) := parameterNames client arguments
  return {
    doc := documentation? call.operation
    name := m.localName
    isAsync := true
    parameters := (names.zip types).map (fun (name, type) => { name, type }) ++
      [{ name := init, type := .ref request, isOptional := true }]
    result := .named "Promise" [result]
    body := [.call (.member (.ident client) "call") [] [
      .string endpoint, .string m.name,
      .object (List.zipWith argumentEntry arguments names), .ident init]] }

/-- A method is written to the file of its endpoint. Gives the method and the components named. -/
def writeMethod (j : Job) (endpoint : String) (file : String) (call : Call) (localName : String) :
    Action (Method × List String) := do
  let c := j.document.parts
  let m : Method := {
    name := call.name
    localName
    arguments := ← argumentsOf c call.operation
    response := ← responseOf c call.operation }
  let run ← get
  let (wrapper, f, referenced) ←
    ((j.types run).wrapper j.settings.conventions endpoint call m).inFile
      (run.sources.openFile file Pass.backbone.path)
  let f := f.push (.function wrapper)
  let bindings ← f.bindings.exportAs localName m.name
  Action.write { f with bindings }
  j.note .backbone .debug
    (call.verb.text ++ " " ++ call.path ++ " -> " ++ endpoint ++ "." ++ m.name)
  return (m, referenced)

/-- The names of new declarations in a file. -/
def declareAll (file : String) (names : List String) : Action (List String) := do
  let f := (← get).sources.openFile file Pass.backbone.path
  let (names, scope) := f.bindings.scope.bindAll names
  Action.write { f with bindings := { f.bindings with scope } }
  return names

/-- The module of an endpoint is written. -/
def writeEndpoint (j : Job) (name : String) (calls : List Call) :
    Action (Endpoint × List String) := do
  if let some c := repeated? [] calls then
    throw (.fault (.repeatedMethod name c.name c.verb c.path))
  let file := Naming.qualifiedPath name ++ ".ts"
  let locals ← declareAll file (calls.map (·.name))
  let results ← (calls.zip locals).mapM fun (call, localName) =>
    writeMethod j name file call localName
  return (⟨name, file, results.map (·.1)⟩, results.flatMap (·.2))

/-- The pass that writes the modules of endpoints. -/
def writeBackbone (j : Job) : Action Unit := do
  let results ← (callsByEndpoint j.document).mapM fun (name, calls) => writeEndpoint j name calls
  let backbone : Backbone := {
    endpoints := results.map (·.1)
    referenced := distinct (results.flatMap (·.2)) }
  j.note .backbone .info (toString backbone.endpoints.length ++ " endpoints, " ++
    toString backbone.referenced.length ++ " referenced schemas")
  modify fun r => { r with backbone := some backbone }

end Client
end OpenApiClient
