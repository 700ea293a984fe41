/-
# Signals

A method that gives back a signal has a wrapper that constructs the signal, bound to the method. A
number starts at zero, another value at the empty value of its type.
-/

import OpenApiClient.Client.Backbone
import OpenApiClient.Client.Replacement
import OpenApiClient.Client.Transfer

namespace OpenApiClient
namespace Client

open OpenApi TypeScript

/-- The type arguments of a signal. -/
def TypeContext.signalArguments (c : TypeContext) (s : Signal) (response : Schema) :
    Mapping (List Ty) :=
  match s, response.firstArgument? with
  | .number, _ => return []
  | _, some a => do return [← c.nullableTypeOf a]
  | _, none => return [.basic .unknown]

/-- The value that a value of a type starts at. -/
def initialValue (models : Option (Entries Model)) : Option Schema → Except ReferenceError Expr
  | none => return .undefined
  | some a => do
    if a.isNullable then return .undefined
    let component ← referencedComponent? a
    let model := component.bind fun name => models.bind (·.at? name)
    return (model.map (·.emptyValue)).getD .undefined

/-- What a signal is constructed from, before the method. -/
def initialArguments (models : Option (Entries Model)) (s : Signal) (response : Schema) :
    Except ReferenceError (List Expr) :=
  match s with
  | .number => return [.number (.ofNat 0)]
  | .value => do return [← initialValue models response.firstArgument?]
  | .list => return []

/-- The method that a signal is bound to. -/
def signalMethod (client endpoint method : String) (arguments : Expr) : Expr :=
  .object [
    if client = clientName then .shorthand clientName else .entry clientName (.ident client),
    .entry "endpoint" (.string endpoint), .entry "method" (.string method),
    .entry "params" arguments]

/-- The replacement by constructions of signals. -/
def signalConstructions (models : Option (Entries Model)) : Replacement Signal where
  pass := .signals
  select response := do return (← referencedComponent? response).bind Signal.ofSchema?
  build := fun s c v endpoint method response arguments => do
    let types ← c.signalArguments s response
    let target := c.transfers.at? s.schema
    let name := (target.map (·.name)).getD s.className
    let signal ← Mapping.importNamed ((target.bind (·.module)).getD v.signalsPackage) name false
    let client ← Mapping.importDefault v.clientModule clientName false
    let initial ← initialArguments models s response
    return (.named signal types,
      .construct (.ident signal) types
        (initial ++ [signalMethod client endpoint method arguments]))
  label := Signal.className
  plural := "signal methods"

end Client
end OpenApiClient
