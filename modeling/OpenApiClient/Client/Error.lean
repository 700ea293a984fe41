/-
# Errors of passes

A pass fails on a reference that leads nowhere, on a name exported twice, when a pass that it builds
on did not run before it, and on documents and settings that no client can be made for.
-/

import OpenApiClient.Client.Pass
import OpenApiClient.Module.Exports
import OpenApiClient.OpenApi.Reference

namespace OpenApiClient
namespace Client

open OpenApi

/-- A result that one pass leaves for others. -/
inductive Slot where
  | backbone
  | models
deriving DecidableEq, Repr

/-- The name of a result. -/
def Slot.name : Slot → String
  | .backbone => "backbone"
  | .models => "models"

/-- What a client cannot be made for. -/
inductive Fault where
  /-- The target of a schema has no name. -/
  | namelessTarget (schema : String)
  /-- Two operations of an endpoint have one name; the second has this verb and path. -/
  | repeatedMethod (endpoint method : String) (verb : Verb) (path : String)
  /-- A file has no function of the name. -/
  | noFunction (name file : String)
  /-- Two components have one file. -/
  | sharedFile (owner component file : String)
deriving DecidableEq, Repr

/-- The text of a fault. -/
def Fault.message : Fault → String
  | .namelessTarget schema => "transfer type for " ++ schema ++ " has an empty name"
  | .repeatedMethod endpoint method verb path =>
    "endpoint " ++ endpoint ++ " declares method " ++ method ++ " more than once (" ++ verb.text ++
      " " ++ path ++ ")"
  | .noFunction name file => "no endpoint function " ++ name ++ " in " ++ file
  | .sharedFile owner component file =>
    "schemas " ++ owner ++ " and " ++ component ++ " both map to " ++ file

/-- Why a pass fails. -/
inductive PassError where
  | reference (error : ReferenceError)
  | duplicateExport (error : Module.DuplicateExport)
  /-- The result that the reader needs was not written before. -/
  | missingSlot (slot : Slot) (reader : Pass)
  | fault (fault : Fault)
deriving DecidableEq, Repr

/-- The text of an error. -/
def PassError.message : PassError → String
  | .reference e => e.message
  | .duplicateExport e => e.message
  | .missingSlot slot reader =>
    "storage slot '" ++ slot.name ++ "' is empty; a plugin that fills it must run before " ++
      reader.path
  | .fault f => f.message

end Client
end OpenApiClient
