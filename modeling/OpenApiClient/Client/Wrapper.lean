/-
# Wrappers

The function that calls a method of an endpoint is its wrapper. It takes the arguments of the
method, and last an optional value for the request; it returns a call of the client that passes the
arguments as one object. A wrapper that is replaced keeps all of this but what it returns.
-/

import OpenApiClient.Client.Error
import OpenApiClient.Module.File

namespace OpenApiClient
namespace Client

open TypeScript

/-- The object among the arguments of a call. -/
def objectArgument? : Expr → Option Expr
  | .call _ _ args => args.find? fun
    | .object _ => true
    | _ => false
  | _ => none

/-- What a wrapper keeps when it is replaced. -/
structure Wrapper where
  doc : Option String
  /-- The parameters, without the one for the request. -/
  parameters : List Parameter
  /-- The object that passes the arguments. -/
  arguments : Expr

namespace Wrapper

/-- What is kept of a function. -/
def ofFunction (f : Function) : Wrapper where
  doc := f.doc
  parameters := f.parameters.filter (!·.isOptional)
  arguments := (f.body.findSome? objectArgument?).getD (.object [])

/-- The wrapper of a name in a file. -/
def inFile (file : Module.File) (name : String) : Except Fault Wrapper :=
  match file.declaration? name with
  | some (.function f) => .ok (ofFunction f)
  | _ => .error (.noFunction name file.path)

/-- The function of a wrapper that returns another expression. -/
def returning (w : Wrapper) (name : String) (result : Ty) (returned : Expr) : Function where
  doc := w.doc
  name
  parameters := w.parameters
  result
  body := [returned]

end Wrapper

/-- A file with a function in the place of the one of its name. -/
def replaceFunction (file : Module.File) (f : Function) : Except Fault Module.File :=
  match file.declaration? f.name with
  | some (.function _) => .ok (file.adjust f.name fun _ => .function f)
  | _ => .error (.noFunction f.name file.path)

end Client
end OpenApiClient
