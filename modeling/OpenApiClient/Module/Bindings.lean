/-
# What a file binds

Imports and declarations share the names of their file. Importing a second time what a module
exports gives the name of the first time.
-/

import OpenApiClient.Module.Exports
import OpenApiClient.Module.Imports
import OpenApiClient.Module.Scope

namespace OpenApiClient
namespace Module

/-- The imports, exports and names of a file. -/
structure Bindings where
  site : Site
  suffixing : Suffixing
  scope : Scope := {}
  imports : Imports := {}
  exports : Exports := {}
deriving DecidableEq, Repr

namespace Bindings

/-- The bindings of an empty file. -/
def ofFile (path extension : String) (suffixing : Suffixing) : Bindings :=
  { site := .ofFile path extension, suffixing }

/-- The name that an import gets, and the scope with it. -/
def bindImport (b : Bindings) (id : String) : String × Scope :=
  b.scope.bind id (b.suffixing == .always)

/-- The local name of the default export of a module, imported as `id` if it is new. -/
def importDefault (b : Bindings) (module id : String) (isType : Bool) : String × Bindings :=
  let specifier := b.site.specifier module
  match b.imports.reuseDefault? specifier isType with
  | some (localName, imports) => (localName, { b with imports })
  | none =>
    let (localName, scope) := b.bindImport id
    (localName, { b with scope, imports := b.imports.putDefault specifier id ⟨localName, isType⟩ })

/-- The local name of a named export of a module. -/
def importNamed (b : Bindings) (module id : String) (isType : Bool) : String × Bindings :=
  let specifier := b.site.specifier module
  match b.imports.reuseNamed? specifier id isType with
  | some (localName, imports) => (localName, { b with imports })
  | none =>
    let (localName, scope) := b.bindImport id
    (localName, { b with scope, imports := b.imports.putNamed specifier id ⟨localName, isType⟩ })

/-- The name of a new declaration. -/
def declare (b : Bindings) (id : String) : String × Bindings :=
  let (localName, scope) := b.scope.bind id false
  (localName, { b with scope })

/-- Whether the name is bound. -/
def isBound (b : Bindings) (name : String) : Bool := b.scope.isTaken name

/-- The bindings with one more named export. -/
def exportAs (b : Bindings) (localName exported : String) : Except DuplicateExport Bindings :=
  (b.exports.add localName exported).map fun exports => { b with exports }

/-- The bindings with a default export. -/
def exportDefault (b : Bindings) (localName : String) : Bindings :=
  { b with exports := b.exports.setDefault localName }

end Bindings

end Module
end OpenApiClient
