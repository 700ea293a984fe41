/-
# The imports of a file

A file imports from a module its default export, any of its named exports, or both, and knows each
by a local name. An import is of a type only until it is asked for as a value.

`Imports.lines` writes the statements for the names in use: packages first, then modules of the
output, each group in listing order; of one module first the default export. A statement for types
only says so; in a statement for both, the types are marked one by one.
-/

import OpenApiClient.Entries
import OpenApiClient.Module.Specifier
import OpenApiClient.Text.Collate
import OpenApiClient.TypeScript.Literal

namespace OpenApiClient
namespace Module

/-- What an import is known by in the file. -/
structure Binding where
  localName : String
  isType : Bool
deriving DecidableEq, Repr

/-- The binding after a further use, which may be of the value. -/
def Binding.used (b : Binding) (isType : Bool) : Binding := { b with isType := b.isType && isType }

/-- What a file imports from one module. -/
structure ModuleImports where
  /-- The default export, by the name that it was asked for. -/
  default : Option (String × Binding) := none
  /-- Named exports by their names. -/
  named : Entries Binding := []
deriving DecidableEq, Repr

/-- The imports of a file by specifier, in the order in which they came. -/
structure Imports where
  modules : Entries ModuleImports := []
deriving DecidableEq, Repr

namespace ModuleImports

/-- The name that a local name imports. -/
def origin? (m : ModuleImports) (localName : String) : Option String :=
  ((m.default.filter (·.2.localName == localName)).map (·.1)).or
    ((m.named.find? (·.2.localName == localName)).map (·.1))

/-- The statement for the default export, if it is in use. -/
def defaultLine? (m : ModuleImports) (source : String) (used : List String) : Option String :=
  (m.default.filter (·.2.localName ∈ used)).map fun (_, b) =>
    (if b.isType then "import type " else "import ") ++ b.localName ++ " from " ++ source ++ ";"

/-- A named import as it stands in a statement; types are marked unless all are types. -/
def item (allTypes : Bool) (e : String × Binding) : String :=
  (if e.2.isType && !allTypes then "type " else "") ++
    (if e.1 = e.2.localName then e.1 else e.1 ++ " as " ++ e.2.localName)

/-- The statement for the named exports in use, if there are any. -/
def namedLine? (m : ModuleImports) (source : String) (used : List String) : Option String :=
  let named := (m.named.filter (·.2.localName ∈ used)).mergeSort
    fun a b => Text.collate a.1 b.1 != .gt
  if named.isEmpty then none
  else
    let allTypes := named.all (·.2.isType)
    some ((if allTypes then "import type \x7b " else "import \x7b ") ++
      ", ".intercalate (named.map (item allTypes)) ++ " \x7d from " ++ source ++ ";")

/-- The statements for the exports in use. -/
def lines (m : ModuleImports) (specifier : String) (used : List String) : List String :=
  let source := TypeScript.quote specifier
  (m.defaultLine? source used).toList ++ (m.namedLine? source used).toList

end ModuleImports

namespace Imports

/-- Whether nothing was imported. -/
def isEmpty (i : Imports) : Bool := i.modules.isEmpty

/-- What is imported from a module. -/
def ofModule (i : Imports) (specifier : String) : ModuleImports :=
  (i.modules.at? specifier).getD {}

/-- The default import of a module, if there is one. -/
def default? (i : Imports) (specifier : String) : Option Binding :=
  (i.ofModule specifier).default.map (·.2)

/-- The named import of a module, if there is one. -/
def named? (i : Imports) (specifier id : String) : Option Binding :=
  (i.ofModule specifier).named.at? id

/-- The imports with a default import written. -/
def putDefault (i : Imports) (specifier id : String) (b : Binding) : Imports :=
  ⟨i.modules.put specifier { i.ofModule specifier with default := some (id, b) }⟩

/-- The imports with a named import written. -/
def putNamed (i : Imports) (specifier id : String) (b : Binding) : Imports :=
  let m := i.ofModule specifier
  ⟨i.modules.put specifier { m with named := m.named.put id b }⟩

/-- The local name of a default import that is there, and the imports after a further use. -/
def reuseDefault? (i : Imports) (specifier : String) (isType : Bool) : Option (String × Imports) :=
  (i.ofModule specifier).default.map fun (id, b) =>
    (b.localName, i.putDefault specifier id (b.used isType))

/-- The local name of a named import that is there, and the imports after a further use. -/
def reuseNamed? (i : Imports) (specifier id : String) (isType : Bool) :
    Option (String × Imports) :=
  (i.named? specifier id).map fun b => (b.localName, i.putNamed specifier id (b.used isType))

/-- The module and the name that a local name imports. -/
def origin? (i : Imports) (localName : String) : Option (String × String) :=
  i.modules.findSome? fun (specifier, m) => (m.origin? localName).map (specifier, ·)

/-- The order of specifiers: packages first, then in listing order. -/
def compareSpecifiers (a b : String) : Ordering :=
  (compare (isRelative a).toNat (isRelative b).toNat).then (Text.collate a b)

/-- The statements for the local names in use. -/
def lines (i : Imports) (used : List String) : List String :=
  let modules := i.modules.mergeSort fun a b => compareSpecifiers a.1 b.1 != .gt
  modules.flatMap fun (specifier, m) => m.lines specifier used

end Imports

end Module
end OpenApiClient
