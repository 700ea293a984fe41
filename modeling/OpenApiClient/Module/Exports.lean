/-
# The exports of a file

A file exports bindings under names, and at most one as its default. A name is given to one
binding only; giving it to the same binding again changes nothing.
-/

namespace OpenApiClient
namespace Module

/-- A name that was to be given to a second binding. -/
structure DuplicateExport where
  exported : String
  existing : String
  localName : String
deriving DecidableEq, Repr

/-- The text of the error. -/
def DuplicateExport.message (e : DuplicateExport) : String :=
  "'" ++ e.exported ++ "' is already exported as " ++ e.existing ++ ", cannot export " ++
    e.localName ++ " under it"

/-- The exports of a file. -/
structure Exports where
  /-- Bindings and the names that they are exported under. -/
  named : List (String × String) := []
  default : Option String := none
deriving DecidableEq, Repr

namespace Exports

/-- Whether nothing is exported. -/
def isEmpty (e : Exports) : Bool := e.named.isEmpty && e.default.isNone

/-- The exports with a binding exported under a name. -/
def add (e : Exports) (localName exported : String) : Except DuplicateExport Exports :=
  match e.named.find? (·.2 == exported) with
  | none => .ok { e with named := e.named ++ [(localName, exported)] }
  | some (existing, _) =>
    if existing = localName then .ok e else .error ⟨exported, existing, localName⟩

/-- The exports with a binding as the default. -/
def setDefault (e : Exports) (localName : String) : Exports := { e with default := some localName }

/-- The name that a binding is exported under. -/
def exportedName? (e : Exports) (localName : String) : Option String :=
  (e.named.find? (·.1 == localName)).map (·.2)

/-- The bindings that are exported. -/
def locals (e : Exports) : List String := e.named.map (·.1) ++ e.default.toList

/-- An export as it stands in the statement. -/
def item (e : String × String) : String := if e.1 = e.2 then e.1 else e.1 ++ " as " ++ e.2

/-- The statements of the exports. -/
def lines (e : Exports) : List String :=
  (if e.named.isEmpty then []
    else ["export \x7b " ++ ", ".intercalate (e.named.map item) ++ " \x7d;"]) ++
  e.default.toList.map fun d => "export default " ++ d ++ ";"

end Exports

end Module
end OpenApiClient
