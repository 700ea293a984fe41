/-
# Inherited properties

A schema object inherits from what it must hold together with. A component that it refers to there
is a parent: its interface is extended, and the properties that the parent has, or inherits, are not
repeated. What is written in place, and a parent that is a choice, give their properties to the
object itself.
-/

import OpenApiClient.Client.TypeMapping

namespace OpenApiClient
namespace Client

open OpenApi TypeScript

/-- The components seen on the way up, and the names of the properties that they have. -/
structure Ancestry where
  visited : List String := []
  names : List String := []

/-- The ancestry with a component and all that it inherits from. Each component is looked into once,
so the fuel bounds the components. -/
def Ancestry.with (c : Components) : (fuel : Nat) → Ancestry → (component : String) →
    Except ReferenceError Ancestry
  | 0, a, _ => .ok a
  | fuel + 1, a, component => do
    if component ∈ a.visited then return a
    let s ← c.schema component
    s.allOf.foldlM (fun a => fun
      | .inline o => return { a with names := a.names ++ Entries.keys o.properties }
      | .ref pointer => do
        let parent ← componentName pointer
        if c.hasSchema parent then Ancestry.with c fuel a parent else return a)
      { visited := component :: a.visited, names := a.names ++ Entries.keys s.properties }

/-- The names of the properties that a component has or inherits. -/
def inheritedNames (c : Components) (component : String) : Except ReferenceError (List String) := do
  return (← Ancestry.with c (c.schemas.length + 1) {} component).names

/-- What an object inherits. -/
structure Inheritance where
  /-- The types that its interface extends. -/
  parents : List Ty := []
  /-- The names of the properties of its parents. -/
  inherited : List String := []
  /-- The objects whose properties are its own. -/
  sources : List SchemaObject := []

/-- What is inherited from one schema more. -/
def TypeContext.inherit (c : TypeContext) (i : Inheritance) : Schema → Mapping Inheritance
  | .inline o => return { i with sources := i.sources ++ [o] }
  | .ref pointer => do
    let parent ← componentName pointer
    if c.transfers.has parent then
      return { i with parents := i.parents ++ [← c.typeOf (.ref pointer)] }
    let s ← c.components.schema parent
    if Schema.isUnion s then return { i with sources := i.sources ++ [s] }
    let type ← c.typeOf (.ref pointer)
    return { i with
      parents := i.parents ++ [type]
      inherited := i.inherited ++ (← inheritedNames c.components parent) }

/-- The properties that the interface of an object declares: name, schema and whether it is
required. -/
def Inheritance.ownProperties (i : Inheritance) (s : SchemaObject) : Entries (Schema × Bool) :=
  Entries.firsts (((i.sources ++ [s]).flatMap fun source =>
    List.map (fun (name, p) => (name, p, source.required.contains name || s.required.contains name))
      source.properties).filter fun e => !i.inherited.contains e.1)

end Client
end OpenApiClient
