/-
# Polymorphic bases

A component that is a choice between others is a polymorphic base. Its leaves are the components
among which a value lies in the end: members that are choices themselves are opened. The base
becomes the union of its leaves, and the interface of each leaf gets the tag by which its values are
told apart.
-/

import OpenApiClient.Client.Run
import OpenApiClient.Naming

namespace OpenApiClient
namespace Client

open OpenApi TypeScript

/-- The components seen on the way down, and the leaves among them in the order in which they were
found. -/
structure Leaves where
  visited : List String
  found : List String := []

/-- The leaves with those of a choice; none if some member is not a reference. A component is opened
once, so the fuel bounds the components. -/
def Leaves.with (c : TypeContext) : (fuel : Nat) → Leaves → SchemaObject →
    OptionT (Except ReferenceError) Leaves
  | 0, l, _ => pure l
  | fuel + 1, l, s =>
    (s.oneOf ++ s.anyOf).foldlM (fun l => fun
      | .inline _ => failure
      | .ref pointer => do
        let name ← OptionT.lift (componentName pointer)
        if name ∈ l.visited then return l
        let l : Leaves := { l with visited := name :: l.visited }
        let leaf : Leaves := { l with found := l.found ++ [name] }
        if c.transfers.has name then return leaf
        let s ← OptionT.lift (c.components.schema name)
        if Schema.isUnion s then Leaves.with c fuel l s else return leaf) l

/-- The leaves of a polymorphic base; none if some member is not a reference. -/
def leavesOf (c : TypeContext) (component : String) (s : SchemaObject) :
    Except ReferenceError (Option (List String)) := do
  let leaves ← (Leaves.with c (c.components.schemas.length + 1) { visited := [component] } s).run
  return leaves.map (·.found)

/-- The property that tells leaves apart. -/
def discriminatorProperty (s : SchemaObject) : String :=
  (s.discriminator.map (·.propertyName)).getD "@type"

/-- The tag of a leaf: the first that the base maps to it, or its simple name. -/
def tagOf (s : SchemaObject) (leaf : String) : String :=
  let mapping := (s.discriminator.map (·.mapping)).getD []
  match mapping.find? fun e => ((componentName e.2).toOption.getD e.2) == leaf with
  | some (tag, _) => tag
  | none => Naming.simpleName leaf

/-- Members with a property pinned to a tag: the first of its name, or a new one in front. -/
def pinTag (property tag : String) (members : List Property) : List Property :=
  let type : Ty := .literal tag
  match members.findIdx? (·.name == property) with
  | some i => members.modify i fun m => { m with type, isOptional := false }
  | none => { name := property, type } :: members

/-- A declaration with the type of an alias replaced. -/
def withType (type : Ty) : Declaration → Declaration
  | .alias a => .alias { a with type }
  | d => d

/-- A declaration with a property of an interface pinned to a tag. -/
def withTag (property tag : String) : Declaration → Declaration
  | .interface i => .interface { i with members := pinTag property tag i.members }
  | d => d

/-- The interface of a leaf gets its tag. -/
def tagLeaf (models : Entries Model) (base : SchemaObject) (leaf : String) : Action Unit := do
  let some m := models.at? leaf | return
  let some f := (← get).sources.at? m.file | return
  Action.write
    (f.adjust m.identifier (withTag (discriminatorProperty base) (tagOf base leaf)))

/-- A component is made the union of its leaves, if it is a polymorphic base. Tells whether it
was. -/
def flatten (j : Job) (models : Entries Model) (component : String) (m : Model) : Action Bool := do
  let s ← j.document.parts.schema component
  if !Schema.isUnion s then return false
  let run ← get
  let c := j.types run (some (component, m.identifier))
  let some leaves ← leavesOf c component s | return false
  let some f := run.sources.at? m.file | return false
  let (types, f, _) ← (leaves.mapM fun leaf => c.reference leaf []).inFile f
  Action.write (f.adjust m.identifier (withType (.unite types)))
  leaves.forM (tagLeaf models s)
  return true

/-- The pass that makes polymorphic bases unions of their leaves. -/
def flattenUnions (j : Job) : Action Unit := do
  let models ← Action.models .subtypes
  let unions ← models.mapM fun (component, m) => flatten j models component m
  j.note .subtypes .info (toString (unions.count true) ++ " subtype unions")

end Client
end OpenApiClient
