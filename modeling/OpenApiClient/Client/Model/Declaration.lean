/-
# Declarations of components

What declares a component: an alias, where the component refers to another one; an enumeration,
where it is one of some strings; an interface, where it has properties; else an alias of its type.
-/

import OpenApiClient.Client.Model.Inheritance
import OpenApiClient.TypeScript.Declaration

namespace OpenApiClient
namespace Client

open OpenApi TypeScript

/-- A member of an enumeration for a value. -/
def enumerationMember (value : String) : String × String :=
  (if isIdentifier value then value else sanitize value, value)

/-- The values of an enumeration of strings. -/
def enumerationValues? (s : SchemaObject) : Option (List String) :=
  if s.enumeration.isEmpty then none else s.enumeration.mapM Json.string?

namespace TypeContext

variable (c : TypeContext)

/-- The interface of an object. -/
def interfaceOf (identifier : String) (s : SchemaObject) : Mapping Interface := do
  let i ← s.allOf.foldlM c.inherit {}
  let members ← (i.ownProperties s).mapM fun (name, p, required) => c.property name p required
  return {
    doc := s.description, name := identifier, typeParameters := s.typeParameters,
    parents := i.parents, members }

/-- The declaration of a component. -/
def declarationOf (component identifier : String) : Mapping Declaration := do
  match c.components.schemas.at? component with
  | some (.ref pointer) => return .alias { name := identifier, type := ← c.typeOf (.ref pointer) }
  | _ =>
    let s ← c.components.schema component
    match enumerationValues? s with
    | some values => return .enumeration {
        doc := s.description, name := identifier, members := values.map enumerationMember }
    | none =>
      if Schema.isObjectLike s && !Schema.isUnion s then
        return .interface (← c.interfaceOf identifier s)
      else return .alias {
        doc := s.description, name := identifier, typeParameters := s.typeParameters
        type := ← c.typeOf (.inline s) }

end TypeContext

end Client
end OpenApiClient
