/-
# Types of schemas

The type of a schema is told by the first of these that applies: the type parameter that it stands
for; the component that it wraps, applied to its type arguments; the union of a choice; the
intersection of what must hold together; the values of an enumeration; its type keyword.

A component is never looked into but named, so that schemas that refer to each other in circles
have types. What a name needs is written into the file's bindings and stays there even if a later
part of the same schema has no type.
-/

import OpenApiClient.Client.Settings
import OpenApiClient.Module.Bindings
import OpenApiClient.Naming
import OpenApiClient.OpenApi.Reference
import OpenApiClient.TypeScript.Type

namespace OpenApiClient
namespace Client

open OpenApi TypeScript

/-- What types are told from: the components, the targets of schemas, and the component that the
file itself declares, with its name there. -/
structure TypeContext where
  components : Components
  transfers : Entries TransferTarget
  own : Option (String × String) := none

/-- What telling types writes to. -/
structure TypeState where
  /-- The bindings of the file. -/
  bindings : Module.Bindings
  /-- The components that were named, other than the file's own. -/
  referenced : List String := []

/-- A computation on the bindings of a file that may fail on a reference. -/
abbrev Mapping := ExceptT ReferenceError (StateM TypeState)

namespace Mapping

/-- A computation that changes the bindings. -/
def bindings (f : Module.Bindings → String × Module.Bindings) : Mapping String := do
  let s ← getThe TypeState
  let (name, bindings) := f s.bindings
  set { s with bindings }
  return name

/-- The local name of the default export of a module. -/
def importDefault (module id : String) (isType : Bool) : Mapping String :=
  bindings (·.importDefault module id isType)

/-- The local name of a named export of a module. -/
def importNamed (module id : String) (isType : Bool) : Mapping String :=
  bindings (·.importNamed module id isType)

/-- A component was named. -/
def noteReference (component : String) : Mapping Unit :=
  modifyThe TypeState fun s => { s with referenced := insertNew s.referenced component }

end Mapping

/-- Type arguments made up to a number of them. -/
def padded (args : List Ty) (n : Nat) : List Ty :=
  args ++ List.replicate (n - args.length) (.basic .unknown)

namespace TypeContext

variable (c : TypeContext)

/-- The type of a component applied to arguments. -/
def reference (component : String) (args : List Ty) : Mapping Ty := do
  match c.transfers.at? component with
  | some target => match target.module with
    | some module => return .named (← Mapping.importNamed module target.name true) args
    | none => return .named target.name args
  | none =>
    let schema ← c.components.schema component
    let args := padded args schema.typeParameters.length
    match c.own.filter (·.1 == component) with
    | some (_, name) => return .named name args
    | none =>
      let name ← Mapping.importDefault (Naming.modelModule component)
        (Naming.simpleName component) true
      Mapping.noteReference component
      return .named name args

/-- The type of the component that a pointer points at. -/
def pointee (pointer : String) (args : Mapping (List Ty)) : Mapping Ty := do
  let component ← componentName pointer
  c.reference component (← args)

/-- A schema inside an object, with its type. -/
abbrev Nested := Schema × Mapping Ty

/-- The type of a schema, or of nothing where the schema says so. -/
def orNothing (p : Nested) : Mapping Ty := do
  let t ← p.2
  return if p.1.isNullable then t.orUndefined else t

/-- A property with the type of a schema. It may be missing unless it must be there and be
something. -/
def propertyOf (name : String) (p : Nested) (required : Bool) : Mapping Property := do
  let type ← p.2
  return {
    doc := p.1.object?.bind (·.description)
    name
    isOptional := !required || p.1.isNullable
    isReadonly := p.1.object?.any (·.readOnly == some true)
    type }

/-- The properties of an object. -/
def propertiesOf (s : SchemaOf Nested) : Mapping (List Property) :=
  s.properties.mapM fun e => propertyOf e.1 e.2 (s.required.contains e.1)

/-- The type of a value of an enumeration. -/
def ofValue : Json → Ty
  | .string s => .literal s
  | .number _ => .basic .number
  | .bool _ => .basic .boolean
  | _ => .basic .unknown

/-- The type of a schema that is an object, or says no more. -/
def ofObjectKeyword (s : SchemaOf Nested) : Mapping Ty := do
  if !s.properties.isEmpty then return .object (← propertiesOf s)
  else match s.additionalProperties with
    | some (.schema p) => return .record (.basic .string) (← orNothing p)
    | some (.allowed _) => return .record (.basic .string) (.basic .unknown)
    | none =>
      return if s.singleType? == some .object then .record (.basic .string) (.basic .unknown)
        else .basic .unknown

/-- The type that the type keyword of a schema tells. -/
def ofKeyword (s : SchemaOf Nested) : Mapping Ty := do
  match s.singleType? with
  | some .string => return if s.format == some "binary" then .ref "Blob" else .basic .string
  | some .number => return .basic .number
  | some .integer => return .basic .number
  | some .boolean => return .basic .boolean
  | some .null => return .basic .null
  | some .array => match s.items with
    | some p => return .array (← orNothing p)
    | none => return .array (.basic .unknown)
  | some .object => ofObjectKeyword s
  | none => ofObjectKeyword s

/-- The type of what must hold together. -/
def ofAll (s : SchemaOf Nested) : Mapping Ty := do
  let parts ← s.allOf.mapM (·.2)
  let own ← propertiesOf s
  match parts ++ if own.isEmpty then [] else [.object own] with
  | [t] => return t
  | ts => return .intersection ts

/-- The type of a schema object, given those of the schemas inside it. -/
def ofObject (s : SchemaOf Nested) : Mapping Ty := do
  match s.typeVariable with
  | some name => return .ref name
  | none => match s.wrapped? fun p => p.1.pointer? with
    | some pointer => c.pointee pointer ((s.typeArguments.getD []).mapM orNothing)
    | none =>
      if !(s.oneOf.isEmpty && s.anyOf.isEmpty) then
        return .unite (← ((s.oneOf ++ s.anyOf).filter fun p => !p.1.isNull).mapM (·.2))
      else if !s.allOf.isEmpty then ofAll s
      else if !s.enumeration.isEmpty then return .unite (s.enumeration.map ofValue)
      else ofKeyword s

/-- The type of a schema. -/
def typeOf : Schema → Mapping Ty := Schema.para (fun p => c.pointee p (pure [])) c.ofObject

/-- The type of a schema, or of nothing where the schema says so. -/
def nullableTypeOf (s : Schema) : Mapping Ty := orNothing (s, c.typeOf s)

/-- A property with the type of a schema. -/
def property (name : String) (s : Schema) (required : Bool) : Mapping Property :=
  propertyOf name (s, c.typeOf s) required

end TypeContext

end Client
end OpenApiClient
