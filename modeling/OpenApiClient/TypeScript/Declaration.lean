/-
# Expressions and declarations

Generated functions do one thing: they return an expression. Next to functions there are
interfaces, type aliases and enumerations. `Declaration.identifiers` lists the bindings that a
declaration refers to, which decides the imports that its file needs.
-/

import OpenApiClient.Decimal.Double
import OpenApiClient.TypeScript.Type

namespace OpenApiClient
namespace TypeScript

mutual

/-- An expression. -/
inductive Expr where
  | ident (name : String)
  | string (value : String)
  | number (value : Decimal.Double)
  | bool (value : Bool)
  | undefined
  | call (callee : Expr) (typeArgs : List Ty) (args : List Expr)
  /-- The construction of an object of a class. -/
  | construct (callee : Expr) (typeArgs : List Ty) (args : List Expr)
  | member (object : Expr) (property : String)
  | object (entries : List ObjectEntry)
  | array (items : List Expr)

/-- An entry of an object literal. -/
inductive ObjectEntry where
  /-- An entry whose value is the binding of the same name. -/
  | shorthand (key : String)
  | entry (key : String) (value : Expr)

end

namespace Expr

instance : Inhabited Expr := ⟨.undefined⟩

mutual

/-- The bindings that the expression refers to. -/
def identifiers : Expr → List String
  | .ident name => [name]
  | .string _ => []
  | .number _ => []
  | .bool _ => []
  | .undefined => []
  | .call f ts xs => identifiers f ++ (Ty.identifiersOfAll ts ++ identifiersOfAll xs)
  | .construct f ts xs => identifiers f ++ (Ty.identifiersOfAll ts ++ identifiersOfAll xs)
  | .member x _ => identifiers x
  | .object es => identifiersOfEntries es
  | .array xs => identifiersOfAll xs

/-- The bindings that the expressions refer to. -/
def identifiersOfAll : List Expr → List String
  | [] => []
  | x :: xs => identifiers x ++ identifiersOfAll xs

/-- The bindings that the entries refer to. -/
def identifiersOfEntries : List ObjectEntry → List String
  | [] => []
  | .shorthand key :: es => key :: identifiersOfEntries es
  | .entry _ x :: es => identifiers x ++ identifiersOfEntries es

end

end Expr

/-- A parameter of a function. -/
structure Parameter where
  name : String
  type : Ty
  isOptional : Bool := false

/-- A function. -/
structure Function where
  doc : Option String := none
  name : String
  isAsync : Bool := false
  typeParameters : List String := []
  parameters : List Parameter := []
  result : Ty
  /-- What the function returns: each expression in a statement of its own. -/
  body : List Expr := []

/-- An interface. -/
structure Interface where
  doc : Option String := none
  name : String
  typeParameters : List String := []
  parents : List Ty := []
  members : List Property := []

/-- A type alias. -/
structure Alias where
  doc : Option String := none
  name : String
  typeParameters : List String := []
  type : Ty

/-- An enumeration of strings: the names of its members and their values. -/
structure Enumeration where
  doc : Option String := none
  name : String
  members : List (String × String) := []

/-- A declaration at the top of a file. -/
inductive Declaration where
  | function (f : Function)
  | interface (i : Interface)
  | alias (a : Alias)
  | enumeration (e : Enumeration)

namespace Declaration

/-- The name that is declared. -/
def name : Declaration → String
  | .function f => f.name
  | .interface i => i.name
  | .alias a => a.name
  | .enumeration e => e.name

/-- The bindings that the declaration refers to, type parameters among them. -/
def identifiers : Declaration → List String
  | .function f =>
    f.parameters.flatMap (·.type.identifiers) ++ (f.result.identifiers ++
      Expr.identifiersOfAll f.body)
  | .interface i => Ty.identifiersOfAll i.parents ++ Ty.identifiersOfMembers i.members
  | .alias a => a.type.identifiers
  | .enumeration _ => []

end Declaration

end TypeScript
end OpenApiClient
