/-
# The text of types, expressions and declarations

Types and expressions take one line. A declaration has no line feed at its end; its members and
statements stand on lines of their own, indented by four blanks.

In an intersection a union stands in parentheses; no other type needs them, since arrays and
records are written with type arguments.
-/

import OpenApiClient.Decimal.Shortest
import OpenApiClient.TypeScript.Comment
import OpenApiClient.TypeScript.Declaration
import OpenApiClient.TypeScript.Literal

namespace OpenApiClient
namespace TypeScript

/-- The keyword of a basic type. -/
def Basic.text : Basic → String
  | .string => "string"
  | .number => "number"
  | .boolean => "boolean"
  | .unknown => "unknown"
  | .void => "void"
  | .undefined => "undefined"
  | .null => "null"

/-- Parts between angle brackets; nothing when there are none. -/
def inAngles (parts : List String) : String :=
  if parts.isEmpty then "" else "<" ++ ", ".intercalate parts ++ ">"

/-- Parts between braces with blanks inside; a pair of braces when there are none. -/
def inBraces (separator : String) (parts : List String) : String :=
  if parts.isEmpty then "\x7b\x7d" else "\x7b " ++ separator.intercalate parts ++ " \x7d"

/-- A text without the semicolons at its end. -/
def dropSemicolons (s : String) : String :=
  .ofList (s.toList.reverse.dropWhile (· == ';')).reverse

/-- A property with the text of its type, and a semicolon at the end. -/
def PropertyOf.line {τ : Type} (p : PropertyOf τ) (type : String) : String :=
  (if p.isReadonly then "readonly " else "") ++ propertyKey p.name ++
    (if p.isOptional then "?" else "") ++ ": " ++ type ++ ";"

namespace Ty

/-- Whether the type is a union. -/
def isUnion : Ty → Bool
  | .union _ => true
  | _ => false

mutual

/-- The text of a type. -/
def text : Ty → String
  | .basic k => k.text
  | .named name args => name ++ inAngles (texts args)
  | .array t => "Array<" ++ text t ++ ">"
  | .record k v => "Record<" ++ text k ++ ", " ++ text v ++ ">"
  | .union ts => " | ".intercalate (texts ts)
  | .intersection ts => " & ".intercalate (operands ts)
  | .literal s => quote s
  | .object ps => inBraces "; " (memberTexts ps)

/-- The texts of types. -/
def texts : List Ty → List String
  | [] => []
  | t :: ts => text t :: texts ts

/-- The texts of the members of an intersection. -/
def operands : List Ty → List String
  | [] => []
  | t :: ts => (if t.isUnion then "(" ++ text t ++ ")" else text t) :: operands ts

/-- The texts of the members of an object type. -/
def memberTexts : List Property → List String
  | [] => []
  | p :: ps => dropSemicolons (p.line (text p.type)) :: memberTexts ps

end

end Ty

namespace Expr

mutual

/-- The text of an expression. -/
def text : Expr → String
  | .ident name => name
  | .string s => quote s
  | .number x => x.positional
  | .bool b => if b then "true" else "false"
  | .undefined => "undefined"
  | .call f ts xs =>
    text f ++ inAngles (Ty.texts ts) ++ "(" ++ ", ".intercalate (texts xs) ++ ")"
  | .construct f ts xs =>
    "new " ++ text f ++ inAngles (Ty.texts ts) ++ "(" ++ ", ".intercalate (texts xs) ++ ")"
  | .member x property => text x ++ "." ++ property
  | .object es => inBraces ", " (entryTexts es)
  | .array xs => "[" ++ ", ".intercalate (texts xs) ++ "]"

/-- The texts of expressions. -/
def texts : List Expr → List String
  | [] => []
  | x :: xs => text x :: texts xs

/-- The texts of the entries of an object literal. -/
def entryTexts : List ObjectEntry → List String
  | [] => []
  | .shorthand key :: es => key :: entryTexts es
  | .entry key x :: es => (propertyKey key ++ ": " ++ text x) :: entryTexts es

end

end Expr

/-- What the lines inside a declaration start with. -/
def indentation : String := "    "

/-- The text of a parameter. -/
def Parameter.text (p : Parameter) : String :=
  p.name ++ (if p.isOptional then "?" else "") ++ ": " ++ p.type.text

/-- The text of a function. -/
def Function.text (f : Function) : String :=
  comment f.doc "" ++ (if f.isAsync then "async " else "") ++
    "function " ++ f.name ++ inAngles f.typeParameters ++
    "(" ++ ", ".intercalate (f.parameters.map (·.text)) ++ "): " ++ f.result.text ++ " \x7b\n" ++
    String.join (f.body.map fun x => indentation ++ "return " ++ x.text ++ ";\n") ++ "\x7d"

/-- The text of a member of an interface, with its comment. -/
def PropertyOf.declared (p : Property) : String :=
  comment p.doc indentation ++ indentation ++ p.line p.type.text ++ "\n"

/-- The text of an interface. -/
def Interface.text (i : Interface) : String :=
  comment i.doc "" ++ "interface " ++ i.name ++ inAngles i.typeParameters ++
    (if i.parents.isEmpty then "" else " extends " ++ ", ".intercalate (Ty.texts i.parents)) ++
    " \x7b\n" ++ String.join (i.members.map (·.declared)) ++ "\x7d"

/-- The text of a type alias. -/
def Alias.text (a : Alias) : String :=
  comment a.doc "" ++ "type " ++ a.name ++ inAngles a.typeParameters ++ " = " ++ a.type.text ++ ";"

/-- The text of a member of an enumeration. -/
def enumerationLine (member : String × String) : String :=
  indentation ++ propertyKey member.1 ++ " = " ++ quote member.2

/-- The text of an enumeration. -/
def Enumeration.text (e : Enumeration) : String :=
  comment e.doc "" ++ "enum " ++ e.name ++ " \x7b\n" ++
    (if e.members.isEmpty then "" else ",\n".intercalate (e.members.map enumerationLine) ++ "\n") ++
    "\x7d"

/-- The text of a declaration. -/
def Declaration.text : Declaration → String
  | .function f => f.text
  | .interface i => i.text
  | .alias a => a.text
  | .enumeration e => e.text

end TypeScript
end OpenApiClient
