/-
# Types

The types that generated code is written with. Equality of types is decidable, and `Ty.unite` uses
it: a union of unions is one union in which each member comes once, at its first place.
-/

import OpenApiClient.Entries
import OpenApiClient.Text.Split

namespace OpenApiClient
namespace TypeScript

/-- A type that is a keyword. -/
inductive Basic where
  | string
  | number
  | boolean
  | unknown
  | void
  | undefined
  | null
deriving DecidableEq, Repr

/-- A member of an interface or of an object type, whose type is a `τ`. -/
structure PropertyOf (τ : Type) where
  doc : Option String := none
  name : String
  isOptional : Bool := false
  isReadonly : Bool := false
  type : τ

/-- A type. -/
inductive Ty where
  | basic (keyword : Basic)
  /-- A name, with the arguments that it is applied to. -/
  | named (name : String) (args : List Ty)
  | array (item : Ty)
  | record (key value : Ty)
  | union (members : List Ty)
  | intersection (members : List Ty)
  /-- The type of one string. -/
  | literal (value : String)
  | object (members : List (PropertyOf Ty))

/-- A member of an interface or of an object type. -/
abbrev Property := PropertyOf Ty

namespace Ty

instance : Inhabited Ty := ⟨.basic .unknown⟩

mutual

/-- Whether two types are equal. -/
def same : Ty → Ty → Bool
  | .basic a, .basic b => a == b
  | .named a as, .named b bs => a == b && sameAll as bs
  | .array a, .array b => same a b
  | .record a b, .record c d => same a c && same b d
  | .union as, .union bs => sameAll as bs
  | .intersection as, .intersection bs => sameAll as bs
  | .literal a, .literal b => a == b
  | .object as, .object bs => sameMembers as bs
  | _, _ => false

/-- Whether two lists hold equal types. -/
def sameAll : List Ty → List Ty → Bool
  | [], [] => true
  | a :: as, b :: bs => same a b && sameAll as bs
  | _, _ => false

/-- Whether two lists hold equal members. -/
def sameMembers : List Property → List Property → Bool
  | [], [] => true
  | a :: as, b :: bs =>
    a.doc == b.doc && a.name == b.name && a.isOptional == b.isOptional &&
      a.isReadonly == b.isReadonly && same a.type b.type && sameMembers as bs
  | _, _ => false

end

mutual

theorem same_iff : ∀ {a b : Ty}, same a b = true ↔ a = b
  | .basic a, b => by cases b <;> simp [same]
  | .named a as, b => by cases b <;> simp [same, sameAll_iff (a := as)]
  | .array a, b => by cases b <;> simp [same, same_iff (a := a)]
  | .record a c, b => by cases b <;> simp [same, same_iff (a := a), same_iff (a := c)]
  | .union as, b => by cases b <;> simp [same, sameAll_iff (a := as)]
  | .intersection as, b => by cases b <;> simp [same, sameAll_iff (a := as)]
  | .literal a, b => by cases b <;> simp [same]
  | .object as, b => by cases b <;> simp [same, sameMembers_iff (a := as)]

theorem sameAll_iff : ∀ {a b : List Ty}, sameAll a b = true ↔ a = b
  | [], bs => by cases bs <;> simp [sameAll]
  | a :: as, bs => by cases bs <;> simp [sameAll, same_iff (a := a), sameAll_iff (a := as)]

theorem sameMembers_iff : ∀ {a b : List Property}, sameMembers a b = true ↔ a = b
  | [], bs => by cases bs <;> simp [sameMembers]
  | ⟨d, n, o, r, t⟩ :: as, bs => by
    cases bs with
    | nil => simp [sameMembers]
    | cons b bs =>
      cases b
      simp [sameMembers, same_iff (a := t), sameMembers_iff (a := as), and_assoc]

end

instance : DecidableEq Ty := fun _ _ => decidable_of_iff _ same_iff

/-- A name without arguments. -/
def ref (name : String) : Ty := .named name []

/-- The members of a union; any other type is its own only member. -/
def unionMembers : Ty → List Ty
  | .union ts => ts
  | t => [t]

/-- The union of distinct types, which are its members: of one type it is that type. -/
def ofMembers : List Ty → Ty
  | [] => .basic .unknown
  | [t] => t
  | ts => .union ts

/-- The union of types: unions among them are opened, and each member comes once. -/
def unite (ts : List Ty) : Ty := ofMembers (distinct (ts.flatMap unionMembers))

/-- The type or `undefined`. -/
def orUndefined (t : Ty) : Ty := unite [t, .basic .undefined]

/-- Whether the type is `void`. -/
def isVoid (t : Ty) : Bool := t = .basic .void

/-- The binding that a possibly qualified name refers to: `Foo` for `Foo.Bar`. -/
def root (name : String) : String :=
  match Text.cutFirst? '.' name with
  | some (start, _) => start
  | none => name

mutual

/-- The bindings that the type refers to. -/
def identifiers : Ty → List String
  | .basic _ => []
  | .named name args => root name :: identifiersOfAll args
  | .array t => identifiers t
  | .record k v => identifiers k ++ identifiers v
  | .union ts => identifiersOfAll ts
  | .intersection ts => identifiersOfAll ts
  | .literal _ => []
  | .object ps => identifiersOfMembers ps

/-- The bindings that the types refer to. -/
def identifiersOfAll : List Ty → List String
  | [] => []
  | t :: ts => identifiers t ++ identifiersOfAll ts

/-- The bindings that the types of the members refer to. -/
def identifiersOfMembers : List Property → List String
  | [] => []
  | p :: ps => identifiers p.type ++ identifiersOfMembers ps

end

end Ty

end TypeScript
end OpenApiClient
