/-
# What declarations refer to

A reference is a name in a type, with the number of arguments that it is applied to. References are
listed of types, of the type arguments in expressions, and of declarations. Uniting types loses no
reference and adds none (`mem_references_unite`).
-/

import OpenApiClient.TypeScript.Declaration
import OpenApiClient.Proofs.Entries

namespace OpenApiClient
namespace TypeScript

/-- A name and the number of arguments that it is applied to. -/
abbrev Reference := String × Nat

namespace Ty

mutual

/-- The references in a type. -/
def references : Ty → List Reference
  | .basic _ => []
  | .named name args => (name, args.length) :: referencesOfAll args
  | .array t => references t
  | .record k v => references k ++ references v
  | .union ts => referencesOfAll ts
  | .intersection ts => referencesOfAll ts
  | .literal _ => []
  | .object ps => referencesOfMembers ps

/-- The references in types. -/
def referencesOfAll : List Ty → List Reference
  | [] => []
  | t :: ts => references t ++ referencesOfAll ts

/-- The references in the types of members. -/
def referencesOfMembers : List Property → List Reference
  | [] => []
  | p :: ps => references p.type ++ referencesOfMembers ps

end

theorem referencesOfAll_eq (ts : List Ty) : referencesOfAll ts = ts.flatMap references := by
  induction ts with
  | nil => rfl
  | cons t ts ih => simp [referencesOfAll, ih]

theorem referencesOfMembers_eq (ps : List Property) :
    referencesOfMembers ps = ps.flatMap (·.type.references) := by
  induction ps with
  | nil => rfl
  | cons p ps ih => simp [referencesOfMembers, ih]

theorem references_ofMembers (ts : List Ty) : (ofMembers ts).references = ts.flatMap references := by
  match ts with
  | [] => rfl
  | [t] => simp [ofMembers]
  | t :: u :: ts => simp [ofMembers, references, referencesOfAll_eq]

theorem references_unionMembers (t : Ty) : t.unionMembers.flatMap references = t.references := by
  cases t <;> simp [unionMembers, references, referencesOfAll_eq]

/-- **A union refers to what its members refer to.** -/
theorem mem_references_unite {ts : List Ty} {r : Reference} :
    r ∈ (unite ts).references ↔ r ∈ ts.flatMap references := by
  rw [unite, references_ofMembers]
  simp only [List.mem_flatMap, mem_distinct]
  constructor
  · rintro ⟨u, ⟨t, ht, hu⟩, hr⟩
    exact ⟨t, ht, references_unionMembers t ▸ List.mem_flatMap.2 ⟨u, hu, hr⟩⟩
  · rintro ⟨t, ht, hr⟩
    rw [← references_unionMembers t] at hr
    obtain ⟨u, hu, hr⟩ := List.mem_flatMap.1 hr
    exact ⟨u, ⟨t, ht, hu⟩, hr⟩

theorem mem_references_orUndefined {t : Ty} {r : Reference} :
    r ∈ t.orUndefined.references ↔ r ∈ t.references := by
  simp [orUndefined, mem_references_unite, references]

end Ty

namespace Expr

mutual

/-- The references in the type arguments in an expression. -/
def references : Expr → List Reference
  | .ident _ => []
  | .string _ => []
  | .number _ => []
  | .bool _ => []
  | .undefined => []
  | .call f ts xs => references f ++ (Ty.referencesOfAll ts ++ referencesOfAll xs)
  | .construct f ts xs => references f ++ (Ty.referencesOfAll ts ++ referencesOfAll xs)
  | .member x _ => references x
  | .object es => referencesOfEntries es
  | .array xs => referencesOfAll xs

/-- The references in the type arguments in expressions. -/
def referencesOfAll : List Expr → List Reference
  | [] => []
  | x :: xs => references x ++ referencesOfAll xs

/-- The references in the type arguments in entries. -/
def referencesOfEntries : List ObjectEntry → List Reference
  | [] => []
  | .shorthand _ :: es => referencesOfEntries es
  | .entry _ x :: es => references x ++ referencesOfEntries es

end

theorem mem_referencesOfAll {xs : List Expr} {r : Reference} :
    r ∈ referencesOfAll xs ↔ ∃ x ∈ xs, r ∈ x.references := by
  induction xs with
  | nil => simp [referencesOfAll]
  | cons x xs ih => simp [referencesOfAll, ih]

theorem mem_referencesOfEntries {es : List ObjectEntry} {r : Reference} :
    r ∈ referencesOfEntries es ↔ ∃ key x, .entry key x ∈ es ∧ r ∈ x.references := by
  induction es with
  | nil => simp [referencesOfEntries]
  | cons e es ih => cases e <;> simp [referencesOfEntries, ih, or_and_right, exists_or]

theorem referencesOfAll_append (xs ys : List Expr) :
    referencesOfAll (xs ++ ys) = referencesOfAll xs ++ referencesOfAll ys := by
  induction xs with
  | nil => rfl
  | cons x xs ih => simp [referencesOfAll, ih]

end Expr

namespace Declaration

/-- The names of the type parameters that are declared. -/
def typeParameters : Declaration → List String
  | .function f => f.typeParameters
  | .interface i => i.typeParameters
  | .alias a => a.typeParameters
  | .enumeration _ => []

/-- The references in a declaration. -/
def references : Declaration → List Reference
  | .function f =>
    f.parameters.flatMap (·.type.references) ++ (f.result.references ++
      Expr.referencesOfAll f.body)
  | .interface i => Ty.referencesOfAll i.parents ++ Ty.referencesOfMembers i.members
  | .alias a => a.type.references
  | .enumeration _ => []

end Declaration

end TypeScript
end OpenApiClient
