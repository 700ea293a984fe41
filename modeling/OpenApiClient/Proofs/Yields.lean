/-
# What types are told

What the computations that tell types import does not matter here, nor whether they fail: `Mapping.Yields`
is about what they give if they give something. Of a schema they give a type that is plain, which is neither
nothing, nor a union, nor a literal, but for choices, enumerations, the keyword for `null`, and a schema that
stands alone where schemas must hold together.

Where no member of some types is a union itself (`Ty.Flat`), the members of their union are theirs.
-/

import OpenApiClient.Proofs.Types

namespace OpenApiClient

namespace TypeScript
namespace Ty

/-- No member of the type is a union itself. -/
def Flat (t : Ty) : Prop := ∀ m ∈ t.unionMembers, m.unionMembers = [m]

/-- A type that is no union is its only member. -/
theorem Flat.of_single {t : Ty} (h : t.unionMembers = [t]) : t.Flat := fun m hm => by
  rw [h] at hm
  obtain rfl := List.mem_singleton.1 hm
  exact h

variable {ts : List Ty}

/-- The members of a union of flat types are theirs; with none it is unknown. -/
theorem unionMembers_unite (h : ∀ t ∈ ts, t.Flat) :
    (unite ts).unionMembers = if ts.flatMap unionMembers = [] then [.basic .unknown]
      else distinct (ts.flatMap unionMembers) := by
  have hmem : ∀ m ∈ distinct (ts.flatMap unionMembers), m.unionMembers = [m] := fun m hm => by
    obtain ⟨t, ht, hm⟩ := List.mem_flatMap.1 (mem_distinct.1 hm)
    exact h t ht m hm
  have hnil : distinct (ts.flatMap unionMembers) = [] ↔ ts.flatMap unionMembers = [] := by
    simp only [List.eq_nil_iff_forall_not_mem, mem_distinct]
  rw [unite]
  split
  · next he => rw [hnil.2 he]; rfl
  · next he =>
    have hne := mt hnil.1 he
    match hd : distinct (ts.flatMap unionMembers) with
    | [] => exact absurd hd hne
    | [t] => exact hmem t (by simp [hd])
    | t :: u :: us => rfl

theorem flat_unite (h : ∀ t ∈ ts, t.Flat) : (unite ts).Flat := fun m hm => by
  rw [unionMembers_unite h] at hm
  split at hm
  · obtain rfl := List.mem_singleton.1 hm
    rfl
  · obtain ⟨t, ht, hm⟩ := List.mem_flatMap.1 (mem_distinct.1 hm)
    exact h t ht m hm

/-- The type is neither `undefined` nor `null`, nor a union or a literal. -/
def isPlain : Ty → Bool
  | .basic keyword => keyword != .undefined && keyword != .null
  | .union _ | .literal _ => false
  | _ => true

theorem unionMembers_of_isPlain {t : Ty} (h : t.isPlain = true) : t.unionMembers = [t] := by
  cases t with
  | union => cases h
  | _ => rfl

end Ty
end TypeScript

namespace Client

open OpenApi TypeScript

/-- What the computation gives, if it gives something, has `P`. -/
def Mapping.Yields {α : Type} (m : Mapping α) (P : α → Prop) : Prop :=
  ∀ st, Ends m st (fun a _ => P a) fun _ _ => True

namespace Mapping.Yields

variable {α β : Type} {m : Mapping α} {P Q : α → Prop} {R : β → Prop}

theorem mono (h : m.Yields P) (hP : ∀ a, P a → Q a) : m.Yields Q := fun st =>
  (h st).imp fun a _ => hP a

theorem pure {a : α} (h : P a) : Yields (Pure.pure a) P := fun _ => h

theorem of_any (m : Mapping α) : m.Yields fun _ => True := fun st => by
  unfold Ends
  split <;> trivial

/-- **Steps are read one after another.** -/
theorem bind {f : α → Mapping β} (h : m.Yields P) (hf : ∀ a, P a → (f a).Yields R) :
    Yields (m >>= f) R := fun st => ends_bind.2 <| (h st).imp fun a t ha => hf a ha t

theorem map {f : α → β} (h : m.Yields P) (hf : ∀ a, P a → R (f a)) : Yields (f <$> m) R :=
  fun st => ends_map.2 <| (h st).imp fun a _ ha => hf a ha

theorem mapM {f : α → Mapping β} {xs : List α} {S : α → β → Prop}
    (h : ∀ x ∈ xs, (f x).Yields (S x)) : Yields (xs.mapM f) (List.Forall₂ S xs) := by
  induction xs with
  | nil => exact .pure .nil
  | cons x xs ih =>
    rw [List.mapM_cons]
    refine (h x List.mem_cons_self).bind fun y hy => ?_
    exact (ih fun x hx => h x (List.mem_cons_of_mem _ hx)).bind fun ys hys => .pure (.cons hy hys)

/-- A result of references, and what is done with it. -/
theorem lift {x : Except ReferenceError α} {f : α → Mapping β} (h : ∀ a, x = .ok a → (f a).Yields R) :
    Yields (liftM x >>= f) R := fun st => by
  rw [ends_bind]
  cases x with
  | ok a => exact h a rfl st
  | error e => trivial

end Mapping.Yields

namespace TypeContext

variable (c : TypeContext)

theorem reference_isPlain (component : String) (args : List Ty) :
    (c.reference component args).Yields (·.isPlain = true) := by
  unfold reference
  split
  · split
    · exact (Mapping.Yields.of_any _).bind fun _ _ => .pure rfl
    · exact .pure rfl
  · refine (Mapping.Yields.of_any _).bind fun schema _ => ?_
    dsimp only
    split
    · exact .pure rfl
    · exact (Mapping.Yields.of_any _).bind fun _ _ =>
        (Mapping.Yields.of_any _).bind fun _ _ => .pure rfl

theorem pointee_isPlain (pointer : String) (args : Mapping (List Ty)) :
    (c.pointee pointer args).Yields (·.isPlain = true) :=
  (Mapping.Yields.of_any _).bind fun _ _ =>
    (Mapping.Yields.of_any _).bind fun _ _ => c.reference_isPlain _ _

theorem ofObjectKeyword_isPlain (s : SchemaOf Nested) :
    (ofObjectKeyword s).Yields (·.isPlain = true) := by
  unfold ofObjectKeyword
  split
  · exact (Mapping.Yields.of_any _).bind fun _ _ => .pure rfl
  · split
    · exact (Mapping.Yields.of_any _).bind fun _ _ => .pure rfl
    · exact .pure rfl
    · refine .pure ?_
      split <;> rfl

/-- Of the types that a keyword tells only `null` is not plain. -/
theorem ofKeyword_isPlain (s : SchemaOf Nested) : (ofKeyword s).Yields fun t =>
    if s.singleType? == some .null then t = .basic .null else t.isPlain = true := by
  unfold ofKeyword
  rcases s.singleType? with _ | (_ | _ | _ | _ | _ | _ | _)
  case none | some.object => exact ofObjectKeyword_isPlain s
  case some.string =>
    refine .pure (show Ty.isPlain _ = true from ?_)
    split <;> rfl
  case some.array =>
    dsimp only
    split
    · exact (Mapping.Yields.of_any _).bind fun _ _ => .pure rfl
    · exact .pure rfl
  all_goals exact .pure rfl

/-- What must hold together is one schema without properties beside it, or else an intersection. -/
theorem ofAll_yields {s : SchemaObject} {P : Schema → Ty → Prop}
    (h : ∀ x ∈ s.allOf, (c.typeOf x).Yields (P x)) (hne : s.allOf ≠ []) :
    (ofAll (s.map c.typed)).Yields fun t =>
      (∃ x, s.allOf = [x] ∧ s.properties.isEmpty = true ∧ P x t) ∨
      ((∀ x, s.allOf = [x] → s.properties.isEmpty = false) ∧ t.isPlain = true) := by
  have hparts : Mapping.Yields ((s.map c.typed).allOf.mapM (·.2)) (List.Forall₂ P s.allOf) := by
    rw [show ((s.map c.typed).allOf.mapM (·.2)) = s.allOf.mapM c.typeOf from List.mapM_map ..]
    exact .mapM h
  have hown : (propertiesOf (s.map c.typed)).Yields fun own => own.isEmpty = s.properties.isEmpty :=
    (Mapping.Yields.mapM (S := fun _ _ => True) fun _ _ => .of_any _).mono fun own h => by
      have hlen : s.properties.length = own.length := by simpa [SchemaOf.map] using h.length_eq
      rw [Bool.eq_iff_iff, List.isEmpty_iff_length_eq_zero, List.isEmpty_iff_length_eq_zero, hlen]
  refine hparts.bind fun parts hp => hown.bind fun own ho => ?_
  rw [ho]
  generalize s.allOf = members at hne hp
  rcases hp with _ | ⟨hx, _ | ⟨_, _⟩⟩
  · exact absurd rfl hne
  · cases s.properties.isEmpty
    · exact .pure (.inr ⟨fun _ _ => rfl, rfl⟩)
    · exact .pure (.inl ⟨_, rfl, rfl, hx⟩)
  · exact .pure (.inr ⟨fun _ h => (by cases h), rfl⟩)

end TypeContext

end Client
end OpenApiClient
