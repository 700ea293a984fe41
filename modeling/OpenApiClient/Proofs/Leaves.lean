/-
# The leaves of a polymorphic base

Opening a choice follows the references of its members. In a valid document all of them lead to
schemas, so the leaves of a base can be found, unless a member is written in place; and each leaf
leads to a schema (`leavesOf_ok`).
-/

import OpenApiClient.Client.Union
import OpenApiClient.Proofs.Valid

namespace OpenApiClient
namespace Client

open OpenApi

/-- A search that may find nothing. -/
abbrev Search := OptionT (Except ReferenceError)

namespace Search

variable {α β : Type} {Q : α → Prop} {R : β → Prop}

/-- The search does not fail, and `Q` holds of what it finds. -/
def Settles (m : Search α) (Q : α → Prop) : Prop := ∃ r, m.run = .ok r ∧ ∀ a, r = some a → Q a

theorem Settles.pure {a : α} (h : Q a) : Settles (pure a) Q := ⟨some a, rfl, by simpa using h⟩

theorem Settles.failure : Settles (failure : Search α) Q := ⟨none, rfl, by simp⟩

theorem Settles.bind {m : Search α} {f : α → Search β} (hm : Settles m Q)
    (hf : ∀ a, Q a → Settles (f a) R) : Settles (m >>= f) R := by
  obtain ⟨r, hr, hq⟩ := hm
  unfold Settles
  rw [OptionT.run_bind, hr]
  cases r with
  | none => exact ⟨none, rfl, by simp⟩
  | some a => exact hf a (hq a rfl)

theorem Settles.lift {x : Except ReferenceError α} {a : α} {f : α → Search β} (h : x = .ok a)
    (hf : Settles (f a) R) : Settles (OptionT.lift x >>= f) R := by
  refine Settles.bind (Q := (· = a)) ⟨some a, ?_, by simp⟩ fun b hb => hb ▸ hf
  rw [OptionT.run_lift, h]
  rfl

theorem Settles.foldlM {f : β → α → Search β} {xs : List α} {b : β} (hb : R b)
    (h : ∀ x ∈ xs, ∀ b, R b → Settles (f b x) R) : Settles (xs.foldlM f b) R := by
  induction xs generalizing b with
  | nil => exact .pure hb
  | cons x xs ih =>
    rw [List.foldlM_cons]
    exact .bind (h x (by simp) b hb) fun b hb => ih hb fun x hx => h x (by simp [hx])

end Search

/-- Every leaf found leads to a schema. -/
def Leaves.Sound (c : TypeContext) (l : Leaves) : Prop := ∀ n ∈ l.found, c.components.Leads n

variable {c : TypeContext} (hc : c.components.Valid)
include hc

theorem Leaves.with_settles :
    ∀ (fuel : Nat) (l : Leaves) (s : SchemaObject), c.components.Closed (.inline s) →
      l.Sound c → Search.Settles (Leaves.with c fuel l s) (Leaves.Sound c)
  | 0, l, _, _, hl => .pure hl
  | fuel + 1, l, s, hs, hl => by
    unfold Leaves.with
    refine .foldlM hl fun x hx l hl => ?_
    have hx := Components.closed_inline.1 hs x (SchemaOf.mem_children.2 (by simp at hx; tauto))
    cases x with
    | inline o => exact .failure
    | ref pointer =>
      obtain ⟨name, hp, s', hs'⟩ := Components.closed_ref.1 hx
      have hleaf : Leaves.Sound c { visited := name :: l.visited, found := l.found ++ [name] } := by
        simpa [Leaves.Sound, or_imp, forall_and] using ⟨hl, s', hs'⟩
      refine .lift hp ?_
      split
      · exact .pure hl
      dsimp only
      split
      · exact .pure hleaf
      refine .lift hs' ?_
      split
      · exact Leaves.with_settles fuel _ s' (hc.closed_of_schema hs') hl
      · exact .pure hleaf

/-- **The leaves of a base in a valid document can be found**, and lead to schemas. -/
theorem leavesOf_ok (component : String) {s : SchemaObject}
    (hs : c.components.Closed (.inline s)) :
    ∃ r, leavesOf c component s = .ok r ∧ ∀ leaves, r = some leaves →
      ∀ n ∈ leaves, c.components.Leads n := by
  obtain ⟨r, hr, h⟩ := Leaves.with_settles hc (c.components.schemas.length + 1)
    { visited := [component] } s hs (by simp [Leaves.Sound])
  refine ⟨r.map (·.found), by rw [leavesOf, hr]; rfl, fun leaves hl => ?_⟩
  obtain ⟨l, rfl, rfl⟩ := Option.map_eq_some_iff.1 hl
  exact h l rfl

end Client
end OpenApiClient
