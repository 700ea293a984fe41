/-
# Names are fresh

A name that a scope gives was not bound before. When it needs a suffix, as many suffixes are tried
as there are names taken: if all of them were taken there would be one name more, since different
numbers give different suffixes (`freeSuffix_not_mem`). A name is never a reserved word: no reserved
word has an underscore, and every suffix has one (`available_unreserved`).
-/

import OpenApiClient.Module.Scope
import Mathlib.Data.List.Perm.Subperm
import Mathlib.Data.List.Nodup

namespace OpenApiClient
namespace Module

theorem suffixed_inj {name : String} {m n : Nat} (h : suffixed name m = suffixed name n) :
    m = n := by
  have h' : (name ++ "_").toList ++ (toString m).toList =
      (name ++ "_").toList ++ (toString n).toList := by
    rw [← String.toList_append, ← String.toList_append]
    exact congrArg String.toList h
  have hdigits : Nat.toDigits 10 m = Nat.toDigits 10 n := by
    rw [← Nat.toList_repr, ← Nat.toList_repr]
    exact List.append_cancel_left h'
  have := congrArg (Nat.ofDigitChars 10 · 0) hdigits
  simpa only [Nat.ofDigitChars_ten_toDigits] using this

theorem suffixed_mem_of_freeSuffix_mem {taken : List String} {name : String} {n tries : Nat}
    (h : freeSuffix taken name n tries ∈ taken) :
    ∀ i ≤ tries, suffixed name (n + i) ∈ taken := by
  induction tries generalizing n with
  | zero =>
    intro i hi
    obtain rfl : i = 0 := by omega
    exact h
  | succ tries ih =>
    intro i hi
    rw [freeSuffix] at h
    split at h
    · next hn =>
      cases i with
      | zero => exact hn
      | succ i => simpa [Nat.add_assoc, Nat.add_comm 1 i] using ih h i (by omega)
    · next hn => exact absurd h hn

/-- **As many suffixes as there are names taken, and one more, are not all taken.** -/
theorem freeSuffix_not_mem (taken : List String) (name : String) (n : Nat) :
    freeSuffix taken name n taken.length ∉ taken := by
  intro h
  have hmem := suffixed_mem_of_freeSuffix_mem h
  let tried := (List.range (taken.length + 1)).map fun i => suffixed name (n + i)
  have hnodup : tried.Nodup := List.Nodup.map (fun a b hab => by
    have := suffixed_inj hab
    omega) List.nodup_range
  have hsub : tried ⊆ taken := by
    intro x hx
    obtain ⟨i, hi, rfl⟩ := List.mem_map.1 hx
    exact hmem i (by have := List.mem_range.1 hi; omega)
  have := (List.subperm_of_subset hnodup hsub).length_le
  simp only [tried, List.length_map, List.length_range] at this
  omega

/-- A name with a suffix has an underscore, which no reserved word has. -/
theorem suffixed_unreserved (name : String) (n : Nat) :
    TypeScript.isReserved (suffixed name n) = false := by
  have hwords : ∀ w ∈ TypeScript.reservedWords, '_' ∉ w.toList := by decide
  have hmem : '_' ∈ (suffixed name n).toList := by simp [suffixed]
  rw [TypeScript.isReserved, List.contains_eq_mem, decide_eq_false_iff_not]
  exact fun h => hwords _ h hmem

theorem exists_freeSuffix_eq (taken : List String) (name : String) (n tries : Nat) :
    ∃ m, freeSuffix taken name n tries = suffixed name m := by
  induction tries generalizing n with
  | zero => exact ⟨n, rfl⟩
  | succ tries ih =>
    rw [freeSuffix]
    split
    · exact ih (n + 1)
    · exact ⟨n, rfl⟩

namespace Scope

variable (s : Scope)

/-- **No name that is given is a reserved word.** -/
theorem available_unreserved (name : String) (force : Bool) :
    TypeScript.isReserved (s.available name force) = false := by
  unfold available
  split
  · next h =>
    simp only [Bool.and_eq_true, Bool.not_eq_true'] at h
    exact h.1.2
  · obtain ⟨m, hm⟩ := exists_freeSuffix_eq s.taken name 1 s.taken.length
    rw [hm, suffixed_unreserved]

theorem available_not_mem (name : String) (force : Bool) : s.available name force ∉ s.taken := by
  unfold available
  split
  · next h =>
    simp only [Bool.and_eq_true, isTaken, Bool.not_eq_true', decide_eq_false_iff_not] at h
    exact h.2
  · exact freeSuffix_not_mem _ _ _

@[simp] theorem taken_bind (name : String) (force : Bool) :
    (s.bind name force).2.taken = s.taken ++ [(s.bind name force).1] := rfl

theorem bind_not_mem (name : String) (force : Bool) : (s.bind name force).1 ∉ s.taken :=
  s.available_not_mem name force

theorem bind_unreserved (name : String) (force : Bool) :
    TypeScript.isReserved (s.bind name force).1 = false :=
  s.available_unreserved name force

theorem bindAll_cons (name : String) (names : List String) :
    s.bindAll (name :: names) =
      ((s.bind name false).1 :: ((s.bind name false).2.bindAll names).1,
        ((s.bind name false).2.bindAll names).2) := rfl

/-- Names to add to a scope: they are different from each other and from those bound before, and none
is a reserved word. -/
structure Fresh (s : Scope) (names : List String) : Prop where
  nodup : names.Nodup
  fresh : ∀ n ∈ names, n ∉ s.taken
  unreserved : ∀ n ∈ names, TypeScript.isReserved n = false

theorem Fresh.nil : s.Fresh [] := ⟨.nil, by simp, by simp⟩

theorem fresh_bind (name : String) (force : Bool) : s.Fresh [(s.bind name force).1] :=
  ⟨List.nodup_singleton _, by simpa using s.bind_not_mem name force,
    by simpa using s.bind_unreserved name force⟩

variable {s} in
/-- Names that are fresh after other fresh names are fresh together with them. -/
theorem Fresh.append {names more : List String} (h : s.Fresh names)
    (h' : Fresh ⟨s.taken ++ names⟩ more) : s.Fresh (names ++ more) where
  nodup := List.nodup_append.2 ⟨h.nodup, h'.nodup, fun _ hn m hm hnm =>
    h'.fresh m hm (List.mem_append_right _ (hnm ▸ hn))⟩
  fresh := List.forall_mem_append.2 ⟨h.fresh, fun n hn hs =>
    h'.fresh n hn (List.mem_append_left _ hs)⟩
  unreserved := List.forall_mem_append.2 ⟨h.unreserved, h'.unreserved⟩

/-- **Names bound one after another** are fresh, and added to the scope. -/
theorem bindAll_spec (names : List String) :
    (s.bindAll names).1.length = names.length ∧
      (s.bindAll names).2.taken = s.taken ++ (s.bindAll names).1 ∧
        s.Fresh (s.bindAll names).1 := by
  induction names generalizing s with
  | nil => exact ⟨rfl, by simp [bindAll], .nil s⟩
  | cons name names ih =>
    obtain ⟨hlen, htaken, hfresh⟩ := ih (s.bind name false).2
    rw [bindAll_cons]
    exact ⟨by simp [hlen], by simp [htaken], (s.fresh_bind name false).append hfresh⟩

end Scope

end Module
end OpenApiClient
