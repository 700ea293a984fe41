/-
# The listing order

Names are compared in three stages, each of which decides only where the ones before it do not: their small
forms, the first character in which they differ, and their lengths. The last two are one lexicographic
comparison in disguise, in which a name stands before those that it starts (`compareSpelling_ofList`). So
the listing order is the order of pairs of lists, and total: only one and the same name stands at one place
(`isTotal_collate`). The order of specifiers puts one more stage in front.

A list of entries with different keys has one sorted form, whatever order it came in
(`eq_of_perm_of_isSorted`).
-/

import Mathlib
import OpenApiClient.Module.Imports

namespace OpenApiClient

/-- A comparison is a total order in which only equal values stand at one place. -/
structure IsTotal {α : Type} (cmp : α → α → Ordering) : Prop where
  eq_iff : ∀ a b, cmp a b = .eq ↔ a = b
  swap : ∀ a b, cmp b a = (cmp a b).swap
  trans : ∀ a b c, cmp a b ≠ .gt → cmp b c ≠ .gt → cmp a c ≠ .gt

theorem IsTotal.of_instances {α : Type} (cmp : α → α → Ordering) [Std.TransCmp cmp]
    [Std.LawfulEqCmp cmp] : IsTotal cmp where
  eq_iff _ _ := Std.LawfulEqCmp.compare_eq_iff_eq
  swap _ _ := Std.OrientedCmp.eq_swap
  trans a b c := by
    simp only [Ordering.ne_gt_iff_isLE]
    exact Std.TransCmp.isLE_trans

namespace Text

section Letters

/-- Characters are ordered by whether they are small, and then by code point. -/
theorem compareLetters_eq : compareLetters =
    compareLex (compareOn fun c => (!isSmall c).toNat) compare := by
  funext a b
  rw [compareLetters, compareLex, compareOn]
  cases isSmall a <;> cases isSmall b <;> rfl

instance : Std.TransCmp compareLetters := by
  rw [compareLetters_eq]
  infer_instance

instance : Std.LawfulEqCmp compareLetters where
  eq_of_compare h := by
    rw [compareLetters_eq, compareLex, Ordering.then_eq_eq] at h
    exact Std.LawfulEqCmp.eq_of_compare h.2

end Letters

section Spelling

/-- **Comparing spellings is lexicographic**: of two names of which one starts the other, the shorter one
has fewer bytes. -/
theorem compareSpelling_ofList (as bs : List Char) :
    compareSpelling (.ofList as) (.ofList bs) = List.compareLex compareLetters as bs := by
  simp only [compareSpelling, String.toList_ofList, String.utf8ByteSize_ofList]
  induction as generalizing bs with
  | nil =>
    cases bs with
    | nil => rfl
    | cons b bs =>
      have hpos := b.utf8Size_pos
      change compare 0 (String.utf8Len (b :: bs)) = .lt
      rw [Nat.compare_eq_lt, String.utf8Len_cons]
      omega
  | cons a as ih =>
    cases bs with
    | nil =>
      have hpos := a.utf8Size_pos
      change compare (String.utf8Len (a :: as)) 0 = .gt
      rw [Nat.compare_eq_gt, String.utf8Len_cons]
      omega
    | cons b bs =>
      rw [firstDifference, List.compareLex]
      by_cases hab : a = b
      · subst hab
        have hself : compareLetters a a = .eq := Std.ReflCmp.compare_self
        rw [if_pos rfl, hself, ← ih bs]
        cases firstDifference as bs with
        | some p => rfl
        | none => simp [Nat.compare_eq_ite_lt]
      · rw [if_neg hab]
        have hne : compareLetters a b ≠ .eq := fun h => hab (Std.LawfulEqCmp.eq_of_compare h)
        cases h : compareLetters a b with
        | eq => exact absurd h hne
        | lt => exact h
        | gt => exact h

theorem compareSpelling_eq (a b : String) :
    compareSpelling a b = List.compareLex compareLetters a.toList b.toList := by
  rw [← compareSpelling_ofList, String.ofList_toList, String.ofList_toList]

instance : Std.TransCmp compareSpelling where
  eq_swap := by
    intro a b
    simp only [compareSpelling_eq]
    exact Std.OrientedCmp.eq_swap
  isLE_trans := by
    intro a b c
    simp only [compareSpelling_eq]
    exact Std.TransCmp.isLE_trans

instance : Std.LawfulEqCmp compareSpelling where
  eq_of_compare h := by
    rw [compareSpelling_eq] at h
    exact String.toList_inj.1 (Std.LawfulEqCmp.eq_of_compare h)

end Spelling

instance : Std.TransCmp collate :=
  inferInstanceAs
    (Std.TransCmp (compareLex (compareOn fun a => smallAll a.toList) compareSpelling))

instance : Std.LawfulEqCmp collate where
  eq_of_compare h := Std.LawfulEqCmp.eq_of_compare (Ordering.then_eq_eq.1 h).2

/-- **The listing order is total.** -/
theorem isTotal_collate : IsTotal collate := .of_instances collate

end Text

namespace Module.Imports

instance : Std.TransCmp compareSpecifiers :=
  inferInstanceAs
    (Std.TransCmp (compareLex (compareOn fun a => (isRelative a).toNat) Text.collate))

instance : Std.LawfulEqCmp compareSpecifiers where
  eq_of_compare h := Std.LawfulEqCmp.eq_of_compare (Ordering.then_eq_eq.1 h).2

theorem isTotal_compareSpecifiers : IsTotal compareSpecifiers := .of_instances compareSpecifiers

end Module.Imports

namespace Entries

variable {α : Type} {cmp : String → String → Ordering} {es es' : Entries α}

/-- Each key stands before those that come after it. -/
def IsSorted (cmp : String → String → Ordering) (es : Entries α) : Prop :=
  es.Pairwise fun a b => cmp a.1 b.1 = .lt

/-- The entries in the order of their keys. -/
def sortBy (cmp : String → String → Ordering) (es : Entries α) : Entries α :=
  es.mergeSort fun a b => cmp a.1 b.1 != .gt

theorem sortBy_perm (cmp : String → String → Ordering) (es : Entries α) : (sortBy cmp es).Perm es :=
  List.mergeSort_perm _ _

variable [Std.TransCmp cmp] [Std.LawfulEqCmp cmp]

/-- **Sorting puts different keys in order.** -/
theorem isSorted_sortBy (h : es.keys.Nodup) : IsSorted cmp (sortBy cmp es) := by
  have hle : (sortBy cmp es).Pairwise fun a b => (cmp a.1 b.1 != .gt) = true := by
    refine List.pairwise_mergeSort (fun a b c hab hbc => ?_) (fun a b => ?_) es
    · simp only [bne_iff_ne, ne_eq, Ordering.ne_gt_iff_isLE] at hab hbc ⊢
      exact Std.TransCmp.isLE_trans hab hbc
    · have hswap : cmp b.1 a.1 = (cmp a.1 b.1).swap := Std.OrientedCmp.eq_swap
      rw [hswap]
      cases cmp a.1 b.1 <;> rfl
  have hne : (sortBy cmp es).Pairwise fun a b => a.1 ≠ b.1 :=
    List.pairwise_map.1 ((((sortBy_perm cmp es).map Prod.fst).nodup_iff).2 h)
  refine (hle.and hne).imp fun {a b} ⟨hab, hdiff⟩ => ?_
  cases hcmp : cmp a.1 b.1 with
  | lt => rfl
  | eq => exact absurd (Std.LawfulEqCmp.eq_of_compare hcmp) hdiff
  | gt => simp [hcmp] at hab

omit [Std.LawfulEqCmp cmp] in
/-- **Entries have one sorted form.** -/
theorem eq_of_perm_of_isSorted (h : es.Perm es') (hs : IsSorted cmp es) (hs' : IsSorted cmp es') :
    es = es' :=
  h.eq_of_pairwise (fun a b _ _ hab hba => by
    have hswap : cmp a.1 b.1 = (cmp b.1 a.1).swap := Std.OrientedCmp.eq_swap
    rw [hswap, hba] at hab
    cases hab) hs hs'

end Entries
end OpenApiClient
