/-
# Reading maps

What is read from a map stands in it, and with different keys everything that stands in it can be
read. Grouping entries by their keys loses none of them and adds none (`perm_group`).
-/

import OpenApiClient.Entries
import Mathlib.Data.List.Perm.Basic
import Mathlib.Data.List.Nodup

namespace OpenApiClient

theorem nodup_snoc {α : Type} {xs : List α} {x : α} (h : xs.Nodup) (hx : x ∉ xs) :
    (xs ++ [x]).Nodup := by
  rw [← List.concat_eq_append]
  exact h.concat hx

/-- Of values that differ in a key, one has a key. -/
theorem filter_eq_singleton {α β : Type} [DecidableEq β] {g : α → β} {xs : List α} {x : α}
    (hn : (xs.map g).Nodup) (hx : x ∈ xs) : xs.filter (g · = g x) = [x] := by
  have hperm : (xs.filter (g · = g x)).Perm [x] := by
    refine (List.perm_ext_iff_of_nodup (hn.of_map.filter _) (List.nodup_singleton x)).2 fun y => ?_
    simp only [List.mem_filter, decide_eq_true_eq, List.mem_singleton]
    exact ⟨fun ⟨hy, hkey⟩ => List.inj_on_of_nodup_map hn hy hx hkey, by rintro rfl; exact ⟨hx, rfl⟩⟩
  exact List.perm_singleton.1 hperm

namespace Entries

variable {α β : Type} {es : Entries α} {k : String} {v : α}

theorem mem_of_at? (h : es.at? k = some v) : (k, v) ∈ es := by
  induction es with
  | nil => simp at h
  | cons e es ih =>
    rw [at?_cons] at h
    split at h
    · next hk => obtain rfl := Option.some.inj h; simp [hk]
    · exact List.mem_cons_of_mem _ (ih h)

theorem at?_eq_none : es.at? k = none ↔ k ∉ es.keys := by
  induction es with
  | nil => simp [keys]
  | cons e es ih =>
    rw [at?_cons]
    by_cases hk : k = e.1
    · simp [hk, keys]
    · simp only [hk, if_false, ih]
      simp [keys, hk]

theorem at?_of_mem (hn : es.keys.Nodup) (h : (k, v) ∈ es) : es.at? k = some v := by
  induction es with
  | nil => simp at h
  | cons e es ih =>
    simp only [keys, List.map_cons, List.nodup_cons] at hn
    rw [at?_cons]
    rcases List.mem_cons.1 h with rfl | h
    · simp
    · have : k ≠ e.1 := fun hk => hn.1 (hk ▸ List.mem_map.2 ⟨_, h, rfl⟩)
      simp [this, ih hn.2 h]

theorem at?_eq_some_iff (hn : es.keys.Nodup) : es.at? k = some v ↔ (k, v) ∈ es :=
  ⟨mem_of_at?, at?_of_mem hn⟩

theorem at?_map (f : String → α → β) (es : Entries α) (k : String) :
    at? (List.map (fun e => (e.1, f e.1 e.2)) es) k = (es.at? k).map (f k) := by
  induction es with
  | nil => rfl
  | cons e es ih =>
    rw [List.map_cons, at?_cons, at?_cons, ih]
    split
    · next hk => rw [hk]; rfl
    · rfl

theorem has_iff : es.has k = true ↔ k ∈ es.keys := by
  rw [has, Option.isSome_iff_ne_none, ne_eq, at?_eq_none, not_not]

theorem has_eq_false : es.has k = false ↔ k ∉ es.keys := by
  rw [← Bool.not_eq_true, has_iff]

@[simp] theorem keys_append (es fs : Entries α) : keys (es ++ fs) = es.keys ++ fs.keys := by
  simp [keys]

theorem length_keys (es : Entries α) : es.keys.length = es.length := List.length_map ..

/-- Different keys are no more than there are entries. -/
theorem length_le_of_nodup {V : List String} (hn : V.Nodup) (hsub : V ⊆ es.keys) :
    V.length ≤ es.length := by
  rw [← length_keys]
  exact (List.subperm_of_subset hn hsub).length_le

/-- The first entries of keys are those that are read. -/
theorem mem_firsts {es : List (String × α)} {e : String × α} :
    e ∈ firsts es ↔ at? es e.1 = some e.2 := by
  suffices h : ∀ (es : List (String × α)) (m : Entries α),
      e ∈ es.foldl (fun m e => if has m e.1 then m else m ++ [e]) m ↔
        e ∈ m ∨ has m e.1 = false ∧ at? es e.1 = some e.2 by
    simpa [has, firsts] using h es []
  intro es
  induction es with
  | nil => simp
  | cons f es ih =>
    intro m
    rw [List.foldl_cons, ih, at?_cons]
    by_cases hf : has m f.1 = true
    · by_cases he : e.1 = f.1 <;> simp [hf, he]
    · by_cases he : e.1 = f.1
      · have hself : has (m ++ [f]) f.1 = true := has_iff.2 (by simp [keys])
        rw [if_neg hf, if_pos he, he, hself]
        simp [hf, Prod.ext_iff, he, eq_comm]
      · have hother : has (m ++ [f]) e.1 = has m e.1 := by
          rw [Bool.eq_iff_iff, has_iff, has_iff, keys_append]
          simp [keys, he]
        have hne : e ≠ f := fun h => he (congrArg Prod.fst h)
        simp [hf, he, hother, hne]

theorem mem_keys_firsts {es : List (String × α)} : k ∈ (firsts es).keys ↔ k ∈ keys es := by
  constructor
  · intro h
    obtain ⟨e, he, rfl⟩ := List.mem_map.1 h
    by_contra hnot
    exact nomatch (at?_eq_none.2 hnot).symm.trans (mem_firsts.1 he)
  · intro h
    obtain ⟨v, hv⟩ := Option.ne_none_iff_exists'.1 (mt at?_eq_none.1 (not_not_intro h))
    exact List.mem_map.2 ⟨(k, v), mem_firsts.2 hv, rfl⟩

theorem nodup_keys_firsts (es : List (String × α)) : (firsts es).keys.Nodup := by
  suffices h : ∀ (es : List (String × α)) (m : Entries α), m.keys.Nodup →
      (es.foldl (fun m e => if has m e.1 then m else m ++ [e]) m).keys.Nodup from
    h es [] List.nodup_nil
  intro es
  induction es with
  | nil => exact fun m hm => hm
  | cons e es ih =>
    intro m hm
    rw [List.foldl_cons]
    split
    · exact ih m hm
    · next hnew =>
      refine ih _ ?_
      rw [keys_append]
      exact nodup_snoc hm fun hmem => hnew (has_iff.2 hmem)

/-- Writing over an entry changes nothing of a map that does not show in the entry. -/
theorem map_put {γ : Type} (g : String × α → γ) {w : α} (h : es.at? k = some v)
    (hg : g (k, w) = g (k, v)) : List.map g (es.put k w) = List.map g es := by
  induction es with
  | nil => simp at h
  | cons e es ih =>
    rw [at?_cons] at h
    rw [put]
    by_cases hk : k = e.1
    · rw [if_pos hk] at h
      obtain ⟨key, value⟩ := e
      obtain ⟨rfl, rfl⟩ : k = key ∧ value = v := ⟨hk, Option.some.inj h⟩
      rw [if_pos rfl, List.map_cons, List.map_cons, hg]
    · rw [if_neg hk] at h
      rw [if_neg fun h' => hk h'.symm, List.map_cons, List.map_cons, ih h]

/-- Writing an entry changes what the entry of its key gives, and leaves the rest. -/
theorem exists_perm_flatMap_put (g : α → List β) (es : Entries α) (k : String) (v : α) :
    ∃ rest, (es.flatMap (g ·.2)).Perm (((es.at? k).map g).getD [] ++ rest) ∧
      ((es.put k v).flatMap (g ·.2)).Perm (g v ++ rest) := by
  induction es with
  | nil => exact ⟨[], by simp, by simp [put]⟩
  | cons e es ih =>
    rw [at?_cons]
    by_cases hk : k = e.1
    · exact ⟨es.flatMap (g ·.2), by simp [hk], by simp [put, hk]⟩
    · obtain ⟨rest, hold, hnew⟩ := ih
      refine ⟨g e.2 ++ rest, ?_, ?_⟩
      · rw [if_neg hk, List.flatMap_cons]
        exact (hold.append_left _).trans (List.perm_append_comm_assoc _ _ _)
      · rw [put, if_neg fun h => hk h.symm, List.flatMap_cons]
        exact (hnew.append_left _).trans (List.perm_append_comm_assoc _ _ _)

/-- The entries of a map with lists as values, one for each value. -/
def spread (m : Entries (List α)) : List (String × α) := m.flatMap fun e => e.2.map (e.1, ·)

theorem perm_spread_put (m : Entries (List α)) (e : String × α) :
    (spread (put m e.1 ((at? m e.1).getD [] ++ [e.2]))).Perm (spread m ++ [e]) := by
  induction m with
  | nil => simp [put, spread]
  | cons f m ih =>
    by_cases h : f.1 = e.1
    · have hf : at? (f :: m) e.1 = some f.2 := by rw [at?_cons]; simp [h]
      simp only [put, h, if_true, hf, Option.getD_some, spread, List.flatMap_cons,
        List.map_append, List.map_cons, List.map_nil, List.append_assoc]
      exact List.Perm.append_left _ List.perm_append_comm
    · have hf : at? (f :: m) e.1 = at? m e.1 := by
        rw [at?_cons]; simp [show ¬ e.1 = f.1 from fun h' => h h'.symm]
      simp only [put, h, if_false, hf, spread, List.flatMap_cons, List.append_assoc]
      exact List.Perm.append_left _ ih

/-- **Grouping loses no entry and adds none.** -/
theorem perm_group (es : List (String × α)) : (spread (group es)).Perm es := by
  suffices h : ∀ (es : List (String × α)) (m : Entries (List α)),
      (spread (es.foldl (fun m e => put m e.1 ((at? m e.1).getD [] ++ [e.2])) m)).Perm
        (spread m ++ es) from h es []
  intro es
  induction es with
  | nil => simp
  | cons e es ih =>
    intro m
    refine (ih _).trans ?_
    simpa using (perm_spread_put m e).append_right es

/-- What is true of each group with one more value is true of the groups. -/
theorem group_induction {P : Entries (List α) → Prop} (start : P [])
    (step : ∀ (m : Entries (List α)) (e : String × α), P m →
      P (put m e.1 ((at? m e.1).getD [] ++ [e.2]))) (es : List (String × α)) : P (group es) := by
  suffices h : ∀ m : Entries (List α), P m →
      P (es.foldl (fun m e => put m e.1 ((at? m e.1).getD [] ++ [e.2])) m) from h [] start
  induction es with
  | nil => exact fun m hm => hm
  | cons e es ih => exact fun m hm => ih _ (step m e hm)

/-- Different groups have different keys. -/
theorem nodup_keys_group (es : List (String × α)) : (group es).keys.Nodup :=
  group_induction (P := fun m => m.keys.Nodup) List.nodup_nil
    (fun _ _ hm => nodup_keys_put hm _ _) es

/-- No group is empty. -/
theorem ne_nil_of_mem_group {es : List (String × α)} {e : String × List α} (he : e ∈ group es) :
    e.2 ≠ [] := by
  revert e
  refine group_induction (P := fun m => ∀ {e}, e ∈ m → e.2 ≠ []) (by simp) (fun m f hm e he => ?_) es
  rcases mem_put he with rfl | he
  · simp
  · exact hm he

end Entries
end OpenApiClient
