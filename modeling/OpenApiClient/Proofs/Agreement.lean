/-
# Computations that agree

Two computations that know different things may still do the same. `Follows E m m'` says that from
every state `m'` ends as `m` does, in the result and in the state left, unless `m` fails with an
error of `E`: what `m` misses, `m'` may have. `Upholds` says it of results without a state.

The rules follow the steps of computations, as those of `Ends` do (`Follows.bind`, `Follows.mapM`,
`Follows.foldlM`), so that two computations of one shape agree if their steps do.
-/

import OpenApiClient.Proofs.Ends

namespace OpenApiClient

variable {ε σ α β : Type}

/-- What the first computation gives, the second gives. -/
def Upholds (x x' : Except ε α) : Prop := ∀ a, x = .ok a → x' = .ok a

namespace Upholds

variable {x x' : Except ε α}

theorem refl (x : Except ε α) : Upholds x x := fun _ h => h

theorem bind {f f' : α → Except ε β} (hx : Upholds x x')
    (hf : ∀ a, x = .ok a → Upholds (f a) (f' a)) : Upholds (x >>= f) (x' >>= f') := by
  intro b hb
  cases x with
  | error e => cases hb
  | ok a =>
    rw [hx a rfl]
    exact hf a rfl b hb

theorem mapM {f f' : α → Except ε β} {xs : List α} (h : ∀ x ∈ xs, Upholds (f x) (f' x)) :
    Upholds (xs.mapM f) (xs.mapM f') := by
  induction xs with
  | nil => exact refl _
  | cons x xs ih =>
    rw [List.mapM_cons, List.mapM_cons]
    refine (h x List.mem_cons_self).bind fun y _ => ?_
    exact (ih fun z hz => h z (List.mem_cons_of_mem _ hz)).bind fun _ _ => refl _

theorem optionMapM {f f' : α → Except ε β} {o : Option α} (h : ∀ x ∈ o, Upholds (f x) (f' x)) :
    Upholds (o.mapM f) (o.mapM f') := by
  cases o with
  | none => exact refl _
  | some x => exact (h x rfl).bind fun _ _ => refl _

/-- A loop, with an invariant of the first computation. -/
theorem foldlM {f f' : β → α → Except ε β} {xs : List α} {b : β} (I : β → Prop) (hb : I b)
    (h : ∀ x ∈ xs, ∀ b, I b → Upholds (f b x) (f' b x) ∧ ∀ b', f b x = .ok b' → I b') :
    Upholds (xs.foldlM f b) (xs.foldlM f' b) ∧ ∀ b', xs.foldlM f b = .ok b' → I b' := by
  induction xs generalizing b with
  | nil =>
    refine ⟨refl _, fun b' hb' => ?_⟩
    obtain rfl := Except.ok.inj hb'
    exact hb
  | cons x xs ih =>
    obtain ⟨hx, hI⟩ := h x List.mem_cons_self b hb
    have hrest := fun b' hb' => ih (b := b') (hI b' hb') fun y hy => h y (List.mem_cons_of_mem _ hy)
    rw [List.foldlM_cons, List.foldlM_cons]
    refine ⟨hx.bind fun b' hb' => (hrest b' hb').1, fun b'' hb'' => ?_⟩
    cases hfx : f b x with
    | error e => rw [hfx] at hb''; cases hb''
    | ok b' =>
      rw [hfx] at hb''
      exact (hrest b' hfx).2 b'' hb''

end Upholds

/-- From every state the second computation ends as the first does, unless the first fails with an
error of `E`. -/
def Follows (E : ε → Prop) (m m' : ExceptT ε (StateM σ) α) : Prop :=
  ∀ s, m'.run.run s = m.run.run s ∨ ∃ e, E e ∧ (m.run.run s).1 = .error e

namespace Follows

variable {E : ε → Prop} {m m' : ExceptT ε (StateM σ) α}

theorem refl (m : ExceptT ε (StateM σ) α) : Follows E m m := fun _ => .inl rfl

/-- A computation that fails in any case can be followed by any. -/
theorem of_fails (h : ∀ s, ∃ e, E e ∧ (m.run.run s).1 = .error e) : Follows E m m' := fun s =>
  .inr (h s)

/-- Nor does it matter what is done after it has failed. -/
theorem of_bind_fails {f : α → ExceptT ε (StateM σ) β} {n : ExceptT ε (StateM σ) β}
    (h : ∀ s, ∃ e, E e ∧ (m.run.run s).1 = .error e) : Follows E (m >>= f) n := fun s => by
  obtain ⟨e, he, hs⟩ := h s
  refine .inr ⟨e, he, ?_⟩
  rw [run_bind]
  rcases hm : m.run.run s with ⟨e' | a, t⟩ <;> rw [hm] at hs
  · obtain rfl : e' = e := Except.error.inj hs
    rfl
  · cases hs

/-- **Steps agree one after another.** -/
theorem bind {f f' : α → ExceptT ε (StateM σ) β} (hm : Follows E m m')
    (hf : ∀ a, Follows E (f a) (f' a)) : Follows E (m >>= f) (m' >>= f') := by
  intro s
  rw [run_bind, run_bind]
  rcases hm s with h | ⟨e, he, h⟩
  · rw [h]
    rcases m.run.run s with ⟨e | a, t⟩
    · exact .inl rfl
    · exact hf a t
  · refine .inr ⟨e, he, ?_⟩
    rcases hs : m.run.run s with ⟨e' | a, t⟩ <;> rw [hs] at h
    · obtain rfl : e' = e := Except.error.inj h
      rfl
    · cases h

/-- What follows a failure is never done. -/
theorem throw_bind (e : ε) (f f' : α → ExceptT ε (StateM σ) β) :
    Follows E (throw e >>= f) (throw e >>= f') := fun _ => .inl rfl

theorem map {g : α → β} (hm : Follows E m m') : Follows E (g <$> m) (g <$> m') := by
  rw [map_eq_pure_bind, map_eq_pure_bind]
  exact hm.bind fun _ => refl _

/-- A check as a step. -/
theorem lift {x x' : Except ε α} (h : Upholds x x') (he : ∀ e, x = .error e → E e) :
    Follows E (ExceptT.mk (pure x) : ExceptT ε (StateM σ) α) (ExceptT.mk (pure x')) := by
  intro s
  cases x with
  | ok a =>
    rw [h a rfl]
    exact .inl rfl
  | error e => exact .inr ⟨e, he e rfl, rfl⟩

/-- An error told in other words. -/
theorem adapt {ε' : Type} {E' : ε' → Prop} {f : ε → ε'} (hm : Follows E m m')
    (hE : ∀ e, E e → E' (f e)) : Follows E' (m.adapt f) (m'.adapt f) := by
  have hrun : ∀ (m : ExceptT ε (StateM σ) α) s, (m.adapt f).run.run s =
      ((m.run.run s).1.mapError f, (m.run.run s).2) := fun _ _ => rfl
  intro s
  rw [hrun, hrun]
  rcases hm s with h | ⟨e, he, h⟩
  · exact .inl (by rw [h])
  · exact .inr ⟨f e, hE e he, by rw [h]; rfl⟩

theorem mapM {f f' : α → ExceptT ε (StateM σ) β} {xs : List α}
    (h : ∀ x ∈ xs, Follows E (f x) (f' x)) : Follows E (xs.mapM f) (xs.mapM f') := by
  induction xs with
  | nil => exact refl _
  | cons x xs ih =>
    rw [List.mapM_cons, List.mapM_cons]
    refine (h x List.mem_cons_self).bind fun y => ?_
    exact (ih fun z hz => h z (List.mem_cons_of_mem _ hz)).bind fun _ => refl _

theorem foldlM {f f' : β → α → ExceptT ε (StateM σ) β} {xs : List α} {b : β}
    (h : ∀ x ∈ xs, ∀ b, Follows E (f b x) (f' b x)) : Follows E (xs.foldlM f b) (xs.foldlM f' b) := by
  induction xs generalizing b with
  | nil => exact refl _
  | cons x xs ih =>
    rw [List.foldlM_cons, List.foldlM_cons]
    exact (h x List.mem_cons_self b).bind fun c => ih fun y hy => h y (List.mem_cons_of_mem _ hy)

theorem forM {f f' : α → ExceptT ε (StateM σ) PUnit} {xs : List α}
    (h : ∀ x ∈ xs, Follows E (f x) (f' x)) : Follows E (xs.forM f) (xs.forM f') := by
  induction xs with
  | nil => exact refl _
  | cons x xs ih =>
    change Follows E (f x >>= fun _ => xs.forM f) (f' x >>= fun _ => xs.forM f')
    exact (h x List.mem_cons_self).bind fun _ => ih fun y hy => h y (List.mem_cons_of_mem _ hy)

/-- The second computation ends as the first does when the first does not fail with an error of
`E`. -/
theorem eq (hm : Follows E m m') {s : σ} (h : Ends m s (fun _ _ => True) fun e _ => ¬ E e) :
    m'.run.run s = m.run.run s := by
  refine (hm s).resolve_right ?_
  rintro ⟨e, he, hs⟩
  unfold Ends at h
  split at h
  · next hok =>
    rw [hok] at hs
    cases hs
  · next e' t herror =>
    rw [herror] at hs
    obtain rfl : e' = e := Except.error.inj hs
    exact h he

end Follows

end OpenApiClient
