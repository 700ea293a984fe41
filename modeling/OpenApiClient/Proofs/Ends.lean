/-
# How a computation ends

A computation on a state gives a result or fails, and leaves a state behind in both cases.
`Ends m s Q E` says of the computation `m`, started in the state `s`, that `Q` holds of the result
and the state left, or `E` of the error and the state left.

A sequence of steps is read step by step (`ends_bind`). Loops are read with an invariant that speaks
of what is done and of what it gave (`ends_mapM`, `ends_forM`, `ends_foldlM`).
-/

namespace OpenApiClient

variable {ε σ α β γ : Type}

/-- From the state `s` the computation gives a result and a state with `Q`, or fails with an error
and a state with `E`. -/
def Ends (m : ExceptT ε (StateM σ) α) (s : σ) (Q : α → σ → Prop) (E : ε → σ → Prop) : Prop :=
  match m.run.run s with
  | (.ok a, t) => Q a t
  | (.error e, t) => E e t

section Rules

variable {s t : σ} {m : ExceptT ε (StateM σ) α} {Q Q' : α → σ → Prop} {E E' : ε → σ → Prop}

theorem Ends.mono (h : Ends m s Q E) (hQ : ∀ a t, Q a t → Q' a t) (hE : ∀ e t, E e t → E' e t) :
    Ends m s Q' E' := by
  unfold Ends at h ⊢
  split at h
  · exact hQ _ _ h
  · exact hE _ _ h

theorem Ends.imp (h : Ends m s Q E) (hQ : ∀ a t, Q a t → Q' a t) : Ends m s Q' E :=
  h.mono hQ fun _ _ he => he

/-- A computation ends in one way. -/
theorem Ends.and (h : Ends m s Q E) (h' : Ends m s Q' E') :
    Ends m s (fun a t => Q a t ∧ Q' a t) fun e t => E e t ∧ E' e t := by
  unfold Ends at h h' ⊢
  split at h
  · next hm =>
    rw [hm] at h'
    exact ⟨h, h'⟩
  · next hm =>
    rw [hm] at h'
    exact ⟨h, h'⟩

/-- What a computation that gave a result ended in. -/
theorem Ends.result {a : α} (h : Ends m s Q E) (hm : m.run.run s = (.ok a, t)) : Q a t := by
  unfold Ends at h
  rwa [hm] at h

/-- What a computation that failed ended in. -/
theorem Ends.failure {e : ε} (h : Ends m s Q E) (hm : m.run.run s = (.error e, t)) : E e t := by
  unfold Ends at h
  rwa [hm] at h

/-- The one way in which the computation ends. -/
theorem ends_iff_run : Ends m s Q E ↔ (∃ a t, m.run.run s = (.ok a, t) ∧ Q a t) ∨
    ∃ e t, m.run.run s = (.error e, t) ∧ E e t := by
  unfold Ends
  rcases m.run.run s with ⟨e | a, t⟩
  · refine ⟨fun h => .inr ⟨e, t, rfl, h⟩, ?_⟩
    rintro (⟨_, _, h, _⟩ | ⟨_, _, h, he⟩) <;> cases h
    exact he
  · refine ⟨fun h => .inl ⟨a, t, rfl, h⟩, ?_⟩
    rintro (⟨_, _, h, ha⟩ | ⟨_, _, h, _⟩) <;> cases h
    exact ha

@[simp] theorem ends_pure {a : α} : Ends (pure a) s Q E ↔ Q a s := Iff.rfl

@[simp] theorem ends_throw {e : ε} : Ends (throw e) s Q E ↔ E e s := Iff.rfl

@[simp] theorem ends_get {Q : σ → σ → Prop} :
    Ends (get : ExceptT ε (StateM σ) σ) s Q E ↔ Q s s := Iff.rfl

@[simp] theorem ends_set {Q : PUnit → σ → Prop} :
    Ends (set t : ExceptT ε (StateM σ) PUnit) s Q E ↔ Q ⟨⟩ t := Iff.rfl

@[simp] theorem ends_modify {f : σ → σ} {Q : PUnit → σ → Prop} :
    Ends (modify f : ExceptT ε (StateM σ) PUnit) s Q E ↔ Q ⟨⟩ (f s) := Iff.rfl

/-- A result of `Except` as a step. -/
theorem ends_mk {x : Except ε α} :
    Ends (ExceptT.mk (pure x)) s Q E ↔
      (∀ a, x = .ok a → Q a s) ∧ ∀ e, x = .error e → E e s := by
  cases x with
  | error e => exact ⟨fun h => ⟨nofun, fun _ h' => by cases h'; exact h⟩, fun h => h.2 e rfl⟩
  | ok a => exact ⟨fun h => ⟨fun _ h' => by cases h'; exact h, nofun⟩, fun h => h.1 a rfl⟩

theorem run_bind (m : ExceptT ε (StateM σ) α) (f : α → ExceptT ε (StateM σ) β) (s : σ) :
    (m >>= f).run.run s = match m.run.run s with
      | (.ok a, t) => (f a).run.run t
      | (.error e, t) => (.error e, t) := by
  change (ExceptT.bindCont f (m.run.run s).1).run (m.run.run s).2 = _
  rcases m.run.run s with ⟨a | a, t⟩ <;> rfl

/-- **Steps are read one after another.** -/
@[simp] theorem ends_bind {f : α → ExceptT ε (StateM σ) β} {Q : β → σ → Prop} :
    Ends (m >>= f) s Q E ↔ Ends m s (fun a t => Ends (f a) t Q E) E := by
  unfold Ends
  rw [run_bind]
  rcases m.run.run s with ⟨a | a, t⟩ <;> rfl

@[simp] theorem ends_map {f : α → β} {Q : β → σ → Prop} :
    Ends (f <$> m) s Q E ↔ Ends m s (fun a t => Q (f a) t) E := by
  rw [map_eq_pure_bind, ends_bind]
  rfl

/-- An error told in other words. -/
@[simp] theorem ends_adapt {ε' : Type} {m : ExceptT ε (StateM σ) α} {f : ε → ε'} {s : σ}
    {Q : α → σ → Prop} {E : ε' → σ → Prop} :
    Ends (m.adapt f) s Q E ↔ Ends m s Q fun e t => E (f e) t := by
  have h : (m.adapt f).run.run s = match m.run.run s with
      | (.ok a, t) => (.ok a, t)
      | (.error e, t) => (.error (f e), t) := by
    change ((m.run.run s).1.mapError f, (m.run.run s).2) = _
    rcases m.run.run s with ⟨a | a, t⟩ <;> rfl
  unfold Ends
  rw [h]
  rcases m.run.run s with ⟨a | a, t⟩ <;> rfl

end Rules

section Loops

variable {E : ε → σ → Prop}

/-- **A loop that collects results.**  The invariant speaks of the elements that are done, of what
they gave, and of the state. -/
theorem ends_mapM {f : α → ExceptT ε (StateM σ) β} {xs : List α} {s : σ}
    (I : List α → List β → σ → Prop) (start : I [] [] s)
    (step : ∀ done x rest ys t, done ++ x :: rest = xs → I done ys t →
      Ends (f x) t (fun y u => I (done ++ [x]) (ys ++ [y]) u) E) :
    Ends (xs.mapM f) s (fun ys t => I xs ys t) E := by
  suffices h : ∀ rest done ys t, done ++ rest = xs → I done ys t →
      Ends (rest.mapM f) t (fun more u => I xs (ys ++ more) u) E by
    simpa using h xs [] [] s rfl start
  intro rest
  induction rest with
  | nil =>
    intro done ys t hd hI
    simpa [← hd] using hI
  | cons x rest ih =>
    intro done ys t hd hI
    rw [List.mapM_cons, ends_bind]
    refine (step done x rest ys t hd hI).imp fun y u hu => ?_
    rw [ends_bind]
    refine (ih (done ++ [x]) (ys ++ [y]) u (by simp [hd]) hu).imp fun more v hv => ?_
    simpa using hv

/-- **A loop without results.** -/
theorem ends_forM {f : α → ExceptT ε (StateM σ) PUnit} {xs : List α} {s : σ}
    (I : List α → σ → Prop) (start : I [] s)
    (step : ∀ done x rest t, done ++ x :: rest = xs → I done t →
      Ends (f x) t (fun _ u => I (done ++ [x]) u) E) :
    Ends (xs.forM f) s (fun _ t => I xs t) E := by
  suffices h : ∀ rest done t, done ++ rest = xs → I done t →
      Ends (rest.forM f) t (fun _ u => I xs u) E from h xs [] s rfl start
  intro rest
  induction rest with
  | nil =>
    intro done t hd hI
    simpa [← hd] using hI
  | cons x rest ih =>
    intro done t hd hI
    rw [show (x :: rest).forM f = (f x >>= fun _ => rest.forM f) from rfl, ends_bind]
    exact (step done x rest t hd hI).imp fun _ u hu => ih (done ++ [x]) u (by simp [hd]) hu

/-- **A loop with an accumulator.** -/
theorem ends_foldlM {f : β → α → ExceptT ε (StateM σ) β} {xs : List α} {b : β} {s : σ}
    (I : List α → β → σ → Prop) (start : I [] b s)
    (step : ∀ done x rest b t, done ++ x :: rest = xs → I done b t →
      Ends (f b x) t (fun c u => I (done ++ [x]) c u) E) :
    Ends (xs.foldlM f b) s (fun c t => I xs c t) E := by
  suffices h : ∀ rest done b t, done ++ rest = xs → I done b t →
      Ends (rest.foldlM f b) t (fun c u => I xs c u) E from h xs [] b s rfl start
  intro rest
  induction rest with
  | nil =>
    intro done b t hd hI
    simpa [← hd] using hI
  | cons x rest ih =>
    intro done b t hd hI
    rw [List.foldlM_cons, ends_bind]
    exact (step done x rest b t hd hI).imp fun c u hu => ih (done ++ [x]) c u (by simp [hd]) hu

end Loops

end OpenApiClient
