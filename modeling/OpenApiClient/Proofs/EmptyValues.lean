/-
# Components of a valid document have empty values

Building the empty value of a component walks into what it refers to, inherits and requires, and
never into a component that it is in already. In a valid document the walk meets no reference that
leads nowhere, wherever it stops, and leaves every component that it enters (`emptyValue_settles`). The
values are plain: they refer to nothing, and have no types in them (`Expr.IsPlain`).
-/

import OpenApiClient.Client.Model.EmptyValue
import OpenApiClient.Proofs.Ends
import OpenApiClient.Proofs.References
import OpenApiClient.Proofs.Valid
import Mathlib.Logic.Function.Iterate

namespace OpenApiClient
namespace TypeScript
namespace Expr

/-- The expression is built from literals, `undefined`, arrays and objects. -/
inductive IsPlain : Expr → Prop where
  | string (value : String) : IsPlain (.string value)
  | number (value : Decimal.Double) : IsPlain (.number value)
  | bool (value : Bool) : IsPlain (.bool value)
  | undefined : IsPlain .undefined
  | array {xs : List Expr} : (∀ x ∈ xs, IsPlain x) → IsPlain (.array xs)
  | object {es : List ObjectEntry} : (∀ key, .shorthand key ∉ es) →
      (∀ key x, .entry key x ∈ es → IsPlain x) → IsPlain (.object es)

theorem isPlain_object_append {es es' : List ObjectEntry} (h : (Expr.object es).IsPlain)
    (h' : (Expr.object es').IsPlain) : (Expr.object (es ++ es')).IsPlain := by
  cases h with
  | object hkeys hvalues =>
    cases h' with
    | object hkeys' hvalues' =>
      refine .object (fun key hmem => ?_) fun key x hmem => ?_
      · exact (List.mem_append.1 hmem).elim (hkeys key) (hkeys' key)
      · exact (List.mem_append.1 hmem).elim (hvalues key x) (hvalues' key x)

theorem isPlain_object_singleton {key : String} {x : Expr} (h : x.IsPlain) :
    (Expr.object [.entry key x]).IsPlain :=
  .object (by simp) fun _ _ hmem => by
    obtain ⟨-, rfl⟩ := ObjectEntry.entry.inj (List.mem_singleton.1 hmem)
    exact h

/-- A plain expression refers to no types. -/
theorem IsPlain.references_eq_nil {x : Expr} (h : x.IsPlain) : x.references = [] := by
  induction h with
  | @array xs _ ih =>
    rw [references, List.eq_nil_iff_forall_not_mem]
    intro r hr
    obtain ⟨x, hx, hr⟩ := mem_referencesOfAll.1 hr
    simp [ih x hx] at hr
  | @object es _ _ ih =>
    rw [references, List.eq_nil_iff_forall_not_mem]
    intro r hr
    obtain ⟨key, x, hx, hr⟩ := mem_referencesOfEntries.1 hr
    simp [ih key x hx] at hr
  | _ => rfl

end Expr
end TypeScript

namespace Client

open OpenApi TypeScript

namespace Visiting

variable {α β : Type} {s : List String} {m : Visiting α} {Q Q' : α → Prop} {R : β → Prop}

/-- The computation does not fail in the components `s`; it leaves those that it enters, and `Q` holds
of its result. -/
def Settles (s : List String) (m : Visiting α) (Q : α → Prop) : Prop :=
  Ends m s (fun a t => t = s ∧ Q a) fun _ _ => False

theorem Settles.pure {a : α} (h : Q a) : Settles s (pure a) Q := ⟨rfl, h⟩

theorem Settles.mono (hm : Settles s m Q) (h : ∀ a, Q a → Q' a) : Settles s m Q' :=
  Ends.imp hm fun a _ ha => ⟨ha.1, h a ha.2⟩

theorem Settles.bind {f : α → Visiting β} (hm : Settles s m Q) (hf : ∀ a, Q a → Settles s (f a) R) :
    Settles s (m >>= f) R :=
  ends_bind.2 <| Ends.imp hm fun a t ⟨ht, ha⟩ => by
    subst ht
    exact hf a ha

theorem Settles.lift {x : Except ReferenceError α} {a : α} {f : α → Visiting β} (h : x = .ok a)
    (hf : Settles s (f a) R) : Settles s (ExceptT.mk (Pure.pure x) >>= f) R := by
  subst h
  exact ends_bind.2 hf

/-- A loop keeps what each of its steps keeps. -/
theorem Settles.foldlM {f : β → α → Visiting β} {xs : List α} {b : β} (hb : R b)
    (h : ∀ x ∈ xs, ∀ b, R b → Settles s (f b x) R) : Settles s (xs.foldlM f b) R := by
  induction xs generalizing b with
  | nil => exact .pure hb
  | cons x xs ih =>
    rw [List.foldlM_cons]
    exact .bind (h x (by simp) b hb) fun c hc => ih hc fun x hx => h x (by simp [hx])

/-- A loop does to what is read off its state what each of its steps does. -/
theorem Settles.foldlM_eq {γ : Type} {f : β → α → Visiting β} {g : β → γ} {h : γ → α → γ}
    {xs : List α} {b : β} (hf : ∀ x ∈ xs, ∀ b, Settles s (f b x) fun b' => g b' = h (g b) x) :
    Settles s (xs.foldlM f b) fun b' => g b' = xs.foldl h (g b) := by
  induction xs generalizing b with
  | nil => exact .pure rfl
  | cons x xs ih =>
    rw [List.foldlM_cons]
    refine .bind (hf x (by simp) b) fun c hc => ?_
    rw [List.foldl_cons, ← hc]
    exact ih fun x hx => hf x (by simp [hx])

/-- A component is entered and left. -/
theorem Settles.leaving {component : String} (hm : Settles (component :: s) m Q) :
    Ends (leaving component m) (component :: s) (fun a t => t = s ∧ Q a) fun _ _ => False := by
  have hr : (Client.leaving component m).run.run (component :: s) =
      ((m.run.run (component :: s)).1, (m.run.run (component :: s)).2.erase component) := rfl
  unfold Settles Ends at hm
  unfold Ends
  rw [hr]
  split at hm
  · next h =>
    rw [h]
    exact ⟨by simp [hm.1], hm.2⟩
  · exact hm.elim

end Visiting

namespace Emptiness

open Visiting

/-- Both the value and what is inherited can be built in the components `v`, and are plain. -/
structure Settles (v : List String) (e : Emptiness) : Prop where
  value : Visiting.Settles v e.value Expr.IsPlain
  extend : ∀ es, (Expr.object es).IsPlain →
    Visiting.Settles v (e.extend es) fun es' => (Expr.object es').IsPlain

variable {c : Components} {component : String → Visiting Expr} {v : List String}
  (hcomponent : ∀ n, c.Leads n → Visiting.Settles v (component n) Expr.IsPlain)

section Objects

variable {s : SchemaObject} (h : ∀ x ∈ s.children, (ofSchema component x).Settles v)
include h

theorem addEntries_settles {es : List ObjectEntry} (hes : (Expr.object es).IsPlain) :
    Visiting.Settles v (addEntries (s.map fun x => (x, ofSchema component x)) es) fun es' =>
      (Expr.object es').IsPlain := by
  refine .bind (.foldlM hes fun p hp es hes => ?_) fun es hes => .foldlM hes fun name _ es hes => ?_
  · obtain ⟨x, hx, rfl⟩ := List.mem_map.1 hp
    exact (h x (SchemaOf.mem_children.2 (by tauto))).extend es hes
  · unfold addRequired
    split
    · exact .pure hes
    · next p hp =>
      obtain ⟨⟨n, x⟩, hx, he⟩ := List.mem_map.1 (Entries.mem_of_at? hp)
      obtain ⟨-, rfl⟩ := Prod.mk.inj he
      split
      · exact .pure hes
      · refine .bind (h x (SchemaOf.mem_children.2 (.inl ⟨n, hx⟩))).value fun e he => .pure ?_
        exact Expr.isPlain_object_append hes (Expr.isPlain_object_singleton he)

end Objects

include hcomponent

theorem pointee_settles {pointer : String} (h : c.Closed (.ref pointer)) :
    Visiting.Settles v (pointee component pointer) Expr.IsPlain := by
  obtain ⟨n, hp, hl⟩ := Components.closed_ref.1 h
  exact .lift hp (hcomponent n hl)

theorem ofSchema_settles {s : Schema} (hs : c.Closed s) : (ofSchema component s).Settles v := by
  induction s using Schema.induct with
  | ref p =>
    rw [ofSchema, Schema.para_ref]
    refine ⟨pointee_settles hcomponent hs, fun es hes =>
      .bind (pointee_settles hcomponent hs) fun e he => ?_⟩
    split
    · exact .pure (Expr.isPlain_object_append hes he)
    · exact .pure hes
  | inline s ih =>
    have hc := Components.closed_inline.1 hs
    have h := fun x hx => ih x hx (hc x hx)
    rw [ofSchema, Schema.para_inline]
    refine ⟨?_, fun es => addEntries_settles h⟩
    change Visiting.Settles v (valueOf component _) _
    unfold valueOf
    rw [SchemaOf.wrapped?_map]
    split
    · exact .pure .undefined
    split
    · next pointer hp =>
      split
      · exact .pure .undefined
      · exact pointee_settles hcomponent (hc _ (Schema.ref_mem_children hp))
    · dsimp only
      split
      · exact .pure .undefined
      split
      · exact .pure (.string "")
      · exact .pure (.number _)
      · exact .pure (.number _)
      · exact .pure (.bool false)
      · exact .pure (.array nofun)
      · exact .pure .undefined
      · split
        · exact .pure .undefined
        · exact .bind (addEntries_settles h (.object nofun nofun)) fun es hes => .pure hes

end Emptiness

section Steps

/-- A component is entered from outside: `deeper` gives the values of those that it leads to. -/
def enterComponent (c : Components) (transfers : Entries TransferTarget) (deeper : String → Visiting Expr)
    (component : String) : Visiting Expr := do
  if transfers.has component || (← get).contains component then return .undefined
  modify (component :: ·)
  let s ← c.schema component
  leaving component (Emptiness.ofSchema deeper (.inline s)).value

theorem emptyValue_succ (c : Components) (transfers : Entries TransferTarget) (fuel : Nat) :
    emptyValue c transfers (fuel + 1) = enterComponent c transfers (emptyValue c transfers fuel) := rfl

/-- The empty values of components are built by entering them, as often as there is fuel. -/
theorem emptyValue_eq_iterate (c : Components) (transfers : Entries TransferTarget) (fuel : Nat) :
    emptyValue c transfers fuel = (enterComponent c transfers)^[fuel] fun _ => pure .undefined := by
  induction fuel with
  | zero => rfl
  | succ fuel ih =>
    rw [Function.iterate_succ_apply', ← ih, emptyValue_succ]

variable {c : Components} {transfers : Entries TransferTarget} {deeper : String → Visiting Expr}
  {component : String} {v : List String}

/-- A component that is in the components already, or has a target, is not entered. -/
theorem enterComponent_run_of_stop (hstop : transfers.has component = true ∨ component ∈ v) :
    (enterComponent c transfers deeper component).run.run v = (.ok .undefined, v) := by
  have hcond : (transfers.has component || v.contains component) = true := by
    simpa [List.contains_iff_mem] using hstop
  unfold enterComponent
  rw [run_bind]
  change StateT.run (ExceptT.run (if (transfers.has component || v.contains component) = true
    then _ else _)) v = _
  rw [if_pos hcond]
  rfl

/-- A component is entered, and left with the value of its schema. -/
theorem enterComponent_run_of_enter (hstop : ¬ (transfers.has component = true ∨ component ∈ v)) :
    (enterComponent c transfers deeper component).run.run v = match c.schema component with
      | .error e => (.error e, component :: v)
      | .ok s =>
        let r := (Emptiness.ofSchema deeper (.inline s)).value.run.run (component :: v)
        (r.1, r.2.erase component) := by
  have hcond : ¬ (transfers.has component || v.contains component) = true := by
    simpa [List.contains_iff_mem] using hstop
  unfold enterComponent
  rw [run_bind]
  change StateT.run (ExceptT.run (if (transfers.has component || v.contains component) = true
    then _ else _)) v = _
  rw [if_neg hcond]
  cases c.schema component <;> rfl

end Steps

/-- The empty value of a component is undefined, or that of its schema, in the component. -/
theorem emptyValue_enters {c : Components} {transfers : Entries TransferTarget} {fuel : Nat}
    {component : String} {v : List String} {Q : Expr → Prop} {s : SchemaObject}
    (hs : c.schema component = .ok s)
    (hstop : transfers.has component = true ∨ component ∈ v → Q .undefined)
    (hvalue : transfers.has component = false → component ∉ v → Visiting.Settles (component :: v)
      (Emptiness.ofSchema (emptyValue c transfers fuel) (.inline s)).value Q) :
    Visiting.Settles v (emptyValue c transfers (fuel + 1) component) Q := by
  have enter : transfers.has component = false → component ∉ v → Visiting.Settles v (do
      modify (component :: ·)
      let s ← c.schema component
      leaving component (Emptiness.ofSchema (emptyValue c transfers fuel) (.inline s)).value) Q := by
    intro hfree hnew
    refine ends_bind.2 (ends_modify.2 ?_)
    rw [hs]
    exact ends_bind.2 (hvalue hfree hnew).leaving
  unfold emptyValue
  refine ends_bind.2 (ends_get.2 ?_)
  split
  · next h => exact ⟨rfl, hstop (by simpa using h)⟩
  · next h =>
    rw [Bool.or_eq_true, not_or, Bool.not_eq_true, List.contains_iff_mem] at h
    exact enter h.1 h.2

/-- **Every component of a valid document has an empty value.** -/
theorem emptyValue_settles {c : Components} (hc : c.Valid) (transfers : Entries TransferTarget) :
    ∀ (fuel : Nat) (component : String), c.Leads component → ∀ v,
      Visiting.Settles v (emptyValue c transfers fuel component) Expr.IsPlain
  | 0, _, _, _ => .pure .undefined
  | fuel + 1, component, ⟨_, hs⟩, v =>
    emptyValue_enters hs (fun _ => .undefined) fun _ _ => (Emptiness.ofSchema_settles
      (fun n hn => emptyValue_settles hc transfers fuel n hn (component :: v))
      (hc.closed_of_schema hs)).value

theorem exists_emptyValueOf {c : Components} {transfers : Entries TransferTarget} {component : String}
    {Q : Expr → Prop}
    (h : Visiting.Settles [] (emptyValue c transfers (c.schemas.length + 1) component) Q) :
    ∃ e, emptyValueOf c transfers component = .ok e ∧ Q e := by
  unfold Visiting.Settles Ends at h
  unfold emptyValueOf
  split at h
  · next e _ he => exact ⟨e, by rw [he], h.2⟩
  · exact h.elim

theorem emptyValueOf_ok {c : Components} (hc : c.Valid) (transfers : Entries TransferTarget)
    {component : String} (h : c.Leads component) :
    ∃ e, emptyValueOf c transfers component = .ok e ∧ e.IsPlain :=
  exists_emptyValueOf (emptyValue_settles hc transfers _ component h [])

end Client
end OpenApiClient
