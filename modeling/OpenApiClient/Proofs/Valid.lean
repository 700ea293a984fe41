/-
# Valid documents

`Document.validate` walks over a document and stops at the first reference that leads nowhere. What
is left when it finds none is said here without its order: a schema is *closed* when each reference
in it leads to a schema, a document is *valid* when its components are closed and lead to schemas,
and its operations refer to values whose schemas are closed (`valid_of_validate`).

Closedness is inherited by the schemas inside a schema (`closed_inline`) and by every schema that a
name leads to (`Components.Valid.closed_of_schema`), so that who follows references in a valid
document never leaves it.
-/

import OpenApiClient.OpenApi.Validation
import OpenApiClient.Proofs.Entries
import OpenApiClient.Proofs.Schema

namespace OpenApiClient
namespace OpenApi

theorem forM_eq_ok {ε α : Type} {f : α → Except ε PUnit} {xs : List α} :
    xs.forM f = .ok ⟨⟩ ↔ ∀ x ∈ xs, f x = .ok ⟨⟩ := by
  induction xs with
  | nil => simp [List.forM, pure, Except.pure]
  | cons x xs ih =>
    rw [show (x :: xs).forM f = (f x >>= fun _ => xs.forM f) from rfl]
    cases hx : f x with
    | error e => simp [bind, Except.bind, hx]
    | ok u => simpa [bind, Except.bind, hx] using ih

theorem bind_eq_ok {ε α β : Type} {x : Except ε α} {f : α → Except ε β} {b : β} :
    (x >>= f) = .ok b ↔ ∃ a, x = .ok a ∧ f a = .ok b := by
  cases x <;> simp [bind, Except.bind]

theorem map_eq_ok {ε α β : Type} {x : Except ε α} {f : α → β} {b : β} :
    x.map f = .ok b ↔ ∃ a, x = .ok a ∧ f a = b := by
  cases x <;> simp [Except.map]

theorem discard_eq_ok {ε α : Type} {x : Except ε α} {u : PUnit} :
    discard x = .ok u ↔ ∃ a, x = .ok a := by
  cases x <;> simp [discard, Functor.discard, Functor.mapConst, Except.map]

theorem eq_ok_of_toOption {ε α : Type} {x : Except ε α} {a : α} (h : x.toOption = some a) :
    x = .ok a := by
  cases x with
  | error e => cases h
  | ok b => exact congrArg _ (Option.some.inj h)

theorem exists_mapM_eq_ok {ε α β : Type} {f : α → Except ε β} {xs : List α} {Q : β → Prop}
    (h : ∀ x ∈ xs, ∃ y, f x = .ok y ∧ Q y) : ∃ ys, xs.mapM f = .ok ys ∧ ∀ y ∈ ys, Q y := by
  induction xs with
  | nil => exact ⟨[], rfl, by simp⟩
  | cons x xs ih =>
    obtain ⟨y, hy, hq⟩ := h x (by simp)
    obtain ⟨ys, hys, hqs⟩ := ih fun x hx => h x (by simp [hx])
    refine ⟨y :: ys, by rw [List.mapM_cons, hy, hys]; rfl, ?_⟩
    simpa using ⟨hq, hqs⟩

theorem exists_eq_error_of_mapM {ε α β : Type} {f : α → Except ε β} {xs : List α} {e : ε}
    (h : xs.mapM f = .error e) : ∃ x ∈ xs, f x = .error e := by
  induction xs with
  | nil => cases h
  | cons x xs ih =>
    rw [List.mapM_cons] at h
    cases hx : f x with
    | error e' =>
      rw [hx] at h
      have h : Except.error e' = .error e := h
      exact ⟨x, by simp, hx.trans (congrArg _ (Except.error.inj h))⟩
    | ok y =>
      cases hxs : xs.mapM f with
      | error e' =>
        rw [hx, hxs] at h
        have h : Except.error e' = .error e := h
        obtain ⟨x', hx', hf⟩ := ih (hxs.trans (congrArg _ (Except.error.inj h)))
        exact ⟨x', by simp [hx'], hf⟩
      | ok ys => rw [hx, hxs] at h; cases h

theorem exists_foldlM_eq_ok {ε α β : Type} {f : β → α → Except ε β} {xs : List α}
    (h : ∀ x ∈ xs, ∀ b, ∃ b', f b x = .ok b') (b : β) : ∃ b', xs.foldlM f b = .ok b' := by
  induction xs generalizing b with
  | nil => exact ⟨b, rfl⟩
  | cons x xs ih =>
    obtain ⟨b', hb⟩ := h x (by simp) b
    rw [List.foldlM_cons, hb]
    exact ih (fun x hx => h x (by simp [hx])) b'

namespace Components

variable (c : Components)

/-- The name leads to a schema. -/
def Leads (name : String) : Prop := ∃ o, c.schema name = .ok o

/-- Each reference in the schema leads to a schema. -/
def Closed (s : Schema) : Prop := ∀ p ∈ s.pointers, ∃ name, componentName p = .ok name ∧ c.Leads name

/-- Each reference in the payloads leads to a schema. -/
def ClosedContent (content : Content) : Prop :=
  ∀ m ∈ content.values, ∀ s, m.schema = some s → c.Closed s

/-- The parameter can be found, and its schema is closed. -/
def ValidParameter (p : Referable Parameter) : Prop :=
  ∃ x, c.resolveItem p = .ok x ∧ ∀ s, x.schema = some s → c.Closed s

/-- The body can be found, and its schemas are closed. -/
def ValidRequestBody (b : Referable RequestBody) : Prop :=
  ∃ x, c.resolveItem b = .ok x ∧ c.ClosedContent x.content

/-- The response can be found, and its schemas are closed. -/
def ValidResponse (r : Referable Response) : Prop :=
  ∃ x, c.resolveItem r = .ok x ∧ c.ClosedContent x.content

/-- What the operation refers to can be found, and its schemas are closed. -/
structure ValidOperation (o : Operation) : Prop where
  parameters : ∀ p ∈ o.parameters, c.ValidParameter p
  requestBody : ∀ b, o.requestBody = some b → c.ValidRequestBody b
  responses : ∀ r ∈ o.responses.values, c.ValidResponse r

/-- The schemas are closed, and their names lead to schemas. -/
structure Valid : Prop where
  closed : ∀ e ∈ c.schemas, c.Closed e.2
  leads : ∀ e ∈ c.schemas, c.Leads e.1

variable {c}

theorem closed_ref {p : String} :
    c.Closed (.ref p) ↔ ∃ name, componentName p = .ok name ∧ c.Leads name := by
  simp [Closed]

/-- **An object is closed when the schemas inside it are.** -/
theorem closed_inline {s : SchemaObject} :
    c.Closed (.inline s) ↔ ∀ x ∈ s.children, c.Closed x := by
  simp only [Closed, Schema.pointers_inline, List.mem_flatMap, forall_exists_index, and_imp]
  exact ⟨fun h x hx p hp => h p x hx hp, fun h p x hx hp => h x hx p hp⟩

theorem checkSchema_eq_ok {s : Schema} : c.checkSchema s = .ok () ↔ c.Closed s := by
  rw [checkSchema, forM_eq_ok]
  refine forall₂_congr fun p _ => ?_
  rw [discard_eq_ok]
  simp only [resolve, Leads]
  cases componentName p <;> simp [Except.bind]

theorem checkSchema?_eq_ok {s : Option Schema} :
    c.checkSchema? s = .ok () ↔ ∀ x, s = some x → c.Closed x := by
  cases s <;> simp [checkSchema?, checkSchema_eq_ok]

theorem checkContent_eq_ok {content : Content} :
    c.checkContent content = .ok () ↔ c.ClosedContent content := by
  rw [checkContent, forM_eq_ok]
  exact forall₂_congr fun m _ => checkSchema?_eq_ok

theorem checkParameter_eq_ok {p : Referable Parameter} :
    c.checkParameter p = .ok () ↔ c.ValidParameter p := by
  simp only [checkParameter, bind_eq_ok, checkSchema?_eq_ok, ValidParameter]

theorem checkRequestBody_eq_ok {b : Referable RequestBody} :
    c.checkRequestBody b = .ok () ↔ c.ValidRequestBody b := by
  simp only [checkRequestBody, bind_eq_ok, checkContent_eq_ok, ValidRequestBody]

theorem checkResponse_eq_ok {r : Referable Response} :
    c.checkResponse r = .ok () ↔ c.ValidResponse r := by
  simp only [checkResponse, bind_eq_ok, checkContent_eq_ok, ValidResponse]

theorem validOperation_of_check {o : Operation} (h : c.checkOperation o = .ok ()) :
    c.ValidOperation o := by
  simp only [checkOperation, bind_eq_ok] at h
  obtain ⟨_, hp, _, hb, hr⟩ := h
  rw [forM_eq_ok] at hp hb hr
  exact ⟨fun p h => checkParameter_eq_ok.1 (hp p h),
    fun b h => checkRequestBody_eq_ok.1 (hb b (by simp [h])),
    fun r h => checkResponse_eq_ok.1 (hr r h)⟩

theorem valid_of_check (h : c.check = .ok ()) : c.Valid := by
  simp only [check, bind_eq_ok] at h
  obtain ⟨_, hs, _⟩ := h
  rw [forM_eq_ok] at hs
  have hs' : ∀ e ∈ c.schemas, c.Closed e.2 ∧ c.Leads e.1 := by
    intro e he
    obtain ⟨⟨⟩, hc, hl⟩ := bind_eq_ok.1 (hs e he)
    exact ⟨checkSchema_eq_ok.1 hc, discard_eq_ok.1 hl⟩
  exact ⟨fun e he => (hs' e he).1, fun e he => (hs' e he).2⟩

/-- The schemas of the names refer to no others. -/
def SelfContained (c : Components) (names : String → Prop) : Prop :=
  ∀ name s, names name → c.schemas.at? name = some s →
    ∀ p ∈ s.pointers, ∀ target, componentName p = .ok target → names target

/-- The schema that a name leads to is that of a name, which is among those that refer to no others. -/
theorem SelfContained.exists_of_follow {names : String → Prop} (h : c.SelfContained names)
    {start : String} {fuel : Nat} {name : String} {o : SchemaObject} (hname : names name)
    (ho : c.follow start fuel name = .ok o) : ∃ n, names n ∧ c.schemas.at? n = some (.inline o) := by
  induction fuel generalizing name with
  | zero => simp [follow] at ho
  | succ fuel ih =>
    rw [follow] at ho
    split at ho
    · simp at ho
    · next s hs => exact ⟨name, hname, Except.ok.inj ho ▸ hs⟩
    · next p hs =>
      split at ho
      · next target htarget => exact ih (h name _ hname hs p (by simp) target htarget) ho
      · simp at ho

theorem mem_of_follow {start : String} {fuel : Nat} {name : String} {o : SchemaObject}
    (h : c.follow start fuel name = .ok o) : ∃ n, (n, .inline o) ∈ c.schemas := by
  have hall : c.SelfContained fun _ => True := fun _ _ _ _ _ _ _ _ => trivial
  obtain ⟨n, -, hn⟩ := hall.exists_of_follow trivial h
  exact ⟨n, Entries.mem_of_at? hn⟩

/-- **Every schema that a name leads to is closed.** -/
theorem Valid.closed_of_schema (hc : c.Valid) {name : String} {o : SchemaObject}
    (h : c.schema name = .ok o) : c.Closed (.inline o) :=
  have ⟨_, hn⟩ := mem_of_follow h
  hc.closed _ hn

theorem Leads.mem_keys {name : String} (h : c.Leads name) : name ∈ c.schemas.keys := by
  obtain ⟨o, h⟩ := h
  rw [schema, follow] at h
  by_contra hn
  simp [Entries.at?_eq_none.2 hn] at h

end Components

/-- The components are valid, and so are the operations. -/
structure Document.Valid (d : Document) : Prop where
  parts : d.parts.Valid
  operations : ∀ e ∈ d.operations, d.parts.ValidOperation e.2.2

/-- **What validation accepts is valid.** -/
theorem Document.valid_of_validate {d : Document} (h : d.validate = .ok ()) : d.Valid := by
  simp only [validate, bind_eq_ok] at h
  obtain ⟨_, hp, hc⟩ := h
  rw [forM_eq_ok] at hp
  refine ⟨Components.valid_of_check hc, fun e he => ?_⟩
  simp only [operations, List.mem_flatMap, List.mem_map] at he
  obtain ⟨⟨path, item⟩, hi, ⟨verb, op⟩, ho, rfl⟩ := he
  have := hp item (List.mem_map.2 ⟨_, hi, rfl⟩)
  simp only [Components.checkPath, bind_eq_ok] at this
  obtain ⟨_, _, hops⟩ := this
  rw [forM_eq_ok] at hops
  exact Components.validOperation_of_check (hops _ ho)

end OpenApi
end OpenApiClient
