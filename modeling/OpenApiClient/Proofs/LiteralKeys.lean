/-
# The keys of empty values

The empty value of a component is an object literal if the component reads as an object. What becomes
of its keys is told here without values. `TypeContext.sources` lists where they come from: the parents
whose empty values are added, and the objects whose required properties get entries. Each source brings
its names in turn (`bring`), a parent all of them, an object those that are not there yet.

No component is entered twice at a time, so that a literal depends on the way on which it is reached.
It does not if no component inherits from itself: then the keys of a component are those that its
sources bring, wherever it is reached (`emptyValue_keys`).
-/

import OpenApiClient.Client.TypeMapping
import OpenApiClient.Proofs.EmptyValues
import Mathlib.Data.List.Induction
import Mathlib.Logic.Relation

namespace OpenApiClient

namespace TypeScript

/-- The key of an entry. -/
def ObjectEntry.key : ObjectEntry → String
  | .shorthand k => k
  | .entry k _ => k

/-- The keys of an object literal, in order. Other expressions have none. -/
def Expr.keys : Expr → List String
  | .object es => es.map ObjectEntry.key
  | _ => []

theorem Expr.eq_object_of_keys {e : Expr} (h : e.keys ≠ []) : ∃ es, e = .object es := by
  cases e with
  | object es => exact ⟨es, rfl⟩
  | _ => exact absurd rfl h

end TypeScript

namespace OpenApi

/-- The object asks for an entry: it requires the property, which is there and may not be nothing. -/
def SchemaOf.asks (o : SchemaObject) (name : String) : Bool :=
  o.required.contains name && (Entries.at? o.properties name).any (!·.isNullable)

end OpenApi

namespace Client

open OpenApi TypeScript

/-- Where the entries of an object literal come from: the empty value of a component, or the required
properties of an object. -/
inductive Source where
  | parent (component : String)
  | object (object : SchemaObject)

namespace Source

/-- The component of a pointer, as a source. -/
def ofPointer (pointer : String) : List Source :=
  match componentName pointer with
  | .ok component => [.parent component]
  | .error _ => []

/-- The sources of a schema that an object must hold together with. -/
def ofSchema : Schema → List Source :=
  Schema.para ofPointer fun s => s.allOf.flatMap (·.2) ++ [.object (s.map Prod.fst)]

theorem ofSchema_ref (p : String) : ofSchema (.ref p) = ofPointer p := Schema.para_ref ..

theorem ofSchema_inline (s : SchemaObject) :
    ofSchema (.inline s) = s.allOf.flatMap ofSchema ++ [.object s] := by
  rw [ofSchema, Schema.para_inline, SchemaOf.map_map,
    SchemaOf.map_id_of (f := Prod.fst ∘ _) fun _ _ => rfl]
  simp [SchemaOf.map, List.flatMap_map]

/-- The sources of the empty value of an object: none, if it does not read as one. -/
def ofObject (s : SchemaObject) : List Source :=
  if s.typeVariable.isSome || !s.enumeration.isEmpty then []
  else match s.wrapped? Schema.pointer? with
  | some pointer => if s.isNullable then [] else ofPointer pointer
  | none =>
    if Schema.isUnion s then []
    else match s.singleType? with
    | none | some .object => ofSchema (.inline s)
    | _ => []

/-- The names that a source brings, where `B` tells those of components. -/
def Brings (B : String → String → Prop) : Source → String → Prop
  | .parent p, n => B p n
  | .object o, n => o.asks n = true

/-- The keys with one more that an object asks for. -/
def ask (o : SchemaObject) (ks : List String) (n : String) : List String :=
  if n ∈ ks ∨ o.asks n = false then ks else ks ++ [n]

/-- The keys with those that a source brings, where `K` gives those of components. -/
def bring (K : String → List String) (ks : List String) : Source → List String
  | .parent p => ks ++ K p
  | .object o => o.required.foldl (ask o) ks

section Keys

variable {o : SchemaObject} {ks : List String} {n : String}

theorem mem_foldl_ask {names : List String} :
    n ∈ names.foldl (ask o) ks ↔ n ∈ ks ∨ n ∈ names ∧ o.asks n = true := by
  induction names generalizing ks with
  | nil => simp
  | cons m names ih =>
    rw [List.foldl_cons, ih, ask]
    split
    · next h =>
      constructor
      · exact Or.imp_right fun h => ⟨.tail _ h.1, h.2⟩
      · rintro (hn | ⟨hn, ha⟩)
        · exact .inl hn
        · rcases List.mem_cons.1 hn with rfl | hn
          · exact .inl (h.resolve_right (by simp [ha]))
          · exact .inr ⟨hn, ha⟩
    · next h =>
      rw [not_or] at h
      have ha : o.asks m = true := by simpa using h.2
      constructor
      · rintro (hn | ⟨hn, ha⟩)
        · rcases List.mem_append.1 hn with hn | hn
          · exact .inl hn
          · obtain rfl := List.mem_singleton.1 hn
            exact .inr ⟨List.mem_cons_self, ha⟩
        · exact .inr ⟨.tail _ hn, ha⟩
      · rintro (hn | ⟨hn, ha⟩)
        · exact .inl (by simp [hn])
        · rcases List.mem_cons.1 hn with rfl | hn
          · exact .inl (by simp)
          · exact .inr ⟨hn, ha⟩

theorem nodup_foldl_ask {names : List String} : (names.foldl (ask o) ks).Nodup ↔ ks.Nodup := by
  induction names generalizing ks with
  | nil => rfl
  | cons m names ih =>
    rw [List.foldl_cons, ih, ask]
    split
    · rfl
    · next h =>
      refine ⟨fun h => (List.nodup_append.1 h).1, fun hks => nodup_snoc hks fun hm => h (.inl hm)⟩

variable {B : String → String → Prop} {K : String → List String}

theorem mem_bring {x : Source} (hK : ∀ p, x = .parent p → ∀ n, n ∈ K p ↔ B p n) :
    n ∈ bring K ks x ↔ n ∈ ks ∨ x.Brings B n := by
  cases x with
  | parent p => exact List.mem_append.trans (or_congr_right (hK p rfl n))
  | object o =>
    rw [bring, mem_foldl_ask, Brings, and_iff_right_of_imp]
    intro h
    simpa using (Bool.and_eq_true_iff.1 h).1

/-- **The keys that sources bring** are the names that they bring. -/
theorem mem_foldl_bring {xs : List Source} (hK : ∀ p, .parent p ∈ xs → ∀ n, n ∈ K p ↔ B p n) :
    n ∈ xs.foldl (bring K) ks ↔ n ∈ ks ∨ ∃ x ∈ xs, x.Brings B n := by
  induction xs generalizing ks with
  | nil => simp
  | cons x xs ih =>
    rw [List.foldl_cons, ih fun p hp => hK p (.tail _ hp),
      mem_bring fun p hp => hK p (hp ▸ List.mem_cons_self)]
    simp only [List.mem_cons, exists_eq_or_imp, or_assoc]

/-- **No key is brought twice exactly if no parent has one twice, or one that was brought before.** -/
theorem nodup_foldl_bring {xs : List Source} (hK : ∀ p, .parent p ∈ xs → ∀ n, n ∈ K p ↔ B p n) :
    (xs.foldl (bring K) []).Nodup ↔ (∀ p, .parent p ∈ xs → (K p).Nodup) ∧
      xs.Pairwise fun x y => ∀ p, y = .parent p → ∀ n, B p n → ¬ x.Brings B n := by
  induction xs using List.reverseRecOn with
  | nil => simp
  | append_singleton xs x ih =>
    have hK' : ∀ p, .parent p ∈ xs → ∀ n, n ∈ K p ↔ B p n := fun p hp =>
      hK p (List.mem_append_left _ hp)
    have hmem : ∀ n, n ∈ xs.foldl (bring K) [] ↔ ∃ x ∈ xs, x.Brings B n := fun n =>
      (mem_foldl_bring hK').trans (by simp)
    rw [List.foldl_append, List.pairwise_append]
    simp only [List.foldl_cons, List.foldl_nil, List.pairwise_singleton, true_and,
      List.mem_singleton, forall_eq, List.mem_append, or_imp, forall_and]
    cases x with
    | object o => simp [bring, nodup_foldl_ask, ih hK']
    | parent p =>
      simp only [bring, List.nodup_append, ih hK', hmem, hK p (by simp), parent.injEq, forall_eq']
      constructor
      · rintro ⟨⟨hxs, hpairs⟩, hp, hnew⟩
        exact ⟨⟨hxs, fun _ h => h ▸ hp⟩, hpairs, fun x hx n hn hb => hnew n ⟨x, hx, hb⟩ n hn rfl⟩
      · rintro ⟨⟨hxs, hp⟩, hpairs, hnew⟩
        refine ⟨⟨hxs, hpairs⟩, hp p rfl, ?_⟩
        rintro n ⟨x, hx, hb⟩ m hm rfl
        exact hnew x hx n hm hb

end Keys

end Source

namespace Emptiness

open Visiting

variable {c : Components} {component : String → Visiting Expr} {v : List String}
  {K : String → List String}

theorem hasEntry_iff {es : List ObjectEntry} {k : String} :
    hasEntry es k = true ↔ k ∈ es.map ObjectEntry.key := by
  rw [hasEntry, List.any_eq_true, List.mem_map]
  refine exists_congr fun e => and_congr_right fun _ => ?_
  cases e <;> exact beq_iff_eq

/-- A required property gets an entry if the object asks for it. -/
theorem addRequired_keys {s : SchemaObject}
    (h : ∀ x ∈ s.children, Visiting.Settles v (ofSchema component x).value fun _ => True)
    {name : String} (hname : name ∈ s.required) (es : List ObjectEntry) :
    Visiting.Settles v (addRequired (s.map fun x => (x, ofSchema component x)) es name) fun es' =>
      es'.map ObjectEntry.key = Source.ask s (es.map ObjectEntry.key) name := by
  have hat : Entries.at? (s.map fun x => (x, ofSchema component x)).properties name =
      (Entries.at? s.properties name).map fun x => (x, ofSchema component x) :=
    Entries.at?_map (fun _ x => (x, ofSchema component x)) s.properties name
  unfold addRequired Source.ask SchemaOf.asks
  rw [hat]
  cases hx : Entries.at? s.properties name with
  | none => exact .pure (by simp)
  | some x =>
    simp only [Option.map_some, Option.any_some]
    split
    · next hskip =>
      refine .pure ?_
      rw [if_pos]
      rw [Bool.or_eq_true, hasEntry_iff] at hskip
      exact hskip.imp_right fun h => by simp [h]
    · next hadd =>
      rw [Bool.or_eq_true, hasEntry_iff, not_or, Bool.not_eq_true] at hadd
      have hchild := SchemaOf.mem_children.2 (.inl ⟨name, Entries.mem_of_at? hx⟩)
      refine .bind (h x hchild) fun e _ => .pure ?_
      rw [if_neg (by simp [hadd.1, hadd.2, hname])]
      simp [ObjectEntry.key]

section Objects

variable {s : SchemaObject}
  (hvalue : ∀ x ∈ s.children, Visiting.Settles v (ofSchema component x).value fun _ => True)
  (hextend : ∀ x ∈ s.allOf, ∀ es, Visiting.Settles v ((ofSchema component x).extend es) fun es' =>
    es'.map ObjectEntry.key = (Source.ofSchema x).foldl (Source.bring K) (es.map ObjectEntry.key))
include hvalue hextend

/-- The entries of an object have the keys that its sources bring. -/
theorem addEntries_keys (es : List ObjectEntry) :
    Visiting.Settles v (addEntries (s.map fun x => (x, ofSchema component x)) es) fun es' =>
      es'.map ObjectEntry.key =
        (Source.ofSchema (.inline s)).foldl (Source.bring K) (es.map ObjectEntry.key) := by
  have hparents : Visiting.Settles v (s.allOf.foldlM (fun es x => (ofSchema component x).extend es) es)
      fun es' => es'.map ObjectEntry.key = s.allOf.foldl
        (fun ks x => (Source.ofSchema x).foldl (Source.bring K) ks) (es.map ObjectEntry.key) :=
    .foldlM_eq fun x hx es => hextend x hx es
  rw [Source.ofSchema_inline, List.foldl_append, List.foldl_flatMap]
  unfold addEntries
  rw [show (s.map fun x => (x, ofSchema component x)).allOf =
    s.allOf.map fun x => (x, ofSchema component x) from rfl, List.foldlM_map]
  refine .bind hparents fun es' hes' => ?_
  rw [← hes']
  exact .foldlM_eq fun name hname es => addRequired_keys hvalue hname es

end Objects

variable (hvalue : ∀ x, c.Closed x → Visiting.Settles v (ofSchema component x).value fun _ => True)
include hvalue

omit hvalue in
theorem pointee_keys {pointer : String} (h : c.Closed (.ref pointer))
    (hK : ∀ p, .parent p ∈ Source.ofPointer pointer →
      Visiting.Settles v (component p) fun e => e.keys = K p) :
    Visiting.Settles v (pointee component pointer) fun e =>
      e.keys = (Source.ofPointer pointer).foldl (Source.bring K) [] := by
  obtain ⟨p, hp, -⟩ := Components.closed_ref.1 h
  rw [Source.ofPointer, hp] at hK ⊢
  exact .lift hp ((hK p (by simp)).mono fun e he => by simp [Source.bring, he])

/-- **What an object inherits from a schema** has the keys that its sources bring. -/
theorem extend_keys {x : Schema} (hx : c.Closed x)
    (hK : ∀ p, .parent p ∈ Source.ofSchema x →
      Visiting.Settles v (component p) fun e => e.keys = K p)
    (es : List ObjectEntry) :
    Visiting.Settles v ((ofSchema component x).extend es) fun es' =>
      es'.map ObjectEntry.key =
        (Source.ofSchema x).foldl (Source.bring K) (es.map ObjectEntry.key) := by
  induction x using Schema.induct generalizing es with
  | ref pointer =>
    obtain ⟨p, hp, -⟩ := Components.closed_ref.1 hx
    rw [Source.ofSchema_ref, Source.ofPointer, hp] at hK ⊢
    rw [ofSchema, Schema.para_ref]
    refine .bind (.lift hp (hK p (by simp))) fun e he => ?_
    simp only [List.foldl_cons, List.foldl_nil, Source.bring, ← he]
    cases e with
    | object more => exact .pure (by simp [Expr.keys])
    | _ => exact .pure (by simp [Expr.keys])
  | inline s ih =>
    have hc := Components.closed_inline.1 hx
    have hchild : ∀ x ∈ s.allOf, x ∈ s.children := fun x hx => SchemaOf.mem_children.2 (by tauto)
    rw [Source.ofSchema_inline] at hK
    have h := addEntries_keys (fun x hx => hvalue x (hc x hx)) (fun x hx => ih x (hchild x hx)
      (hc x (hchild x hx)) fun p hp => hK p (List.mem_append_left _ (List.mem_flatMap.2 ⟨x, hx, hp⟩))) es
    rw [ofSchema, Schema.para_inline]
    exact h

/-- The literal of an object, where it is one. An object without properties that inherits nothing has no
keys anyway. -/
theorem object_keys {s : SchemaObject} (hs : c.Closed (.inline s))
    (hK : ∀ p, .parent p ∈ Source.ofSchema (.inline s) →
      Visiting.Settles v (component p) fun e => e.keys = K p) {isNone : Bool} :
    Visiting.Settles v
      (if !Schema.isObjectLike s && isNone then pure Expr.undefined
      else do return Expr.object (← addEntries (s.map fun x => (x, ofSchema component x)) []))
      fun e => e.keys = (Source.ofSchema (.inline s)).foldl (Source.bring K) [] := by
  have hextend := extend_keys hvalue hs hK []
  rw [ofSchema, Schema.para_inline] at hextend
  split
  · next hbare =>
    simp only [Schema.isObjectLike, Bool.and_eq_true, Bool.not_eq_true', Bool.or_eq_false_iff,
      Bool.not_eq_false', List.isEmpty_iff] at hbare
    obtain ⟨⟨⟨hproperties, hallOf⟩, -⟩, -⟩ := hbare
    have hasks : ∀ n, s.asks n = false := fun n => by simp [SchemaOf.asks, hproperties, Entries.at?]
    refine .pure (List.eq_nil_iff_forall_not_mem.2 fun n hn => ?_).symm
    rw [Source.ofSchema_inline, hallOf] at hn
    simp [Source.bring, Source.mem_foldl_ask, hasks] at hn
  · exact .bind hextend fun es hes => .pure hes

/-- **The empty value of an object** has the keys that its sources bring. -/
theorem value_keys {s : SchemaObject} (hs : c.Closed (.inline s))
    (hK : ∀ p, .parent p ∈ Source.ofObject s →
      Visiting.Settles v (component p) fun e => e.keys = K p) :
    Visiting.Settles v (ofSchema component (.inline s)).value fun e =>
      e.keys = (Source.ofObject s).foldl (Source.bring K) [] := by
  have hc := Components.closed_inline.1 hs
  rw [ofSchema, Schema.para_inline]
  change Visiting.Settles v (valueOf component (s.map fun x => (x, ofSchema component x))) _
  unfold valueOf
  rw [SchemaOf.wrapped?_map]
  split
  · next hnone =>
    have hnone : (s.typeVariable.isSome || !s.enumeration.isEmpty) = true := hnone
    exact .pure (by simp only [Source.ofObject, hnone, if_true]; rfl)
  next hsome =>
  have hsome : ¬ (s.typeVariable.isSome || !s.enumeration.isEmpty) = true := hsome
  simp only [Source.ofObject, hsome, Bool.false_eq_true, if_false] at hK ⊢
  split
  · next pointer hp =>
    have hp : s.wrapped? Schema.pointer? = some pointer := hp
    simp only [hp] at hK ⊢
    split
    · next hnull =>
      have hnull : s.isNullable = true := hnull
      exact .pure (by simp only [hnull, if_true]; rfl)
    · next hnull =>
      have hnull : ¬ s.isNullable = true := hnull
      simp only [hnull, Bool.false_eq_true, if_false] at hK ⊢
      exact pointee_keys (hc _ (Schema.ref_mem_children hp)) hK
  · next hp =>
    have hp : s.wrapped? Schema.pointer? = none := hp
    simp only [hp] at hK ⊢
    rw [SchemaOf.map_map, SchemaOf.map_id_of (f := Prod.fst ∘ _) fun _ _ => rfl]
    split
    · exact .pure rfl
    next hunion =>
    simp only [hunion, Bool.false_eq_true, if_false] at hK
    rw [show (s.map fun x => (x, ofSchema component x)).singleType? = s.singleType? from rfl]
    cases ht : s.singleType? with
    | none =>
      simp only [ht] at hK
      exact object_keys hvalue hs hK
    | some t =>
      cases t with
      | object =>
        simp only [ht] at hK
        exact object_keys hvalue hs hK
      | _ => exact .pure rfl

end Emptiness

namespace TypeContext

variable (c : TypeContext)

/-- The sources of the empty value of a component: none, if a type of the client stands for it. -/
def sources (component : String) : List Source :=
  if c.transfers.has component then []
  else match c.components.schema component with
  | .ok s => Source.ofObject s
  | .error _ => []

/-- The empty value of a component has the entries of that of a parent. -/
def Inherits (parent component : String) : Prop := .parent parent ∈ c.sources component

/-- What the empty value of a component is made of brings the name: an object asks for it, or a parent
brings it. -/
inductive Brought : String → String → Prop
  | asked {component name : String} {o : SchemaObject} (ho : .object o ∈ c.sources component)
      (hname : o.asks name = true) : Brought component name
  | inherited {component parent name : String} (hparent : c.Inherits parent component)
      (h : Brought parent name) : Brought component name

/-- For the component and all that it inherits from, no parent brings a name that was brought before. -/
def BroughtOnce (component : String) : Prop :=
  ∀ a, Relation.ReflTransGen c.Inherits a component → (c.sources a).Pairwise fun x y =>
    ∀ p, y = .parent p → ∀ n, c.Brought p n → ¬ x.Brings c.Brought n

/-- The keys of the empty value of a component. -/
def literalKeys (component : String) : List String :=
  match emptyValueOf c.components c.transfers component with
  | .ok e => e.keys
  | .error _ => []

end TypeContext

section Components

variable {c : TypeContext}

theorem leads_of_mem_ofPointer {pointer : String} (h : c.components.Closed (.ref pointer))
    {p : String} (hp : .parent p ∈ Source.ofPointer pointer) : c.components.Leads p := by
  obtain ⟨n, hn, hl⟩ := Components.closed_ref.1 h
  rw [Source.ofPointer, hn] at hp
  cases List.mem_singleton.1 hp
  exact hl

theorem leads_of_mem_ofSchema {x : Schema} (h : c.components.Closed x) {p : String}
    (hp : .parent p ∈ Source.ofSchema x) : c.components.Leads p := by
  induction x using Schema.induct with
  | ref pointer =>
    rw [Source.ofSchema_ref] at hp
    exact leads_of_mem_ofPointer h hp
  | inline s ih =>
    rw [Source.ofSchema_inline] at hp
    rcases List.mem_append.1 hp with hp | hp
    · obtain ⟨x, hx, hp⟩ := List.mem_flatMap.1 hp
      have hx := SchemaOf.mem_children.2 (.inr (.inr (.inl hx)))
      exact ih x hx (Components.closed_inline.1 h x hx) hp
    · cases List.mem_singleton.1 hp

/-- Parents lead to schemas. -/
theorem TypeContext.Inherits.leads (hc : c.components.Valid) {parent component : String}
    (h : c.Inherits parent component) : c.components.Leads parent := by
  unfold Inherits sources at h
  split at h
  · cases h
  split at h
  · next s hs =>
    have hclosed := hc.closed_of_schema hs
    unfold Source.ofObject at h
    split at h
    · cases h
    split at h
    · next pointer hp =>
      split at h
      · cases h
      · exact leads_of_mem_ofPointer
          (Components.closed_inline.1 hclosed _ (Schema.ref_mem_children hp)) h
    split at h
    · cases h
    split at h
    · exact leads_of_mem_ofSchema hclosed h
    · exact leads_of_mem_ofSchema hclosed h
    · cases h
  · cases h

end Components

theorem literalKeys_of_settles {c : TypeContext} {component : String} {ks : List String}
    (h : Visiting.Settles []
      (emptyValue c.components c.transfers (c.components.schemas.length + 1) component)
      fun e => e.keys = ks) : c.literalKeys component = ks := by
  obtain ⟨e, he, hkeys⟩ := exists_emptyValueOf h
  rw [TypeContext.literalKeys, he]
  exact hkeys

/-- What inherits from nothing that inherits from it is not among its own ancestors. -/
theorem not_transGen_of_acc {α : Type} {R : α → α → Prop} {a : α} (h : Acc R a) :
    ¬ Relation.TransGen R a a := fun ha => by
  induction h with
  | intro a _ ih =>
    obtain ⟨b, hab, hba⟩ := Relation.TransGen.tail'_iff.1 ha
    exact ih b hba ((Relation.TransGen.single hba).trans_left hab)

/-- **The keys of the empty value of a component** are those that its sources bring, if no component
that it inherits from inherits from itself. That holds wherever the component is reached, on a way `v`
that its ancestors are not on. -/
theorem emptyValue_keys {c : TypeContext} (hc : c.components.Valid) {component : String}
    (hl : c.components.Leads component) (hacc : Acc c.Inherits component) :
    ∀ (fuel : Nat) (v : List String), v.Nodup → v ⊆ c.components.schemas.keys →
      (∀ a, Relation.ReflTransGen c.Inherits a component → a ∉ v) →
      v.length + fuel = c.components.schemas.length + 1 →
      Visiting.Settles v (emptyValue c.components c.transfers fuel component) fun e =>
        e.keys = (c.sources component).foldl (Source.bring c.literalKeys) [] := by
  induction hacc with
  | intro component hacc ih =>
    rintro (_ | fuel) v hnodup hkeys hfree hfuel
    · have := (List.subperm_of_subset hnodup hkeys).length_le
      simp only [Entries.keys, List.length_map] at this
      omega
    obtain ⟨s, hs⟩ := hl
    refine emptyValue_enters hs ?_ fun hopen hnew => ?_
    · rintro (hstop | hin)
      · simp [TypeContext.sources, hstop, Expr.keys]
      · exact absurd hin (hfree component .refl)
    have hsources : c.sources component = Source.ofObject s := by
      simp [TypeContext.sources, hopen, hs]
    rw [hsources]
    refine Emptiness.value_keys (fun x hx => ?_) (hc.closed_of_schema hs) fun p hp => ?_
    · exact (Emptiness.ofSchema_settles
        (fun n hn => emptyValue_settles hc c.transfers fuel n hn (component :: v)) hx).value.mono
          fun _ _ => trivial
    have hinherits : c.Inherits p component := by
      unfold TypeContext.Inherits
      rwa [hsources]
    have ih := ih p hinherits (hinherits.leads hc)
    -- Reached from outside, the parent has the same keys as on this way.
    rw [literalKeys_of_settles (ih _ [] .nil (List.nil_subset _) (by simp) (by simp))]
    refine ih fuel (component :: v) (List.nodup_cons.2 ⟨hnew, hnodup⟩) ?_ (fun a ha hin => ?_) ?_
    · exact List.cons_subset.2 ⟨Components.Leads.mem_keys ⟨s, hs⟩, hkeys⟩
    · rcases List.mem_cons.1 hin with rfl | hin
      · exact not_transGen_of_acc ⟨_, hacc⟩ (.tail' ha hinherits)
      · exact hfree a (ha.tail hinherits) hin
    · rw [List.length_cons]
      omega

section Keys

variable {c : TypeContext} {component : String}

theorem brought_iff {name : String} :
    c.Brought component name ↔ ∃ x ∈ c.sources component, x.Brings c.Brought name := by
  constructor
  · rintro (⟨ho, hname⟩ | ⟨hparent, h⟩)
    · exact ⟨_, ho, hname⟩
    · exact ⟨_, hparent, h⟩
  · rintro ⟨p | o, hx, h⟩
    · exact .inherited hx h
    · exact .asked hx h

variable (hc : c.components.Valid)
include hc

theorem literalKeys_eq (hl : c.components.Leads component) (hacc : Acc c.Inherits component) :
    c.literalKeys component = (c.sources component).foldl (Source.bring c.literalKeys) [] :=
  literalKeys_of_settles (emptyValue_keys hc hl hacc _ [] .nil (List.nil_subset _) (by simp) (by simp))

/-- **The keys of the empty value** are the names that are brought, -/
theorem mem_literalKeys (hl : c.components.Leads component) (hacc : Acc c.Inherits component)
    {name : String} : name ∈ c.literalKeys component ↔ c.Brought component name := by
  induction hacc generalizing name with
  | intro component hacc ih =>
    rw [literalKeys_eq hc hl ⟨_, hacc⟩,
      Source.mem_foldl_bring fun p hp _ => ih p hp (TypeContext.Inherits.leads hc hp), brought_iff]
    simp

/-- and none is there twice exactly if they are brought once. -/
theorem nodup_literalKeys (hl : c.components.Leads component) (hacc : Acc c.Inherits component) :
    (c.literalKeys component).Nodup ↔ c.BroughtOnce component := by
  induction hacc with
  | intro component hacc ih =>
    have hleads : ∀ p, c.Inherits p component → c.components.Leads p := fun p hp => hp.leads hc
    rw [literalKeys_eq hc hl ⟨_, hacc⟩, Source.nodup_foldl_bring (B := c.Brought)
      fun p hp n => mem_literalKeys hc (hleads p hp) (hacc p hp)]
    constructor
    · rintro ⟨hparents, hself⟩ a ha
      rcases Relation.ReflTransGen.cases_tail ha with rfl | ⟨p, ha, hp⟩
      · exact hself
      · exact (ih p hp (hleads p hp)).1 (hparents p hp) a ha
    · intro h
      exact ⟨fun p hp => (ih p hp (hleads p hp)).2 fun a ha => h a (ha.tail hp), h component .refl⟩

end Keys

end Client
end OpenApiClient
