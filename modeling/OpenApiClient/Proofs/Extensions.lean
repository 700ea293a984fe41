/-
# Documents with more components

Components that extend others hold what these hold, and maybe more, in any order. What is found,
told or built from some components is the same from more of them: looking up a name
(`schema_upholds`, `resolveItem_upholds`), the type of a schema (`typeOf_follows`), what an object
inherits (`inheritedNames_upholds`), the declaration of a component (`declarationOf_follows`).
What fails may succeed with more components, and the statements leave that open; in a valid document
nothing fails.

Where the definitions count their steps down from the number of schemas, both numbers are enough:
each component is visited once (`unvisited`).
-/

import OpenApiClient.Client.Backbone
import OpenApiClient.Client.Model.Declaration
import OpenApiClient.Client.SignalConstruction
import OpenApiClient.Client.Subscription
import OpenApiClient.Proofs.Agreement
import OpenApiClient.Proofs.Types

namespace OpenApiClient

/-- The second map reads like the first where this has an entry, and has as many entries or more. -/
structure Entries.Extends {α : Type} (es es' : Entries α) : Prop where
  reads : ∀ k v, es.at? k = some v → es'.at? k = some v
  length_le : es.length ≤ es'.length

namespace OpenApi

/-- The second components hold what the first hold. -/
structure Components.Extends (c c' : Components) : Prop where
  schemas : Entries.Extends c.schemas c'.schemas
  parameters : Entries.Extends c.parameters c'.parameters
  requestBodies : Entries.Extends c.requestBodies c'.requestBodies
  responses : Entries.Extends c.responses c'.responses

namespace Components

theorem extends_refl (c : Components) : c.Extends c :=
  have hsame {α : Type} (es : Entries α) : es.Extends es := ⟨fun _ _ h => h, Nat.le_refl _⟩
  ⟨hsame _, hsame _, hsame _, hsame _⟩

variable {c c' : Components} (h : c.Extends c')
include h

theorem follow_upholds {start start' name : String} {fuel fuel' : Nat} (hf : fuel ≤ fuel') :
    Upholds (c.follow start fuel name) (c'.follow start' fuel' name) := by
  intro s hs
  induction fuel generalizing fuel' name with
  | zero => cases hs
  | succ fuel ih =>
    obtain ⟨fuel', rfl⟩ : ∃ n, fuel' = n + 1 := ⟨fuel' - 1, by omega⟩
    rw [follow] at hs ⊢
    split at hs
    · cases hs
    · next o ho =>
      rw [h.schemas.reads _ _ ho]
      exact hs
    · next pointer hpointer =>
      rw [h.schemas.reads _ _ hpointer]
      dsimp only
      split at hs
      · next target htarget =>
        exact ih (by omega) hs
      · cases hs

theorem schema_upholds (name : String) : Upholds (c.schema name) (c'.schema name) :=
  follow_upholds h (Nat.succ_le_succ h.schemas.length_le)

theorem hasSchema_of_hasSchema {name : String} (hn : c.hasSchema name = true) :
    c'.hasSchema name = true := by
  rw [hasSchema, Entries.has, Option.isSome_iff_exists] at hn ⊢
  obtain ⟨s, hs⟩ := hn
  exact ⟨s, h.schemas.reads _ _ hs⟩

omit h in
theorem followItem_upholds {α : Type} [Kept α]
    (hk : Entries.Extends (Kept.entries (α := α) c) (Kept.entries c')) {fuel fuel' : Nat}
    (hf : fuel ≤ fuel') (seen : List String) (item : Referable α) :
    Upholds (c.followItem fuel seen item) (c'.followItem fuel' seen item) := by
  intro x hx
  induction fuel generalizing fuel' seen item with
  | zero =>
    cases item with
    | item y => simpa only [followItem] using hx
    | ref pointer => simp [followItem] at hx
  | succ fuel ih =>
    obtain ⟨fuel', rfl⟩ : ∃ n, fuel' = n + 1 := ⟨fuel' - 1, by omega⟩
    cases item with
    | item y => simpa only [followItem] using hx
    | ref pointer =>
      rw [followItem] at hx ⊢
      split at hx
      · cases hx
      · next hnew =>
        rw [if_neg hnew]
        split at hx
        · cases hx
        · next name hname =>
          split at hx
          · cases hx
          · next item' hitem =>
            rw [hk.reads _ _ hitem]
            exact ih (by omega) _ _ hx

omit h in
theorem resolveItem_upholds {α : Type} [Kept α]
    (hk : Entries.Extends (Kept.entries (α := α) c) (Kept.entries c')) (item : Referable α) :
    Upholds (c.resolveItem item) (c'.resolveItem item) :=
  followItem_upholds hk (Nat.add_le_add_right hk.length_le 2) [] item

end Components
end OpenApi

namespace Client

open OpenApi TypeScript

/-- The number of schemas whose names were not visited. -/
def unvisited (c : Components) (visited : List String) : Nat :=
  (c.schemas.keys.filter fun n => n ∉ visited).length

theorem unvisited_le {c : Components} {visited visited' : List String} (h : visited ⊆ visited') :
    unvisited c visited' ≤ unvisited c visited := by
  refine (List.monotone_filter_right _ fun n hn => ?_).length_le
  have hn : n ∉ visited' := by simpa using hn
  simpa using fun hmem => hn (h hmem)

/-- A visit leaves fewer names. -/
theorem unvisited_lt {c : Components} {visited : List String} {name : String}
    (hkey : name ∈ c.schemas.keys) (hnew : name ∉ visited) :
    unvisited c (name :: visited) < unvisited c visited := by
  have hmem : name ∈ c.schemas.keys.filter fun n => n ∉ visited :=
    List.mem_filter.2 ⟨hkey, by simpa using hnew⟩
  have hsplit : (c.schemas.keys.filter fun n => n ∉ name :: visited) =
      (c.schemas.keys.filter fun n => n ∉ visited).filter fun n => n ≠ name := by
    rw [List.filter_filter]
    refine List.filter_congr fun n _ => ?_
    simp [not_or]
  rw [unvisited, unvisited, hsplit]
  exact List.length_filter_lt_length_iff_exists.2 ⟨name, hmem, by simp⟩

theorem unvisited_lt_succ (c : Components) (visited : List String) :
    unvisited c visited < c.schemas.length + 1 := by
  have hle := List.length_filter_le (fun n => decide (n ∉ visited)) c.schemas.keys
  exact Nat.lt_succ_of_le (Entries.length_keys c.schemas ▸ hle)

section Inheritance

variable {c c' : Components} (hc : c.Valid) (h : c.Extends c')
include hc h

/-- What is found on the way up is found with more components, as long as both have the fuel to
visit what was not visited. -/
theorem Ancestry.with_upholds : ∀ (fuel fuel' : Nat) (a : Ancestry) (component : String),
    unvisited c a.visited < fuel → unvisited c a.visited < fuel' →
      Upholds (Ancestry.with c fuel a component) (Ancestry.with c' fuel' a component) ∧
        ∀ b, Ancestry.with c fuel a component = .ok b → a.visited ⊆ b.visited
  | 0, _, _, _, hf, _ => absurd hf (Nat.not_lt_zero _)
  | _, 0, _, _, _, hf' => absurd hf' (Nat.not_lt_zero _)
  | fuel + 1, fuel' + 1, a, component, hf, hf' => by
    unfold Ancestry.with
    by_cases hmem : component ∈ a.visited
    · simp only [if_pos hmem]
      refine ⟨.refl _, fun b hb => ?_⟩
      obtain rfl : a = b := Except.ok.inj hb
      exact List.Subset.refl _
    simp only [if_neg hmem]
    cases hs : c.schema component with
    | error e => exact ⟨fun _ ha => (by cases ha), fun _ ha => by cases ha⟩
    | ok s =>
      rw [Components.schema_upholds h component s hs]
      have hkey : component ∈ c.schemas.keys := Components.Leads.mem_keys ⟨s, hs⟩
      have hless := unvisited_lt hkey hmem
      refine (Upholds.foldlM (fun b => component :: a.visited ⊆ b.visited)
        (List.Subset.refl _) fun x hx b hb => ?_).imp_right fun hI b hb =>
          List.Subset.trans (List.subset_cons_self _ _) (hI b hb)
      have hclosed := Components.closed_inline.1 (hc.closed_of_schema hs) x
        (SchemaOf.mem_children.2 (by tauto))
      cases x with
      | inline o =>
        refine ⟨.refl _, fun b' hb' => ?_⟩
        obtain rfl := Except.ok.inj hb'
        exact hb
      | ref pointer =>
        obtain ⟨parent, hp, hl⟩ := Components.closed_ref.1 hclosed
        have hhas : c.hasSchema parent = true := Entries.has_iff.2 hl.mem_keys
        have hhas' := Components.hasSchema_of_hasSchema h hhas
        have hsmall := unvisited_le (c := c) hb
        have hstep := Ancestry.with_upholds fuel fuel' b parent (by omega) (by omega)
        simp only [hp]
        change Upholds (if c.hasSchema parent = true then _ else _)
          (if c'.hasSchema parent = true then _ else _) ∧
          ∀ b', (if c.hasSchema parent = true then _ else _) = _ → _
        rw [if_pos hhas, if_pos hhas']
        exact hstep.imp_right fun hb' b'' hb'' => List.Subset.trans hb (hb' b'' hb'')

/-- The names that a component inherits are the same with more components. -/
theorem inheritedNames_upholds (component : String) :
    Upholds (inheritedNames c component) (inheritedNames c' component) := by
  have hlength := h.schemas.length_le
  have hunvisited := unvisited_lt_succ c ({} : Ancestry).visited
  have hwith := (Ancestry.with_upholds hc h (c.schemas.length + 1) (c'.schemas.length + 1) {}
    component hunvisited (by omega)).1
  exact hwith.bind fun _ _ => .refl _

end Inheritance

/-- The second context knows what the first knows, of the same file. -/
structure TypeContext.Extends (c c' : TypeContext) : Prop where
  components : c.components.Extends c'.components
  transfers : c'.transfers = c.transfers
  own : c'.own = c.own

/-- A computation that fails on a reference at most when the first of two does, and else agrees. -/
abbrev Mapping.Follows {α : Type} (m m' : Mapping α) : Prop := OpenApiClient.Follows (fun _ => True) m m'

namespace TypeContext

variable {c c' : TypeContext}

theorem follows_lift {α : Type} {x x' : Except ReferenceError α} (h : Upholds x x') :
    Mapping.Follows (ExceptT.mk (pure x)) (ExceptT.mk (pure x')) :=
  .lift h fun _ _ => trivial

section Objects

variable {s : SchemaObject} (h : ∀ x ∈ s.children, Mapping.Follows (c.typeOf x) (c'.typeOf x))
include h

theorem orNothing_follows {x : Schema} (hx : x ∈ s.children) :
    Mapping.Follows (orNothing (c.typed x)) (orNothing (c'.typed x)) :=
  (h x hx).bind fun _ => .refl _

theorem propertiesOf_follows :
    Mapping.Follows (propertiesOf (s.map c.typed)) (propertiesOf (s.map c'.typed)) := by
  have hmap : ∀ c : TypeContext, propertiesOf (s.map c.typed) =
      s.properties.mapM fun e => propertyOf e.1 (c.typed e.2) (s.required.contains e.1) :=
    fun c => List.mapM_map ..
  rw [hmap, hmap]
  refine .mapM fun e he => ?_
  exact (h e.2 (SchemaOf.mem_children.2 (.inl ⟨e.1, he⟩))).bind fun _ => .refl _

theorem ofObjectKeyword_follows :
    Mapping.Follows (ofObjectKeyword (s.map c.typed)) (ofObjectKeyword (s.map c'.typed)) := by
  unfold ofObjectKeyword
  have hempty : ∀ c : TypeContext,
      (s.map c.typed).properties.isEmpty = s.properties.isEmpty := fun c => by simp [SchemaOf.map]
  have hadditional : ∀ c : TypeContext, (s.map c.typed).additionalProperties =
      s.additionalProperties.map (·.map c.typed) := fun c => rfl
  have hsingle : ∀ c : TypeContext, (s.map c.typed).singleType? = s.singleType? := fun c => rfl
  rw [hempty, hempty, hadditional, hadditional, hsingle, hsingle]
  split
  · exact (propertiesOf_follows h).bind fun _ => .refl _
  · rcases ha : s.additionalProperties with _ | (_ | x)
    · exact .refl _
    · exact .refl _
    · exact (orNothing_follows h (by simp [SchemaOf.mem_children, ha])).bind fun _ => .refl _

theorem ofKeyword_follows :
    Mapping.Follows (ofKeyword (s.map c.typed)) (ofKeyword (s.map c'.typed)) := by
  have hsingle : ∀ c : TypeContext, (s.map c.typed).singleType? = s.singleType? := fun c => rfl
  have hformat : ∀ c : TypeContext, (s.map c.typed).format = s.format := fun c => rfl
  have hitems : ∀ c : TypeContext, (s.map c.typed).items = s.items.map c.typed := fun c => rfl
  unfold ofKeyword
  rw [hsingle, hsingle, hformat, hformat]
  rcases s.singleType? with _ | (_ | _ | _ | _ | _ | _ | _)
  case some.array =>
    rw [hitems, hitems]
    cases hi : s.items with
    | none => exact .refl _
    | some x => exact (orNothing_follows h (by simp [SchemaOf.mem_children, hi])).bind fun _ => .refl _
  case none | some.object => exact ofObjectKeyword_follows h
  all_goals exact .refl _

theorem ofAll_follows : Mapping.Follows (ofAll (s.map c.typed)) (ofAll (s.map c'.typed)) := by
  have hparts : ∀ c : TypeContext, (s.map c.typed).allOf.mapM (·.2) = s.allOf.mapM c.typeOf :=
    fun c => List.mapM_map ..
  unfold ofAll
  rw [hparts, hparts]
  refine Follows.bind (.mapM fun x hx => h x (SchemaOf.mem_children.2 (by tauto))) fun parts => ?_
  exact (propertiesOf_follows h).bind fun own => .refl _

end Objects

variable (h : c.Extends c')
include h

/-- **Naming a component.** -/
theorem reference_follows (component : String) (args : List Ty) :
    Mapping.Follows (c.reference component args) (c'.reference component args) := by
  unfold reference
  rw [h.transfers, h.own]
  split
  · exact .refl _
  · exact (follows_lift (Components.schema_upholds h.components component)).bind fun _ => .refl _

theorem pointee_follows {args args' : Mapping (List Ty)} (hargs : Mapping.Follows args args')
    (pointer : String) : Mapping.Follows (c.pointee pointer args) (c'.pointee pointer args') :=
  Follows.bind (.refl _) fun component => hargs.bind fun args => reference_follows h component args

/-- **The type of a schema is the same with more components.** -/
theorem typeOf_follows (s : Schema) : Mapping.Follows (c.typeOf s) (c'.typeOf s) := by
  induction s using Schema.induct with
  | ref p =>
    rw [typeOf, typeOf, Schema.para_ref, Schema.para_ref]
    exact pointee_follows h (.refl _) p
  | inline s ih =>
    rw [typeOf_inline, typeOf_inline]
    split
    · exact .refl _
    split
    · next pointer _ =>
      refine pointee_follows h (.mapM fun x hx => ?_) pointer
      refine orNothing_follows ih (SchemaOf.mem_children.2 ?_)
      cases ha : s.typeArguments <;> simp_all
    split
    · refine Follows.map (.mapM fun x hx => ih x (SchemaOf.mem_children.2 ?_))
      have hx := List.mem_append.1 (List.mem_filter.1 hx).1
      tauto
    split
    · exact ofAll_follows ih
    split
    · exact .refl _
    · exact ofKeyword_follows ih

theorem nullableTypeOf_follows (s : Schema) :
    Mapping.Follows (c.nullableTypeOf s) (c'.nullableTypeOf s) :=
  (typeOf_follows h s).bind fun _ => .refl _

theorem property_follows (name : String) (s : Schema) (required : Bool) :
    Mapping.Follows (c.property name s required) (c'.property name s required) :=
  (typeOf_follows h s).bind fun _ => .refl _

theorem inherit_follows (hc : c.components.Valid) (i : Inheritance) :
    ∀ s : Schema, Mapping.Follows (c.inherit i s) (c'.inherit i s)
  | .inline _ => .refl _
  | .ref pointer => by
    unfold inherit
    refine Follows.bind (.refl _) fun parent => ?_
    rw [h.transfers]
    split
    · exact (typeOf_follows h _).bind fun _ => .refl _
    · refine (follows_lift (Components.schema_upholds h.components parent)).bind fun s => ?_
      split
      · exact .refl _
      · refine (typeOf_follows h _).bind fun type => ?_
        exact (follows_lift (inheritedNames_upholds hc h.components parent)).bind fun _ => .refl _

theorem interfaceOf_follows (hc : c.components.Valid) (identifier : String) (s : SchemaObject) :
    Mapping.Follows (c.interfaceOf identifier s) (c'.interfaceOf identifier s) := by
  unfold interfaceOf
  refine Follows.bind (.foldlM fun x _ i => inherit_follows h hc i x) fun i => ?_
  exact Follows.bind (.mapM fun e _ => property_follows h e.1 e.2.1 e.2.2) fun _ => .refl _

/-- **The declaration of a component is the same with more components.** -/
theorem declarationOf_follows (hc : c.components.Valid) (component identifier : String) :
    Mapping.Follows (c.declarationOf component identifier)
      (c'.declarationOf component identifier) := by
  unfold declarationOf
  cases hat : c.components.schemas.at? component with
  | none =>
    -- Without an entry the first computation fails at once.
    have hmissing : c.components.schema component = .error (.missing component) := by
      simp [Components.schema, Components.follow, hat]
    exact .of_fails fun s => ⟨_, trivial, by simp only [hmissing]; rfl⟩
  | some x =>
    rw [h.components.schemas.reads _ _ hat]
    cases x with
    | ref pointer => exact (typeOf_follows h _).bind fun _ => .refl _
    | inline o =>
      refine (follows_lift (Components.schema_upholds h.components component)).bind fun s => ?_
      split
      · exact .refl _
      split
      · exact (interfaceOf_follows h hc identifier s).bind fun _ => .refl _
      · exact (typeOf_follows h _).bind fun _ => .refl _

end TypeContext

end Client

end OpenApiClient
