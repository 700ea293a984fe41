/-
# Passes and more components

With more components than a run needs, its passes do the same (`execute_follows`): they read
components only by name, and never their order or number. Each step is compared with itself; for the
worklist of models and for empty values this says once more that what bounds their steps is enough,
with either number of schemas (`writeNeeded_follows`, `emptyValue_alike`).
-/

import OpenApiClient.Client.Generation
import OpenApiClient.Proofs.EmptyValues
import OpenApiClient.Proofs.Extensions
import OpenApiClient.Proofs.Leaves
import OpenApiClient.Proofs.Runs

namespace OpenApiClient
namespace Client

open OpenApi TypeScript

section EmptyValues

namespace Visiting

variable {α β : Type} {v : List String} {m m' : Visiting α}

/-- In the components `v` both computations give the same, and leave what they enter. -/
def Alike (v : List String) (m m' : Visiting α) : Prop :=
  ∃ a, m.run.run v = (.ok a, v) ∧ m'.run.run v = (.ok a, v)

theorem Alike.pure (a : α) : Alike v (Pure.pure a) (Pure.pure a) := ⟨a, rfl, rfl⟩

theorem Alike.bind {f f' : α → Visiting β} (hm : Alike v m m') (hf : ∀ a, Alike v (f a) (f' a)) :
    Alike v (m >>= f) (m' >>= f') := by
  obtain ⟨a, ha, ha'⟩ := hm
  obtain ⟨b, hb, hb'⟩ := hf a
  exact ⟨b, by rw [run_bind, ha]; exact hb, by rw [run_bind, ha']; exact hb'⟩

theorem Alike.lift {x : Except ReferenceError α} {a : α} {f f' : α → Visiting β} (h : x = .ok a)
    (hf : Alike v (f a) (f' a)) :
    Alike v (ExceptT.mk (Pure.pure x) >>= f) (ExceptT.mk (Pure.pure x) >>= f') := by
  subst h
  obtain ⟨b, hb, hb'⟩ := hf
  exact ⟨b, by rw [run_bind]; exact hb, by rw [run_bind]; exact hb'⟩

theorem Alike.foldlM {f f' : β → α → Visiting β} {xs : List α}
    (h : ∀ x ∈ xs, ∀ b, Alike v (f b x) (f' b x)) (b : β) :
    Alike v (xs.foldlM f b) (xs.foldlM f' b) := by
  induction xs generalizing b with
  | nil => exact .pure b
  | cons x xs ih =>
    rw [List.foldlM_cons, List.foldlM_cons]
    exact (h x List.mem_cons_self b).bind fun c => ih (fun y hy => h y (List.mem_cons_of_mem _ hy)) c

end Visiting

namespace Emptiness

open Visiting

/-- In the components `v` both give the same value, and add the same to an object. -/
structure Alike (v : List String) (e e' : Emptiness) : Prop where
  value : Visiting.Alike v e.value e'.value
  extend : ∀ es, Visiting.Alike v (e.extend es) (e'.extend es)

variable {c : Components} {component component' : String → Visiting Expr} {v : List String}

theorem addEntries_alike {s : SchemaObject}
    (h : ∀ x ∈ s.children, Alike v (ofSchema component x) (ofSchema component' x))
    (es : List ObjectEntry) :
    Visiting.Alike v (addEntries (s.map fun x => (x, ofSchema component x)) es)
      (addEntries (s.map fun x => (x, ofSchema component' x)) es) := by
  have hextend : ∀ component : String → Visiting Expr,
      (s.map fun x => (x, ofSchema component x)).allOf.foldlM (fun es p => p.2.extend es) es =
        s.allOf.foldlM (fun es x => (ofSchema component x).extend es) es := fun component =>
    List.foldlM_map ..
  have hproperty : ∀ (component : String → Visiting Expr) name,
      Entries.at? (s.map fun x => (x, ofSchema component x)).properties name =
        (Entries.at? s.properties name).map fun x => (x, ofSchema component x) :=
    fun component name => Entries.at?_map (fun _ x => (x, ofSchema component x)) s.properties name
  unfold addEntries
  rw [hextend, hextend]
  refine (Visiting.Alike.foldlM (fun x hx es => (h x (SchemaOf.mem_children.2 (by tauto))).extend es)
    es).bind fun es => .foldlM (fun name _ es => ?_) es
  unfold addRequired
  rw [hproperty, hproperty]
  cases hx : Entries.at? s.properties name with
  | none => exact .pure es
  | some x =>
    have hmem := SchemaOf.mem_children.2 (.inl ⟨name, Entries.mem_of_at? hx⟩)
    simp only [Option.map_some]
    split
    · exact .pure es
    · exact (h x hmem).value.bind fun _ => .pure _

/-- The empty value of an object, told from what the schemas inside it give. -/
theorem valueOf_map (component : String → Visiting Expr) (s : SchemaObject) :
    valueOf component (s.map fun x => (x, ofSchema component x)) =
      if s.typeVariable.isSome || !s.enumeration.isEmpty then pure .undefined
      else match s.wrapped? Schema.pointer? with
      | some pointer => if s.isNullable then pure .undefined else pointee component pointer
      | none =>
        if Schema.isUnion s then pure .undefined
        else match s.singleType? with
        | some .string => pure (.string "")
        | some .number => pure (.number (.ofNat 0))
        | some .integer => pure (.number (.ofNat 0))
        | some .boolean => pure (.bool false)
        | some .array => pure (.array [])
        | some .null => pure .undefined
        | _ =>
          if !Schema.isObjectLike s && s.additionalProperties.isNone then pure .undefined
          else return .object (← addEntries (s.map fun x => (x, ofSchema component x)) []) := by
  have hobject : (s.map fun x => (x, ofSchema component x)).map Prod.fst = s := by
    rw [SchemaOf.map_map]
    exact SchemaOf.map_id_of fun x _ => rfl
  have hnone : (s.map fun x => (x, ofSchema component x)).additionalProperties.isNone =
      s.additionalProperties.isNone := Option.isNone_map
  unfold valueOf
  rw [hobject, hnone, SchemaOf.wrapped?_map]
  rfl

variable (hcomponent : ∀ n, c.Leads n → Visiting.Alike v (component n) (component' n))
include hcomponent

theorem pointee_alike {pointer : String} (h : c.Closed (.ref pointer)) :
    Visiting.Alike v (pointee component pointer) (pointee component' pointer) := by
  obtain ⟨n, hp, hl⟩ := Components.closed_ref.1 h
  exact .lift hp (hcomponent n hl)

/-- What a closed schema gives to empty values depends on components that lead to schemas. -/
theorem ofSchema_alike {s : Schema} (hs : c.Closed s) :
    Alike v (ofSchema component s) (ofSchema component' s) := by
  induction s using Schema.induct with
  | ref p =>
    have hpointee := pointee_alike hcomponent hs
    rw [ofSchema, ofSchema, Schema.para_ref, Schema.para_ref]
    refine ⟨hpointee, fun es => hpointee.bind fun e => ?_⟩
    split <;> exact .pure _
  | inline s ih =>
    have hc := Components.closed_inline.1 hs
    have h := fun x hx => ih x hx (hc x hx)
    have hadd := addEntries_alike h
    rw [ofSchema, ofSchema, Schema.para_inline, Schema.para_inline]
    refine ⟨?_, hadd⟩
    change Visiting.Alike v (valueOf component (s.map fun x => (x, ofSchema component x)))
      (valueOf component' (s.map fun x => (x, ofSchema component' x)))
    rw [valueOf_map, valueOf_map]
    split
    · exact .pure _
    split
    · next pointer hp =>
      split
      · exact .pure _
      · exact pointee_alike hcomponent (hc _ (Schema.ref_mem_children hp))
    split
    · exact .pure _
    rcases s.singleType? with _ | (_ | _ | _ | _ | _ | _ | _)
    case none | some.object =>
      dsimp only
      split
      · exact .pure _
      · exact (hadd []).bind fun _ => .pure _
    all_goals exact .pure _

end Emptiness

section Components

variable {c c' : Components} {transfers : Entries TransferTarget} {component : String} {v : List String}

variable (hc : c.Valid) (h : c.Extends c')
include hc h

/-- **The walk through components is the same with more components**, and whatever is below its depth, as
long as that is enough to enter those that it is not in. -/
theorem walk_alike (deeper deeper' : String → Visiting Expr) :
    ∀ (depth depth' : Nat) (component : String) (v : List String),
      c.Leads component → unvisited c v < depth → unvisited c v < depth' →
        Visiting.Alike v ((enterComponent c transfers)^[depth] deeper component)
          ((enterComponent c' transfers)^[depth'] deeper' component)
  | 0, _, _, _, _, hf, _ => absurd hf (Nat.not_lt_zero _)
  | _, 0, _, _, _, _, hf' => absurd hf' (Nat.not_lt_zero _)
  | depth + 1, depth' + 1, component, v, hl, hf, hf' => by
    rw [Function.iterate_succ_apply', Function.iterate_succ_apply']
    obtain ⟨s, hs⟩ := id hl
    by_cases hstop : transfers.has component = true ∨ component ∈ v
    · exact ⟨.undefined, enterComponent_run_of_stop hstop, enterComponent_run_of_stop hstop⟩
    · have hless := unvisited_lt hl.mem_keys fun hmem => hstop (.inr hmem)
      obtain ⟨e, he, he'⟩ := (Emptiness.ofSchema_alike (fun n hn =>
        walk_alike deeper deeper' depth depth' n (component :: v) hn (by omega) (by omega))
          (hc.closed_of_schema hs)).value
      have hs' := Components.schema_upholds h component s hs
      refine ⟨e, ?_, ?_⟩
      · rw [enterComponent_run_of_enter hstop, hs]
        simp only [he]
        simp
      · rw [enterComponent_run_of_enter hstop, hs']
        simp only [he']
        simp

theorem emptyValue_alike {fuel fuel' : Nat} (hl : c.Leads component) (hf : unvisited c v < fuel)
    (hf' : unvisited c v < fuel') :
    Visiting.Alike v (emptyValue c transfers fuel component) (emptyValue c' transfers fuel' component) := by
  rw [emptyValue_eq_iterate, emptyValue_eq_iterate]
  exact walk_alike hc h _ _ fuel fuel' component v hl hf hf'

theorem emptyValueOf_upholds (component : String) :
    Upholds (emptyValueOf c transfers component) (emptyValueOf c' transfers component) := by
  intro e he
  by_cases hstop : transfers.has component = true ∨ component ∈ []
  · rw [emptyValueOf, emptyValue_succ, enterComponent_run_of_stop hstop] at he ⊢
    exact he
  by_cases hl : c.Leads component
  · have hlength := h.schemas.length_le
    have hunvisited := unvisited_lt_succ c []
    obtain ⟨e', hrun, hrun'⟩ := emptyValue_alike hc h hl hunvisited
      (show unvisited c [] < c'.schemas.length + 1 by omega)
    rw [emptyValueOf, hrun] at he
    rw [emptyValueOf, hrun']
    exact he
  · -- The first computation fails on a component that leads nowhere.
    cases hs : c.schema component with
    | ok s => exact absurd ⟨s, hs⟩ hl
    | error e' =>
      rw [emptyValueOf, emptyValue_succ, enterComponent_run_of_enter hstop, hs] at he
      cases he

end Components
end EmptyValues

section Leaves

theorem Search.run_lift {α β : Type} {x : Except ReferenceError α} {a : α} {f : α → Search β}
    (h : x = .ok a) : (OptionT.lift x >>= f).run = (f a).run := by
  rw [OptionT.run_bind, OptionT.run_lift, h]
  rfl

/-- A search through a list, with an invariant of the first of two. -/
theorem Search.upholds_foldlM {α β : Type} {f f' : β → α → Search β} {xs : List α} {b : β}
    (I : β → Prop) (hb : I b)
    (h : ∀ x ∈ xs, ∀ b, I b → Upholds (f b x).run (f' b x).run ∧
      ∀ b', (f b x).run = .ok (some b') → I b') :
    Upholds (xs.foldlM f b).run (xs.foldlM f' b).run ∧
      ∀ b', (xs.foldlM f b).run = .ok (some b') → I b' := by
  induction xs generalizing b with
  | nil =>
    refine ⟨.refl _, fun b' hb' => ?_⟩
    obtain rfl := Option.some.inj (Except.ok.inj hb')
    exact hb
  | cons x xs ih =>
    obtain ⟨hx, hI⟩ := h x List.mem_cons_self b hb
    have hrest := fun b' hb' => ih (b := b') (hI b' hb') fun y hy => h y (List.mem_cons_of_mem _ hy)
    rw [List.foldlM_cons, List.foldlM_cons, OptionT.run_bind, OptionT.run_bind]
    refine ⟨hx.bind fun o ho => ?_, fun b'' hb'' => ?_⟩
    · cases o with
      | none => exact .refl _
      | some b' => exact (hrest b' ho).1
    · rcases hfx : (f b x).run with e | (_ | b')
      · rw [hfx] at hb''; cases hb''
      · rw [hfx] at hb''; cases hb''
      · rw [hfx] at hb''
        exact (hrest b' hfx).2 b'' hb''

variable {c c' : TypeContext} (hc : c.components.Valid) (h : c.Extends c')
include hc h

/-- The leaves of a choice are the same with more components, as long as both have the fuel to open
those that were not visited. -/
theorem Leaves.with_upholds : ∀ (fuel fuel' : Nat) (l : Leaves) (s : SchemaObject),
    c.components.Closed (.inline s) → unvisited c.components l.visited < fuel →
      unvisited c.components l.visited < fuel' →
        Upholds (Leaves.with c fuel l s).run (Leaves.with c' fuel' l s).run ∧
          ∀ l', (Leaves.with c fuel l s).run = .ok (some l') → l.visited ⊆ l'.visited
  | 0, _, _, _, _, hf, _ => absurd hf (Nat.not_lt_zero _)
  | _, 0, _, _, _, _, hf' => absurd hf' (Nat.not_lt_zero _)
  | fuel + 1, fuel' + 1, l, s, hclosed, hf, hf' => by
    unfold Leaves.with
    refine Search.upholds_foldlM (fun l' : Leaves => l.visited ⊆ l'.visited) (List.Subset.refl _)
      fun x hx l₁ hl₁ => ?_
    have hx := Components.closed_inline.1 hclosed x (SchemaOf.mem_children.2 (by simp at hx; tauto))
    cases x with
    | inline o => exact ⟨.refl _, fun _ h => by cases h⟩
    | ref pointer =>
      obtain ⟨name, hp, s', hs'⟩ := Components.closed_ref.1 hx
      have hopen := Components.schema_upholds h.components name s' hs'
      dsimp only
      rw [Search.run_lift hp, Search.run_lift hp]
      by_cases hmem : name ∈ l₁.visited
      · rw [if_pos hmem, if_pos hmem]
        refine ⟨.refl _, fun l' hl' => ?_⟩
        obtain rfl := Option.some.inj (Except.ok.inj hl')
        exact hl₁
      rw [if_neg hmem, if_neg hmem, h.transfers]
      have hgrown : l.visited ⊆ name :: l₁.visited :=
        List.Subset.trans hl₁ (List.subset_cons_self _ _)
      split
      · refine ⟨.refl _, fun l' hl' => ?_⟩
        obtain rfl := Option.some.inj (Except.ok.inj hl')
        exact hgrown
      rw [Search.run_lift hs', Search.run_lift hopen]
      split
      · have hless := unvisited_lt (Components.Leads.mem_keys ⟨s', hs'⟩) hmem
        have hle := unvisited_le (c := c.components) hl₁
        have hstep := Leaves.with_upholds fuel fuel' { l₁ with visited := name :: l₁.visited } s'
          (hc.closed_of_schema hs') (by dsimp only; omega) (by dsimp only; omega)
        exact hstep.imp_right fun hgrows l' hl' => List.Subset.trans hgrown (hgrows l' hl')
      · refine ⟨.refl _, fun l' hl' => ?_⟩
        obtain rfl := Option.some.inj (Except.ok.inj hl')
        exact hgrown

theorem leavesOf_upholds (component : String) {s : SchemaObject}
    (hs : c.components.Closed (.inline s)) :
    Upholds (leavesOf c component s) (leavesOf c' component s) := by
  have hlength := h.components.schemas.length_le
  have hunvisited := unvisited_lt_succ c.components [component]
  have hwith := (Leaves.with_upholds hc h (c.components.schemas.length + 1)
    (c'.components.schemas.length + 1) { visited := [component] } s hs hunvisited
    (Nat.lt_of_lt_of_le hunvisited (Nat.succ_le_succ hlength))).1
  exact hwith.bind fun _ _ => .refl _

end Leaves

/-- The second job is the first with more components: of the same settings, title and operations. -/
structure Job.Extends (j j' : Job) : Prop where
  title : j'.document.info.title = j.document.info.title
  operations : j'.document.operations = j.document.operations
  parts : j.document.parts.Extends j'.document.parts
  settings : j'.settings = j.settings

/-- A step that fails on a reference at most when the first of two does, and else agrees. -/
abbrev Action.Follows {α : Type} (m m' : Action α) : Prop :=
  OpenApiClient.Follows (fun e => ∃ x, e = .reference x) m m'

theorem Action.follows_lift {α : Type} {x x' : Except ReferenceError α} (h : Upholds x x') :
    Action.Follows (liftM x) (liftM x') := by
  have hmap : Upholds (x.mapError PassError.reference) (x'.mapError PassError.reference) := by
    intro a ha
    cases x with
    | error e => cases ha
    | ok b =>
      obtain rfl : b = a := Except.ok.inj ha
      rw [h b rfl]
      rfl
  refine Follows.lift hmap fun e he => ?_
  cases x with
  | error e' => exact ⟨e', (Except.error.inj he).symm⟩
  | ok b => cases he

theorem Action.follows_ok_bind {α β : Type} {a : α} {f f' : α → Action β}
    (h : Action.Follows (f a) (f' a)) :
    Action.Follows (liftM (Except.ok a : Except ReferenceError α) >>= f)
      (liftM (Except.ok a : Except ReferenceError α) >>= f') := fun r => h r

theorem Action.follows_error_bind {α β : Type} {e : ReferenceError} {f : α → Action β} {m : Action β} :
    Action.Follows (liftM (Except.error e : Except ReferenceError α) >>= f) m := fun _ =>
  .inr ⟨.reference e, ⟨e, rfl⟩, rfl⟩

theorem Mapping.inFile_upholds {α : Type} {m m' : Mapping α} (h : Mapping.Follows m m')
    (f : Module.File) : Upholds (m.inFile f) (m'.inFile f) := by
  intro x hx
  unfold inFile at hx ⊢
  rcases h { bindings := f.bindings } with heq | ⟨e, -, he⟩
  · rw [heq]
    exact hx
  · rcases hm : m.run.run { bindings := f.bindings } with ⟨e' | a, t⟩
    · rw [hm] at hx
      cases hx
    · rw [hm] at he
      cases he

section Passes

variable {c c' : Components} (hparts : c.Extends c')

section Operations
include hparts

theorem argumentsOf_upholds (o : Operation) : Upholds (argumentsOf c o) (argumentsOf c' o) :=
  (Upholds.mapM fun p _ => Components.resolveItem_upholds hparts.parameters p).bind fun _ _ =>
    (Upholds.optionMapM fun b _ => Components.resolveItem_upholds hparts.requestBodies b).bind
      fun _ _ => .refl _

theorem responseOf_upholds (o : Operation) : Upholds (responseOf c o) (responseOf c' o) :=
  (Upholds.optionMapM fun r _ => Components.resolveItem_upholds hparts.responses r).bind
    fun _ _ => .refl _

end Operations

namespace TypeContext

variable {c c' : TypeContext} (h : c.Extends c')
include h

theorem argumentType_follows (a : Argument) :
    Mapping.Follows (c.argumentType a) (c'.argumentType a) := by
  unfold argumentType
  cases a.schema with
  | none => exact .refl _
  | some s => exact (typeOf_follows h s).bind fun _ => .refl _

theorem responseType_follows : ∀ s : Option Schema,
    Mapping.Follows (c.responseType s) (c'.responseType s)
  | none => .refl _
  | some s => nullableTypeOf_follows h s

theorem wrapper_follows (v : Conventions) (endpoint : String) (call : Call) (m : Method) :
    Mapping.Follows (c.wrapper v endpoint call m) (c'.wrapper v endpoint call m) :=
  Follows.bind (.mapM fun a _ => argumentType_follows h a) fun _ =>
    (responseType_follows h m.response).bind fun _ => .refl _

theorem streamedType_follows (response : Schema) :
    Mapping.Follows (c.streamedType response) (c'.streamedType response) := by
  unfold streamedType
  split
  · exact nullableTypeOf_follows h _
  · exact .refl _

theorem signalArguments_follows (s : Signal) (response : Schema) :
    Mapping.Follows (c.signalArguments s response) (c'.signalArguments s response) := by
  unfold signalArguments
  split
  · exact .refl _
  · exact (nullableTypeOf_follows h _).bind fun _ => .refl _
  · exact .refl _

end TypeContext

variable {j j' : Job} (h : j.Extends j')
include h

theorem Job.Extends.types (r : Run) (own : Option (String × String) := none) :
    (j.types r own).Extends (j'.types r own) := ⟨h.parts, rfl, rfl⟩

theorem Job.Extends.note (pass : Pass) (level : Level) (message : String) :
    j'.note pass level message = j.note pass level message := by
  rw [Job.note, Job.note, h.title]

theorem callsByEndpoint_eq : callsByEndpoint j'.document = callsByEndpoint j.document := by
  rw [callsByEndpoint, callsByEndpoint, h.operations]

theorem registerTargets_eq : registerTargets j' = registerTargets j := by
  unfold registerTargets
  simp only [h.settings, h.note]

theorem writeMethod_follows (endpoint file : String) (call : Call) (localName : String) :
    Action.Follows (writeMethod j endpoint file call localName)
      (writeMethod j' endpoint file call localName) := by
  unfold writeMethod
  rw [h.settings]
  simp only [h.note]
  refine (Action.follows_lift (argumentsOf_upholds h.parts _)).bind fun arguments => ?_
  refine (Action.follows_lift (responseOf_upholds h.parts _)).bind fun response => ?_
  refine Follows.bind (.refl _) fun run => ?_
  exact (Action.follows_lift (Mapping.inFile_upholds
    (TypeContext.wrapper_follows (h.types run) _ _ _ _) _)).bind fun _ => .refl _

theorem writeEndpoint_follows (name : String) (calls : List Call) :
    Action.Follows (writeEndpoint j name calls) (writeEndpoint j' name calls) := by
  unfold writeEndpoint
  cases repeated? [] calls with
  | some c => exact Follows.throw_bind _ _ _
  | none =>
    simp only
    refine Follows.bind (.refl _) fun locals => ?_
    exact Follows.bind (.mapM fun e _ => writeMethod_follows h name _ e.1 e.2) fun _ => .refl _

theorem writeBackbone_follows : Action.Follows (writeBackbone j) (writeBackbone j') := by
  unfold writeBackbone
  rw [callsByEndpoint_eq h]
  simp only [h.note]
  exact Follows.bind (.mapM fun e _ => writeEndpoint_follows h e.1 e.2) fun _ => .refl _

variable (hc : j.document.parts.Valid)

section Models
include hc

theorem writeModel_follows (component : String) :
    Action.Follows (writeModel j component) (writeModel j' component) := by
  unfold writeModel
  simp only [h.note]
  refine Follows.bind (.refl _) fun run => ?_
  rcases hdeclare : (run.sources.openFile (Naming.modelFile component) Pass.model.path).bindings.declare
    (Naming.simpleName component) with ⟨identifier, bindings⟩
  have hfile := Mapping.inFile_upholds (TypeContext.declarationOf_follows
    (h.types run (some (component, identifier))) hc component identifier)
    { run.sources.openFile (Naming.modelFile component) Pass.model.path with bindings }
  exact (Action.follows_lift hfile).bind fun _ => .refl _

end Models

omit h in
/-- No model is written for a name that is that of no component. -/
theorem writeModel_fails {component : String} (hmissing : component ∉ j.document.parts.schemas.keys)
    (r : Run) : ∃ e : PassError, (∃ x, e = .reference x) ∧
      ((writeModel j component).run.run r).1 = .error e := by
  have hat := Entries.at?_eq_none.2 hmissing
  have hschema : j.document.parts.schema component = .error (.missing component) := by
    simp [Components.schema, Components.follow, hat]
  have hfile : ∀ run own identifier f,
      ((j.types run own).declarationOf component identifier).inFile f =
        .error (.missing component) := by
    intro run own identifier f
    unfold TypeContext.declarationOf
    simp only [Job.types, hat, hschema]
    rfl
  refine ⟨.reference (.missing component), ⟨_, rfl⟩, ?_⟩
  unfold writeModel
  rw [run_bind]
  rcases hdeclare : (r.sources.openFile (Naming.modelFile component) Pass.model.path).bindings.declare
    (Naming.simpleName component) with ⟨identifier, bindings⟩
  simp only [hfile]
  rfl

section Models
include hc

/-- **The worklist of models is the same with more components**, as long as both have the fuel for
those that have no model yet. -/
theorem writeNeeded_follows (transfers : Entries TransferTarget) :
    ∀ (fuel fuel' : Nat) (queue : List String) (models : Entries Model), models.keys.Nodup →
      models.keys ⊆ j.document.parts.schemas.keys →
      j.document.parts.schemas.length < models.length + fuel →
      j.document.parts.schemas.length < models.length + fuel' →
        Action.Follows (writeNeeded j transfers fuel queue models)
          (writeNeeded j' transfers fuel' queue models)
  | fuel, fuel', queue, models, hn, hsub, hf, hf' => by
    have hle : models.length ≤ j.document.parts.schemas.length :=
      (Entries.length_keys models).symm.trans_le (Entries.length_le_of_nodup hn hsub)
    match fuel, fuel' with
    | 0, _ => omega
    | _, 0 => omega
    | fuel + 1, fuel' + 1 =>
    unfold writeNeeded
    cases hd : queue.dropWhile fun n => models.has n || transfers.has n with
    | nil => exact .refl _
    | cons component rest =>
      obtain ⟨hnew, -⟩ := eq_append_of_dropWhile hd
      rw [Bool.or_eq_false_iff, Entries.has_eq_false] at hnew
      simp only
      split
      · exact Follows.throw_bind _ _ _
      by_cases hkey : component ∈ j.document.parts.schemas.keys
      · refine (writeModel_follows h hc component).bind fun p => ?_
        refine writeNeeded_follows transfers fuel fuel' _ _ ?_ ?_ ?_ ?_
        · rw [Entries.keys_append]
          exact nodup_snoc hn hnew.1
        · rw [Entries.keys_append]
          exact List.append_subset.2 ⟨hsub, List.cons_subset.2 ⟨hkey, List.nil_subset _⟩⟩
        · rw [List.length_append, List.length_singleton]
          omega
        · rw [List.length_append, List.length_singleton]
          omega
      · exact Follows.of_bind_fails fun r => writeModel_fails hkey r
termination_by fuel => fuel

theorem writeModels_follows : Action.Follows (writeModels j) (writeModels j') := by
  have hlength := h.parts.schemas.length_le
  unfold writeModels
  simp only [h.note]
  refine Follows.bind (.refl _) fun backbone => Follows.bind (.refl _) fun run => ?_
  refine Follows.bind (writeNeeded_follows h hc run.transfers _ _ backbone.referenced []
    List.nodup_nil (List.nil_subset _) (by simp) (by simp; omega)) fun models => ?_
  refine Follows.bind (.mapM fun e _ => ?_) fun _ => .refl _
  exact (Action.follows_lift (emptyValueOf_upholds hc h.parts e.1)).bind fun _ => .refl _

/-- **A choice is the same union with more components.** -/
theorem flatten_follows (models : Entries Model) (component : String) (m : Model) :
    Action.Follows (flatten j models component m) (flatten j' models component m) := by
  unfold flatten
  cases hs : j.document.parts.schema component with
  | error e => exact Action.follows_error_bind
  | ok s =>
    rw [Components.schema_upholds h.parts component s hs]
    refine Action.follows_ok_bind ?_
    split
    · exact .refl _
    refine Follows.bind (.refl _) fun run => ?_
    have hcontext := h.types run (some (component, m.identifier))
    have hclosed : j.document.parts.Closed (.inline s) := hc.closed_of_schema hs
    refine (Action.follows_lift (leavesOf_upholds hc hcontext component hclosed)).bind fun leaves => ?_
    cases leaves with
    | none => exact .refl _
    | some leaves =>
      simp only
      cases run.sources.at? m.file with
      | none => exact .refl _
      | some f =>
        have htypes := Mapping.inFile_upholds (Follows.mapM fun leaf (_ : leaf ∈ leaves) =>
          TypeContext.reference_follows hcontext leaf []) f
        exact (Action.follows_lift htypes).bind fun _ => .refl _

theorem flattenUnions_follows : Action.Follows (flattenUnions j) (flattenUnions j') := by
  unfold flattenUnions
  simp only [h.note]
  refine Follows.bind (.refl _) fun models => ?_
  exact Follows.bind (.mapM fun e _ => flatten_follows h hc models e.1 e.2) fun _ => .refl _

end Models

section Replacements

variable {κ : Type} {w : Replacement κ}
  (hbuild : ∀ {k c c' v endpoint method response arguments}, TypeContext.Extends c c' →
    Mapping.Follows (w.build k c v endpoint method response arguments)
      (w.build k c' v endpoint method response arguments))
include hbuild

theorem replace_follows (f : Module.File) (e : Endpoint) (m : Method) (response : Schema) (k : κ) :
    Action.Follows (w.replace j f e m response k) (w.replace j' f e m response k) := by
  unfold Replacement.replace
  rw [h.settings]
  simp only [h.note]
  refine Follows.bind (.refl _) fun wrapper => Follows.bind (.refl _) fun run => ?_
  exact (Action.follows_lift (Mapping.inFile_upholds (hbuild (h.types run)) f)).bind fun _ => .refl _

theorem replaceSelected_follows (e : Endpoint) (m : Method) :
    Action.Follows (w.replaceSelected j e m) (w.replaceSelected j' e m) := by
  unfold Replacement.replaceSelected
  cases m.response with
  | none => exact .refl _
  | some response =>
    simp only
    refine Follows.bind (.refl _) fun run => ?_
    cases run.sources.at? e.file with
    | none => exact .refl _
    | some f =>
      simp only
      refine Follows.bind (.refl _) fun k => ?_
      cases k with
      | none => exact .refl _
      | some k => exact (replace_follows h hbuild f e m response k).bind fun _ => .refl _

theorem replacement_follows : Action.Follows (w.run j) (w.run j') := by
  unfold Replacement.run
  simp only [h.note]
  refine Follows.bind (.refl _) fun backbone => ?_
  refine Follows.bind (.mapM fun e _ => .mapM fun m _ => ?_) fun _ => .refl _
  exact replaceSelected_follows h hbuild e m

end Replacements

include hc

/-- **Every pass does the same with more components.** -/
theorem execute_follows (p : Pass) : Action.Follows (p.execute j) (p.execute j') := by
  cases p with
  | transferTypes =>
    change Action.Follows (registerTargets j) (registerTargets j')
    rw [registerTargets_eq h]
    exact .refl _
  | backbone => exact writeBackbone_follows h
  | model => exact writeModels_follows h hc
  | subtypes => exact flattenUnions_follows h hc
  | push =>
    change Action.Follows ((subscriptions j.settings.pushClasses).run j)
      ((subscriptions j'.settings.pushClasses).run j')
    rw [h.settings]
    exact replacement_follows h fun hc =>
      (TypeContext.streamedType_follows hc _).bind fun _ => .refl _
  | signals =>
    refine Follows.bind (.refl _) fun run => ?_
    refine replacement_follows h fun {s c c' v endpoint method response arguments} hc => ?_
    simp only [signalConstructions, hc.transfers]
    exact (TypeContext.signalArguments_follows hc s response).bind fun _ => .refl _

/-- **A run does the same with more components.** -/
theorem executeAll_follows (passes : List Pass) :
    Follows (fun pe => ∃ x, pe.2 = .reference x) (executeAll j passes) (executeAll j' passes) := by
  refine Follows.forM fun p _ => Follows.bind (.refl _) fun _ => ?_
  exact (execute_follows h hc p).adapt fun _ he => he

omit hc in
/-- In a valid document no reference is missed, so that more components change nothing. -/
theorem executeAll_eq (hv : j.document.Valid) (passes : List Pass) (log : List LogLine) :
    (executeAll j' passes).run.run { Run.start j.settings with log } =
      (executeAll j passes).run.run { Run.start j.settings with log } := by
  refine (executeAll_follows h hv.parts passes).eq ?_
  refine (executeAll_sound hv passes (Run.Sound.start j log)).mono (fun _ _ _ => trivial) ?_
  rintro pe _ ⟨_, _, _, -, htame, -⟩ ⟨x, hx⟩
  exact htame.reference x hx

end Passes

end Client
end OpenApiClient
