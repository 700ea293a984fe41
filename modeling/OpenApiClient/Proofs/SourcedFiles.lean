/-
# Where the names in files come from

A file is *sourced* when the names in it come from those that are asked for. The steps of passes keep
all files so, since they write what types were told for, push it, or put it in the place of what was
there. Once targets are registered, the files of a run are sourced whatever passes come then
(`executeAll_sourced`).
-/

import OpenApiClient.Proofs.AskedNames
import OpenApiClient.Proofs.Sources

namespace OpenApiClient
namespace Client

open OpenApi TypeScript OpenApiClient.Module

/-- The names in a file come from those that are asked for. -/
structure Sourced (d : Document) (settings : Settings) (f : File) : Prop where
  bound : f.bindings.From (Asked d settings)
  functions : ∀ g, .function g ∈ f.declarations → ParametersFrom d g
  typeParameters : ∀ e ∈ f.declarations, ∀ v ∈ e.typeParameters, TypeParameter d v

section Files

variable {d : Document} {settings : Settings} {f : File}

theorem Sourced.blank (path origin extension : String) (suffixing : Suffixing) :
    Sourced d settings { path, origin, bindings := .ofFile path extension suffixing } :=
  ⟨Bindings.From.ofFile path extension suffixing, nofun, nofun⟩

/-- Other bindings whose names were asked for. -/
theorem Sourced.rebind (h : Sourced d settings f) {b : Bindings} (hb : b.From (Asked d settings)) :
    Sourced d settings { f with bindings := b } :=
  ⟨hb, h.functions, h.typeParameters⟩

theorem Sourced.push (h : Sourced d settings f) {e : Declaration}
    (hfunction : ∀ g, e = .function g → ParametersFrom d g)
    (htypes : ∀ v ∈ e.typeParameters, TypeParameter d v) : Sourced d settings (f.push e) where
  bound := h.bound
  functions g hg := by
    rcases List.mem_append.1 hg with hg | hg
    · exact h.functions g hg
    · exact hfunction g (List.mem_singleton.1 hg).symm
  typeParameters e' he' := by
    rcases List.mem_append.1 he' with he' | he'
    · exact h.typeParameters e' he'
    · exact List.mem_singleton.1 he' ▸ htypes

/-- A declaration is changed into one whose names come from those that are asked for. -/
theorem Sourced.adjust (h : Sourced d settings f) (name : String) {change : Declaration → Declaration}
    (hfunction : ∀ e ∈ f.declarations, ∀ g, change e = .function g → ParametersFrom d g)
    (htypes : ∀ e ∈ f.declarations, ∀ v ∈ (change e).typeParameters, TypeParameter d v) :
    Sourced d settings (f.adjust name change) where
  bound := h.bound
  functions g hg := by
    rcases mem_adjustFirst hg with hg | ⟨e, he, hg⟩
    · exact h.functions g hg
    · exact hfunction e he g hg.symm
  typeParameters e' he' := by
    rcases mem_adjustFirst he' with he' | ⟨e, he, rfl⟩
    · exact h.typeParameters e' he'
    · exact htypes e he

theorem Sourced.adjust_of_keeps (h : Sourced d settings f) (name : String)
    {change : Declaration → Declaration} (hk : Keeps change) :
    Sourced d settings (f.adjust name change) := by
  refine h.adjust name (fun e he g hg => ?_) fun e he v hv => ?_
  · exact h.functions g (hk.isFunction e g hg ▸ he)
  · exact h.typeParameters e he v (hk.typeParameters e ▸ hv)

/-- What is told for a file asks for names as the computation does. -/
theorem Sourced.of_inFile {α : Type} {m : Mapping α} {Q : α → Prop}
    (hm : Maintains (TypeState.Sourced d settings) Q m) (h : Sourced d settings f) {a : α}
    {f' : File} {names : List String} (hin : m.inFile f = .ok (a, f', names)) :
    Sourced d settings f' ∧ Q a := by
  obtain ⟨t, ht, ha, rfl⟩ := TypeContext.of_inFile hm h.bound hin
  exact ⟨h.rebind ht, ha⟩

end Files

section Passes

variable (d : Document) (settings : Settings)

/-- Targets were registered, and the names in all files come from those that are asked for. -/
structure Run.Sourced (r : Run) : Prop where
  targets : ∀ n, r.transfers.at? n = (targetsOf settings).at? n
  files : r.sources.Each fun _ => Client.Sourced d settings

/-- The step maintains that. -/
abbrev KeepsSourced {α : Type} (m : Action α) : Prop :=
  Maintains (Run.Sourced d settings) (fun _ => True) m

variable {d settings} {r : Run}

theorem Run.Sourced.ofCore (h : r.Sourced d settings) (own : Option (String × String) := none) :
    TypeContext.OfCore d settings (Job.types ⟨d.core, settings⟩ r own) :=
  ⟨rfl, h.targets⟩

theorem Run.Sourced.openFile (h : r.Sourced d settings) (path origin : String) :
    Client.Sourced d settings (r.sources.openFile path origin) :=
  Sources.openFile_cases origin (fun f hf => h.files path f hf) fun _ => .blank ..

/-- A change of the log, or of what passes leave for others. -/
theorem Run.Sourced.congr {r' : Run} (h : r.Sourced d settings) (hs : r'.sources = r.sources)
    (ht : r'.transfers = r.transfers) : r'.Sourced d settings :=
  ⟨ht ▸ h.targets, hs ▸ h.files⟩

theorem note_sourced (j : Job) (pass : Pass) (level : Level) (message : String) :
    KeepsSourced d settings (j.note pass level message) :=
  .modify fun _ h => h.congr rfl rfl

theorem write_sourced {f : File} (hf : Sourced d settings f) : KeepsSourced d settings (Action.write f) :=
  .modify fun _ h => ⟨h.targets, h.files.put hf fun _ _ _ hg => hg⟩

theorem registerTargets_sourced (h : r.transfers = [] ∨ r.Sourced d settings) (hs : r.sources.Each
    fun _ => Client.Sourced d settings) :
    Ends (registerTargets ⟨d.core, settings⟩) r (fun _ r' => r'.Sourced d settings) fun _ _ => True := by
  unfold registerTargets
  dsimp only
  cases settings.transferTypes.find? (·.2.name.isEmpty) with
  | some e => exact trivial
  | none =>
    refine ⟨fun n => at?_registerAll_targetsOf ?_, hs⟩
    rcases h with h | h
    · exact .inl (by rw [h]; rfl)
    · exact .inr (h.targets n)

theorem writeMethod_sourced {endpoint : String} {call : Call}
    (hcall : (endpoint, call) ∈ Entries.spread (callsByEndpoint d)) (file localName : String) :
    KeepsSourced d settings (writeMethod ⟨d.core, settings⟩ endpoint file call localName) := by
  unfold writeMethod
  refine Maintains.bind (.mapError fun _ h => h) fun arguments harguments => ?_
  refine Maintains.bind (Q := fun _ => True) (.mapError fun _ _ => trivial) fun response _ => ?_
  refine .get_bind fun run hrun => ?_
  have hasked : ∀ a ∈ arguments, AskedParameter d (parameterName a.name) := fun a ha =>
    .argument hcall (argumentsOf_upholds (core_extends_self d) call.operation _ harguments) ha
  have hwrapper := TypeContext.wrapper_maintains (hrun.ofCore) settings.conventions endpoint call
    ⟨call.name, localName, arguments, response⟩ hasked
  have hopen := hrun.openFile file Pass.backbone.path
  refine Maintains.bind (.mapError fun _ h => hopen.of_inFile hwrapper h) fun (g, f, names) h => ?_
  obtain ⟨hf, htypes, hg⟩ := h
  have hpush := hf.push (e := .function g) (fun _ he => Declaration.function.inj he ▸ hg)
    fun v hv => by
      rw [show (Declaration.function g).typeParameters = [] from htypes] at hv
      cases hv
  refine Maintains.bind (.mapError fun _ h => h) fun b hb => ?_
  obtain ⟨exports, -, rfl⟩ := map_eq_ok.1 hb
  refine Maintains.bind (write_sourced (hpush.rebind (hpush.bound.congr rfl))) fun _ _ => ?_
  exact (note_sourced _ _ _ _).bind fun _ _ => .pure trivial

theorem declareAll_sourced (file : String) {names : List String}
    (h : ∀ n ∈ names, Asked d settings n) : KeepsSourced d settings (declareAll file names) :=
  .get_bind fun run hrun => by
    have hopen := hrun.openFile file Pass.backbone.path
    exact (write_sourced (hopen.rebind (hopen.bound.bindAll h))).bind fun _ _ => .pure trivial

theorem writeBackbone_sourced : KeepsSourced d settings (writeBackbone ⟨d.core, settings⟩) := by
  refine writeBackbone_maintains (fun e he => declareAll_sourced _ fun n hn => ?_)
    (fun name call localName hcall => writeMethod_sourced (d := d) hcall _ _)
    fun r b log h => h.congr rfl rfl
  obtain ⟨c, hc, rfl⟩ := List.mem_map.1 hn
  have hcall : (e.1, c) ∈ Entries.spread (callsByEndpoint d) :=
    List.mem_flatMap.2 ⟨e, he, List.mem_map.2 ⟨c, hc, rfl⟩⟩
  exact .call hcall

theorem writeModel_sourced {component : String} (hfree : (targetsOf settings).at? component = none) :
    KeepsSourced d settings (writeModel ⟨d.core, settings⟩ component) := by
  by_cases hkey : component ∈ d.core.parts.schemas.keys
  · have hasked : Asked d settings (Naming.simpleName component) :=
      .component (reaches_of_mem_keys_core hkey) hfree
    unfold writeModel
    refine .get_bind fun run hrun => ?_
    have hopen := hrun.openFile (Naming.modelFile component) Pass.model.path
    have hdeclared := hopen.rebind (hopen.bound.bind hasked false)
    dsimp only
    have hdeclaration := TypeContext.declarationOf_maintains
      (TypeContext.reference_steady (hrun.ofCore (some (component, ((run.sources.openFile
        (Naming.modelFile component) Pass.model.path).bindings.declare
          (Naming.simpleName component)).1)))) component
      ((run.sources.openFile (Naming.modelFile component) Pass.model.path).bindings.declare
        (Naming.simpleName component)).1
    refine Maintains.bind (.mapError fun _ h => hdeclared.of_inFile hdeclaration h)
      fun (e, f, names) ⟨hf, he⟩ => ?_
    have hpush := hf.push (e := e) (fun g hg => absurd hg (he.function g)) fun v hv => by
      obtain ⟨s, hs, hv⟩ := he.typeParameters v hv
      exact typeParameter_of_core hs hv
    refine Maintains.bind (write_sourced (hpush.rebind (hpush.bound.congr rfl))) fun _ _ => ?_
    exact (note_sourced _ _ _ _).bind fun _ _ => .pure trivial
  · intro r _
    obtain ⟨e, -, he⟩ := writeModel_fails (j := ⟨d.core, settings⟩) hkey r
    unfold Ends
    rcases hrun : (writeModel ⟨d.core, settings⟩ component).run.run r with ⟨_ | a, t⟩
    · exact trivial
    · rw [hrun] at he
      cases he

theorem writeNeeded_sourced {transfers : Entries TransferTarget}
    (htransfers : ∀ n, transfers.at? n = (targetsOf settings).at? n) (fuel : Nat)
    (queue : List String) (models : Entries Model) :
    KeepsSourced d settings (writeNeeded ⟨d.core, settings⟩ transfers fuel queue models) := by
  induction fuel generalizing queue models with
  | zero => exact .pure trivial
  | succ fuel ih =>
    unfold writeNeeded
    cases hd : queue.dropWhile fun n => models.has n || transfers.has n with
    | nil => exact .pure trivial
    | cons component rest =>
      have hfree : (targetsOf settings).at? component = none := by
        obtain ⟨hnew, -⟩ := eq_append_of_dropWhile hd
        rw [Bool.or_eq_false_iff, Entries.has_eq_false, Entries.has_eq_false] at hnew
        rw [← htransfers]
        exact Entries.at?_eq_none.2 hnew.2
      have hwrite := (writeModel_sourced (d := d) hfree).bind fun p _ =>
        ih (rest ++ p.2) (models ++ [(component, p.1)])
      dsimp only
      split
      · exact Maintains.bind (Q := fun _ => True) (.throw _) fun _ _ => hwrite
      · exact hwrite

theorem backbone_sourced (reader : Pass) : KeepsSourced d settings (Action.backbone reader) :=
  .get_bind fun r _ => by
    cases r.backbone with
    | none => exact .throw _
    | some b => exact .pure trivial

theorem models_sourced (reader : Pass) : KeepsSourced d settings (Action.models reader) :=
  .get_bind fun r _ => by
    cases r.models with
    | none => exact .throw _
    | some ms => exact .pure trivial

theorem writeModels_sourced : KeepsSourced d settings (writeModels ⟨d.core, settings⟩) := by
  unfold writeModels
  refine (backbone_sourced _).bind fun backbone _ => .get_bind fun run hrun => ?_
  refine (writeNeeded_sourced hrun.targets _ _ _).bind fun models _ => ?_
  refine Maintains.bind (.mapM fun e _ => ?_) fun models _ => ?_
  · exact Maintains.bind (Q := fun _ => True) (.mapError fun _ _ => trivial) fun _ _ => .pure trivial
  · exact (note_sourced _ _ _ _).bind fun _ _ => .modify fun _ h => h.congr rfl rfl

theorem tagLeaf_sourced (models : Entries Model) (base : SchemaObject) (leaf : String) :
    KeepsSourced d settings (tagLeaf models base leaf) := by
  unfold tagLeaf
  cases models.at? leaf with
  | none => exact .pure trivial
  | some m =>
    refine .get_bind fun run hrun => ?_
    cases hf : run.sources.at? m.file with
    | none => exact .pure trivial
    | some f =>
      exact write_sourced ((hrun.files _ f hf).adjust_of_keeps _ (withTag_keeps _ _))

theorem flatten_sourced (models : Entries Model) (component : String) (m : Model) :
    KeepsSourced d settings (flatten ⟨d.core, settings⟩ models component m) := by
  unfold flatten
  refine Maintains.bind (Q := fun _ => True) (.mapError fun _ _ => trivial) fun s _ => ?_
  split
  · exact .pure trivial
  refine .get_bind fun run hrun => ?_
  refine Maintains.bind (Q := fun _ => True) (.mapError fun _ _ => trivial) fun leaves _ => ?_
  cases leaves with
  | none => exact .pure trivial
  | some leaves =>
    cases hf : run.sources.at? m.file with
    | none => exact .pure trivial
    | some f =>
      have htypes := Maintains.mapM fun leaf (_ : leaf ∈ leaves) =>
        TypeContext.reference_steady (hrun.ofCore (some (component, m.identifier))) leaf []
      refine Maintains.bind (.mapError fun _ h => (hrun.files _ f hf).of_inFile htypes h)
        fun (types, f', names) ⟨hf', _⟩ => ?_
      refine Maintains.bind (write_sourced (hf'.adjust_of_keeps _ (withType_keeps _))) fun _ _ => ?_
      exact Maintains.bind (.forM fun leaf _ => tagLeaf_sourced models s leaf) fun _ _ => .pure trivial

theorem flattenUnions_sourced : KeepsSourced d settings (flattenUnions ⟨d.core, settings⟩) := by
  unfold flattenUnions
  refine (models_sourced _).bind fun models _ => ?_
  refine Maintains.bind (.mapM fun e _ => flatten_sourced models e.1 e.2) fun _ _ => ?_
  exact note_sourced _ _ _ _

section Replacements

variable {κ : Type} {w : Replacement κ}
  (hbuild : ∀ {k c}, TypeContext.OfCore d settings c → ∀ v endpoint method response arguments,
    TypeContext.Steady (TypeState.Sourced d settings) (w.build k c v endpoint method response arguments))
include hbuild

/-- A wrapper that is replaced keeps its parameters. -/
theorem replace_sourced {f : File} (hf : Sourced d settings f) (e : Endpoint) (m : Method)
    (response : Schema) (k : κ) :
    KeepsSourced d settings (w.replace ⟨d.core, settings⟩ f e m response k) := by
  unfold Replacement.replace
  refine Maintains.bind (Q := fun wrapper => ∀ p ∈ wrapper.parameters,
    (∃ a, AskedParameter d a ∧ Given a p.name) ∧ isReserved p.name = false)
    (.mapError fun wrapper h => ?_) fun wrapper hwrapper => ?_
  · obtain ⟨g, hg, rfl⟩ := declaration?_of_inFile h
    exact fun p hp => hf.functions g (List.mem_of_find?_eq_some hg) p (List.mem_filter.1 hp).1
  refine .get_bind fun run hrun => ?_
  have htypes := hbuild (k := k) hrun.ofCore settings.conventions e.name m.name response
    wrapper.arguments
  refine Maintains.bind (.mapError fun _ h => hf.of_inFile htypes h)
    fun ((result, returned), f', names) ⟨hf', _⟩ => ?_
  refine Maintains.bind (Q := Sourced d settings) (.mapError fun f'' h => ?_) fun f'' hf'' => ?_
  · unfold replaceFunction at h
    split at h
    · obtain rfl := Except.ok.inj h
      refine hf'.adjust _ (fun _ _ g hg => ?_) fun _ _ => nofun
      obtain rfl := Declaration.function.inj hg
      exact hwrapper
    · cases h
  · exact (write_sourced hf'').bind fun _ _ => note_sourced _ _ _ _

theorem replaceSelected_sourced (e : Endpoint) (m : Method) :
    KeepsSourced d settings (w.replaceSelected ⟨d.core, settings⟩ e m) := by
  unfold Replacement.replaceSelected
  cases m.response with
  | none => exact .pure trivial
  | some response =>
    refine .get_bind fun run hrun => ?_
    cases hf : run.sources.at? e.file with
    | none => exact .pure trivial
    | some f =>
      refine Maintains.bind (Q := fun _ => True) (.mapError fun _ _ => trivial) fun k _ => ?_
      cases k with
      | none => exact .pure trivial
      | some k =>
        exact (replace_sourced hbuild (hrun.files _ f hf) e m response k).bind fun _ _ => .pure trivial

theorem replacement_sourced : KeepsSourced d settings (w.run ⟨d.core, settings⟩) := by
  unfold Replacement.run
  refine (backbone_sourced _).bind fun backbone _ => ?_
  refine Maintains.bind (.mapM fun e _ => .mapM fun m _ => replaceSelected_sourced hbuild e m) fun _ _ => ?_
  exact note_sourced _ _ _ _

end Replacements

/-- **Every pass asks for such names only.** -/
theorem execute_sourced (p : Pass) : KeepsSourced d settings (p.execute ⟨d.core, settings⟩) := by
  cases p with
  | transferTypes =>
    exact fun r hr => (registerTargets_sourced (.inr hr) hr.files).imp fun _ _ h => ⟨h, trivial⟩
  | backbone => exact writeBackbone_sourced
  | model => exact writeModels_sourced
  | subtypes => exact flattenUnions_sourced
  | push =>
    exact replacement_sourced (w := subscriptions settings.pushClasses)
      fun {_ _} hc v endpoint method response arguments =>
        TypeContext.buildSubscription_steady hc _ v endpoint method response arguments
  | signals =>
    exact .get_bind fun r _ => replacement_sourced (w := signalConstructions r.models)
      fun {k _} hc v endpoint method response arguments =>
        TypeContext.buildSignal_steady hc _ k v endpoint method response arguments

/-- **The names in the files of a client come from those that are asked for**, whatever passes come
after targets were registered. -/
theorem executeAll_sourced (hd : d.validate = .ok ()) {passes : List Pass} {log : List LogLine}
    (hr : (executeAll ⟨d, settings⟩ (.transferTypes :: passes)).run.run
      { Run.start settings with log } = (.ok (), r)) : r.Sourced d settings := by
  have hagree : ∀ s name, d.Reaches s name → d.parts.AgreeAt d.parts s name := fun s name _ => by
    cases s <;> rfl
  rw [executeAll_core (Document.valid_of_validate hd) rfl rfl hagree] at hr
  have hrest : Maintains (Run.Sourced d settings) (fun _ => True)
      (executeAll ⟨d.core, settings⟩ passes) :=
    .forM fun p _ => Maintains.bind (.modify fun _ h => h.congr rfl rfl) fun _ _ =>
      (execute_sourced p).adapt
  have hall : Ends (executeAll ⟨d.core, settings⟩ (.transferTypes :: passes))
      { Run.start settings with log } (fun _ r => r.Sourced d settings) fun _ _ => True := by
    change Ends ((modify _ >>= fun _ => (registerTargets ⟨d.core, settings⟩).adapt _) >>= fun _ =>
      executeAll ⟨d.core, settings⟩ passes) _ _ _
    rw [ends_bind, ends_bind, ends_modify, ends_adapt]
    refine (registerTargets_sourced (.inl rfl) fun path f hf => by cases hf).imp fun _ r h => ?_
    exact (hrest r h).imp fun _ _ h => h.1
  exact hall.result hr

end Passes
end Client
end OpenApiClient
