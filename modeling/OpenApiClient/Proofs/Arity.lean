/-
# How many type arguments models are applied to

A reference to a model should have as many type arguments as the declaration of the model has type
parameters. A reference is written with at least as many arguments as the schema has type parameters
that the component leads to, and a declaration has at most as many parameters. So the numbers agree
unless one of them is off: a declaration that drops the type parameters, being that of an alias of
another component or of an enumeration, or a reference with too many arguments. `aritiesAgree_iff` says
that they agree exactly then, but for references whose names may stand for something else.

`Run.Knows` says along the way where the references of files come from.
-/

import OpenApiClient.Proofs.Models

namespace OpenApiClient
namespace Client

open OpenApi TypeScript OpenApiClient.Module

section Statements

/-- The name stands for the model of a component in a file: the file imports the default of the model's
module by it, or declares the model. -/
def refersTo (f : File) (component identifier name : String) : Prop :=
  f.bindings.imports.defaultName? (f.bindings.site.specifier (Naming.modelModule component)) =
      some name ∨
    f.path = Naming.modelFile component ∧ name = identifier

instance (f : File) (component identifier name : String) :
    Decidable (refersTo f component identifier name) := inferInstanceAs (Decidable (_ ∨ _))

/-- The model of a component is declared in one of the files with the number of type parameters. -/
def declaredWith (files : List File) (component identifier : String) (n : Nat) : Prop :=
  ∃ f ∈ files, f.path = Naming.modelFile component ∧ ∃ d, f.declaration? identifier = some d ∧
    d.typeParameters.length = n

/-- It holds of the references in files that stand for models: of the file, the component and the
reference. The names of its own type parameters stand for these in a declaration. -/
def EachModelReference (files : List File) (models : Entries Model)
    (P : File → String → Model → Reference → Prop) : Prop :=
  ∀ f ∈ files, ∀ d ∈ f.declarations, ∀ ref ∈ d.references, ref.1 ∉ d.typeParameters →
    ∀ e ∈ models, refersTo f e.1 e.2.identifier ref.1 → P f e.1 e.2 ref

/-- Every reference to a model has as many type arguments as the declaration of the model has type
parameters. -/
def AritiesAgree (files : List File) (models : Entries Model) : Prop :=
  EachModelReference files models fun _ component m ref =>
    declaredWith files component m.identifier ref.2

end Statements

section Conditions

/-- The declaration of a component that leads to a schema with type parameters has none, because it
stands for another component or is an enumeration. -/
def DropsParameters (c : Components) (component : String) : Prop :=
  c.arity component ≠ 0 ∧ ∃ form, Form.of? c component = some form ∧ form.typeParameters = []

/-- A name that types take as it stands: that of a type parameter, of a type of the client that needs no
import, or one that generated code takes for known. -/
def plainName (d : Document) (transfers : Entries TransferTarget) (name : String) : Prop :=
  name = "Promise" ∨ name = "Blob" ∨ name ∈ d.typeVariables ∨
    ∃ e ∈ transfers, e.2.module = none ∧ e.2.name = name

/-- In a file, the name of the model of a component may stand for something else: it is taken as it
stands, or another component has the same specifier. -/
def Ambiguous (d : Document) (transfers : Entries TransferTarget) (f : File)
    (component name : String) : Prop :=
  plainName d transfers name ∨ ∃ n, n ≠ component ∧ d.parts.Leads n ∧
    f.bindings.site.specifier (Naming.modelModule n) =
      f.bindings.site.specifier (Naming.modelModule component)

end Conditions

section Declared

variable {c : Components} {component : String}

/-- A declaration has as many type parameters as the schema that its component leads to, unless it drops
them. -/
theorem Form.length_typeParameters {form : Form}
    (hform : Form.of? c component = some form) :
    form.typeParameters.length = c.arity component ∨
      form.typeParameters = [] ∧ DropsParameters c component := by
  obtain ⟨x, hat, hx⟩ := Option.map_eq_some_iff.1 hform
  have dropped : form.typeParameters = [] → form.typeParameters.length = c.arity component ∨
      form.typeParameters = [] ∧ DropsParameters c component := fun h => by
    by_cases h0 : c.arity component = 0
    · exact .inl (by simp [h, h0])
    · exact .inr ⟨h, h0, form, hform, h⟩
  cases x with
  | ref pointer => exact dropped (by rw [← hx]; rfl)
  | inline s =>
    have harity : c.arity component = s.typeParameters.length := by
      simp [Components.arity, Components.schema, Components.follow, hat]
    have hx : Form.ofObject s = form := hx
    rw [harity] at dropped ⊢
    unfold Form.ofObject at hx
    split at hx
    · exact dropped (by rw [← hx]; rfl)
    · subst hx
      split <;> exact .inl rfl

end Declared

variable {j : Job} {transfers : Entries TransferTarget} {cs cs' : Entries String} {r r' : Run}

/-- Where a reference in the file at a path comes from, under the bindings `b` of the file; the file may
itself declare a component of `cs`. -/
def knownAt (j : Job) (transfers : Entries TransferTarget) (cs : Entries String) (path : String)
    (b : Bindings) (ref : Reference) : Prop :=
  ∃ own : Option (String × String), (∀ e, own = some e → e ∈ cs ∧ Naming.modelFile e.1 = path) ∧
    (⟨j.document.parts, transfers, own⟩ : TypeContext).Refers b j.document.typeVariables ref

theorem knownAt.mono {path : String} {b : Bindings} {ref : Reference}
    (h : knownAt j transfers cs path b ref) (hcs : cs ⊆ cs') : knownAt j transfers cs' path b ref := by
  obtain ⟨own, hown, h⟩ := h
  exact ⟨own, fun e he => ⟨hcs (hown e he).1, (hown e he).2⟩, h⟩

/-- All references in the declarations of a file are known, and stay so under more bindings. -/
def knownIn (j : Job) (transfers : Entries TransferTarget) (cs : Entries String) (path : String)
    (f : File) : Prop :=
  ∀ d ∈ f.declarations, ∀ ref ∈ d.references, ∀ b, f.bindings.Grows b →
    knownAt j transfers cs path b ref

/-- The references in the files of a run are known, and the components `cs` are declared in their files
with the type parameters of their forms. -/
structure Run.Knows (j : Job) (transfers : Entries TransferTarget) (cs : Entries String) (r : Run) :
    Prop where
  targets : r.transfers = transfers
  known : r.sources.Each (knownIn j transfers cs)
  declared : ∀ e ∈ cs, ∃ f d form, r.sources.at? (Naming.modelFile e.1) = some f ∧
    d ∈ f.declarations ∧ d.name = e.2 ∧ (∀ g, d ≠ .function g) ∧
    Form.of? j.document.parts e.1 = some form ∧ d.typeParameters = form.typeParameters

namespace Run.Knows

theorem log (h : r.Knows j transfers cs) (log : List LogLine) :
    Run.Knows j transfers cs { r with log } := ⟨h.targets, h.known, h.declared⟩

/-- **A file is written** whose references are known, and which keeps its types. -/
theorem write (h : r.Knows j transfers cs) (hcs : cs ⊆ cs') {f : File}
    (hf : knownIn j transfers cs' f.path f)
    (hkept : ∀ g, r.sources.at? f.path = some g → ∀ d ∈ g.declarations, (∀ g, d ≠ .function g) →
      ∃ d' ∈ f.declarations, d'.name = d.name ∧ (∀ g, d' ≠ .function g) ∧
        d'.typeParameters = d.typeParameters)
    (hnew : ∀ e ∈ cs', e ∈ cs ∨ Naming.modelFile e.1 = f.path ∧
      ∃ d ∈ f.declarations, ∃ form, d.name = e.2 ∧ (∀ g, d ≠ .function g) ∧
        Form.of? j.document.parts e.1 = some form ∧ d.typeParameters = form.typeParameters)
    (hw : r.Writes f r') : r'.Knows j transfers cs' := by
  obtain ⟨log, rfl⟩ := hw
  refine ⟨h.targets, h.known.put hf fun path g _ hg d hd ref href b hb =>
    (hg d hd ref href b hb).mono hcs, fun e he => ?_⟩
  have hself : (r.sources.put f).at? f.path = some f := (Sources.at?_put ..).trans (if_pos rfl)
  rcases hnew e he with he | ⟨hpath, d, hd, form, hname, hfun, hform, hparameters⟩
  · obtain ⟨g, d, form, hg, hd, hname, hfun, hform, hparameters⟩ := h.declared e he
    by_cases hp : Naming.modelFile e.1 = f.path
    · obtain ⟨d', hd', hname', hfun', hparameters'⟩ := hkept g (hp ▸ hg) d hd hfun
      exact ⟨f, d', form, hp ▸ hself, hd', hname'.trans hname, hfun', hform,
        hparameters'.trans hparameters⟩
    · exact ⟨g, d, form, (Sources.at?_put ..).trans ((if_neg hp).trans hg), hd, hname, hfun, hform,
        hparameters⟩
  · exact ⟨f, d, form, hpath ▸ hself, hd, hname, hfun, hform, hparameters⟩

/-- **Declarations are added to a file**: their references are known, and new components are among
them. -/
theorem append (ds : List Declaration) (h : r.Knows j transfers cs) (hcs : cs ⊆ cs')
    {path origin : String} {f : File} (hpath : f.path = path)
    (hgrows : (r.sources.openFile path origin).bindings.Grows f.bindings)
    (hdecls : f.declarations = (r.sources.openFile path origin).declarations ++ ds)
    (hrefs : ∀ d ∈ ds, ∀ ref ∈ d.references, ∀ b, f.bindings.Grows b →
      knownAt j transfers cs' path b ref)
    (hnew : ∀ e ∈ cs', e ∈ cs ∨ Naming.modelFile e.1 = path ∧
      ∃ d ∈ ds, ∃ form, d.name = e.2 ∧ (∀ g, d ≠ .function g) ∧
        Form.of? j.document.parts e.1 = some form ∧ d.typeParameters = form.typeParameters)
    (hw : r.Writes f r') : r'.Knows j transfers cs' := by
  subst hpath
  have hopened : knownIn j transfers cs f.path (r.sources.openFile f.path origin) :=
    Sources.openFile_cases (P := knownIn j transfers cs f.path) origin (h.known f.path)
      fun _ _ hd => by cases hd
  refine h.write hcs (fun d hd ref href b hb => ?_) (fun g hg d hd hfun => ?_) (fun e he => ?_) hw
  · rw [hdecls] at hd
    rcases List.mem_append.1 hd with hd | hd
    · exact (hopened d hd ref href b (hgrows.trans hb)).mono hcs
    · exact hrefs d hd ref href b hb
  · rw [← Sources.openFile_of_at? origin hg] at hd
    exact ⟨d, hdecls ▸ List.mem_append_left _ hd, rfl, hfun, rfl⟩
  · refine (hnew e he).imp_right fun ⟨hpath, d, hd, hform⟩ => ⟨hpath, d, ?_, hform⟩
    exact hdecls ▸ List.mem_append_right _ hd

/-- **A declaration is changed**: its new references are known, and it stays a type with the same type
parameters if it was one. -/
theorem adjust (h : r.Knows j transfers cs) {path name : String} {f : File} {b : Bindings}
    {ms : List String} {change : Declaration → Declaration} (hf : r.sources.at? path = some f)
    (hpath : f.path = path) (hnames : (f.declarations.map (·.name)).Nodup)
    (hadds : Bindings.Adds ms f.bindings b)
    (hnew : ∀ d ∈ f.declarations, d.name = name → ∀ b', b.Grows b' → ∀ ref ∈ (change d).references,
      ref ∈ d.references ∨ knownAt j transfers cs path b' ref)
    (htype : ∀ d ∈ f.declarations, d.name = name → (∀ g, d ≠ .function g) →
      (change d).name = d.name ∧ (∀ g, change d ≠ .function g) ∧
        (change d).typeParameters = d.typeParameters)
    (hw : r.Writes ({ f with bindings := b }.adjust name change) r') : r'.Knows j transfers cs := by
  have hdecls : ({ f with bindings := b }.adjust name change).declarations =
      f.declarations.map fun d => if d.name = name then change d else d := adjustFirst_eq_map hnames
  refine h.write (List.Subset.refl _) ?_ (fun g hg d hd hfun => ?_) (fun e he => .inl he) hw
  · intro d' hd' ref href b' hb'
    rw [hdecls] at hd'
    obtain ⟨d, hd, rfl⟩ := List.mem_map.1 hd'
    have hold : ref ∈ d.references → knownAt j transfers cs f.path b' ref := fun href =>
      hpath ▸ h.known path f hf d hd ref href b' (hadds.grows.trans hb')
    split at href
    · next hn => exact (hnew d hd hn b' hb' ref href).elim hold (hpath ▸ id)
    · exact hold href
  · obtain rfl : f = g := Option.some.inj (hf.symm.trans (hpath ▸ hg))
    refine ⟨_, hdecls ▸ List.mem_map.2 ⟨d, hd, rfl⟩, ?_⟩
    split
    · next hn => exact htype d hd hn hfun
    · exact ⟨rfl, hfun, rfl⟩

theorem edits (h : r.Knows j transfers cs) {T : List Route} (hs : r.Sound j T) {ms : Entries Model}
    (hms : Listed j.document.parts ms) (hcs : identifiersOf ms ⊆ cs) (he : r.Edits j ms r') :
    r'.Knows j transfers cs := by
  obtain ⟨component, m, f, name, change, b, ns, hm, hf, hkeeps, hnew, -, hadds, hw⟩ := he
  refine h.adjust hf (hs.path _ f hf).1 (hs.serves _ f hf).names hadds
    (fun d _ _ b' hb' ref href => (hnew b' hb' d ref href).imp_right fun href =>
      ⟨some (component, m.identifier), ?_, ?_⟩) (fun d _ _ hfun => ⟨hkeeps.name d, ?_, ?_⟩) hw
  · rintro _ ⟨⟩
    exact ⟨hcs (List.mem_map.2 ⟨_, hm, rfl⟩), (hms.file _ hm).symm⟩
  · rw [Job.types, h.targets] at href
    exact href.mono (List.nil_subset _)
  · exact fun g hg => hfun g (hkeeps.isFunction d g hg)
  · exact hkeeps.typeParameters d

theorem replaces (h : r.Knows j transfers cs) {T : List Route} (hs : r.Sound j T) {κ : Type}
    {w : Replacement κ} {late : κ → Schema → List String} {e : Endpoint} {m : Method}
    (hm : ∀ s, m.response = some s → s.typeVariables ⊆ j.document.typeVariables)
    (hr : r.Replaces w j late e m r') : r'.Knows j transfers cs := by
  obtain ⟨response, k, f, g, g', b, hresponse, -, hf, hg, -, -, -, hnew, hadds, hw⟩ := hr
  have hnames := (hs.serves _ f hf).names
  -- The declaration of that name is the wrapper.
  have hwrapper : ∀ d ∈ f.declarations, d.name = m.localName → d = .function g := fun d hd hn => by
    have := declaration?_of_mem hnames hd
    rw [hn, hg] at this
    exact (Option.some.inj this).symm
  refine h.adjust hf (hs.path _ f hf).1 hnames hadds (fun d hd hn b' hb' ref href => ?_)
    (fun d hd hn hfun => absurd (hwrapper d hd hn) (hfun g)) hw
  rw [hwrapper d hd hn]
  refine (hnew b' hb' ref href).imp_right fun href => ⟨none, nofun, ?_⟩
  rw [Job.types, h.targets] at href
  exact href.mono (hm response hresponse)

end Run.Knows

section Passes

/-- The steps that write endpoints write references that come from the operations. -/
theorem keptByEndpoints_knows {I : List Route → List String → Run → Prop}
    (hI : KeptByEndpoints j I) :
    KeptByEndpoints j fun T ns r => I T ns r ∧ r.Knows j transfers [] where
  files h hf := hI.files h.1 hf
  declares := by
    intro T ns r r' path locals ⟨h, hk⟩ hw
    have hpath : (r.sources.openFile path Pass.backbone.path).path = path :=
      Sources.openFile_cases (P := fun f => f.path = path) Pass.backbone.path
        (fun f hf => (hI.files h hf).1) fun _ => rfl
    exact ⟨hI.declares h hw, hk.append [] (List.Subset.refl _)
      (f := bindNames (r.sources.openFile path Pass.backbone.path) locals) hpath
      ((Bindings.Grows.refl _).congr rfl rfl rfl rfl) (List.append_nil _).symm (by simp) (by simp) hw⟩
  method := by
    intro T ns r r' names f f' t ⟨h, hk⟩ hf ht hopen hhas hadd hw
    refine ⟨hI.method h hf ht hopen hhas hadd hw, ?_⟩
    have hpath := hadd.place.1.trans (hI.files h hf).1
    obtain ⟨g, b, exports, -, -, -, hrefers, hadds, -, rfl⟩ := hadd
    rw [← Sources.openFile_of_at? "" hf] at hadds hpath hw
    refine hk.append [.function g] (List.Subset.refl _) hpath
      (hadds.grows.congr rfl rfl rfl rfl) rfl
      (fun d hd ref href b' hb' => ⟨none, nofun, ?_⟩) (by simp) hw
    obtain rfl := List.mem_singleton.1 hd
    have := hrefers b' (hb'.congr rfl rfl rfl rfl) ref href
    rw [Job.types, hk.targets] at this
    exact this.mono (Document.variablesOf_subset hhas)

/-- The steps that write models write references that come from the components. -/
theorem keptByModels_knows (hv : j.document.Valid) {I : Entries String → List String → Run → Prop}
    (hI : KeptByModels j I) (hpath : ∀ cs ns r path f, I cs ns r → r.sources.at? path = some f →
      f.path = path) :
    KeptByModels j fun cs ns r => I cs ns r ∧ r.Knows j transfers cs where
  model := by
    intro cs ns r r' component identifier names f' ⟨h, hk⟩ hleads hwanted hfree hnew hfile hopen hadd hw
    refine ⟨hI.model h hleads hwanted hfree hnew hfile hopen hadd hw, ?_⟩
    have hplace := hadd.place.1.trans (Sources.openFile_cases (s := r.sources)
      (P := fun f => f.path = Naming.modelFile component) Pass.model.path
      (fun f hf => hpath _ _ _ _ _ h hf) fun _ => rfl)
    obtain ⟨form, d, b, hform, hdeclares, -, -, hadds, rfl⟩ := hadd
    rw [Job.types, hk.targets] at hform hdeclares
    refine hk.append [d] (List.subset_append_left _ _) hplace
      (hadds.grows.congr rfl rfl rfl rfl) rfl
      (fun d' hd ref href b' hb' => ⟨some (component, identifier), ?_, ?_⟩) (fun e he => ?_) hw
    · rintro _ ⟨⟩
      exact ⟨by simp, rfl⟩
    · obtain rfl := List.mem_singleton.1 hd
      have hdeclares := hdeclares b' (hb'.congr rfl rfl rfl rfl)
      obtain ⟨m, hm, hspelling⟩ := hdeclares.spells.origin ref href
      refine .of_spelling hspelling ?_ ?_
      · rintro n rfl
        exact TypeContext.leads_of_mentionsOf hv.parts hform hm
      · rintro name rfl
        refine (TypeContext.exists_of_plain_mem_mentionsOf hform hm).imp_right fun hmentions => ?_
        obtain ⟨e, he, hn⟩ := hmentions
        exact List.mem_append_left _ (List.mem_flatMap.2 ⟨e, he, hn⟩)
    · rcases List.mem_append.1 he with he | he
      · exact .inl he
      · obtain rfl := List.mem_singleton.1 he
        have hdeclares := hdeclares b (.refl b)
        exact .inr ⟨rfl, d, by simp, form, hdeclares.name, hdeclares.ne_function, hform,
          hdeclares.typeParameters⟩

/-- The pass that registers types of the client writes no files. -/
theorem registerTargets_knows (h : r.sources.files = []) :
    Ends (registerTargets j) r (fun _ r' => r'.Knows j r'.transfers []) fun _ _ => True := by
  unfold registerTargets
  dsimp only
  cases j.settings.transferTypes.find? (·.2.name.isEmpty) with
  | some e => exact trivial
  | none =>
    refine ⟨rfl, fun path f hf => ?_, by simp⟩
    simp [Sources.at?, h, Entries.at?] at hf

variable (hv : j.document.Valid) {T : List Route}
include hv

theorem writeBackbone_knows (hs : r.Sound j T) (h : r.Knows j transfers []) :
    Ends (writeBackbone j) r (fun _ r' => r'.Knows j transfers []) fun _ _ => True := by
  have hkept := @keptByEndpoints_knows j transfers _ (Run.Sound.keptByEndpoints (j := j) r)
  refine (writeBackbone_spec hkept hv (T := T) [] ⟨⟨hs, .refl r, by simp⟩, h⟩).mono ?_
    fun _ _ _ => trivial
  rintro _ _ ⟨T', b, r₁, log, ns, ⟨-, h₁⟩, rfl, -⟩
  exact ⟨h₁.targets, h₁.known, h₁.declared⟩

theorem writeModels_knows (hs : r.Sound j T) (h : r.Knows j transfers []) :
    Ends (writeModels j) r
      (fun _ r' => ∃ ms, r'.models = some ms ∧ r'.Knows j transfers (identifiersOf ms))
      fun _ _ => True := by
  have hkept := @keptByModels_knows j transfers hv _
    (Run.Sound.keptByModels (j := j) T r) fun _ _ _ path f h hf => (h.1.path path f hf).1
  refine (writeModels_spec hkept hv (fun _ _ _ h => h.1.2.transfers)
    (fun _ _ => ⟨⟨hs, .refl r⟩, h⟩) hs.referenced).mono ?_ fun _ _ _ => trivial
  rintro _ _ ⟨b, ms, r₁, log, ns, -, ⟨-, h₁⟩, rfl, -⟩
  exact ⟨ms, rfl, h₁.targets, h₁.known, h₁.declared⟩

/-- **The passes after the one that writes models** change declarations so that they are known. -/
theorem execute_knows {p : Pass} (hp : p = .subtypes ∨ p = .push ∨ p = .signals) (hs : r.Sound j T)
    {ms : Entries Model} (hms : r.models = some ms) (h : r.Knows j transfers (identifiersOf ms)) :
    Ends (p.execute j) r
      (fun _ r' => r'.models = some ms ∧ r'.Knows j transfers (identifiersOf ms)) fun _ _ => True := by
  refine (execute_keeps (I := fun r' => r'.Knows j transfers (identifiersOf ms)) hv hp hs ?_ ?_
    (fun _ log h => h.log log) h).mono (fun _ _ ⟨_, hf, h'⟩ => ⟨hf.models.trans hms, h'⟩)
    fun _ _ _ => trivial
  · intro ms' r₁ r₂ hms' h₁ _ hk he
    obtain rfl := Option.some.inj (hms.symm.trans hms')
    exact hk.edits h₁ (hs.models ms hms) (List.Subset.refl _) he
  · intro κ w late b e m r₁ r₂ hb he hm h₁ _ hk hr
    obtain ⟨T', -, -, hfollows⟩ := hs.exists_routes hb he
    exact hk.replaces h₁ (hfollows.known m hm) hr

/-- **After the usual passes** all references are known, and all models are declared. -/
theorem executeAll_knows (log : List LogLine) :
    Ends (executeAll j Pass.usual) { Run.start j.settings with log }
      (fun _ r => ∃ T ms, r.Sound j T ∧ r.models = some ms ∧
        r.Knows j r.transfers (identifiersOf ms)) fun _ _ => True := by
  refine executeAll_cons hv (Run.Sound.start j log) (fun _ => registerTargets_knows rfl)
    fun T₁ r₁ hs₁ h₁ => ?_
  refine executeAll_cons hv hs₁
    (fun log => writeBackbone_knows hv (hs₁.log log) (h₁.log log)) fun T₂ r₂ hs₂ h₂ => ?_
  refine executeAll_cons hv hs₂ (fun log => writeModels_knows hv (hs₂.log log) (h₂.log log)) ?_
  rintro T₃ r₃ hs₃ ⟨ms, hms₃, h₃⟩
  refine executeAll_cons hv hs₃ (fun log => execute_knows hv (.inl rfl) (hs₃.log log) hms₃
    (h₃.log log)) fun T₄ r₄ hs₄ ⟨hms₄, h₄⟩ => ?_
  refine executeAll_cons hv hs₄ (fun log => execute_knows hv (.inr (.inl rfl)) (hs₄.log log) hms₄
    (h₄.log log)) fun T₅ r₅ hs₅ ⟨hms₅, h₅⟩ => ?_
  refine executeAll_cons hv hs₅ (fun log => execute_knows hv (.inr (.inr rfl)) (hs₅.log log) hms₅
    (h₅.log log)) fun T₆ r₆ hs₆ ⟨hms₆, h₆⟩ => ?_
  exact ⟨T₆, ms, hs₆, hms₆, h₆.targets.symm ▸ h₆⟩

end Passes

section Agreement

variable {T : List Route} {ms : Entries Model}

/-- The model of a component is declared with the type parameters of its form. -/
theorem Run.Knows.declaredWith_iff (h : r.Knows j transfers (identifiersOf ms)) (hs : r.Sound j T)
    {e : String × Model} (he : e ∈ ms) :
    ∃ form, Form.of? j.document.parts e.1 = some form ∧ ∀ n,
      declaredWith (emitted r.sources) e.1 e.2.identifier n ↔ form.typeParameters.length = n := by
  obtain ⟨f, d, form, hf, hd, hname, -, hform, hparameters⟩ :=
    h.declared (e.1, e.2.identifier) (List.mem_map.2 ⟨e, he, rfl⟩)
  have hpath := (hs.path _ f hf).1
  have hfound := declaration?_of_mem (hs.serves _ f hf).names hd
  rw [show d.name = e.2.identifier from hname] at hfound
  refine ⟨form, hform, fun n => ⟨?_, fun hn => ?_⟩⟩
  · rintro ⟨g, hg, hgpath, d', hd', rfl⟩
    have hat := hs.mem_values (List.mem_filter.1 hg).1
    obtain rfl := Option.some.inj (hf.symm.trans (hgpath ▸ hat))
    obtain rfl := Option.some.inj (hfound.symm.trans hd')
    rw [hparameters]
  · refine ⟨f, List.mem_filter.2 ⟨List.mem_map.2 ⟨_, Entries.mem_of_at? hf, rfl⟩, ?_⟩, hpath, d, hfound,
      by rw [hparameters, hn]⟩
    have : f.declarations ≠ [] := List.ne_nil_of_mem hd
    simp [File.isEmpty, this]

/-- **A reference to a model has enough type arguments**, unless its name may stand for something
else. -/
theorem Run.Knows.arity_le (h : r.Knows j transfers (identifiersOf ms)) (hs : r.Sound j T)
    (hms : r.models = some ms) {path : String} {f : File} (hf : r.sources.at? path = some f)
    {d : Declaration} (hd : d ∈ f.declarations) {ref : Reference} (href : ref ∈ d.references)
    {e : String × Model} (he : e ∈ ms) (hto : refersTo f e.1 e.2.identifier ref.1)
    (hclear : ¬ Ambiguous j.document transfers f e.1 ref.1) :
    j.document.parts.arity e.1 ≤ ref.2 := by
  have hpath := (hs.path path f hf).1
  have hapart := (hs.serves path f hf).tidy.apart
  have hdefaults := (List.nodup_append.1 hapart).1
  -- The names of models that the file declares are not those of its imports.
  have declares : ∀ e ∈ identifiersOf ms, Naming.modelFile e.1 = path →
      e.2 ∉ f.bindings.imports.localNames := by
    intro e he hfile hin
    obtain ⟨g, d', form, hg, hd', hname, -⟩ := h.declared e he
    obtain rfl := Option.some.inj (hf.symm.trans (hfile ▸ hg))
    exact (List.nodup_append.1 hapart).2.2 _ hin _ (List.mem_map.2 ⟨d', hd', rfl⟩) hname.symm
  have hself : (e.1, e.2.identifier) ∈ identifiersOf ms := List.mem_map.2 ⟨e, he, rfl⟩
  have notNamed : ∀ sp id, f.bindings.imports.namedName? sp id ≠ some ref.1 := by
    intro sp id hname
    rcases hto with hto | ⟨hfile, hto⟩
    · exact Imports.namedName?_ne_of_defaultName? hdefaults hto hname
    · exact declares _ hself (hfile.symm.trans hpath) (hto ▸ Imports.mem_localNames_of_named hname)
  obtain ⟨own, hown, hrefers⟩ := h.known path f hf d hd ref href f.bindings (.refl _)
  rcases hrefers with ⟨n, hleads, hspelling⟩ | ⟨sp, id, hname⟩ | hplain
  · cases htarget : transfers.at? n with
    | some target =>
      simp only [TypeContext.Spelling, htarget] at hspelling
      cases hmodule : target.module with
      | some module =>
        rw [hmodule] at hspelling
        exact absurd hspelling (notNamed _ _)
      | none =>
        rw [hmodule] at hspelling
        refine absurd (.inl (.inr (.inr (.inr ⟨_, Entries.mem_of_at? htarget, hmodule, ?_⟩)))) hclear
        exact hspelling.symm
    | none =>
      simp only [TypeContext.Spelling, htarget] at hspelling
      obtain ⟨harity, hspelling⟩ := hspelling
      cases hfilter : own.filter (·.1 == n) with
      | some e' =>
        rw [hfilter] at hspelling
        obtain ⟨hsome, hn⟩ := Option.filter_eq_some_iff.1 hfilter
        obtain ⟨hmem, hfile⟩ := hown e' hsome
        obtain rfl : e'.1 = n := by simpa using hn
        rcases hto with hto | ⟨hfile', -⟩
        · exact absurd (hspelling ▸ Imports.mem_localNames_of_default hto) (declares e' hmem hfile)
        · -- Distinct models have distinct files.
          have hkeys : e'.1 ∈ ms.keys := by
            rw [← keys_identifiersOf]
            exact List.mem_map.2 ⟨e', hmem, rfl⟩
          have := List.inj_on_of_nodup_map (hs.models ms hms).files hkeys
            (List.mem_map.2 ⟨e, he, rfl⟩) (hfile.trans (hpath.symm.trans hfile'))
          exact this ▸ harity
      | none =>
        rw [hfilter] at hspelling
        rcases hto with hto | ⟨hfile, hto⟩
        · have hsp := Imports.eq_of_defaultName? hdefaults hspelling hto
          by_cases heq : n = e.1
          · exact heq ▸ harity
          · exact absurd (.inr ⟨n, heq, hleads, hsp⟩) hclear
        · exact absurd (hto ▸ Imports.mem_localNames_of_default hspelling)
            (declares _ hself (hfile.symm.trans hpath))
  · exact absurd hname (notNamed sp id)
  · exact absurd (.inl (hplain.imp_right (Or.imp_right .inl))) hclear

/-- **Type arguments and type parameters agree exactly if no model that is referred to drops its type
parameters, and no reference has too many arguments.**  Where the name of a reference may stand for
something else than the model, they have to be compared. -/
theorem aritiesAgree_iff {d : Document} (hd : d.validate = .ok ()) {settings : Settings}
    {log : List LogLine} {r : Run}
    (hr : (executeAll ⟨d, settings⟩ Pass.usual).run.run { Run.start settings with log } =
      (.ok (), r)) :
    ∃ ms, r.models = some ms ∧ (AritiesAgree (emitted r.sources) ms ↔
      EachModelReference (emitted r.sources) ms fun f component m ref =>
        (Ambiguous d r.transfers f component ref.1 →
          declaredWith (emitted r.sources) component m.identifier ref.2) ∧
        (¬ Ambiguous d r.transfers f component ref.1 →
          ¬ DropsParameters d.parts component ∧ ref.2 ≤ d.parts.arity component)) := by
  obtain ⟨T, ms, hs, hms, hk⟩ := (executeAll_knows (j := ⟨d, settings⟩)
    (Document.valid_of_validate hd) log).result hr
  refine ⟨ms, hms, ?_⟩
  constructor
  · intro hall f hf decl hdecl ref href hparameter e he hto
    have hdeclared := hall f hf decl hdecl ref href hparameter e he hto
    refine ⟨fun _ => hdeclared, fun hclear => ?_⟩
    have hle := hk.arity_le hs hms (hs.mem_values (List.mem_filter.1 hf).1) hdecl href he hto hclear
    obtain ⟨form, hform, hiff⟩ := hk.declaredWith_iff hs he
    have hlength := (hiff ref.2).1 hdeclared
    rcases Form.length_typeParameters hform with heq | ⟨hnil, hdrops⟩
    · refine ⟨fun ⟨hne, form', hform', hnil⟩ => hne ?_, (hlength.symm.trans heq).le⟩
      obtain rfl := Option.some.inj (hform.symm.trans hform')
      exact heq.symm.trans (by rw [hnil]; rfl)
    · rw [hnil, List.length_nil] at hlength
      exact absurd (Nat.le_zero.1 (hlength ▸ hle)) hdrops.1
  · intro hall f hf decl hdecl ref href hparameter e he hto
    obtain ⟨hambiguous, hclear⟩ := hall f hf decl hdecl ref href hparameter e he hto
    by_cases hamb : Ambiguous d r.transfers f e.1 ref.1
    · exact hambiguous hamb
    · obtain ⟨hkeeps, hge⟩ := hclear hamb
      have hle := hk.arity_le hs hms (hs.mem_values (List.mem_filter.1 hf).1) hdecl href he hto hamb
      obtain ⟨form, hform, hiff⟩ := hk.declaredWith_iff hs he
      refine (hiff ref.2).2 ?_
      rcases Form.length_typeParameters hform with heq | ⟨-, hdrops⟩
      · exact heq.trans (Nat.le_antisymm hle hge)
      · exact absurd hdrops hkeeps

/-- The schema of a page of things of one type. -/
def pageSchema : Json := .object [
  ("x-type-parameters", .array [.string "T"]),
  ("properties", .object [("next", .object [("x-type-variable", .string "T")])])]

/-- The schema of a page of strings. -/
def pageOfStrings : Json := .object [
  ("allOf", .array [refTo "Page"]),
  ("x-type-arguments", .object [("allOf", .array [.object [("type", .string "string")]])])]

/-- The types that the results of the functions in a file have. -/
def resultsOf (f : File) : List Ty := f.declarations.filterMap fun
  | .function g => some g.result
  | _ => none

/-- A run on a method that gives back a page of strings. -/
theorem aritiesAgree_iff_pageOfStrings :
    ∃ d r ms, Document.ofJson (operationsDocument [("/E/get", pageOfStrings)] [("Page", pageSchema)]) =
        .ok d ∧ d.validate = .ok () ∧
      (executeAll ⟨d, {}⟩ Pass.usual).run.run (Run.start {}) = (.ok (), r) ∧
      (emitted r.sources).flatMap resultsOf =
        [.named "Promise" [.named "Page" [.basic .string]]] ∧
      r.models = some ms ∧ (AritiesAgree (emitted r.sources) ms ↔
        EachModelReference (emitted r.sources) ms fun f component m ref =>
          (Ambiguous d r.transfers f component ref.1 →
            declaredWith (emitted r.sources) component m.identifier ref.2) ∧
          (¬ Ambiguous d r.transfers f component ref.1 →
            ¬ DropsParameters d.parts component ∧ ref.2 ≤ d.parts.arity component)) := by
  obtain ⟨d, r, hd, hvalid, hr, htest⟩ := exists_of_runOf?
    (operationsDocument [("/E/get", pageOfStrings)] [("Page", pageSchema)]) {} Pass.usual
    (fun _ r => decide ((emitted r.sources).flatMap resultsOf =
      [.named "Promise" [.named "Page" [.basic .string]]])) (by decide +kernel)
  obtain ⟨ms, hms, hiff⟩ := @aritiesAgree_iff d hvalid {} [] r hr
  exact ⟨d, r, ms, hd, hvalid, hr, of_decide_eq_true htest, hms, hiff⟩

/-- **An alias drops the type parameters** of the component that it stands for, but is referred to with
as many arguments as that one has. -/
theorem not_aritiesAgree :
    ∃ d r ms, Document.ofJson (operationsDocument [("/E/get", refTo "A")]
        [("A", refTo "Page"), ("Page", pageSchema)]) = .ok d ∧ d.validate = .ok () ∧
      (executeAll ⟨d, {}⟩ Pass.usual).run.run (Run.start {}) = (.ok (), r) ∧
      r.models = some ms ∧ ¬ AritiesAgree (emitted r.sources) ms := by
  have hrun := exists_of_runOf?
    (operationsDocument [("/E/get", refTo "A")] [("A", refTo "Page"), ("Page", pageSchema)]) {}
    Pass.usual (fun _ r => r.models.any fun ms => decide
      (∃ f ∈ emitted r.sources, ∃ d ∈ f.declarations, ∃ ref ∈ d.references, ref.1 ∉ d.typeParameters ∧
        ∃ e ∈ ms, refersTo f e.1 e.2.identifier ref.1 ∧ ref.2 ≠ 0 ∧ ∀ g ∈ emitted r.sources,
          g.path = Naming.modelFile e.1 → ∀ d ∈ g.declarations, d.typeParameters = []))
    (by decide +kernel)
  obtain ⟨d, r, hd, hvalid, hr, htest⟩ := hrun
  obtain ⟨hsome, htest⟩ := (Option.any_eq_true_iff_get _ _).1 htest
  obtain ⟨f, hf, decl, hdecl, ref, href, hparameter, e, he, hto, hne, hnone⟩ := of_decide_eq_true htest
  refine ⟨d, r, r.models.get hsome, hd, hvalid, hr, (Option.some_get hsome).symm, fun hall => hne ?_⟩
  obtain ⟨g, hg, hpath, d', hd', hlength⟩ := hall f hf decl hdecl ref href hparameter e he hto
  have := hnone g hg hpath d' (List.mem_of_find?_eq_some hd')
  rw [← hlength, this]
  rfl

end Agreement

end Client
end OpenApiClient
