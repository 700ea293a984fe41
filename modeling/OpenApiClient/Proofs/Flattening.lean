/-
# What becomes of polymorphic bases

The pass over polymorphic bases goes through the models one after another. A base with leaves becomes the
union of the references to them, as its file knows these then (`flatten_unites`); whatever is written for
the other models leaves its alias alone, since each model has a file of its own, and pinning tags changes
interfaces only. So the types of all bases can be told from the run before the pass (`flattenUnions_unites`).

`flattening_exact` puts this together with the leaves that are found. A base that a type of the client
stands for is no leaf of its own, although it is not opened either; `not_findsAll` is a base of this kind.
-/

import OpenApiClient.Proofs.Opening
import OpenApiClient.Proofs.Rewriting

namespace OpenApiClient
namespace Client

open OpenApi TypeScript OpenApiClient.Module

/-- **What is imported again** keeps its name, if its name can be looked up in the bindings from then on. -/
theorem Mapping.again {m : Mapping String} {ns ms : List String} {name? : Bindings → Option String}
    (hspec : ∀ s : TypeState, Ends m s
      (fun name t => s.Moves ns ms t ∧ ∀ b, t.bindings.Grows b → name? b = some name) fun _ _ => False)
    (s : TypeState) :
    Ends m s (fun name t => ∀ s' : TypeState, t.bindings.Grows s'.bindings →
      Ends m s' (fun name' _ => name' = name) fun _ _ => False) fun _ _ => False := by
  refine (hspec s).imp fun name t ⟨_, hname⟩ s' hs' => (hspec s').imp fun name' t' ⟨hmoves, hname'⟩ => ?_
  have hgrows : t.bindings.Grows t'.bindings := hs'.trans hmoves.adds.grows
  exact Option.some.inj ((hname' _ (.refl _)).symm.trans (hname _ hgrows))

namespace TypeContext

variable {c : TypeContext} {component : String}

/-- In a file with the bindings the component is referred to by the type. -/
def Tells (c : TypeContext) (b : Bindings) (component : String) (t : Ty) : Prop :=
  ∀ s : TypeState, s.bindings = b →
    Ends (c.reference component []) s (fun t' _ => t' = t) fun _ _ => False

/-- **What a component was referred to by, it is referred to by later**, whatever was imported since. -/
theorem reference_again (hl : c.components.Leads component) :
    c.Gives (c.reference component []) [.component component] fun b t => c.Tells b component t := by
  intro s
  suffices h : Ends (c.reference component []) s (fun t u => ∀ b, u.bindings.Grows b →
      c.Tells b component t) fun _ _ => False from
    ((reference_gives hl [] s).and h).mono (fun _ _ h => ⟨h.1.1, h.2⟩) fun _ _ h => h.1
  unfold Tells reference
  cases c.transfers.at? component with
  | some target =>
    simp only
    cases target.module with
    | some module =>
      refine ends_bind.2 ((Mapping.again (Mapping.importNamed_spec module target.name true) s).imp
        fun name u h => ?_)
      rintro _ hb s' rfl
      exact ends_bind.2 ((h s' hb).imp fun _ _ heq => heq ▸ rfl)
    | none => exact fun _ _ _ _ => rfl
  | none =>
    obtain ⟨schema, hs⟩ := hl
    simp only
    rw [hs]
    cases c.own.filter (·.1 == component) with
    | some own => exact fun _ _ _ _ => rfl
    | none =>
      refine ends_bind.2 (ends_mk.2 ⟨fun _ hok => ?_, fun _ herror => by cases herror⟩)
      cases hok
      refine ends_bind.2 ((Mapping.again (Mapping.importDefault_spec _ _ true) s).imp fun name u h => ?_)
      rintro _ hb s' rfl
      refine ends_bind.2 (ends_mk.2 ⟨fun _ hok => ?_, fun _ herror => by cases herror⟩)
      cases hok
      exact ends_bind.2 ((h s' hb).imp fun _ _ heq => heq ▸ rfl)

end TypeContext

/-- The file at the path knows its imports by the same names as before, and has the aliases it had. -/
def Run.KeepsAliases (r r' : Run) (path : String) : Prop :=
  ∀ f, r.sources.at? path = some f → ∃ f', r'.sources.at? path = some f' ∧
    f.bindings.Grows f'.bindings ∧
    ∀ name a, f.declaration? name = some (.alias a) → f'.declaration? name = some (.alias a)

/-- The component is a polymorphic base with the leaves. -/
def IsBase (c : TypeContext) (component : String) (leaves : List String) : Prop :=
  ∃ s, c.components.schema component = .ok s ∧ Schema.isUnion s = true ∧
    leavesOf c component s = .ok (some leaves)

theorem IsBase.unique {c : TypeContext} {component : String} {leaves leaves' : List String}
    (h : IsBase c component leaves) (h' : IsBase c component leaves') : leaves = leaves' := by
  obtain ⟨s, hs, -, hleaves⟩ := h
  obtain ⟨s', hs', -, hleaves'⟩ := h'
  obtain rfl := Except.ok.inj (hs.symm.trans hs')
  exact Option.some.inj (Except.ok.inj (hleaves.symm.trans hleaves'))

/-- The alias of a model has become the union of the references to the leaves of its component, which are
those by which its file refers to them from then on; or it has stayed as it is, if there are none. -/
def Run.Unites (j : Job) (e : String × Model) (r r' : Run) : Prop :=
  let c := j.types r (some (e.1, e.2.identifier))
  ∀ f a, r.sources.at? e.2.file = some f → f.declaration? e.2.identifier = some (.alias a) →
    ∃ f', r'.sources.at? e.2.file = some f' ∧
      (∀ leaves, IsBase c e.1 leaves → ∃ types : List Ty,
        (∀ b, f'.bindings.Grows b → List.Forall₂ (c.Tells b) leaves types) ∧
        f'.declaration? e.2.identifier = some (.alias { a with type := .unite types })) ∧
      ((∀ leaves, ¬ IsBase c e.1 leaves) → f'.declaration? e.2.identifier = some (.alias a))

section Steps

variable {j : Job} {r r₁ r₂ : Run} {path : String} {e : String × Model}

theorem Run.KeepsAliases.refl (r : Run) (path : String) : r.KeepsAliases r path :=
  fun f hf => ⟨f, hf, .refl _, fun _ _ h => h⟩

theorem Run.KeepsAliases.trans (h : r.KeepsAliases r₁ path) (h' : r₁.KeepsAliases r₂ path) :
    r.KeepsAliases r₂ path := fun f hf => by
  obtain ⟨f₁, hf₁, hgrows, hkept⟩ := h f hf
  obtain ⟨f₂, hf₂, hgrows', hkept'⟩ := h' f₁ hf₁
  exact ⟨f₂, hf₂, hgrows.trans hgrows', fun name a ha => hkept' name a (hkept name a ha)⟩

/-- A file is written at its path. -/
theorem Run.Writes.at? {f : File} (h : r.Writes f r₁) (path : String) :
    r₁.sources.at? path = if path = f.path then some f else r.sources.at? path := by
  obtain ⟨log, rfl⟩ := h
  exact Sources.at?_put ..

/-- A file is written whose aliases are those that the file at its path had. -/
theorem Run.Writes.keepsAliases {f g : File} (h : r.Writes g r₁) (hf : r.sources.at? g.path = some f)
    (hgrows : f.bindings.Grows g.bindings)
    (hkept : ∀ name a, f.declaration? name = some (.alias a) → g.declaration? name = some (.alias a))
    (path : String) : r.KeepsAliases r₁ path := by
  intro f' hf'
  rw [h.at?]
  by_cases hp : path = g.path
  · obtain rfl := Option.some.inj (hf.symm.trans (hp ▸ hf'))
    exact ⟨g, if_pos hp, hgrows, hkept⟩
  · exact ⟨f', (if_neg hp).trans hf', .refl _, fun _ _ ha => ha⟩

/-- A file is written at another path. -/
theorem Run.Writes.keepsAliases_of_ne {g : File} (h : r.Writes g r₁) (hp : path ≠ g.path) :
    r.KeepsAliases r₁ path := fun f hf =>
  ⟨f, (h.at? path).trans ((if_neg hp).trans hf), .refl _, fun _ _ ha => ha⟩

/-- **Pinning a tag** changes no alias. -/
theorem tagLeaf_keepsAliases {models : Entries Model} (base : SchemaObject) (leaf : String) :
    Ends (tagLeaf models base leaf) r (fun _ r' => ∀ path, r.KeepsAliases r' path)
      fun _ _ => False := by
  unfold tagLeaf
  cases models.at? leaf with
  | none => exact .refl r
  | some m =>
    simp only
    rw [ends_bind, ends_get]
    cases hf : r.sources.at? m.file with
    | none => exact .refl r
    | some f =>
      let g := f.adjust m.identifier (withTag (discriminatorProperty base) (tagOf base leaf))
      have hwrites : r.Writes g { r with sources := r.sources.put g } := ⟨r.log, rfl⟩
      have hat : r.sources.at? g.path = some f :=
        (congrArg r.sources.at? (Sources.path_of_at? hf)).trans hf
      refine hwrites.keepsAliases hat (.refl _) fun name a ha => ?_
      rw [declaration?_adjust fun d _ hd => ((withTag_keeps _ _).name d).trans hd]
      split
      · next hname => rw [← hname, ha]; rfl
      · exact ha

/-- What a step does to an alias, it does after steps that keep aliases. -/
theorem Run.Unites.of_keepsAliases (h : r.KeepsAliases r₁ e.2.file) (hframe : r.Frame r₁)
    (h' : r₁.Unites j e r₂) : r.Unites j e r₂ := fun f a hf ha => by
  obtain ⟨f₁, hf₁, -, hkept⟩ := h f hf
  have hunited := h' f₁ a hf₁ (hkept _ a ha)
  rwa [types_of_frame hframe (some (e.1, e.2.identifier))] at hunited

/-- What a step does to an alias stays when aliases are kept. -/
theorem Run.Unites.keepsAliases (h : r.Unites j e r₁) (h' : r₁.KeepsAliases r₂ e.2.file) :
    r.Unites j e r₂ := fun f a hf ha => by
  obtain ⟨f₁, hf₁, hunited, hkept₁⟩ := h f a hf ha
  obtain ⟨f₂, hf₂, hgrows, hkept₂⟩ := h' f₁ hf₁
  refine ⟨f₂, hf₂, fun leaves hbase => ?_, fun hno => hkept₂ _ _ (hkept₁ hno)⟩
  obtain ⟨types, htells, hdeclared⟩ := hunited leaves hbase
  exact ⟨types, fun b hb => htells b (hgrows.trans hb), hkept₂ _ _ hdeclared⟩

/-- A step that does nothing leaves the alias of a component without leaves. -/
theorem Run.unites_of_not_isBase
    (h : ∀ leaves, ¬ IsBase (j.types r (some (e.1, e.2.identifier))) e.1 leaves) : r.Unites j e r :=
  fun f _ hf ha => ⟨f, hf, fun leaves hbase => absurd hbase (h leaves), fun _ => ha⟩

variable (hv : j.document.Valid)
include hv

/-- A component that is no polymorphic base is left alone, as is one without a file. The declaration of a base
becomes the union of what refers to its leaves from then on, and after this the leaves are tagged. -/
theorem ends_flatten {models : Entries Model} {Q : Bool → Run → Prop} (hl : j.document.parts.Leads e.1)
    (hno : (∀ leaves, ¬ IsBase (j.types r (some (e.1, e.2.identifier))) e.1 leaves) ∨
      r.sources.at? e.2.file = none → Q false r)
    (hbase : ∀ s leaves f types b, j.document.parts.schema e.1 = .ok s →
      IsBase (j.types r (some (e.1, e.2.identifier))) e.1 leaves → r.sources.at? e.2.file = some f →
      (∀ b', b.Grows b' →
        List.Forall₂ ((j.types r (some (e.1, e.2.identifier))).Tells b') leaves types) →
      Ends (leaves.forM (tagLeaf models s))
        { r with
          sources := r.sources.put
            (({ f with bindings := b } : File).adjust e.2.identifier (withType (.unite types))) }
        (fun _ => Q true) fun _ _ => False) :
    Ends (flatten j models e.1 e.2) r Q fun _ _ => False := by
  obtain ⟨s, hs⟩ := hl
  have hcomponent : (j.types r (some (e.1, e.2.identifier))).components.schema e.1 = .ok s := hs
  obtain ⟨found, hfound, hleads⟩ := leavesOf_ok (c := j.types r (some (e.1, e.2.identifier)))
    hv.parts e.1 (hv.parts.closed_of_schema hs)
  have hisBase : ∀ leaves, IsBase (j.types r (some (e.1, e.2.identifier))) e.1 leaves ↔
      Schema.isUnion s = true ∧ found = some leaves := fun leaves => by
    constructor
    · rintro ⟨s', hs', hunion, hleaves⟩
      obtain rfl := Except.ok.inj (hcomponent.symm.trans hs')
      exact ⟨hunion, Except.ok.inj (hfound.symm.trans hleaves)⟩
    · rintro ⟨hunion, rfl⟩
      exact ⟨s, hcomponent, hunion, hfound⟩
  unfold flatten
  refine ends_ok_bind hs ?_
  split
  · next hu =>
    refine hno (.inl fun leaves h => ?_)
    rw [((hisBase leaves).1 h).1] at hu
    cases hu
  next hu =>
  rw [ends_bind, ends_get]
  refine ends_ok_bind hfound ?_
  cases found with
  | none => exact hno (.inl fun leaves h => by cases ((hisBase leaves).1 h).2)
  | some leaves =>
    simp only
    cases hf : r.sources.at? e.2.file with
    | none => exact hno (.inr hf)
    | some f =>
      have hgives := TypeContext.Gives.mapM (c := j.types r (some (e.1, e.2.identifier)))
        fun leaf hleaf => TypeContext.reference_again (hleads leaves rfl leaf hleaf)
      obtain ⟨types, t, htypes, -, htells⟩ := inFile_spec (hgives { bindings := f.bindings })
      refine ends_ok_bind htypes (ends_bind.2 (ends_bind.2 ?_))
      exact hbase s leaves f types t.bindings hs ((hisBase leaves).2 ⟨by simpa using hu, rfl⟩) hf htells

/-- **A base becomes the union of its leaves**, and no other file loses an alias. -/
theorem flatten_unites {models : Entries Model} (hl : j.document.parts.Leads e.1) :
    Ends (flatten j models e.1 e.2) r
      (fun _ r' => r.Unites j e r' ∧ ∀ path ≠ e.2.file, r.KeepsAliases r' path) fun _ _ => False := by
  refine ends_flatten hv hl (fun hno => ⟨?_, fun path _ => .refl r path⟩)
    fun s leaves f types b _ hbase hf htells => ?_
  · rcases hno with hno | hnone
    · exact Run.unites_of_not_isBase hno
    · exact fun f _ hf => by rw [hnone] at hf; cases hf
  let g := ({ f with bindings := b } : File).adjust e.2.identifier (withType (.unite types))
  have hwrites : r.Writes g { r with sources := r.sources.put g } := ⟨r.log, rfl⟩
  have hpath : g.path = e.2.file := (Sources.path_of_at? hf : f.path = e.2.file)
  refine (ends_forM (fun _ r' => ∀ path, Run.KeepsAliases { r with sources := r.sources.put g } r' path)
    (.refl _) fun _ leaf _ r' _ hkept => (tagLeaf_keepsAliases s leaf).imp fun _ _ hkept' path =>
      (hkept path).trans (hkept' path)).imp fun _ r' hkept => ?_
  refine ⟨fun f' a hf' ha => ?_, fun path hp =>
    (hwrites.keepsAliases_of_ne (hpath ▸ hp)).trans (hkept path)⟩
  obtain rfl := Option.some.inj (hf.symm.trans hf')
  have hg := hwrites.at? e.2.file
  rw [if_pos hpath.symm] at hg
  obtain ⟨f', hf', hgrows, haliases⟩ := hkept e.2.file g hg
  refine ⟨f', hf', fun leaves' h => ?_, fun hno => absurd hbase (hno leaves)⟩
  obtain rfl := hbase.unique h
  refine ⟨types, fun b' hb' => htells b' (hgrows.trans hb'), haliases _ _ ?_⟩
  rw [declaration?_adjust fun d _ hd => ((withType_keeps _).name d).trans hd, if_pos rfl,
    show ({ f with bindings := b } : File).declaration? e.2.identifier = some (.alias a) from ha]
  rfl

end Steps

/-- No two models have one file. -/
theorem Listed.eq_of_file {c : Components} {ms : Entries Model} (h : Listed c ms) {e e' : String × Model}
    (he : e ∈ ms) (he' : e' ∈ ms) (hfile : e.2.file = e'.2.file) : e = e' := by
  have hfiles : (ms.values.map (·.file)).Nodup := h.files_eq ▸ h.files
  rw [Entries.values, List.map_map] at hfiles
  exact List.inj_on_of_nodup_map hfiles he he' hfile

/-- **The pass over polymorphic bases** makes each base the union of its leaves, and does not fail. -/
theorem flattenUnions_unites {j : Job} (hv : j.document.Valid) {T : List Route} {r : Run} (hs : r.Sound j T)
    {ms : Entries Model} (hms : r.models = some ms) :
    Ends (flattenUnions j) r (fun _ r' => ∀ e ∈ ms, r.Unites j e r') fun _ _ => False := by
  have hlisted := hs.models ms hms
  have hnodup : ms.Nodup := List.Nodup.of_map _ hlisted.nodup
  unfold flattenUnions Action.models
  rw [ends_bind, ends_bind, ends_get, hms]
  simp only [ends_pure]
  rw [ends_bind]
  -- The aliases of the models that are done have changed, and those of the others are as they were.
  refine (ends_mapM (fun done _ r' => (r'.Sound j T ∧ r.Frame r') ∧ (∀ e ∈ done, r.Unites j e r') ∧
    ∀ e ∈ ms, e ∉ done → r.KeepsAliases r' e.2.file)
    ⟨⟨hs, .refl r⟩, by simp, fun _ _ _ => .refl r _⟩ ?_).imp fun _ r' h => h.2.1
  rintro done e rest - r₁ hsplit ⟨⟨hs₁, hframe⟩, hdone, hkept⟩
  have he : e ∈ ms := by simp [← hsplit]
  have hnew : e ∉ done := fun hin => by
    rw [← hsplit] at hnodup
    exact (List.nodup_append.1 hnodup).2.2 e hin e List.mem_cons_self rfl
  refine ((flatten_spec hv (I := fun r' => r'.Sound j T ∧ r.Frame r')
    (fun _ _ h hedit => ⟨h.1.edits hedit, h.2.trans hedit.frame⟩) he (hlisted.leads e he)
    ⟨hs₁, hframe⟩).and (flatten_unites hv (hlisted.leads e he))).mono ?_ fun _ _ h => h.1
  rintro _ r₂ ⟨hs₂, hunites, hothers⟩
  have hne : ∀ e' ∈ ms, e' ≠ e → e'.2.file ≠ e.2.file := fun e' he' hne hfile =>
    hne (hlisted.eq_of_file he' he hfile)
  refine ⟨hs₂, List.forall_mem_append.2 ⟨fun e' he' => ?_, ?_⟩, fun e' he' hnot => ?_⟩
  · have hin : e' ∈ ms := hsplit ▸ List.mem_append_left _ he'
    exact (hdone e' he').keepsAliases (hothers _ (hne e' hin fun heq => hnew (heq ▸ he')))
  · exact List.forall_mem_singleton.2 (.of_keepsAliases (hkept e he hnew) hframe hunites)
  · simp only [List.mem_append, List.mem_singleton, not_or] at hnot
    exact (hkept e' he' hnot.1).trans (hothers _ (hne e' he' hnot.2))

/-- **Polymorphic bases are flattened.**  However choices refer to each other, the leaves of a base can be
told, and more fuel changes nothing. They are found exactly if every alternative on the way is a reference,
and then are the components below the base, other than itself, that are not opened, each once and in the
order of a walk that goes down first. The pass over polymorphic bases does not fail after any passes that
left models, and makes the alias of each base the union of the references to its leaves. -/
theorem flattening_exact {d : Document} (hd : d.validate = .ok ()) :
    (∀ transfers own base s, d.parts.schema base = .ok s →
      let c : TypeContext := ⟨d.parts, transfers, own⟩
      (∀ more, (Leaves.with c (d.parts.schemas.length + 1 + more) { visited := [base] } s).run =
        (Leaves.with c (d.parts.schemas.length + 1) { visited := [base] } s).run) ∧
      ∃ found, leavesOf c base s = .ok found ∧ c.Finds base s.alternatives found) ∧
    ∀ (settings : Settings) (passes : List Pass) (log : List LogLine) (r : Run) (ms : Entries Model),
      (executeAll ⟨d, settings⟩ passes).run.run { Run.start settings with log } = (.ok (), r) →
      r.models = some ms →
      ∃ r', (Pass.subtypes.execute ⟨d, settings⟩).run.run r = (.ok (), r') ∧
        ∀ e ∈ ms, r.Unites ⟨d, settings⟩ e r' := by
  have hv := Document.valid_of_validate hd
  refine ⟨fun transfers own base s hs => leavesOf_finds (c := ⟨d.parts, transfers, own⟩) hv.parts hs,
    fun settings passes log r ms hr hms => ?_⟩
  · obtain ⟨T, hs, -⟩ := (executeAll_sound (j := ⟨d, settings⟩) hv passes
      (Run.Sound.start ⟨d, settings⟩ log)).result hr
    have hends := flattenUnions_unites (j := ⟨d, settings⟩) hv hs hms
    unfold Ends at hends
    split at hends
    · next r' hr' => exact ⟨r', hr', hends⟩
    · exact hends.elim

/-- Choices that refer to each other in circles, one of them by another name. -/
def circularChoices : Json :=
  operationsDocument [("/E/get", refTo "U")]
    [("U", .object [("oneOf", .array [refTo "V", refTo "A"])]),
      ("V", .object [("anyOf", .array [refTo "U", refTo "W", refTo "B"])]),
      ("W", refTo "V"),
      ("A", .object [("type", .string "string")]),
      ("B", .object [("type", .string "string")])]

/-- A run in which a base is opened that leads back to the base it was reached from. -/
theorem flattening_exact_circularChoices :
    ∃ d r r' ms s, Document.ofJson circularChoices = .ok d ∧ d.validate = .ok () ∧
      (executeAll ⟨d, {}⟩ [.transferTypes, .backbone, .model]).run.run (Run.start {}) = (.ok (), r) ∧
      r.models = some ms ∧ ms.keys = ["U", "V", "A", "W", "B"] ∧
      (Pass.subtypes.execute ⟨d, {}⟩).run.run r = (.ok (), r') ∧ (∀ e ∈ ms, r.Unites ⟨d, {}⟩ e r') ∧
      d.parts.schema "U" = .ok s ∧
      let c : TypeContext := ⟨d.parts, r.transfers, some ("U", "U")⟩
      leavesOf c "U" s = .ok (some ["B", "A"]) ∧ c.Finds "U" s.alternatives (some ["B", "A"]) := by
  have hrun := exists_of_runOf? circularChoices {}
    [.transferTypes, .backbone, .model] (fun d r =>
      r.models.any (fun ms => decide (ms.keys = ["U", "V", "A", "W", "B"])) &&
        (d.parts.schema "U").toOption.any fun s => decide
          ((leavesOf ⟨d.parts, r.transfers, some ("U", "U")⟩ "U" s).toOption = some (some ["B", "A"])))
    (by decide +kernel)
  obtain ⟨d, r, hd, hvalid, hr, htest⟩ := hrun
  obtain ⟨hkeys, htest⟩ := Bool.and_eq_true_iff.1 htest
  obtain ⟨ms, hms, hkeys⟩ := (Option.any_eq_true ..).1 hkeys
  obtain ⟨s, hs, htest⟩ := (Option.any_eq_true ..).1 htest
  have hs := eq_ok_of_toOption hs
  have hfound := eq_ok_of_toOption (of_decide_eq_true htest)
  obtain ⟨hleaves, hpass⟩ := flattening_exact hvalid
  obtain ⟨r', hr', hunites⟩ := hpass {} [.transferTypes, .backbone, .model] [] r ms hr hms
  obtain ⟨-, found, hfound', hfinds⟩ := hleaves r.transfers (some ("U", "U")) "U" s hs
  obtain rfl := Except.ok.inj (hfound.symm.trans hfound')
  exact ⟨d, r, r', ms, s, hd, hvalid, hr, hms, of_decide_eq_true hkeys, hr', hunites, hs, hfound, hfinds⟩

/-- A choice between itself and another component. -/
def selfChoice : Json :=
  operationsDocument [("/E/get", refTo "U")]
    [("U", .object [("oneOf", .array [refTo "U", refTo "A"])]), ("A", .object [("type", .string "string")])]

/-- Settings with a type of the client for the choice. -/
def choiceSettings : Settings := { transferTypes := [("U", { name := "Foo" })] }

/-- **A base that is no leaf of its own**: a type of the client stands for it, and it is below itself. -/
theorem not_findsAll :
    ∃ d r s, Document.ofJson selfChoice = .ok d ∧ d.validate = .ok () ∧
      (executeAll ⟨d, choiceSettings⟩ [.backbone, .model, .transferTypes]).run.run
        (Run.start choiceSettings) = (.ok (), r) ∧
      d.parts.schema "U" = .ok s ∧ Schema.isUnion s = true ∧
      let c : TypeContext := ⟨d.parts, r.transfers, some ("U", "U")⟩
      ¬ ∀ leaves, leavesOf c "U" s = .ok (some leaves) →
        ∀ n, n ∈ leaves ↔ c.Below (referents s.alternatives) n ∧ c.opened? n = none := by
  have hrun := exists_of_runOf? selfChoice choiceSettings
    [.backbone, .model, .transferTypes] (fun d r => (d.parts.schema "U").toOption.any fun s =>
      Schema.isUnion s && decide ("U" ∈ referents s.alternatives) && r.transfers.has "U" && decide
        ((leavesOf ⟨d.parts, r.transfers, some ("U", "U")⟩ "U" s).toOption = some (some ["A"])))
    (by decide +kernel)
  obtain ⟨d, r, hd, hvalid, hr, htest⟩ := hrun
  obtain ⟨s, hs, htest⟩ := (Option.any_eq_true ..).1 htest
  obtain ⟨htest, hleaves⟩ := Bool.and_eq_true_iff.1 htest
  obtain ⟨htest, hhas⟩ := Bool.and_eq_true_iff.1 htest
  obtain ⟨hunion, hmem⟩ := Bool.and_eq_true_iff.1 htest
  refine ⟨d, r, s, hd, hvalid, hr, eq_ok_of_toOption hs, hunion, fun hall => ?_⟩
  have hfound := eq_ok_of_toOption (of_decide_eq_true hleaves)
  have hin := (hall ["A"] hfound "U").2 ⟨.name (of_decide_eq_true hmem), if_pos hhas⟩
  revert hin
  decide

end Client
end OpenApiClient
