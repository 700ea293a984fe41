/-
# Who owns a file

Endpoints and components choose their files by their names. A name is split at dots and dollar signs, so
that different names may have one place (`modelFile_inj`), and a file that is there already is written
further. Only the pass that writes models looks whether another component has the file.

After the usual passes, a file declares the functions of the endpoints that chose it and the types of the
components that did (`Run.Holds`). So each file has one owner exactly if no two of the names have one
place (`executeAll_owned_iff`); `not_owned` is a document in which two have.
-/

import OpenApiClient.Proofs.ModelImports
import OpenApiClient.Proofs.Models
import OpenApiClient.Proofs.Named
import OpenApiClient.Proofs.Parameters

namespace OpenApiClient

namespace Module

open TypeScript

namespace File

/-- The names of the declarations, and whether they are functions. -/
def kinds (f : File) : List (String × Bool) := f.declarations.map fun d => (d.name, d.isFunction)

/-- The names of the functions. -/
def functionNames (f : File) : List String := (f.kinds.filter (·.2)).map (·.1)

/-- The names of the other declarations. -/
def typeNames (f : File) : List String := (f.kinds.filter (!·.2)).map (·.1)

theorem typeNames_eq (f : File) : f.typeNames = f.typeDeclarations.map (·.name) := by
  rw [typeNames, kinds, List.filter_map, List.map_map, typeDeclarations]
  rfl

theorem mem_functionNames {f : File} {n : String} :
    n ∈ f.functionNames ↔ ∃ g, .function g ∈ f.declarations ∧ g.name = n := by
  simp only [functionNames, kinds, List.mem_map, List.mem_filter]
  constructor
  · rintro ⟨_, ⟨⟨d, hd, rfl⟩, hfunction⟩, rfl⟩
    cases d with
    | function g => exact ⟨g, hd, rfl⟩
    | interface | «alias» | enumeration => cases hfunction
  · rintro ⟨g, hg, rfl⟩
    exact ⟨_, ⟨⟨_, hg, rfl⟩, rfl⟩, rfl⟩

/-- Every declaration is that of a function or of a type. -/
theorem eq_nil_of_names {f : File} (hfunctions : f.functionNames = []) (htypes : f.typeNames = []) :
    f.declarations = [] := by
  refine List.eq_nil_iff_forall_not_mem.2 fun d hd => ?_
  have hkind : (d.name, d.isFunction) ∈ f.kinds := List.mem_map.2 ⟨d, hd, rfl⟩
  cases hd : d.isFunction with
  | true =>
    have : d.name ∈ f.functionNames := List.mem_map.2 ⟨_, List.mem_filter.2 ⟨hkind, hd⟩, rfl⟩
    simp [hfunctions] at this
  | false =>
    have : d.name ∈ f.typeNames := List.mem_map.2 ⟨_, List.mem_filter.2 ⟨hkind, by simp [hd]⟩, rfl⟩
    simp [htypes] at this

theorem nodup_functionNames {f : File} (h : (f.declarations.map (·.name)).Nodup) :
    f.functionNames.Nodup := by
  have hkinds : f.kinds.map (·.1) = f.declarations.map (·.name) := by simp [kinds]
  exact (hkinds ▸ h).sublist (List.filter_sublist.map _)

end File

/-- **Two components have one file** exactly if the names on the way to it are the same. -/
theorem modelFile_inj {a b : String} :
    Naming.modelFile a = Naming.modelFile b ↔ placeOf a = placeOf b := by
  constructor
  · intro h
    have hpath : Naming.qualifiedPath a = Naming.qualifiedPath b := by
      simpa [Naming.modelFile] using h
    rw [← segmentsOf_qualifiedPath, hpath, segmentsOf_qualifiedPath]
  · intro h
    have hpath : Naming.qualifiedPath a = Naming.qualifiedPath b := congrArg ("/".intercalate ·) h
    rw [Naming.modelFile, hpath, ← Naming.modelFile]

end Module

namespace Client

open OpenApi TypeScript OpenApiClient.Module

section Late

variable {j : Job} {T : List Route} {r r' : Run}

/-- A change that keeps functions keeps other declarations. -/
theorem Keeps.kind {change : Declaration → Declaration} (h : Keeps change) (d : Declaration) :
    (change d).isFunction = d.isFunction := by
  cases hd : change d with
  | function g => rw [h.isFunction d g hd]
  | interface | «alias» | enumeration =>
    cases d with
    | function g => cases (h.function g).symm.trans hd
    | interface | «alias» | enumeration => rfl

/-- A file is written that declares as before. -/
theorem Run.Writes.kinds {f g : File} (hw : r.Writes f r') (hg : r.sources.at? f.path = some g)
    (h : f.kinds = g.kinds) (path : String) :
    (r'.sources.at? path).map File.kinds = (r.sources.at? path).map File.kinds := by
  obtain ⟨log, rfl⟩ := hw
  have hat : (r.sources.put f).at? path = if path = f.path then some f else r.sources.at? path :=
    Sources.at?_put ..
  simp only [hat]
  split
  · next hp => rw [hp, hg, Option.map_some, Option.map_some, h]
  · rfl

/-- A declaration is changed in place into another of its kind. -/
theorem kinds_of_adjust (h : r.Sound j T) {path name : String} {f : File} {b : Bindings}
    {change : Declaration → Declaration} (hf : r.sources.at? path = some f)
    (hkind : ∀ d ∈ f.declarations, d.name = name →
      ((change d).name, (change d).isFunction) = (d.name, d.isFunction))
    (hw : r.Writes ({ f with bindings := b }.adjust name change) r') (p : String) :
    (r'.sources.at? p).map File.kinds = (r.sources.at? p).map File.kinds :=
  hw.kinds ((congrArg r.sources.at? (h.path path f hf).1).trans hf) (map_adjustFirst hkind) p

variable (hv : j.document.Valid)
include hv

/-- **The passes over unions, subscriptions and signals** change no declaration into one of another kind,
and add none. -/
theorem execute_kinds {p : Pass} (hp : p = .subtypes ∨ p = .push ∨ p = .signals) (h : r.Sound j T) :
    Ends (p.execute j) r (fun _ r' => r'.Sound j T ∧ r.Frame r' ∧
        ∀ path, (r'.sources.at? path).map File.kinds = (r.sources.at? path).map File.kinds)
      fun _ _ => True := by
  refine (execute_keeps (I := fun r' => ∀ path,
    (r'.sources.at? path).map File.kinds = (r.sources.at? path).map File.kinds) hv hp h ?_ ?_
    (fun _ _ h => h) fun _ => rfl).mono (fun _ _ h => h) fun _ _ _ => trivial
  · rintro ms r₁ r₂ - h₁ - hkinds ⟨component, m, f, name, change, b, ns, -, hf, hkeeps, -, -, -, hw⟩ path
    refine (kinds_of_adjust h₁ hf (fun d _ _ => ?_) hw path).trans (hkinds path)
    exact Prod.ext (hkeeps.name d) (hkeeps.kind d)
  · rintro κ w late b e m r₁ r₂ - - - h₁ - hkinds
      ⟨response, k, f, g, g', b', -, -, hf, hg, hname, -, -, -, -, hw⟩ path
    refine (kinds_of_adjust h₁ hf (fun d hd hn => ?_) hw path).trans (hkinds path)
    obtain rfl : d = .function g := by
      have hfound := declaration?_of_mem (h₁.serves _ f hf).names hd
      rw [hn, hg] at hfound
      exact (Option.some.inj hfound).symm
    exact Prod.ext (hname.trans hn.symm) rfl

end Late

/-- The endpoints have the functions that the routes lead to, and name what the operations name. The
models are those that are needed then, and the file of each declares it and no other type. -/
structure Run.Holds (j : Job) (T : List Route) (b : Backbone) (ms : Entries Model) (r : Run) : Prop where
  backbone : r.backbone = some b
  models : r.models = some ms
  follows : b.Follows j.document T
  named : ∀ n, n ∈ b.referenced ↔
    r.transfers.has n = false ∧ ∃ e ∈ j.document.operations, e.2.2.Names j.document.parts n
  listed : Listed j.document.parts ms
  needed : ∀ n, n ∈ ms.keys ↔ Needed j.document.parts r.transfers b.referenced n
  types : ∀ e ∈ ms, ∃ f, r.sources.at? e.2.file = some f ∧ f.typeNames = [e.2.identifier]
  others : ∀ path f, r.sources.at? path = some f → path ∉ ms.values.map (·.file) → f.typeNames = []

section Runs

variable {j : Job} {T : List Route} {r r' : Run} {b : Backbone} {ms : Entries Model}

theorem Run.Holds.congr (h : r.Holds j T b ms) (hframe : r.Frame r')
    (hkinds : ∀ path, (r'.sources.at? path).map File.kinds = (r.sources.at? path).map File.kinds) :
    r'.Holds j T b ms := by
  have hnames : ∀ {f f' : File}, f'.kinds = f.kinds → f'.typeNames = f.typeNames := fun h => by
    rw [File.typeNames, File.typeNames, h]
  refine ⟨hframe.backbone.trans h.backbone, hframe.models.trans h.models, h.follows,
    hframe.transfers ▸ h.named, h.listed, hframe.transfers ▸ h.needed, fun e he => ?_,
    fun path f' hf' hnot => ?_⟩
  · obtain ⟨f, hf, htypes⟩ := h.types e he
    have hfile := hkinds e.2.file
    rw [hf, Option.map_some] at hfile
    obtain ⟨f', hf', hkind⟩ := Option.map_eq_some_iff.1 hfile
    exact ⟨f', hf', (hnames hkind).trans htypes⟩
  · have hfile := hkinds path
    rw [hf', Option.map_some] at hfile
    obtain ⟨f, hf, hkind⟩ := Option.map_eq_some_iff.1 hfile.symm
    exact (hnames hkind.symm).trans (h.others path f hf hnot)

variable (hv : j.document.Valid)
include hv

/-- **The pass that writes models** adds them to the endpoints that were written. -/
theorem writeModels_holds (hs : r.Sound j T) (hb : r.backbone = some b)
    (hfollows : b.Follows j.document T)
    (hnamed : ∀ n, n ∈ b.referenced ↔
      r.transfers.has n = false ∧ ∃ e ∈ j.document.operations, e.2.2.Names j.document.parts n)
    (hnone : r.sources.Each fun _ f => f.typeDeclarations = []) :
    Ends (writeModels j) r (fun _ r' => r'.Sound j T ∧ ∃ ms, r'.Holds j T b ms) fun _ _ => True := by
  refine ((writeModels_modelled hv hs hnone).and (writeModels_spec (Run.Sound.keptByModels T r) hv
    (fun _ _ _ h => h.2.transfers) (fun _ _ => ⟨hs, .refl r⟩) hs.referenced)).mono ?_
    fun _ _ _ => trivial
  rintro _ r' ⟨⟨b', ms, ns, hb', hms, hlisted, hm, -, hall⟩, _, ms', r₁, log, _, -, ⟨h₁, hframe⟩, rfl, -⟩
  obtain rfl := Option.some.inj (hb.symm.trans hb')
  have hneeded := hm.mem_keys_iff fun n hn => (hall n hn).imp_left fun hn => by
    rw [keys_identifiersOf]
    exact Entries.has_iff.1 hn
  simp only [keys_identifiersOf] at hneeded
  refine ⟨h₁.listed (Option.some.inj hms ▸ hlisted) log, ms, hframe.backbone.trans hb, hms, hfollows,
    hframe.transfers ▸ hnamed, hlisted, hframe.transfers ▸ hneeded, fun e he => ?_,
    fun path f hf hnot => ?_⟩
  · obtain ⟨f, form, d, hf, htypes, -, hdeclares⟩ :=
      hm.declared (e.1, e.2.identifier) (List.mem_map.2 ⟨e, he, rfl⟩)
    refine ⟨f, hlisted.file e he ▸ hf, ?_⟩
    rw [File.typeNames_eq, htypes, List.map_singleton, (hdeclares f.bindings (.refl _)).name]
  · rw [File.typeNames_eq, hm.others path f hf, List.map_nil]
    rw [keys_identifiersOf, ← hlisted.files_eq]
    exact hnot

/-- **After the usual passes** every operation has its route, and files hold what endpoints and models
are written in them. -/
theorem executeAll_holds (log : List LogLine) :
    Ends (executeAll j Pass.usual) { Run.start j.settings with log }
      (fun _ r => ∃ T b ms, r.Sound j T ∧ r.Holds j T b ms) fun _ _ => True := by
  have husual : Pass.usual =
      ([Pass.transferTypes] ++ [Pass.backbone]) ++ [Pass.model, .subtypes, .push, .signals] := rfl
  have hforwarded := executeAll_forwarded hv [.transferTypes] log
  have hnone := @executeAll_typeDeclarations j hv ([.transferTypes] ++ [.backbone]) (by simp) log
  have hnamed := executeAll_named hv [.transferTypes] log
  rw [husual, executeAll_append, ends_bind]
  refine ((hforwarded.and hnone).and hnamed).mono ?_ fun _ _ _ => trivial
  rintro _ r ⟨⟨⟨T, b, hs, hb, hfollows, -⟩, _, -, hnone⟩, b', hb', hnamed⟩
  obtain rfl := Option.some.inj (hb.symm.trans hb')
  have late : ∀ {p : Pass} {ms : Entries Model} {r : Run}, p = .subtypes ∨ p = .push ∨ p = .signals →
      r.Sound j T → r.Holds j T b ms → ∀ log, Ends (p.execute j) { r with log }
        (fun _ r' => r'.Sound j T ∧ r'.Holds j T b ms) fun _ _ => True := fun hp hs hholds log =>
    (execute_kinds hv hp (hs.log log)).imp fun _ _ ⟨hs', hframe, hkinds⟩ =>
      ⟨hs', hholds.congr ⟨hframe.extension, hframe.transfers, hframe.backbone, hframe.models⟩ hkinds⟩
  refine executeAll_cons hv hs (fun log => writeModels_holds hv (hs.log log) hb hfollows hnamed hnone)
    fun _ r₁ _ ⟨hs₁, ms, h₁⟩ => ?_
  refine executeAll_cons hv hs₁ (late (.inl rfl) hs₁ h₁) fun _ r₂ _ ⟨hs₂, h₂⟩ => ?_
  refine executeAll_cons hv hs₂ (late (.inr (.inl rfl)) hs₂ h₂) fun _ r₃ _ ⟨hs₃, h₃⟩ => ?_
  refine executeAll_cons hv hs₃ (late (.inr (.inr rfl)) hs₃ h₃) fun _ r₄ _ ⟨hs₄, h₄⟩ => ?_
  exact ⟨T, b, ms, hs₄, h₄⟩

end Runs

/-- The file holds the functions of the endpoint, and nothing else. -/
structure Endpoint.Owns (e : Endpoint) (f : File) : Prop where
  path : e.file = f.path
  functions : f.functionNames.Perm (e.methods.map (·.localName))
  types : f.typeNames = []

/-- The file holds the declaration of the model, and nothing else. -/
structure Model.Owns (m : Model) (f : File) : Prop where
  path : m.file = f.path
  functions : f.functionNames = []
  types : f.typeNames = [m.identifier]

/-- The file holds the functions of one endpoint, or the declaration of one component. -/
def Owned (b : Backbone) (ms : Entries Model) (f : File) : Prop :=
  (∃ e ∈ b.endpoints, e.Owns f) ∨ ∃ p ∈ ms, p.2.Owns f

/-- The files that endpoints and components choose. -/
def chosenFiles (b : Backbone) (ms : Entries Model) : List String :=
  b.endpoints.map (·.file) ++ ms.values.map (·.file)

section Names

variable {d : Document} {T : List Route} {b : Backbone}

theorem Backbone.Follows.names (h : b.Follows d T) : b.endpoints.map (·.name) = (callsByEndpoint d).keys := by
  simpa [Entries.keys, Function.comp_def] using congrArg (List.map (·.1)) h.calls

/-- An endpoint has methods. -/
theorem Backbone.Follows.exists_method (h : b.Follows d T) {e : Endpoint} (he : e ∈ b.endpoints) :
    ∃ m, m ∈ e.methods := by
  have hmem : (e.name, e.methods.map (·.name)) ∈
      (callsByEndpoint d).map fun e => (e.1, e.2.map (·.name)) :=
    h.calls ▸ List.mem_map.2 ⟨e, he, rfl⟩
  obtain ⟨group, hgroup, heq⟩ := List.mem_map.1 hmem
  have hne : group.2 ≠ [] := Entries.ne_nil_of_mem_group hgroup
  have hnames : e.methods.map (·.name) ≠ [] := fun hnil => hne (by simpa [hnil] using (Prod.mk.inj heq).2)
  exact List.exists_mem_of_ne_nil _ fun hnil => hnames (by rw [hnil, List.map_nil])

/-- No two endpoints have one name. -/
theorem Backbone.Follows.nodup_names (h : b.Follows d T) : (b.endpoints.map (·.name)).Nodup :=
  h.names ▸ Entries.nodup_keys_group _

/-- The file of an endpoint is chosen as that of a component. -/
theorem Backbone.Follows.file (h : b.Follows d T) {e : Endpoint} (he : e ∈ b.endpoints) :
    e.file = Naming.modelFile e.name :=
  have ⟨_, _, _, hfollows⟩ := h.endpoints e he
  hfollows.file

/-- **The files that are chosen are different** exactly if the names have different places. -/
theorem nodup_chosenFiles (h : b.Follows d T) {ms : Entries Model} (hms : Listed d.parts ms) :
    (chosenFiles b ms).Nodup ↔ (((callsByEndpoint d).keys ++ ms.keys).map placeOf).Nodup := by
  have hendpoints : b.endpoints.map (·.file) = (callsByEndpoint d).keys.map Naming.modelFile := calc
    _ = b.endpoints.map fun e => Naming.modelFile e.name := List.map_congr_left fun _ he => h.file he
    _ = (callsByEndpoint d).keys.map Naming.modelFile := by rw [← h.names, List.map_map]; rfl
  rw [chosenFiles, hendpoints, hms.files_eq, ← List.map_append]
  simp only [List.Nodup, List.pairwise_map, ne_eq, modelFile_inj]

end Names

section Owners

variable {j : Job} {T : List Route} {r : Run} {b : Backbone} {ms : Entries Model}
  (hs : r.Sound j T) (h : r.Holds j T b ms)
include hs h

/-- A file has the functions of the methods whose endpoint chose it. -/
theorem Run.Holds.mem_functionNames {f : File} (hf : r.sources.at? f.path = some f) {n : String} :
    n ∈ f.functionNames ↔ ∃ p ∈ b.methods, p.1.file = f.path ∧ p.2.localName = n := by
  have hserves := hs.serves _ f hf
  have hmem : ∀ n, (f.path, n) ∈ T.map (fun t => (t.file, t.localName)) ↔
      ∃ p ∈ b.methods, p.1.file = f.path ∧ p.2.localName = n := fun n => by
    rw [← h.follows.locals, List.mem_map]
    simp only [Prod.mk.injEq]
  rw [← hmem, List.mem_map, File.mem_functionNames]
  constructor
  · rintro ⟨g, hg, rfl⟩
    obtain ⟨t, ht, hlocal⟩ := hserves.only g hg
    obtain ⟨ht, hfile⟩ := mem_routesTo.1 ht
    exact ⟨t, ht, Prod.ext hfile hlocal⟩
  · rintro ⟨t, ht, heq⟩
    obtain ⟨hfile, rfl⟩ := Prod.mk.inj heq
    obtain ⟨g, hg, hname, -⟩ := hserves.wrapped t (mem_routesTo.2 ⟨ht, hfile⟩)
    exact ⟨g, hg, hname⟩

/-- No two endpoints have one function. -/
theorem Run.Holds.endpoint_eq {e e' : Endpoint} {m m' : Method} (he : e ∈ b.endpoints)
    (hm : m ∈ e.methods) (he' : e' ∈ b.endpoints) (hm' : m' ∈ e'.methods) (hfile : e.file = e'.file)
    (hlocal : m.localName = m'.localName) : e = e' := by
  have heq : (e, m) = (e', m') := List.inj_on_of_nodup_map (hs.nodup_methods h.backbone)
    (Backbone.mem_methods.2 ⟨he, hm⟩) (Backbone.mem_methods.2 ⟨he', hm'⟩) (Prod.ext hfile hlocal)
  exact (Prod.mk.inj heq).1

/-- The functions of an endpoint have different names. -/
theorem Run.Holds.nodup_locals {e : Endpoint} (he : e ∈ b.endpoints) :
    (e.methods.map (·.localName)).Nodup := by
  have hmethods := hs.nodup_methods h.backbone
  rw [Backbone.methods, List.map_flatMap, List.nodup_flatMap] at hmethods
  have hlocals := hmethods.1 e he
  rw [List.map_map] at hlocals
  exact List.Nodup.of_map (e.file, ·) (by simpa [Function.comp_def] using hlocals)

/-- The file of an endpoint is written, and has a function of the endpoint. -/
theorem Run.Holds.exists_file_of_endpoint {e : Endpoint} (he : e ∈ b.endpoints) :
    ∃ f ∈ emitted r.sources, e.file = f.path ∧ ∃ m ∈ e.methods, m.localName ∈ f.functionNames := by
  obtain ⟨m, hm⟩ := h.follows.exists_method he
  have hmethod : (e, m) ∈ b.methods := Backbone.mem_methods.2 ⟨he, hm⟩
  obtain ⟨f, hf⟩ := hs.exists_file h.backbone hmethod
  have hpath : f.path = e.file := (hs.path _ f hf).1
  have hfunction : m.localName ∈ f.functionNames :=
    (h.mem_functionNames hs (hpath ▸ hf)).2 ⟨_, hmethod, hpath.symm, rfl⟩
  obtain ⟨g, hg, -⟩ := File.mem_functionNames.1 hfunction
  exact ⟨f, mem_emitted hf hg, hpath.symm, m, hm, hfunction⟩

/-- The file of a model is written, and has the declaration of the model. -/
theorem Run.Holds.exists_file_of_model {p : String × Model} (hp : p ∈ ms) :
    ∃ f ∈ emitted r.sources, p.2.file = f.path ∧ f.typeNames = [p.2.identifier] := by
  obtain ⟨f, hf, htypes⟩ := h.types p hp
  have hne : f.declarations ≠ [] := fun hnil => by
    rw [File.typeNames, File.kinds, hnil] at htypes
    cases htypes
  obtain ⟨d, hd⟩ := List.exists_mem_of_ne_nil _ hne
  exact ⟨f, mem_emitted hf hd, (hs.path _ f hf).1.symm, htypes⟩

/-- If each file has one owner, no file is chosen twice. -/
theorem Run.Holds.nodup_of_owned (howned : ∀ f ∈ emitted r.sources, Owned b ms f) :
    (chosenFiles b ms).Nodup := by
  -- The endpoint that a file has a function of owns the file.
  have howner : ∀ e ∈ b.endpoints, ∃ f ∈ emitted r.sources, e.file = f.path ∧ e.Owns f := by
    intro e he
    obtain ⟨f, hf, hpath, m, hm, hfunction⟩ := h.exists_file_of_endpoint hs he
    rcases howned f hf with ⟨e', he', howns⟩ | ⟨p, -, howns⟩
    · obtain ⟨m', hm', hlocal⟩ := List.mem_map.1 (howns.functions.mem_iff.1 hfunction)
      obtain rfl := h.endpoint_eq hs he' hm' he hm (howns.path.trans hpath.symm) hlocal
      exact ⟨f, hf, hpath, howns⟩
    · simp [howns.functions] at hfunction
  have hat : ∀ {f}, f ∈ emitted r.sources → r.sources.at? f.path = some f := fun hf =>
    hs.mem_values (List.mem_filter.1 hf).1
  refine List.nodup_append.2 ⟨?_, ?_, ?_⟩
  · refine List.Nodup.map_on (fun e he e' he' hfile => ?_) (List.Nodup.of_map _ h.follows.nodup_names)
    obtain ⟨f, hf, hpath, howns⟩ := howner e he
    obtain ⟨f', hf', hpath', m, hm, hfunction⟩ := h.exists_file_of_endpoint hs he'
    obtain rfl : f = f' := Option.some.inj
      ((hat hf).symm.trans ((hpath.symm.trans (hfile.trans hpath')) ▸ hat hf'))
    obtain ⟨m', hm', hlocal⟩ := List.mem_map.1 (howns.functions.mem_iff.1 hfunction)
    exact h.endpoint_eq hs he hm' he' hm hfile hlocal
  · exact h.listed.files_eq ▸ h.listed.files
  · intro path hpath path' hpath' heq
    obtain ⟨e, he, rfl⟩ := List.mem_map.1 hpath
    obtain ⟨m, hm, rfl⟩ := List.mem_map.1 hpath'
    obtain ⟨p, hp, rfl⟩ := List.mem_map.1 hm
    obtain ⟨f, hf, hfile, howns⟩ := howner e he
    obtain ⟨f', hf', hfile', htypes⟩ := h.exists_file_of_model hs hp
    obtain rfl : f = f' := Option.some.inj
      ((hat hf).symm.trans ((hfile.symm.trans (heq.trans hfile')) ▸ hat hf'))
    rw [howns.types] at htypes
    cases htypes

/-- If no file is chosen twice, each file has one owner. -/
theorem Run.Holds.owned_of_nodup (hnodup : (chosenFiles b ms).Nodup)
    (hdefault : ∀ path f, r.sources.at? path = some f → f.bindings.exports.default.isSome →
      path ∈ ms.keys.map Naming.modelFile) :
    ∀ f ∈ emitted r.sources, Owned b ms f := by
  intro f hf
  obtain ⟨hvalue, hemitted⟩ := List.mem_filter.1 hf
  have hat := hs.mem_values hvalue
  have hserves := hs.serves _ f hat
  obtain ⟨hendpoints, -, hapart⟩ := List.nodup_append.1 hnodup
  by_cases hmodel : f.path ∈ ms.values.map (·.file)
  · obtain ⟨m, hm, hpath⟩ := List.mem_map.1 hmodel
    obtain ⟨p, hp, rfl⟩ := List.mem_map.1 hm
    obtain ⟨f', hf', htypes⟩ := h.types p hp
    obtain rfl : f = f' := Option.some.inj (hat.symm.trans (hpath ▸ hf'))
    refine .inr ⟨p, hp, hpath, List.eq_nil_iff_forall_not_mem.2 fun n hn => ?_, htypes⟩
    obtain ⟨q, hq, hfile, -⟩ := (h.mem_functionNames hs hat).1 hn
    exact hapart _ (List.mem_map.2 ⟨q.1, (Backbone.mem_methods.1 hq).1, rfl⟩) _ hmodel hfile
  · have htypes := h.others _ f hat hmodel
    -- There is something in the file, which then is a function.
    obtain ⟨n, hn⟩ : ∃ n, n ∈ f.functionNames := by
      refine List.exists_mem_of_ne_nil _ fun hnil => ?_
      have hdeclarations := File.eq_nil_of_names hnil htypes
      have hroutes : routesTo T f.path = [] := List.eq_nil_iff_forall_not_mem.2 fun t ht => by
        obtain ⟨g, hg, -⟩ := hserves.wrapped t ht
        simp [hdeclarations] at hg
      have hdefault : f.bindings.exports.default = none := by
        rw [← Option.not_isSome_iff_eq_none]
        exact fun hsome => hmodel (h.listed.files_eq ▸ hdefault _ f hat hsome)
      simp [File.isEmpty, Exports.isEmpty, hdeclarations, hserves.exports, hroutes, hdefault] at hemitted
    obtain ⟨p, hp, hpath, -⟩ := (h.mem_functionNames hs hat).1 hn
    obtain ⟨he, -⟩ := Backbone.mem_methods.1 hp
    refine .inl ⟨p.1, he, hpath, ?_, htypes⟩
    refine (List.perm_ext_iff_of_nodup (File.nodup_functionNames hserves.names)
      (h.nodup_locals hs he)).2 fun n => ?_
    rw [h.mem_functionNames hs hat, List.mem_map]
    constructor
    · rintro ⟨q, hq, hfile, hlocal⟩
      obtain ⟨he', hm'⟩ := Backbone.mem_methods.1 hq
      have heq : q.1 = p.1 := List.inj_on_of_nodup_map hendpoints he' he (hfile.trans hpath.symm)
      exact ⟨q.2, heq ▸ hm', hlocal⟩
    · rintro ⟨m, hm, hlocal⟩
      exact ⟨(p.1, m), Backbone.mem_methods.2 ⟨he, hm⟩, hpath, hlocal⟩

end Owners

/-- **Each file that is written has one owner**, an endpoint or a component, exactly if no two names of
endpoints and of components with a model have one place; and exactly then no file is chosen twice. -/
theorem executeAll_owned_iff {d : Document} (hd : d.validate = .ok ()) {settings : Settings}
    {log : List LogLine} {r : Run}
    (hr : (executeAll ⟨d, settings⟩ Pass.usual).run.run { Run.start settings with log } = (.ok (), r)) :
    ∃ b ms, r.backbone = some b ∧ r.models = some ms ∧
      b.endpoints.map (·.name) = (callsByEndpoint d).keys ∧
      let places := ((callsByEndpoint d).keys ++ ms.keys).map placeOf
      ((∀ f ∈ emitted r.sources, Owned b ms f) ↔ places.Nodup) ∧
        ((chosenFiles b ms).Nodup ↔ places.Nodup) := by
  have hv := Document.valid_of_validate hd
  obtain ⟨T, b, ms, hs, h⟩ := (executeAll_holds (j := ⟨d, settings⟩) hv log).result hr
  obtain ⟨_, b', ms', -, hsettled⟩ := (executeAll_accounts (j := ⟨d, settings⟩) hv log).result hr
  obtain rfl := Option.some.inj (h.models.symm.trans hsettled.models)
  have hchosen := nodup_chosenFiles h.follows h.listed
  refine ⟨b, ms, h.backbone, h.models, h.follows.names, ?_, hchosen⟩
  rw [← hchosen]
  exact ⟨h.nodup_of_owned hs, fun hnodup => h.owned_of_nodup hs hnodup fun path f hf =>
    (hsettled.accounts.exports path f hf).1⟩

/-- A run in which an endpoint and a component have the same last name, but not the same place. -/
theorem executeAll_owned_iff_qualified :
    ∃ d r b ms, Document.ofJson (operationsDocument [("/Page/get", refTo "a.Page")]
        [("a.Page", .object [("type", .string "string")])]) = .ok d ∧ d.validate = .ok () ∧
      (executeAll ⟨d, {}⟩ Pass.usual).run.run (Run.start {}) = (.ok (), r) ∧
      r.backbone = some b ∧ r.models = some ms ∧ chosenFiles b ms = ["Page.ts", "a/Page.ts"] ∧
      ((callsByEndpoint d).keys ++ ms.keys).map placeOf = [["Page"], ["a", "Page"]] ∧
      ∀ f ∈ emitted r.sources, Owned b ms f := by
  obtain ⟨d, r, hd, hvalid, hr, htest⟩ := exists_of_runOf?
    (operationsDocument [("/Page/get", refTo "a.Page")] [("a.Page", .object [("type", .string "string")])])
    {} Pass.usual (fun d r => r.backbone.any fun b => r.models.any fun ms =>
      decide (chosenFiles b ms = ["Page.ts", "a/Page.ts"]) &&
        decide (((callsByEndpoint d).keys ++ ms.keys).map placeOf = [["Page"], ["a", "Page"]]))
    (by decide +kernel)
  obtain ⟨b, ms, hb, hms, -, howned, -⟩ := executeAll_owned_iff hvalid hr
  simp only [hb, hms, Option.any_some, Bool.and_eq_true, decide_eq_true_eq] at htest
  refine ⟨d, r, b, ms, hd, hvalid, hr, hb, hms, htest.1, htest.2, howned.2 ?_⟩
  rw [htest.2]
  decide

/-- Two operations whose endpoints are called alike, but for a sign. -/
def endpointsAlike : Json :=
  let operation (tag : String) : Json := .object [("post", .object [("tags", .array [.string tag])])]
  .object [
    ("openapi", .string "3.0.1"),
    ("info", .object [("title", .string "t"), ("version", .string "1")]),
    ("paths", .object [("/a", operation "A.B"), ("/b", operation "A$B")])]

/-- **A file that two endpoints share**: a dot and a dollar sign lead to one place. -/
theorem not_owned :
    ∃ d r b ms, Document.ofJson endpointsAlike = .ok d ∧ d.validate = .ok () ∧
      (executeAll ⟨d, {}⟩ Pass.usual).run.run (Run.start {}) = (.ok (), r) ∧
      r.backbone = some b ∧ r.models = some ms ∧ b.endpoints.map (·.name) = ["A.B", "A$B"] ∧
      ¬ (∀ f ∈ emitted r.sources, Owned b ms f) := by
  have hrun := exists_of_runOf? endpointsAlike {} Pass.usual
    (fun _ r => r.backbone.any fun b => r.models.any fun ms =>
      decide (b.endpoints.map (·.name) = ["A.B", "A$B"]) &&
        decide (b.endpoints.map (·.methods.length) = [1, 1]) && decide (ms.length = 0) &&
          (emitted r.sources).any fun f => decide (f.functionNames.length = 2)) (by decide +kernel)
  obtain ⟨d, r, hd, hvalid, hr, htest⟩ := hrun
  obtain ⟨b, hb, htest⟩ := (Option.any_eq_true ..).1 htest
  obtain ⟨ms, hms, htest⟩ := (Option.any_eq_true ..).1 htest
  simp only [Bool.and_eq_true, decide_eq_true_eq] at htest
  obtain ⟨⟨⟨hnames, hmethods⟩, hmodels⟩, htest⟩ := htest
  obtain ⟨f, hf, hfunctions⟩ := List.any_eq_true.1 htest
  refine ⟨d, r, b, ms, hd, hvalid, hr, hb, hms, hnames, fun howned => ?_⟩
  rcases howned f hf with ⟨e, he, howns⟩ | ⟨p, hp, -⟩
  · have hone : e.methods.length ∈ b.endpoints.map (·.methods.length) := List.mem_map.2 ⟨e, he, rfl⟩
    have htwo := howns.functions.length_eq
    rw [of_decide_eq_true hfunctions, List.length_map] at htwo
    rw [hmethods, ← htwo] at hone
    simp at hone
  · rw [List.length_eq_zero_iff.1 hmodels] at hp
    cases hp

end Client
end OpenApiClient
