/-
# What holds along a run

A run is *sound* when its files serve the routes that were taken so far, its endpoints have methods
that routes lead to, and the components that passes left for others lead to schemas. A run starts
sound, without routes, and every pass keeps it sound, in whatever order and however often passes
come (`execute_sound`). Only the pass that writes endpoints takes new routes: one for each
operation of the document.

From a sound run no pass fails on a reference, and none misses the wrapper of a method. A pass
misses a result of another only if the slot is empty.
-/

import OpenApiClient.Proofs.Service

namespace OpenApiClient
namespace Client

open OpenApi TypeScript OpenApiClient.Module

/-- The routes that lead to a file. -/
def routesTo (T : List Route) (path : String) : List Route := T.filter fun t => t.file = path

theorem mem_routesTo {T : List Route} {path : String} {t : Route} :
    t ∈ routesTo T path ↔ t ∈ T ∧ t.file = path := by
  simp [routesTo]

/-- What steps that write files leave alone. -/
structure Run.Frame (r r' : Run) : Prop where
  extension : r'.sources.extension = r.sources.extension
  transfers : r'.transfers = r.transfers
  backbone : r'.backbone = r.backbone
  models : r'.models = r.models

theorem Run.Frame.refl (r : Run) : r.Frame r := ⟨rfl, rfl, rfl, rfl⟩

theorem Run.Frame.trans {r r' r'' : Run} (h : r.Frame r') (h' : r'.Frame r'') : r.Frame r'' :=
  ⟨h'.extension.trans h.extension, h'.transfers.trans h.transfers, h'.backbone.trans h.backbone,
    h'.models.trans h.models⟩

theorem Run.Writes.frame {r r' : Run} {f : File} (h : r.Writes f r') : r.Frame r' := by
  obtain ⟨log, rfl⟩ := h
  exact ⟨rfl, rfl, rfl, rfl⟩

theorem Run.Edits.frame {j : Job} {models : Entries Model} {r r' : Run} (h : r.Edits j models r') :
    r.Frame r' := by
  obtain ⟨component, m, f, name, change, b, ns, -, -, -, -, -, -, hw⟩ := h
  exact hw.frame

theorem Run.Replaces.frame {κ : Type} {w : Replacement κ} {j : Job}
    {late : κ → Schema → List String} {e : Endpoint} {m : Method} {r r' : Run}
    (h : r.Replaces w j late e m r') : r.Frame r' := by
  obtain ⟨response, k, f, g, g', b', -, -, -, -, -, -, -, -, -, hw⟩ := h
  exact hw.frame

theorem Run.Visits.frame {κ : Type} {w : Replacement κ} {j : Job}
    {late : κ → Schema → List String} {e : Endpoint} {m : Method} {r r' : Run}
    (h : r.Visits w j late e m r') : r.Frame r' := by
  rcases h with ⟨rfl, -⟩ | h
  · exact .refl r'
  · exact h.frame

/-- A run after the routes `T` were taken. -/
structure Run.Sound (j : Job) (T : List Route) (r : Run) : Prop where
  extension : r.sources.extension = j.settings.conventions.extension
  keys : r.sources.files.keys.Nodup
  path : ∀ path f, r.sources.at? path = some f →
    f.path = path ∧ f.bindings.site = .ofFile path r.sources.extension
  serves : ∀ path f, r.sources.at? path = some f →
    Serves j.settings.conventions (routesTo T path) f
  held : ∀ t ∈ T, ∃ f, r.sources.at? t.file = some f
  follows : ∀ b, r.backbone = some b → ∃ T', T'.Sublist T ∧ b.Follows j.document T'
  referenced : ∀ b, r.backbone = some b → ∀ n ∈ b.referenced, j.document.parts.Leads n
  models : ∀ ms, r.models = some ms → Listed j.document.parts ms

namespace Run.Sound

variable {j : Job} {T : List Route} {r r' : Run}

theorem start (j : Job) (log : List LogLine) :
    Run.Sound j [] { Run.start j.settings with log } :=
  ⟨rfl, by simp [Run.start, Entries.keys], nofun, nofun, by simp, nofun, nofun, nofun⟩

/-- What is logged does not matter. -/
theorem log (h : r.Sound j T) (log : List LogLine) : Run.Sound j T { r with log } :=
  ⟨h.extension, h.keys, h.path, h.serves, h.held, h.follows, h.referenced, h.models⟩

/-- The file that is opened serves the routes that lead to it. -/
theorem openFile (h : r.Sound j T) (path origin : String) :
    (r.sources.openFile path origin).path = path ∧
      (r.sources.openFile path origin).bindings.site = .ofFile path r.sources.extension ∧
        Serves j.settings.conventions (routesTo T path) (r.sources.openFile path origin) := by
  cases hf : r.sources.at? path with
  | some f =>
    rw [Sources.openFile_of_at? _ hf]
    exact ⟨(h.path path f hf).1, (h.path path f hf).2, h.serves path f hf⟩
  | none =>
    have hnil : routesTo T path = [] := List.filter_eq_nil_iff.2 fun t ht hp => by
      obtain ⟨f, hf'⟩ := h.held t ht
      rw [show t.file = path by simpa using hp, hf] at hf'
      cases hf'
    rw [Sources.openFile, hf, hnil]
    exact ⟨rfl, rfl, Serves.blank ..⟩

/-- **A file is written that serves the routes to it**, among which are the new ones. -/
theorem write (h : r.Sound j T) {T' : List Route} {path : String} {f : File} (hpath : f.path = path)
    (hsite : f.bindings.site = .ofFile path r.sources.extension) (hnew : ∀ t ∈ T', t.file = path)
    (hserves : Serves j.settings.conventions (routesTo (T ++ T') path) f) (hw : r.Writes f r') :
    r'.Sound j (T ++ T') := by
  obtain ⟨log, rfl⟩ := hw
  have hat : ∀ p g, (r.sources.put f).at? p = some g → (p = path ∧ g = f) ∨
      (p ≠ path ∧ r.sources.at? p = some g) := by
    intro p g hg
    rw [Sources.at?_put, hpath] at hg
    split at hg
    · next hp => exact .inl ⟨hp, (Option.some.inj hg).symm⟩
    · next hp => exact .inr ⟨hp, hg⟩
  refine ⟨h.extension, Entries.nodup_keys_put h.keys _ _, ?_, ?_, ?_, ?_, h.referenced, h.models⟩
  · intro p g hg
    rcases hat p g hg with ⟨rfl, rfl⟩ | ⟨-, hg⟩
    · exact ⟨hpath, hsite⟩
    · exact h.path p g hg
  · intro p g hg
    rcases hat p g hg with ⟨rfl, rfl⟩ | ⟨hp, hg⟩
    · exact hserves
    · have : routesTo (T ++ T') p = routesTo T p := by
        have hnil : T'.filter (fun t => t.file = p) = [] :=
          List.filter_eq_nil_iff.2 fun t ht hf => hp (by simpa [hnew t ht, eq_comm] using hf)
        rw [routesTo, List.filter_append, hnil, List.append_nil]
        rfl
      exact this ▸ h.serves p g hg
  · intro t ht
    by_cases hp : t.file = path
    · exact ⟨f, (Sources.at?_put ..).trans (if_pos (hp.trans hpath.symm))⟩
    · rcases List.mem_append.1 ht with ht | ht
      · obtain ⟨g, hg⟩ := h.held t ht
        exact ⟨g, (Sources.at?_put ..).trans ((if_neg (hpath ▸ hp)).trans hg)⟩
      · exact absurd (hnew t ht) hp
  · intro b hb
    obtain ⟨T'', hsub, hT''⟩ := h.follows b hb
    exact ⟨T'', hsub.trans (List.sublist_append_left _ _), hT''⟩

/-- Endpoints are left that have the methods of new routes. -/
theorem found {T' : List Route} (h : r.Sound j (T ++ T')) {b : Backbone}
    (hfollows : b.Follows j.document T') (hleads : ∀ n ∈ b.referenced, j.document.parts.Leads n)
    (log : List LogLine) : Run.Sound j (T ++ T') { r with backbone := some b, log } := by
  refine ⟨h.extension, h.keys, h.path, h.serves, h.held, fun b' hb => ?_, fun b' hb => ?_, h.models⟩
  · obtain rfl := Option.some.inj hb
    exact ⟨T', List.sublist_append_right _ _, hfollows⟩
  · obtain rfl := Option.some.inj hb
    exact hleads

/-- Models are left. -/
theorem listed (h : r.Sound j T) {ms : Entries Model} (hlisted : Listed j.document.parts ms)
    (log : List LogLine) : Run.Sound j T { r with models := some ms, log } := by
  refine ⟨h.extension, h.keys, h.path, h.serves, h.held, h.follows, h.referenced, fun ms' hms => ?_⟩
  obtain rfl := Option.some.inj hms
  exact hlisted

/-- A file is written that serves the routes to it as before. -/
theorem rewrite (h : r.Sound j T) {path : String} {f : File} (hpath : f.path = path)
    (hsite : f.bindings.site = .ofFile path r.sources.extension)
    (hserves : Serves j.settings.conventions (routesTo T path) f) (hw : r.Writes f r') :
    r'.Sound j T := by
  have hserves : Serves j.settings.conventions (routesTo (T ++ []) path) f := by simpa using hserves
  simpa using h.write hpath hsite (by simp) hserves hw

/-- The empty values of the models have no types in them. -/
theorem plain (h : r.Sound j T) : Plain r.models := fun ms hms => (h.models ms hms).plain

theorem edits (h : r.Sound j T) {models : Entries Model} (he : r.Edits j models r') :
    r'.Sound j T := by
  obtain ⟨component, m, f, name, change, b, ns, -, hf, hc, -, -, hadds, hw⟩ := he
  exact h.rewrite (f := { f with bindings := b }.adjust name change) (h.path m.file f hf).1
    (hadds.site.trans (h.path m.file f hf).2) ((h.serves m.file f hf).edit hc hadds) hw

/-- The methods of an endpoint are those that routes lead to. -/
theorem exists_routes (h : r.Sound j T) {b : Backbone} (hb : r.backbone = some b) {e : Endpoint}
    (he : e ∈ b.endpoints) :
    ∃ T' ⊆ T, (∀ t ∈ T', t.endpoint = e.name) ∧ e.Follows j.document T' := by
  obtain ⟨T', hsub, hfollows⟩ := h.follows b hb
  obtain ⟨T'', hsub', hT''⟩ := hfollows.endpoints e he
  exact ⟨T'', List.Subset.trans hsub' hsub.subset, hT''⟩

/-- A method of an endpoint is reached by a route, and is that of the call. -/
theorem exists_route (h : r.Sound j T) {b : Backbone} (hb : r.backbone = some b) {e : Endpoint}
    (he : e ∈ b.endpoints) {m : Method} (hm : m ∈ e.methods) :
    ∃ t ∈ T, t.endpoint = e.name ∧ t.file = e.file ∧ t.localName = m.localName ∧
      m.IsOf j.document.parts t.call := by
  obtain ⟨T', hsub, hname, hfollows⟩ := h.exists_routes hb he
  obtain ⟨t, ht, hlocal, his⟩ := hfollows.methods m hm
  refine ⟨t, hsub ht, hname t ht, ?_, hlocal, his⟩
  rw [Route.file, hname t ht, hfollows.file]

/-- The wrapper of a method of an endpoint is found by its name. -/
theorem exists_wrapper (h : r.Sound j T) {b : Backbone} (hb : r.backbone = some b) {e : Endpoint}
    (he : e ∈ b.endpoints) {m : Method} (hm : m ∈ e.methods) {f : File}
    (hf : r.sources.at? e.file = some f) : ∃ g, f.declaration? m.localName = some (.function g) := by
  obtain ⟨t, ht, -, hfile, hlocal, -⟩ := h.exists_route hb he hm
  obtain ⟨g, hg, hname, -⟩ := (h.serves e.file f hf).wrapped t (mem_routesTo.2 ⟨ht, hfile⟩)
  refine ⟨g, ?_⟩
  rw [← hlocal, ← hname]
  exact declaration?_of_mem (h.serves e.file f hf).names hg

theorem replaces {κ : Type} {w : Replacement κ} {late : κ → Schema → List String} (h : r.Sound j T)
    {b : Backbone} (hb : r.backbone = some b) {e : Endpoint} (he : e ∈ b.endpoints) {m : Method}
    (hm : m ∈ e.methods) (hr : r.Replaces w j late e m r') : r'.Sound j T := by
  obtain ⟨response, k, f, g, g', b', -, -, hf, hg, hname, hwraps, -, -, hadds, hw⟩ := hr
  obtain ⟨t, ht, hendpoint, hfile, hlocal, his⟩ := h.exists_route hb he hm
  refine h.rewrite (f := { f with bindings := b' }.adjust m.localName fun _ => .function g')
    (h.path e.file f hf).1 (hadds.site.trans (h.path e.file f hf).2) ?_ hw
  have := (h.serves e.file f hf).replace (mem_routesTo.2 ⟨ht, hfile⟩) hadds (g := g')
  rw [hlocal, hendpoint, ← his.name] at this
  exact this hname hwraps

/-- Visiting a method keeps a run sound. -/
theorem visits {κ : Type} {w : Replacement κ} {late : κ → Schema → List String} (h : r.Sound j T)
    {b : Backbone} (hb : r.backbone = some b) {p : Endpoint × Method} (hp : p ∈ b.methods)
    (hr : r.Visits w j late p.1 p.2 r') : r'.Sound j T := by
  obtain ⟨he, hm⟩ := Backbone.mem_methods.1 hp
  rcases hr with ⟨rfl, -⟩ | hr
  · exact h
  · exact h.replaces hb he hm hr

/-- The steps that write endpoints take new routes. -/
theorem keptByEndpoints (r₀ : Run) :
    KeptByEndpoints j fun T ns r =>
      r.Sound j T ∧ r₀.Frame r ∧ ∀ n ∈ ns, j.document.parts.Leads n where
  files h hf := ⟨(h.1.path _ _ hf).1, (h.1.serves _ _ hf).tidy⟩
  declares := by
    intro T ns r r' path locals ⟨h, hframe, hns⟩ hw
    have ⟨hpath, hsite, hserves⟩ := h.openFile path Pass.backbone.path
    exact ⟨h.rewrite (f := bindNames (r.sources.openFile path Pass.backbone.path) locals) hpath hsite
      (hserves.bindNames locals) hw, hframe.trans hw.frame, hns⟩
  method := by
    intro T ns r r' names f f' t ⟨h, hframe, hns⟩ hf ht hopen _ ha hw
    refine ⟨?_, hframe.trans hw.frame,
      List.forall_mem_append.2 ⟨hns, fun n hn => (hopen n hn).leads⟩⟩
    have hserves := (h.serves _ f hf).addsMethod ht ha
    refine h.write (ha.place.1.trans (h.path _ f hf).1)
      (ha.place.2.trans (h.path _ f hf).2) (fun t' ht' => List.mem_singleton.1 ht' ▸ rfl) ?_ hw
    have : routesTo (T ++ [t]) t.file = routesTo T t.file ++ [t] := by simp [routesTo]
    rw [this]
    exact hserves

/-- The steps that write models take none. -/
theorem keptByModels (T : List Route) (r₀ : Run) :
    KeptByModels j fun _ _ r => r.Sound j T ∧ r₀.Frame r where
  model := by
    intro _ _ r r' component identifier names f' ⟨h, hframe⟩ _ _ _ _ _ _ ha hw
    have ⟨hpath, hsite, hserves⟩ := h.openFile (Naming.modelFile component) Pass.model.path
    refine ⟨?_, hframe.trans hw.frame⟩
    exact h.rewrite (ha.place.1.trans hpath) (ha.place.2.trans hsite) (hserves.addsModel ha) hw

end Run.Sound

/-- Whether a result was left. -/
def Run.has (r : Run) : Slot → Bool
  | .backbone => r.backbone.isSome
  | .models => r.models.isSome

namespace Pass

/-- The result that a pass leaves. -/
def fills : Pass → Option Slot
  | .backbone => some .backbone
  | .model => some .models
  | _ => none

/-- The result that a pass needs. -/
def reads : Pass → Option Slot
  | .transferTypes | .backbone => none
  | .model | .push | .signals => some .backbone
  | .subtypes => some .models

/-- The operations that a pass writes wrappers for, with their endpoints. -/
def calls (d : Document) : Pass → List (String × Call)
  | .backbone => Entries.spread (callsByEndpoint d)
  | _ => []

end Pass

/-- An error that a pass may fail with in a sound run: not on a reference, not for want of a
wrapper, and for want of a result only if the pass needs it and no pass left it. -/
structure PassError.Tame (p : Pass) (r : Run) (e : PassError) : Prop where
  reference : ∀ x, e ≠ .reference x
  function : ∀ name file, e ≠ .fault (.noFunction name file)
  slot : ∀ slot reader, e = .missingSlot slot reader → p.reads = some slot ∧ r.has slot = false

/-- A fault that is not the want of a wrapper is tame. -/
theorem tame_of_kind {p : Pass} {r : Run} {e : PassError}
    (h : ∀ x, e ≠ .reference x) (h' : ∀ name file, e ≠ .fault (.noFunction name file))
    (h'' : ∀ slot reader, e ≠ .missingSlot slot reader) : e.Tame p r :=
  ⟨h, h', fun slot reader he => absurd he (h'' slot reader)⟩

theorem tame_of_missing {p : Pass} {r : Run} {slot : Slot} (hp : p.reads = some slot)
    (hr : r.has slot = false) : (PassError.missingSlot slot p).Tame p r :=
  ⟨nofun, nofun, fun s reader he => by
    obtain ⟨rfl, -⟩ := PassError.missingSlot.inj he
    exact ⟨hp, hr⟩⟩

/-- What a pass does to a sound run. -/
structure Run.Advances (j : Job) (p : Pass) (T : List Route) (r r' : Run) : Prop where
  sound : ∃ T', r'.Sound j (T ++ T') ∧ T'.map (fun t => (t.endpoint, t.call)) = p.calls j.document
  has : ∀ slot, r.has slot = true ∨ p.fills = some slot → r'.has slot = true

variable {j : Job} (hv : j.document.Valid) {T : List Route} {r : Run}
include hv

omit hv in
theorem types_of_frame {r' : Run} (h : r.Frame r') (own : Option (String × String) := none) :
    j.types r' own = j.types r own := by
  rw [Job.types, Job.types, h.transfers]

omit hv in
theorem registerTargets_sound (h : r.Sound j T) :
    Ends (registerTargets j) r (fun _ r' => Run.Advances j .transferTypes T r r')
      fun e _ => e.Tame .transferTypes r := by
  unfold registerTargets
  dsimp only
  cases j.settings.transferTypes.find? (·.2.name.isEmpty) with
  | some e => exact tame_of_kind (e := .fault (.namelessTarget e.1)) nofun nofun nofun
  | none =>
    refine ⟨⟨[], ?_, rfl⟩, fun slot hs => ?_⟩
    · rw [List.append_nil]
      exact ⟨h.extension, h.keys, h.path, h.serves, h.held, h.follows, h.referenced, h.models⟩
    · cases slot <;> simpa [Run.has, Pass.fills] using hs

theorem writeBackbone_sound (h : r.Sound j T) :
    Ends (writeBackbone j) r (fun _ r' => Run.Advances j .backbone T r r')
      fun e _ => e.Tame .backbone r := by
  refine (writeBackbone_spec (Run.Sound.keptByEndpoints r) hv []
    ⟨h, .refl r, by simp⟩).mono ?_ ?_
  · rintro _ _ ⟨T', b, r₁, log, ns, ⟨h₁, hframe, hns⟩, rfl, hcalls, hfollows, hreferenced⟩
    have hleads : ∀ n ∈ b.referenced, j.document.parts.Leads n := fun n hn =>
      hns n (by simpa using (hreferenced n).1 hn)
    refine ⟨⟨T', h₁.found hfollows hleads log, hcalls⟩, ?_⟩
    · rintro (_ | _) hs
      · rfl
      · have : r.models.isSome = true := by simpa [Run.has, Pass.fills] using hs
        simpa [Run.has, hframe.models] using this
  · rintro e _ (⟨d, rfl⟩ | ⟨name, c, rfl⟩)
    · exact tame_of_kind nofun nofun nofun
    · exact tame_of_kind nofun nofun nofun

theorem writeModels_sound (h : r.Sound j T) :
    Ends (writeModels j) r (fun _ r' => Run.Advances j .model T r r')
      fun e _ => e.Tame .model r := by
  refine (writeModels_spec (Run.Sound.keptByModels T r) hv (fun _ _ _ h => h.2.transfers)
    (fun _ _ => ⟨h, .refl r⟩) h.referenced).mono ?_ ?_
  · rintro _ _ ⟨b, ms, r₁, log, ns, hb, ⟨h₁, hframe⟩, rfl, hlisted, -, -⟩
    refine ⟨⟨[], ?_, rfl⟩, ?_⟩
    · rw [List.append_nil]
      exact h₁.listed hlisted log
    · rintro (_ | _) hs
      · simp [Run.has, hframe.backbone, hb]
      · rfl
  · rintro e _ (⟨hb, rfl⟩ | ⟨owner, component, file, rfl⟩)
    · exact tame_of_missing rfl (by simp [Run.has, hb])
    · exact tame_of_kind nofun nofun nofun

omit hv in
/-- A pass that changes nothing but files. -/
theorem advances_of_frame {p : Pass} {r' : Run} (hp : p.fills = none) (hc : p.calls j.document = [])
    (h : r'.Sound j T) (hf : r.Frame r') : Run.Advances j p T r r' := by
  refine ⟨⟨[], by simpa using h, hc.symm⟩, ?_⟩
  rintro (_ | _) hs
  · simpa [Run.has, hf.backbone, hp] using hs
  · simpa [Run.has, hf.models, hp] using hs

/-- **The pass over polymorphic bases keeps** what its changes keep in a sound run. -/
theorem flattenUnions_keeps {I : Run → Prop} (h : r.Sound j T)
    (edit : ∀ ms r₁ r₂, r.models = some ms → r₁.Sound j T → r.Frame r₁ → I r₁ →
      r₁.Edits j ms r₂ → I r₂)
    (log : ∀ r log, I r → I { r with log }) (hI : I r) :
    Ends (flattenUnions j) r (fun _ r' => r'.Sound j T ∧ r.Frame r' ∧ I r')
      fun e _ => e.Tame .subtypes r := by
  refine (flattenUnions_spec hv (I := fun r' => r'.Sound j T ∧ r.Frame r' ∧ I r') ?_ ?_
    (fun ms hms => (h.models ms hms).leads) ⟨h, .refl r, hI⟩).mono (fun _ _ h => h) ?_
  · rintro ms r₁ r₂ hms ⟨h₁, hf, hI⟩ he
    exact ⟨h₁.edits he, hf.trans he.frame, edit ms r₁ r₂ hms h₁ hf hI he⟩
  · exact fun r' l ⟨h', hf, hI⟩ => ⟨h'.log l, hf.trans ⟨rfl, rfl, rfl, rfl⟩, log r' l hI⟩
  · rintro e _ ⟨hm, rfl⟩
    exact tame_of_missing rfl (by simp [Run.has, hm])

omit hv in
/-- **A pass that replaces wrappers finds them all.**  It visits the methods one after another, and keeps
in a sound run what a visit does to the methods that were visited. -/
theorem replacement_visits {κ : Type} {w : Replacement κ} {late : κ → Schema → List String}
    {I : List (Endpoint × Method) → Run → Prop} (hw : w.Lawful (j.types r) late)
    (hreads : w.pass.reads = some .backbone) (h : r.Sound j T)
    (visit : ∀ b done p rest r₁ r₂, r.backbone = some b → b.methods = done ++ p :: rest →
      r₁.Sound j T → r.Frame r₁ → I done r₁ → r₁.Visits w j late p.1 p.2 r₂ → I (done ++ [p]) r₂)
    (log : ∀ done r log, I done r → I done { r with log }) (hI : I [] r) :
    Ends (w.run j) r
      (fun _ r' => r'.Sound j T ∧ r.Frame r' ∧ ∃ b, r.backbone = some b ∧ I b.methods r')
      fun e _ => e.Tame w.pass r := by
  have hlawful : ∀ done r', r'.Sound j T ∧ r.Frame r' ∧ I done r' → w.Lawful (j.types r') late :=
    fun done r' h' => types_of_frame (j := j) h'.2.1 ▸ hw
  refine (Replacement.run_spec (I := fun done r' => r'.Sound j T ∧ r.Frame r' ∧ I done r') ?_ ?_
    hlawful ?_ ⟨h, .refl r, hI⟩).mono (fun _ _ ⟨b, hb, h, hf, hI⟩ => ⟨h, hf, b, hb, hI⟩) ?_
  · rintro b done p rest r₁ r₂ hb hsplit ⟨h₁, hf, hI⟩ hr
    have hp : p ∈ b.methods := hsplit ▸ List.mem_append_right _ List.mem_cons_self
    exact ⟨h₁.visits (hf.backbone.trans hb) hp hr, hf.trans hr.frame,
      visit b done p rest r₁ r₂ hb hsplit h₁ hf hI hr⟩
  · exact fun done r' l ⟨h', hf, hI⟩ =>
      ⟨h'.log l, hf.trans ⟨rfl, rfl, rfl, rfl⟩, log done r' l hI⟩
  · intro b hb e he m hm
    obtain ⟨T', -, -, hfollows⟩ := h.exists_routes hb he
    exact hfollows.closed m hm
  · rintro err _ (⟨hb, rfl⟩ | ⟨b, done, r₁, e, m, f, hb, he, hm, ⟨h₁, hf, -⟩, hfile, hno, -⟩)
    · exact tame_of_missing hreads (by simp [Run.has, hb])
    · obtain ⟨g, hg⟩ := h₁.exists_wrapper (hf.backbone.trans hb) he hm hfile
      exact absurd hg (hno g)

omit hv in
/-- What replacing wrappers keeps in a sound run, a pass that replaces them keeps. -/
theorem replacement_keeps {κ : Type} {w : Replacement κ} {late : κ → Schema → List String}
    {I : Run → Prop} (hw : w.Lawful (j.types r) late) (hreads : w.pass.reads = some .backbone)
    (h : r.Sound j T)
    (replaces : ∀ b e m r₁ r₂, r.backbone = some b → e ∈ b.endpoints → m ∈ e.methods →
      r₁.Sound j T → r.Frame r₁ → I r₁ → r₁.Replaces w j late e m r₂ → I r₂)
    (log : ∀ r log, I r → I { r with log }) (hI : I r) :
    Ends (w.run j) r (fun _ r' => r'.Sound j T ∧ r.Frame r' ∧ I r')
      fun e _ => e.Tame w.pass r := by
  refine (replacement_visits (I := fun _ => I) hw hreads h ?_ (fun _ => log) hI).imp
    fun _ _ ⟨h', hf, _, _, hI⟩ => ⟨h', hf, hI⟩
  rintro b done p rest r₁ r₂ hb hsplit h₁ hf hI (⟨rfl, -⟩ | hr)
  · exact hI
  · have hp : p ∈ b.methods := hsplit ▸ List.mem_append_right _ List.mem_cons_self
    obtain ⟨he, hm⟩ := Backbone.mem_methods.1 hp
    exact replaces b p.1 p.2 r₁ r₂ hb he hm h₁ hf hI hr

/-- **The passes over unions, subscriptions and signals** change declarations in place: what these
changes keep, the passes keep, and they leave all else of a sound run alone. -/
theorem execute_keeps {I : Run → Prop} {p : Pass} (hp : p = .subtypes ∨ p = .push ∨ p = .signals)
    (h : r.Sound j T)
    (edit : ∀ ms r₁ r₂, r.models = some ms → r₁.Sound j T → r.Frame r₁ → I r₁ →
      r₁.Edits j ms r₂ → I r₂)
    (replaces : ∀ {κ : Type} {w : Replacement κ} {late : κ → Schema → List String} b e m r₁ r₂,
      r.backbone = some b → e ∈ b.endpoints → m ∈ e.methods → r₁.Sound j T → r.Frame r₁ → I r₁ →
      r₁.Replaces w j late e m r₂ → I r₂)
    (log : ∀ r log, I r → I { r with log }) (hI : I r) :
    Ends (p.execute j) r (fun _ r' => r'.Sound j T ∧ r.Frame r' ∧ I r') fun e _ => e.Tame p r := by
  rcases hp with rfl | rfl | rfl
  · exact flattenUnions_keeps hv h edit log hI
  · exact replacement_keeps (subscriptions_lawful j.settings.pushClasses (j.types r)) rfl h replaces
      log hI
  · have hdo : Pass.execute j .signals =
      (get >>= fun r => (signalConstructions r.models).run j : Action Unit) := rfl
    rw [hdo, ends_bind, ends_get]
    exact replacement_keeps (signalConstructions_lawful h.plain (j.types r)) rfl h replaces log hI

/-- **Every pass keeps a run sound.**  It may fail, but not on a reference, not for want of a wrapper,
and for want of a result only if no pass before it left the result. -/
theorem execute_sound (p : Pass) (h : r.Sound j T) :
    Ends (p.execute j) r (fun _ r' => Run.Advances j p T r r') fun e _ => e.Tame p r := by
  have late (hp : p = .subtypes ∨ p = .push ∨ p = .signals) (hfills : p.fills = none)
      (hcalls : p.calls j.document = []) :
      Ends (p.execute j) r (fun _ r' => Run.Advances j p T r r') fun e _ => e.Tame p r :=
    (execute_keeps (I := fun _ => True) hv hp h (by simp) (by simp) (by simp) trivial).imp
      fun _ _ ⟨h', hf, _⟩ => advances_of_frame hfills hcalls h' hf
  cases p with
  | transferTypes => exact registerTargets_sound h
  | backbone => exact writeBackbone_sound hv h
  | model => exact writeModels_sound hv h
  | subtypes => exact late (.inl rfl) rfl rfl
  | push => exact late (.inr (.inl rfl)) rfl rfl
  | signals => exact late (.inr (.inr rfl)) rfl rfl

/-- **A run of any passes stays sound**, and takes a route for each operation whenever the pass that
writes endpoints comes.  If it fails, the pass that does so fails tamely, after the passes before it
have left their results. -/
theorem executeAll_sound (passes : List Pass) (h : r.Sound j T) :
    Ends (executeAll j passes) r
      (fun _ r' => ∃ T', r'.Sound j (T ++ T') ∧
        T'.map (fun t => (t.endpoint, t.call)) = passes.flatMap (·.calls j.document))
      (fun pe _ => ∃ done rest r₁, passes = done ++ pe.1 :: rest ∧ pe.2.Tame pe.1 r₁ ∧
        ∀ slot, (∃ q ∈ done, q.fills = some slot) → r₁.has slot = true) := by
  refine (ends_forM (fun done r' => (∃ T', r'.Sound j (T ++ T') ∧
      T'.map (fun t => (t.endpoint, t.call)) = done.flatMap (·.calls j.document)) ∧
    ∀ slot, (∃ q ∈ done, q.fills = some slot) → r'.has slot = true)
      ⟨⟨[], by simpa using h, rfl⟩, by simp⟩ ?_).imp fun _ _ h => h.1
  rintro done p rest r₁ hd ⟨⟨T₁, h₁, hT₁⟩, hhas⟩
  rw [ends_bind, ends_modify, ends_adapt]
  refine (execute_sound hv p (h₁.log _)).mono ?_ ?_
  · rintro _ r₂ ⟨⟨T₂, h₂, hT₂⟩, hhas'⟩
    refine ⟨⟨T₁ ++ T₂, by simpa using h₂, by simp [hT₁, hT₂]⟩, fun slot hs => hhas' slot ?_⟩
    obtain ⟨q, hq, hfills⟩ := hs
    rcases List.mem_append.1 hq with hq | hq
    · have := hhas slot ⟨q, hq, hfills⟩
      exact .inl (by cases slot <;> exact this)
    · exact .inr (List.mem_singleton.1 hq ▸ hfills)
  · intro e _ he
    refine ⟨done, rest, _, hd.symm, he, fun slot hs => ?_⟩
    have := hhas slot hs
    cases slot <;> exact this

omit hv in
/-- Passes are executed after others. -/
theorem executeAll_append (before after : List Pass) :
    executeAll j (before ++ after) = (executeAll j before >>= fun _ => executeAll j after) :=
  List.forM_append

/-- A pass is executed after others. -/
theorem executeAll_snoc {before : List Pass} {p : Pass} {Q : Run → Prop} (h : r.Sound j T)
    (hp : ∀ T' r', r'.Sound j (T ++ T') →
      T'.map (fun t => (t.endpoint, t.call)) = before.flatMap (·.calls j.document) →
      Ends (p.execute j) r' (fun _ => Q) fun _ _ => True) :
    Ends (executeAll j (before ++ [p])) r (fun _ => Q) fun _ _ => True := by
  rw [executeAll_append, ends_bind]
  refine (executeAll_sound hv before h).mono ?_ fun _ _ _ => trivial
  rintro _ r₁ ⟨T₁, h₁, hcalls⟩
  have hdo : executeAll j [p] = ((do
    modify fun r => { r with
      log := r.log ++ [⟨.debug, "tsgen_core::generator", "executing plugin " ++ p.path⟩] }
    (p.execute j).adapt (p, ·)) >>= fun _ => pure ⟨⟩) := rfl
  rw [hdo, ends_bind, ends_bind, ends_modify, ends_adapt]
  exact hp T₁ _ (h₁.log _) hcalls

/-- A pass is executed, and the others after it. -/
theorem executeAll_cons {p : Pass} {ps : List Pass} {P Q : Run → Prop}
    (hs : r.Sound j T)
    (hp : ∀ log, Ends (p.execute j) { r with log } (fun _ r' => P r') fun _ _ => True)
    (hps : ∀ T' r', r'.Sound j T' → P r' → Ends (executeAll j ps) r' (fun _ => Q) fun _ _ => True) :
    Ends (executeAll j (p :: ps)) r (fun _ => Q) fun _ _ => True := by
  change Ends (do
    (modify fun r => { r with
      log := r.log ++ [⟨.debug, "tsgen_core::generator", "executing plugin " ++ p.path⟩] })
    (p.execute j).adapt (p, ·)
    executeAll j ps) r _ _
  rw [ends_bind, ends_modify, ends_bind, ends_adapt]
  refine ((execute_sound hv p (hs.log _)).and (hp _)).mono ?_ fun _ _ _ => trivial
  rintro _ r' ⟨⟨⟨T', hs', -⟩, -⟩, hP⟩
  exact hps _ r' hs' hP

end Client
end OpenApiClient
