/-
# Which defaults files import and export

A run *accounts* for its files when every default import of a file is of a module that the file may
import, and the files with a default export are known. What a file may import grows from pass to
pass: the client and the components that types named at first, then what unions, subscriptions and
signals name. Only models are exported as defaults, each from its own file, and no pass after the one
that writes models changes that.
-/

import OpenApiClient.Proofs.Generation

namespace OpenApiClient

namespace Module
namespace Bindings

/-- The default imports are of the modules `A`. -/
def ImportsFrom (A : String → Prop) (b : Bindings) : Prop :=
  ∀ sp, b.imports.defaultName? sp ≠ none → ∃ m, A m ∧ b.site.specifier m = sp

variable {A A' : String → Prop} {b b' : Bindings} {ms : List String}

theorem ImportsFrom.mono (h : b.ImportsFrom A) (hA : ∀ m, A m → A' m) : b.ImportsFrom A' :=
  fun sp hs => (h sp hs).imp fun m hm => hm.imp_left (hA m)

theorem ImportsFrom.adds (h : b.ImportsFrom A) (ha : Adds ms b b') (hms : ∀ m ∈ ms, A m) :
    b'.ImportsFrom A := by
  intro sp hs
  rw [ha.site]
  rcases ha.new sp hs with hs | ⟨m, hm, hs⟩
  · exact h sp hs
  · exact ⟨m, hms m hm, hs⟩

end Bindings
end Module

namespace Client

open OpenApi OpenApiClient.Module

/-- The default imports of the file at a path are of the modules `A path`, and the files with a
default export are those at the paths `D`. -/
structure Run.Accounts (A : String → String → Prop) (D : String → Prop) (r : Run) : Prop where
  path : ∀ path f, r.sources.at? path = some f → f.path = path
  imports : ∀ path f, r.sources.at? path = some f → f.bindings.ImportsFrom (A path)
  exports : ∀ path f, r.sources.at? path = some f →
    (f.bindings.exports.default.isSome ↔ D path)
  held : ∀ path, D path → ∃ f, r.sources.at? path = some f

namespace Run.Accounts

variable {A A' : String → String → Prop} {D D' : String → Prop} {r r' : Run}

theorem start (A : String → String → Prop) (s : Settings) : (Run.start s).Accounts A fun _ => False :=
  ⟨nofun, nofun, nofun, nofun⟩

/-- Only the files of a run matter. -/
theorem congr (h : r.Accounts A D) (hs : r'.sources = r.sources) : r'.Accounts A D :=
  ⟨hs ▸ h.path, hs ▸ h.imports, hs ▸ h.exports, hs ▸ h.held⟩

theorem mono (h : r.Accounts A D) (hA : ∀ path m, A path m → A' path m) : r.Accounts A' D :=
  { h with imports := fun path f hf => (h.imports path f hf).mono (hA path) }

/-- What is known of the file that is opened. -/
theorem openFile (h : r.Accounts A D) (path origin : String) :
    (r.sources.openFile path origin).path = path ∧
      (r.sources.openFile path origin).bindings.ImportsFrom (A path) ∧
        ((r.sources.openFile path origin).bindings.exports.default.isSome ↔ D path) := by
  cases hf : r.sources.at? path with
  | some f =>
    rw [Sources.openFile_of_at? _ hf]
    exact ⟨h.path path f hf, h.imports path f hf, h.exports path f hf⟩
  | none =>
    rw [Sources.openFile, hf]
    refine ⟨rfl, fun sp hs => absurd rfl hs, ⟨fun hd => Bool.noConfusion hd, fun hd => ?_⟩⟩
    obtain ⟨f, hf'⟩ := h.held path hd
    rw [hf] at hf'
    cases hf'

/-- **A file is written**; the other files stay as they were. -/
theorem write (h : r.Accounts A D) {f : File} (hi : f.bindings.ImportsFrom (A f.path))
    (he : f.bindings.exports.default.isSome ↔ D' f.path) (hD : ∀ path ≠ f.path, D' path ↔ D path)
    (hw : r.Writes f r') : r'.Accounts A D' := by
  obtain ⟨log, rfl⟩ := hw
  have hat : ∀ p g, (r.sources.put f).at? p = some g → (p = f.path ∧ g = f) ∨
      (p ≠ f.path ∧ r.sources.at? p = some g) := by
    intro p g hg
    rw [Sources.at?_put] at hg
    split at hg
    · next hp => exact .inl ⟨hp, (Option.some.inj hg).symm⟩
    · next hp => exact .inr ⟨hp, hg⟩
  refine ⟨fun p g hg => ?_, fun p g hg => ?_, fun p g hg => ?_, fun p hp => ?_⟩
  · rcases hat p g hg with ⟨rfl, rfl⟩ | ⟨-, hg⟩
    · rfl
    · exact h.path p g hg
  · rcases hat p g hg with ⟨rfl, rfl⟩ | ⟨-, hg⟩
    · exact hi
    · exact h.imports p g hg
  · rcases hat p g hg with ⟨rfl, rfl⟩ | ⟨hp, hg⟩
    · exact he
    · exact (h.exports p g hg).trans (hD p hp).symm
  · by_cases hpath : p = f.path
    · exact ⟨f, (Sources.at?_put ..).trans (if_pos hpath)⟩
    · obtain ⟨g, hg⟩ := h.held p ((hD p hpath).1 hp)
      exact ⟨g, (Sources.at?_put ..).trans ((if_neg hpath).trans hg)⟩

/-- A file with another declaration and more imports is written. -/
theorem adjust (h : r.Accounts A D) {path name : String} {f : File} {b : Bindings}
    {change : TypeScript.Declaration → TypeScript.Declaration} {ms : List String}
    (hf : r.sources.at? path = some f) (hadds : Bindings.Adds ms f.bindings b)
    (hms : ∀ m ∈ ms, A path m) (hw : r.Writes ({ f with bindings := b }.adjust name change) r') :
    r'.Accounts A D := by
  have hp : f.path = path := h.path path f hf
  have himports : b.ImportsFrom (A f.path) :=
    hp ▸ (h.imports path f hf).adds hadds hms
  refine h.write himports ?_ (fun _ _ => Iff.rfl) hw
  change b.exports.default.isSome ↔ D f.path
  rw [hp, hadds.exports]
  exact h.exports path f hf

theorem edits (h : r.Accounts A D) {j : Job} {models : Entries Model}
    (hleaf : ∀ path m, leafModule j r.transfers models path m → A path m) (he : r.Edits j models r') :
    r'.Accounts A D := by
  obtain ⟨component, m, f, name, change, b, ns, hm, hf, -, -, hns, hadds, hw⟩ := he
  refine h.adjust hf hadds (fun module hmodule => ?_) hw
  obtain ⟨n, hn, rfl⟩ := List.mem_map.1 hmodule
  exact hleaf _ _ ⟨component, m, n, hm, rfl, hns n hn, rfl⟩

theorem replaces {κ : Type} {w : Replacement κ} {j : Job} {late : κ → Schema → List String}
    {e : Endpoint} {m : Method} (h : r.Accounts A D)
    (hclient : ∀ path, A path j.settings.conventions.clientModule)
    (hlate : ∀ response k, m.response = some response → w.select response = .ok (some k) →
      ∀ n ∈ late k response, A e.file (Naming.modelModule n))
    (hr : r.Replaces w j late e m r') : r'.Accounts A D := by
  obtain ⟨response, k, f, g, g', b, hresponse, hk, hf, -, -, -, -, -, hadds, hw⟩ := hr
  refine h.adjust hf hadds (fun module hm => ?_) hw
  rcases List.mem_append.1 hm with hm | hm
  · obtain ⟨n, hn, rfl⟩ := List.mem_map.1 hm
    exact hlate response k hresponse hk n hn
  · exact List.mem_singleton.1 hm ▸ hclient e.file

end Run.Accounts

/-- The modules of the client and of components. -/
def allowed (v : Conventions) (ns : List String) (module : String) : Prop :=
  module = v.clientModule ∨ ∃ n ∈ ns, module = Naming.modelModule n

theorem allowed_append_left {v : Conventions} {ns : List String} (ns' : List String) {m : String}
    (h : allowed v ns m) : allowed v (ns ++ ns') m :=
  h.imp_right fun ⟨n, hn, hm⟩ => ⟨n, List.mem_append_left _ hn, hm⟩

/-- Modules of components that were named lately are allowed. -/
theorem allowed_of_mem_map {v : Conventions} (ns : List String) {names : List String} {m : String}
    (h : m ∈ names.map Naming.modelModule) : allowed v (ns ++ names) m := by
  obtain ⟨n, hn, rfl⟩ := List.mem_map.1 h
  exact .inr ⟨n, List.mem_append_right _ hn, rfl⟩

variable {j : Job} (r₀ : Run)

/-- The steps that write endpoints import the client and the components that types name. -/
theorem keptByEndpoints_accounts {I : List Route → List String → Run → Prop}
    (hI : KeptByEndpoints j I) (htransfers : ∀ T ns r, I T ns r → r.transfers = r₀.transfers) :
    KeptByEndpoints j fun T ns r => I T ns r ∧
      r.Accounts (fun _ => allowed j.settings.conventions ns) (fun _ => False) ∧
        ∀ n ∈ ns, r₀.transfers.has n = false where
  files h hf := hI.files h.1 hf
  declares := by
    intro T ns r r' path locals ⟨h, ha, hns⟩ hw
    refine ⟨hI.declares h hw, ?_, hns⟩
    have ⟨hpath, himports, hexports⟩ := ha.openFile path Pass.backbone.path
    exact ha.write (f := bindNames (r.sources.openFile path Pass.backbone.path) locals) himports
      hexports (fun _ _ => Iff.rfl) hw
  method := by
    intro T ns r r' names f f' t ⟨h, ha, hns⟩ hf ht hopen hhas hadd hw
    refine ⟨hI.method h hf ht hopen hhas hadd hw, ?_, fun n hn => ?_⟩
    · obtain ⟨g, b, exports, -, -, -, -, hadds, hexports, rfl⟩ := hadd
      have ha' := ha.mono fun _ m hm => allowed_append_left names hm
      refine ha'.write ?_ ?_ (fun _ _ => Iff.rfl) hw
      · have himports : b.ImportsFrom (allowed j.settings.conventions (ns ++ names)) := by
          refine (ha'.imports _ f hf).adds hadds fun m hm => ?_
          rcases List.mem_append.1 hm with hm | hm
          · exact allowed_of_mem_map ns hm
          · exact .inl (List.mem_singleton.1 hm)
        exact himports
      · have hdefault : exports.default = f.bindings.exports.default := by
          unfold Exports.add at hexports
          split at hexports
          · exact Except.ok.inj hexports ▸ rfl
          · split at hexports
            · exact Except.ok.inj hexports ▸ rfl
            · cases hexports
        change exports.default.isSome = true ↔ False
        rw [hdefault]
        exact ha'.exports _ f hf
    · rcases List.mem_append.1 hn with hn | hn
      · exact hns n hn
      · have := (hopen n hn).free
        rwa [← htransfers T ns r h]

/-- The steps that write models import what their declarations name, and export each model. -/
theorem keptByModels_accounts {I : Entries String → List String → Run → Prop} (hI : KeptByModels j I)
    (htransfers : ∀ cs ns r, I cs ns r → r.transfers = r₀.transfers) :
    KeptByModels j fun cs ns r => I cs ns r ∧
      r.Accounts (fun _ => allowed j.settings.conventions ns) (· ∈ cs.keys.map Naming.modelFile) ∧
        ∀ n ∈ ns, r₀.transfers.has n = false where
  model := by
    intro cs ns r r' component identifier names f' ⟨h, ha, hns⟩ hleads hn ht hk hfile hopen hadd hw
    refine ⟨hI.model h hleads hn ht hk hfile hopen hadd hw, ?_, fun n hn => ?_⟩
    · have ha' := ha.mono fun _ m hm => allowed_append_left names hm
      obtain ⟨hpath, himports, -⟩ := ha'.openFile (Naming.modelFile component) Pass.model.path
      have hpath' := hadd.place.1.trans hpath
      obtain ⟨form, d, b, -, -, -, -, hadds, rfl⟩ := hadd
      refine ha'.write ?_ ?_ (fun p hp => ?_) hw
      · have hb : b.ImportsFrom (allowed j.settings.conventions (ns ++ names)) := by
          refine Bindings.ImportsFrom.adds ?_ hadds fun m hm => allowed_of_mem_map ns hm
          exact himports
        exact hb
      · rw [hpath']
        simp [Bindings.exportDefault, Exports.setDefault, Entries.keys]
      · rw [hpath'] at hp
        simp [hp, Entries.keys]
    · rcases List.mem_append.1 hn with hn | hn
      · exact hns n hn
      · have := (hopen n hn).free
        rwa [← htransfers cs ns r h]

end Client
end OpenApiClient
