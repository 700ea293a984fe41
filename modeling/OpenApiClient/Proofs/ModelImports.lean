/-
# Imports of models lead somewhere

A file that imports the model of a component should find it: the specifier leads to a file that is
written and has a default export. The passes that write endpoints and models see to it, because what
their types name is written as a model. The passes after them tell types again and name components that
no model may have been written for: the leaves of unions, what is streamed, and what a signal holds.
`imports_resolve_iff` says that these are the only imports that may lead nowhere, together with those
of a client whose module takes the place of a component's, and those whose way ends with the extension
already; and that they lead somewhere exactly if they lead to a model.

`not_imports_resolve` is a document for which one leads nowhere.
-/

import OpenApiClient.Proofs.Defaults
import OpenApiClient.Proofs.Specifiers

namespace OpenApiClient
namespace Client

open OpenApi OpenApiClient.Module

section Statements

/-- The file has the statement that imports the model of a component. -/
def importsModel (f : File) (component : String) : Prop :=
  let specifier := f.bindings.site.specifier (Naming.modelModule component)
  ((f.bindings.imports.ofModule specifier).defaultLine? (TypeScript.quote specifier) f.used).isSome

instance (f : File) (component : String) : Decidable (importsModel f component) :=
  inferInstanceAs (Decidable (_ = true))

/-- The directory of a file below the output root. -/
def directoryOf (path : String) : List String := (Site.ofFile path "").directory

/-- From the directory of the file, the specifier of the model of a component leads to a path, which
has another ending in place of the extension. -/
def resolvesTo (extension : String) (f : File) (component path : String) : Prop :=
  ∃ stem, path = stem ++ ".ts" ∧
    walk (directoryOf f.path) (f.bindings.site.specifier (Naming.modelModule component)) =
      walk [] (stem ++ extension)

/-- Every import of the model of a component leads to one of the files, which has a default export. -/
def ImportsResolve (extension : String) (c : Components) (files : List File) : Prop :=
  ∀ f ∈ files, ∀ component ∈ c.schemas.keys, importsModel f component →
    ∃ g ∈ files, resolvesTo extension f component g.path ∧ g.bindings.exports.default.isSome

end Statements

section Late

variable (j : Job) (transfers : Entries TransferTarget) (b : Backbone) (ms : Entries Model)

/-- The modules that replaced wrappers of the endpoints in a file name. -/
def replacedModule {κ : Type} (w : Replacement κ) (late : κ → Schema → List String)
    (path module : String) : Prop :=
  ∃ e ∈ b.endpoints, ∃ m ∈ e.methods, ∃ response k n, e.file = path ∧ m.response = some response ∧
    w.select response = .ok (some k) ∧ n ∈ late k response ∧ module = Naming.modelModule n

/-- The modules of components that are named in a file after the models were written: by a union, a
subscription or a signal. -/
def lateModule (path module : String) : Prop :=
  let c : TypeContext := ⟨j.document.parts, transfers, none⟩
  leafModule j transfers ms path module ∨
    replacedModule b (subscriptions j.settings.pushClasses) (fun _ => streamedNames c) path module ∨
    replacedModule b (signalConstructions (some ms)) (signalNames c) path module

/-- The modules of which a file may import the default. -/
def importable (path module : String) : Prop :=
  allowed j.settings.conventions ms.keys module ∨ lateModule j transfers b ms path module

/-- The import of the model of a component is made for the sake of another module than that of a model
that was written when its type was told, or its specifier lacks the extension. -/
def suspect (f : File) (component : String) : Prop :=
  ∃ module, f.bindings.site.specifier module =
      f.bindings.site.specifier (Naming.modelModule component) ∧
    (module = j.settings.conventions.clientModule ∨
      lateModule j transfers b ms f.path module ∨
      ∃ k ∈ ms.keys, f.bindings.site.Omits k ∧ module = Naming.modelModule k)

/-- The run has left its endpoints and models, and accounts for its files. -/
structure Run.Settled (r : Run) : Prop where
  backbone : r.backbone = some b
  models : r.models = some ms
  targets : r.transfers = transfers
  accounts : r.Accounts (importable j transfers b ms) (· ∈ ms.keys.map Naming.modelFile)

end Late

section Passes

variable {j : Job} {T : List Route} {r : Run} {A : String → String → Prop} {D : String → Prop}

theorem registerTargets_accounts (h : r.Accounts A D) :
    Ends (registerTargets j) r (fun _ r' => r'.Accounts A D) fun _ _ => True := by
  unfold registerTargets
  dsimp only
  cases j.settings.transferTypes.find? (·.2.name.isEmpty) with
  | some e => exact trivial
  | none => exact h.congr rfl

variable (hv : j.document.Valid)
include hv

/-- **The pass that writes endpoints** imports nothing but the client and what it notes. -/
theorem writeBackbone_accounts (hs : r.Sound j T)
    (h : r.Accounts (fun _ => allowed j.settings.conventions []) fun _ => False) :
    Ends (writeBackbone j) r
      (fun _ r' => ∃ b, r'.backbone = some b ∧
        r'.Accounts (fun _ => allowed j.settings.conventions b.referenced) (fun _ => False) ∧
        ∀ n ∈ b.referenced, r'.transfers.has n = false)
      fun _ _ => True := by
  have hkept := keptByEndpoints_accounts r (Run.Sound.keptByEndpoints (j := j) r)
    fun T ns r' h => h.2.1.transfers
  have hspec := writeBackbone_spec hkept hv (T := T) [] ⟨⟨hs, .refl r, by simp⟩, h, by simp⟩
  refine hspec.mono ?_ fun _ _ _ => trivial
  rintro _ _ ⟨T', b, r₁, log, ns, ⟨⟨-, hframe, -⟩, haccounts, hfree⟩, rfl, -, -, hmem⟩
  refine ⟨b, rfl, (haccounts.mono fun _ m hm => ?_).congr rfl, fun n hn => ?_⟩
  · exact hm.imp_right fun ⟨n, hn, hm⟩ => ⟨n, (hmem n).2 hn, hm⟩
  · rw [show r₁.transfers = r.transfers from hframe.transfers]
    exact hfree n ((hmem n).1 hn)

/-- **The pass that writes models** leaves a model for everything that was imported so far. -/
theorem writeModels_accounts (hs : r.Sound j T) {b : Backbone} (hb : r.backbone = some b)
    (h : r.Accounts (fun _ => allowed j.settings.conventions b.referenced) fun _ => False)
    (hfree : ∀ n ∈ b.referenced, r.transfers.has n = false) :
    Ends (writeModels j) r (fun _ r' => ∃ ms, r'.Settled j r'.transfers b ms) fun _ _ => True := by
  have hkept := keptByModels_accounts r (Run.Sound.keptByModels (j := j) T r)
    fun cs ns r' h => h.2.transfers
  have hspec := writeModels_spec hkept hv (fun _ _ _ h => h.1.2.transfers)
    (fun b' hb' => by
      obtain rfl := Option.some.inj (hb.symm.trans hb')
      exact ⟨⟨hs, .refl r⟩, by simpa [Entries.keys] using h, hfree⟩) hs.referenced
  refine hspec.mono ?_ fun _ _ _ => trivial
  rintro _ _ ⟨b', ms, r₁, log, ns, hb', ⟨⟨-, hframe⟩, haccounts, hfree'⟩, rfl, -, -, hall⟩
  obtain rfl := Option.some.inj (hb.symm.trans hb')
  rw [keys_identifiersOf] at haccounts
  refine ⟨ms, hframe.backbone.trans hb, rfl, rfl, (haccounts.mono fun _ m hm => ?_).congr rfl⟩
  refine .inl (hm.imp_right fun hneeded => ?_)
  obtain ⟨n, hn, hm⟩ := hneeded
  refine ⟨n, ?_, hm⟩
  have : ms.has n = true := (hall n hn).resolve_right (by simp [hfree' n hn])
  exact Entries.has_iff.1 this

variable {transfers : Entries TransferTarget} {b : Backbone} {ms : Entries Model}

omit hv in
theorem Run.Settled.congr {r' : Run} (h : r.Settled j transfers b ms) (hf : r.Frame r')
    (ha : r'.Accounts (importable j transfers b ms) (· ∈ ms.keys.map Naming.modelFile)) :
    r'.Settled j transfers b ms :=
  ⟨hf.backbone.trans h.backbone, hf.models.trans h.models, hf.transfers.trans h.targets, ha⟩

omit hv in
theorem Run.Settled.log (h : r.Settled j transfers b ms) (log : List LogLine) :
    Run.Settled j transfers b ms { r with log } :=
  ⟨h.backbone, h.models, h.targets, h.accounts.congr rfl⟩

theorem flattenUnions_accounts (hs : r.Sound j T) (h : r.Settled j transfers b ms) :
    Ends (flattenUnions j) r (fun _ r' => r'.Settled j transfers b ms) fun _ _ => True := by
  refine (flattenUnions_keeps hv hs (I := fun r' => r'.Settled j transfers b ms) ?_
    (fun r' log h' => h'.log log) h).mono (fun _ _ h => h.2.2) fun _ _ _ => trivial
  intro ms' r₁ r₂ hms _ _ h₁ he
  obtain rfl := Option.some.inj (h.models.symm.trans hms)
  refine h₁.congr he.frame (h₁.accounts.edits (fun path m hm => ?_) he)
  rw [h₁.targets] at hm
  exact .inr (.inl hm)

omit hv in
/-- **A pass that replaces wrappers** imports the client and what its results name. -/
theorem replacement_accounts {κ : Type} {w : Replacement κ} {late : κ → Schema → List String}
    (hw : w.Lawful ⟨j.document.parts, transfers, none⟩ late)
    (hreads : w.pass.reads = some .backbone)
    (hlate : ∀ path module, replacedModule b w late path module →
      lateModule j transfers b ms path module)
    (hs : r.Sound j T) (h : r.Settled j transfers b ms) :
    Ends (w.run j) r (fun _ r' => r'.Settled j transfers b ms) fun _ _ => True := by
  have hlawful : w.Lawful (j.types r) late := by
    rw [Job.types, h.targets]
    exact hw
  refine (replacement_keeps (I := fun r' => r'.Settled j transfers b ms) hlawful hreads hs ?_
    (fun r' log h' => h'.log log) h).mono (fun _ _ h => h.2.2) fun _ _ _ => trivial
  intro b' e m r₁ r₂ hb he hm _ _ h₁ hr
  obtain rfl := Option.some.inj (h.backbone.symm.trans hb)
  refine h₁.congr hr.frame (h₁.accounts.replaces (fun _ => .inl (.inl rfl)) ?_ hr)
  exact fun response k hresponse hk n hn =>
    .inr (hlate _ _ ⟨e, he, m, hm, response, k, n, rfl, hresponse, hk, hn, rfl⟩)

end Passes

section Runs

variable {j : Job}

/-- The pass that constructs signals, which reads the models that were written. -/
theorem constructSignals_accounts {T : List Route} {r : Run} {transfers : Entries TransferTarget}
    {b : Backbone} {ms : Entries Model} (hs : r.Sound j T) (h : r.Settled j transfers b ms) :
    Ends (Pass.execute j .signals) r (fun _ r' => r'.Settled j transfers b ms) fun _ _ => True := by
  have hlate : ∀ path module, replacedModule b (signalConstructions r.models)
      (signalNames ⟨j.document.parts, transfers, none⟩) path module →
        lateModule j transfers b ms path module := fun path module hm =>
    .inr (.inr (h.models ▸ hm))
  have hrun := replacement_accounts (signalConstructions_lawful hs.plain _) rfl hlate hs h
  have hdo : Pass.execute j .signals =
    (get >>= fun r => (signalConstructions r.models).run j : Action Unit) := rfl
  rw [hdo, ends_bind, ends_get]
  exact hrun

variable (hv : j.document.Valid)
include hv

/-- **What the usual passes leave** when they succeed: endpoints and models, and files that import
nothing but the client, models that are there, and what was named lately. -/
theorem executeAll_accounts (log : List LogLine) :
    Ends (executeAll j Pass.usual) { Run.start j.settings with log }
      (fun _ r => ∃ T b ms, r.Sound j T ∧ r.Settled j r.transfers b ms) fun _ _ => True := by
  have hstart : Run.Accounts (fun _ => allowed j.settings.conventions []) (fun _ => False)
      { Run.start j.settings with log } := (Run.Accounts.start _ j.settings).congr rfl
  refine executeAll_cons hv (Run.Sound.start j log)
    (fun _ => registerTargets_accounts (hstart.congr rfl)) fun T₁ r₁ hs₁ h₁ => ?_
  refine executeAll_cons hv hs₁
    (fun log => writeBackbone_accounts hv (hs₁.log log) (h₁.congr rfl)) ?_
  rintro T₂ r₂ hs₂ ⟨b, hb, h₂, hfree⟩
  refine executeAll_cons hv hs₂
    (fun log => writeModels_accounts hv (hs₂.log log) hb (h₂.congr rfl) hfree) ?_
  rintro T₃ r₃ hs₃ ⟨ms, h₃⟩
  refine executeAll_cons hv hs₃
    (fun log => flattenUnions_accounts hv (hs₃.log log) (h₃.log log)) fun T₄ r₄ hs₄ h₄ => ?_
  refine executeAll_cons hv hs₄
    (fun log => replacement_accounts (subscriptions_lawful j.settings.pushClasses _) rfl
      (fun _ _ hm => .inr (.inl hm)) (hs₄.log log) (h₄.log log)) fun T₅ r₅ hs₅ h₅ => ?_
  refine executeAll_cons hv hs₅
    (fun log => constructSignals_accounts (hs₅.log log) (h₅.log log)) fun T₆ r₆ hs₆ h₆ => ?_
  exact ⟨T₆, b, ms, hs₆, h₆.targets ▸ h₆⟩

end Runs

section Resolution

variable {j : Job} {T : List Route} {r : Run} {transfers : Entries TransferTarget} {b : Backbone}
  {ms : Entries Model}

theorem resolvesTo_modelFile {extension : String} {f : File} {component k : String}
    (hsite : f.bindings.site = .ofFile f.path extension) (hk : ¬ f.bindings.site.Omits k)
    (heq : f.bindings.site.specifier (Naming.modelModule k) =
      f.bindings.site.specifier (Naming.modelModule component)) :
    resolvesTo extension f component (Naming.modelFile k) := by
  have hdirectory : directoryOf f.path = f.bindings.site.directory := by rw [hsite]; rfl
  refine ⟨Naming.qualifiedPath k, rfl, ?_⟩
  rw [hdirectory, ← heq, Site.walk_specifier hk, hsite]
  rfl

/-- An import that is not suspect leads to a model. -/
theorem exists_model_of_imports (hs : r.Sound j T) (h : r.Settled j transfers b ms) {f : File}
    (hf : f ∈ emitted r.sources) {component : String} (hi : importsModel f component)
    (hsuspect : ¬ suspect j transfers b ms f component) :
    ∃ k ∈ ms.keys, resolvesTo r.sources.extension f component (Naming.modelFile k) := by
  have hat := hs.mem_values (List.mem_filter.1 hf).1
  have hname : f.bindings.imports.defaultName?
      (f.bindings.site.specifier (Naming.modelModule component)) ≠ none := by
    intro hnone
    have hnone := (Imports.defaultName?_eq_none _ _).1 hnone
    simp [importsModel, ModuleImports.defaultLine?, hnone] at hi
  obtain ⟨m, hm, heq⟩ := h.accounts.imports _ f hat _ hname
  rcases hm with (hm | ⟨k, hk, rfl⟩) | hm
  · exact absurd ⟨m, heq, .inl hm⟩ hsuspect
  · refine ⟨k, hk, resolvesTo_modelFile (hs.path _ f hat).2 (fun ho => hsuspect ?_) heq⟩
    exact ⟨_, heq, .inr (.inr ⟨k, hk, ho, rfl⟩)⟩
  · exact absurd ⟨m, heq, .inr (.inl hm)⟩ hsuspect

/-- The files with a default export are those of models, and are written. -/
theorem exists_export_iff (hs : r.Sound j T) (h : r.Settled j transfers b ms) {P : String → Prop} :
    (∃ g ∈ emitted r.sources, P g.path ∧ g.bindings.exports.default.isSome) ↔
      ∃ k ∈ ms.keys, P (Naming.modelFile k) := by
  constructor
  · rintro ⟨g, hg, hP, hdefault⟩
    have hat := hs.mem_values (List.mem_filter.1 hg).1
    obtain ⟨k, hk, hpath⟩ := List.mem_map.1 ((h.accounts.exports _ g hat).1 hdefault)
    exact ⟨k, hk, hpath ▸ hP⟩
  · rintro ⟨k, hk, hP⟩
    have hD : Naming.modelFile k ∈ ms.keys.map Naming.modelFile := List.mem_map.2 ⟨k, hk, rfl⟩
    obtain ⟨g, hg⟩ := h.accounts.held _ hD
    have hdefault := (h.accounts.exports _ g hg).2 hD
    refine ⟨g, List.mem_filter.2 ⟨List.mem_map.2 ⟨_, Entries.mem_of_at? hg, rfl⟩, ?_⟩, ?_, hdefault⟩
    · simp [File.isEmpty, Exports.isEmpty, hdefault]
    · rwa [h.accounts.path _ g hg]

/-- **Imports of models lead somewhere exactly if the suspect ones lead to models.**  Nothing else that
the usual passes import of a component leads nowhere. -/
theorem imports_resolve_iff {d : Document} (hd : d.validate = .ok ()) {settings : Settings}
    {log : List LogLine} {r : Run}
    (hr : (executeAll ⟨d, settings⟩ Pass.usual).run.run { Run.start settings with log } =
      (.ok (), r)) :
    ∃ b ms, r.backbone = some b ∧ r.models = some ms ∧
      (ImportsResolve settings.conventions.extension d.parts (emitted r.sources) ↔
        ∀ f ∈ emitted r.sources, ∀ component ∈ d.parts.schemas.keys, importsModel f component →
          suspect ⟨d, settings⟩ r.transfers b ms f component →
          ∃ k ∈ ms.keys,
            resolvesTo settings.conventions.extension f component (Naming.modelFile k)) := by
  obtain ⟨T, b, ms, hs, h⟩ := (executeAll_accounts (j := ⟨d, settings⟩)
    (Document.valid_of_validate hd) log).result hr
  refine ⟨b, ms, h.backbone, h.models, fun hall f hf component hc hi _ => ?_,
    fun hall f hf component hc hi => ?_⟩
  · exact (exists_export_iff hs h).1 (hall f hf component hc hi)
  · refine (exists_export_iff hs h).2 ?_
    by_cases hsuspect : suspect ⟨d, settings⟩ r.transfers b ms f component
    · exact hall f hf component hc hi hsuspect
    · exact hs.extension ▸ exists_model_of_imports hs h hf hi hsuspect

/-- A document with one operation, which gives back what a schema says, and one component, which is a
string. -/
def messageDocument (response : Json) : Json := .object [
  ("openapi", .string "3.0.1"),
  ("info", .object [("title", .string "t"), ("version", .string "1")]),
  ("paths", .object [("/Feed/watch", .object [("post", .object [
    ("tags", .array [.string "Feed"]),
    ("responses", .object [("200", .object [
      ("description", .string ""),
      ("content", .object [("application/json", .object [("schema", response)])])])])])])]),
  ("components", .object [("schemas", .object [
    ("Message", .object [("type", .string "string")])])])]

/-- A reference to the component. -/
def toMessage : Json := .object [("$ref", .string "#/components/schemas/Message")]

/-- A run of the usual passes on the document; what it leaves passes a test. -/
def leaves (response : Json) (test : Document → Run → Bool) : Bool :=
  match Document.ofJson (messageDocument response) with
  | .error _ => false
  | .ok d => decide (d.validate = .ok ()) &&
    match (executeAll ⟨d, {}⟩ Pass.usual).run.run (Run.start {}) with
    | (.error _, _) => false
    | (.ok _, r) => test d r

theorem exists_of_leaves (response : Json) (test : Document → Run → Bool)
    (h : leaves response test = true) :
    ∃ d r, Document.ofJson (messageDocument response) = .ok d ∧ d.validate = .ok () ∧
      (executeAll ⟨d, {}⟩ Pass.usual).run.run (Run.start {}) = (.ok (), r) ∧ test d r = true := by
  unfold leaves at h
  split at h
  · cases h
  · next d hd =>
    obtain ⟨hvalid, h⟩ := Bool.and_eq_true_iff.1 h
    split at h
    · cases h
    · next u r hr => exact ⟨d, r, hd, of_decide_eq_true hvalid, hr, h⟩

/-- A run that succeeds, and writes the model that the endpoint imports. -/
theorem imports_resolve_iff_plainMessage :
    ∃ d r, Document.ofJson (messageDocument toMessage) = .ok d ∧ d.validate = .ok () ∧
      (executeAll ⟨d, {}⟩ Pass.usual).run.run (Run.start {}) = (.ok (), r) ∧
      (emitted r.sources).map (·.path) = ["Feed.ts", "Message.ts"] ∧
      ∃ b ms, r.backbone = some b ∧ r.models = some ms ∧
        (ImportsResolve ".js" d.parts (emitted r.sources) ↔
          ∀ f ∈ emitted r.sources, ∀ component ∈ d.parts.schemas.keys, importsModel f component →
            suspect ⟨d, {}⟩ r.transfers b ms f component →
            ∃ k ∈ ms.keys, resolvesTo ".js" f component (Naming.modelFile k)) := by
  obtain ⟨d, r, hd, hvalid, hr, hpaths⟩ := exists_of_leaves toMessage
    (fun _ r => (emitted r.sources).map (·.path) = ["Feed.ts", "Message.ts"]) (by decide +kernel)
  have hiff := @imports_resolve_iff d hvalid {} [] r hr
  exact ⟨d, r, hd, hvalid, hr, of_decide_eq_true hpaths, hiff⟩

/-- A stream of messages. -/
def streamOfMessages : Json := .object [
  ("x-class-name", .string "reactor.core.publisher.Flux"), ("items", toMessage)]

/-- **An import of a model that leads nowhere**: what is streamed is named only when the wrapper is
replaced, and no model is written for it. -/
theorem not_imports_resolve :
    ∃ d r, Document.ofJson (messageDocument streamOfMessages) = .ok d ∧ d.validate = .ok () ∧
      (executeAll ⟨d, {}⟩ Pass.usual).run.run (Run.start {}) = (.ok (), r) ∧
      ¬ ImportsResolve ".js" d.parts (emitted r.sources) := by
  obtain ⟨d, r, hd, hvalid, hr, htest⟩ := exists_of_leaves streamOfMessages
    (fun d r => d.parts.schemas.keys = ["Message"] ∧
      (∃ f ∈ emitted r.sources, importsModel f "Message") ∧
        ∀ f ∈ emitted r.sources, f.bindings.exports.default = none)
    (by decide +kernel)
  obtain ⟨hkeys, ⟨f, hf, hi⟩, hnone⟩ := of_decide_eq_true htest
  refine ⟨d, r, hd, hvalid, hr, fun hall => ?_⟩
  obtain ⟨g, hg, -, hdefault⟩ := hall f hf "Message" (by rw [hkeys]; decide) hi
  simp [hnone g hg] at hdefault

end Resolution

end Client
end OpenApiClient
