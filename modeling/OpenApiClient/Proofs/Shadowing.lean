/-
# Names that parameters hide

The body of a function uses imports as values: the client that it calls, and the class of a signal that it
constructs. A parameter of the same name would hide such an import.

The parameters of a function are named when endpoints are written, apart from the name of the client. Later
passes keep the names of parameters, and the files keep the name of the client (`Wired`), so that it stays
visible. The class of a signal is imported only then, under a name that is free in the file but may be that
of a parameter: `executeAll_hides` says when it is.
-/

import OpenApiClient.Proofs.AskedNames
import OpenApiClient.Proofs.Rewriting

namespace OpenApiClient

namespace Module.Scope

/-- **A name that is asked for** is taken in the end, unless it is a reserved word. -/
theorem mem_bindAll {s : Scope} {names : List String} {n : String} (hn : n ∈ names)
    (hreserved : TypeScript.isReserved n = false) : n ∈ s.taken ∨ n ∈ (s.bindAll names).1 := by
  induction names generalizing s with
  | nil => cases hn
  | cons name names ih =>
    rw [bindAll_cons]
    rcases List.mem_cons.1 hn with rfl | hn
    · by_cases htaken : n ∈ s.taken
      · exact .inl htaken
      · have hgiven : (s.bind n false).1 = n := by simp [bind, available, isTaken, hreserved, htaken]
        exact .inr (List.mem_cons.2 (.inl hgiven.symm))
    · rcases ih (s := (s.bind name false).2) hn with htaken | hmem
      · rw [taken_bind, List.mem_append, List.mem_singleton] at htaken
        exact htaken.imp_right fun heq => List.mem_cons.2 (.inl heq)
      · exact .inr (List.mem_cons_of_mem _ hmem)

end Module.Scope

namespace Client

open OpenApi TypeScript OpenApiClient.Module

/-- An argument whose name is taken as it is has it as a parameter, unless the client does. -/
theorem mem_parameterNames {client : String} {arguments : List String} {name : String}
    (hname : name ∈ arguments.map parameterName) (hreserved : isReserved name = false)
    (hclient : isReserved client = false) (hne : name ≠ client) :
    name ∈ (parameterNames client arguments).1 := by
  have hbind : (({} : Scope).bind client false).2 = ⟨[client]⟩ := by
    simp [Scope.bind, Scope.available, Scope.isTaken, hclient]
  rw [parameterNames, hbind]
  exact (Scope.mem_bindAll hname hreserved).resolve_left (by simpa using hne)

section Files

variable {v : Conventions} {client : String} {f : File}

/-- The file knows the client by the name, and imports the classes of what its functions construct. -/
structure Wired (v : Conventions) (client : String) (f : File) : Prop where
  client : clientOf? v f.bindings = some client
  classes : ∀ g, .function g ∈ f.declarations → ∀ x ∈ g.body, ImportsClass f.bindings x

/-- Other declarations and more imports. -/
theorem Wired.change (h : Wired v client f) {b : Bindings} {ds : List Declaration}
    (hb : f.bindings.Grows b) (hds : ∀ g, .function g ∈ ds →
      .function g ∈ f.declarations ∨ ∀ x ∈ g.body, ImportsClass b x) :
    Wired v client { f with bindings := b, declarations := ds } where
  client := by
    rw [clientOf?, hb.site]
    exact hb.kept _ _ h.client
  classes g hg x hx := by
    rcases hds g hg with hold | hnew
    · exact (h.classes g hold x hx).grows hb
    · exact hnew x hx

/-- The file at a path is wired. -/
def Run.Wires (r : Run) (v : Conventions) (path client : String) : Prop :=
  ∃ f, r.sources.at? path = some f ∧ Wired v client f

/-- A file is written that stays wired if it is the one at the path. -/
theorem Run.Wires.write {r r' : Run} {path : String} (h : r.Wires v path client) {f : File}
    (hw : r.Writes f r')
    (hf : ∀ f₀, f.path = path → r.sources.at? path = some f₀ → Wired v client f₀ → Wired v client f) :
    r'.Wires v path client := by
  obtain ⟨log, rfl⟩ := hw
  obtain ⟨f₀, hf₀, hwired⟩ := h
  by_cases hp : path = f.path
  · exact ⟨f, (Sources.at?_put ..).trans (if_pos hp), hf f₀ hp.symm hf₀ hwired⟩
  · exact ⟨f₀, ((Sources.at?_put ..).trans (if_neg hp)).trans hf₀, hwired⟩

end Files

section Steps

variable {j : Job} {T : List Route} {r r' : Run} {path client : String}

/-- A model leaves a file wired. -/
theorem keptByModels_wires (j : Job) (T : List Route) (r : Run) (v : Conventions) (path client : String) :
    KeptByModels j fun _ _ r' => (r'.Sound j T ∧ r.Frame r') ∧ r'.Wires v path client where
  model := by
    intro cs ns r₁ r₂ component identifier names f' ⟨h, hwires⟩ hleads hwanted hfree hk hfile hopen hadd hw
    have hkept : KeptByModels j fun _ _ r' => r'.Sound j T ∧ r.Frame r' := Run.Sound.keptByModels T r
    refine ⟨@KeptByModels.model _ _ hkept cs ns _ _ _ _ _ _ h hleads hwanted hfree hk hfile hopen hadd hw, ?_⟩
    refine hwires.write hw fun f₀ hpath hf₀ hwired => ?_
    have hopened : r₁.sources.openFile (Naming.modelFile component) Pass.model.path = f₀ := by
      rw [hadd.place.1, (h.1.openFile (Naming.modelFile component) Pass.model.path).1] at hpath
      exact Sources.openFile_of_at? _ (hpath ▸ hf₀)
    rw [hopened] at hadd
    obtain ⟨form, d, b, -, hdeclares, -, -, hadds, rfl⟩ := hadd
    have hgrows : f₀.bindings.Grows (b.exportDefault identifier) := ⟨hadds.site, hadds.kept, hadds.keptNamed⟩
    refine hwired.change hgrows fun g hg => .inl ?_
    exact (List.mem_append.1 hg).resolve_right fun hd =>
      (hdeclares b (.refl b)).ne_function g (List.mem_singleton.1 hd).symm

/-- A change of a model leaves a file wired. -/
theorem Run.Edits.wires (hs : r.Sound j T) {models : Entries Model} (h : r.Edits j models r')
    {v : Conventions} (hwires : r.Wires v path client) : r'.Wires v path client := by
  obtain ⟨component, m, f, name, change, b, ns, -, hf, hkeeps, -, -, hadds, hw⟩ := h
  refine hwires.write hw fun f₀ hpath hf₀ hwired => ?_
  have hfile : m.file = path := (hs.path _ f hf).1.symm.trans hpath
  obtain rfl := Option.some.inj (hf.symm.trans (hfile ▸ hf₀))
  refine hwired.change hadds.grows fun g hg => .inl ?_
  rcases mem_adjustFirst hg with hg | ⟨e, he, heq⟩
  · exact hg
  · exact hkeeps.isFunction e g heq.symm ▸ he

/-- A replacement leaves a file wired. -/
theorem Run.Replaces.wires {κ : Type} {w : Replacement κ} {late : κ → Schema → List String}
    (hs : r.Sound j T) {e : Endpoint} {m : Method} (h : r.Replaces w j late e m r')
    {v : Conventions} (hwires : r.Wires v path client) : r'.Wires v path client := by
  obtain ⟨response, k, f, g, g', b, -, -, hf, -, -, -, ⟨result, x, rfl, -, himports⟩, -, hadds, hw⟩ := h
  refine hwires.write hw fun f₀ hpath hf₀ hwired => ?_
  have hfile : e.file = path := (hs.path _ f hf).1.symm.trans hpath
  obtain rfl := Option.some.inj (hf.symm.trans (hfile ▸ hf₀))
  refine hwired.change hadds.grows fun g' hg' => ?_
  rcases mem_adjustFirst hg' with hg' | ⟨-, -, heq⟩
  · exact .inl hg'
  · obtain rfl := Declaration.function.inj heq
    exact .inr (List.forall_mem_singleton.2 himports)

variable (hv : j.document.Valid)
include hv

/-- **Every pass but the one that writes endpoints** leaves a file wired. -/
theorem execute_wires {p : Pass} (hp : p ≠ .backbone) (hs : r.Sound j T) {v : Conventions}
    (h : r.Wires v path client) :
    Ends (p.execute j) r (fun _ r' => r'.Wires v path client) fun _ _ => True := by
  have late (hp : p = .subtypes ∨ p = .push ∨ p = .signals) :
      Ends (p.execute j) r (fun _ r' => r'.Wires v path client) fun _ _ => True :=
    (execute_keeps (I := fun r' => r'.Wires v path client) hv hp hs
      (fun _ _ _ _ h₁ _ hwires he => he.wires h₁ hwires)
      (fun _ _ _ _ _ _ _ _ h₁ _ hwires hr => hr.wires h₁ hwires) (fun _ _ h => h) h).mono
      (fun _ _ h => h.2.2) fun _ _ _ => trivial
  cases p with
  | backbone => exact absurd rfl hp
  | transferTypes =>
    change Ends (registerTargets j) r _ _
    unfold registerTargets
    dsimp only
    cases j.settings.transferTypes.find? (·.2.name.isEmpty) with
    | some e => exact trivial
    | none => exact h
  | model =>
    refine (writeModels_spec (keptByModels_wires j T r v path client) hv (fun _ _ _ h => h.1.2.transfers)
      (fun _ _ => ⟨⟨hs, .refl r⟩, h⟩) hs.referenced).mono ?_ fun _ _ _ => trivial
    rintro _ _ ⟨b, ms, r₁, log, ns, -, ⟨-, h₁⟩, rfl, -⟩
    exact h₁
  | subtypes => exact late (.inl rfl)
  | push => exact late (.inr (.inl rfl))
  | signals => exact late (.inr (.inr rfl))

/-- What each of some passes keeps in a sound run, all of them keep. -/
theorem executeAll_keeps {I : Run → Prop} {ps : List Pass} (hs : r.Sound j T)
    (log : ∀ r log, I r → I { r with log })
    (pass : ∀ p ∈ ps, ∀ T r, r.Sound j T → I r →
      Ends (p.execute j) r (fun _ r' => I r') fun _ _ => True) (hI : I r) :
    Ends (executeAll j ps) r (fun _ r' => I r') fun _ _ => True := by
  induction ps generalizing T r with
  | nil => exact hI
  | cons p ps ih =>
    refine executeAll_cons hv hs (P := I)
      (fun l => pass p List.mem_cons_self T _ (hs.log l) (log _ l hI)) fun T' r' hs' hI' => ?_
    exact ih hs' (fun p hp => pass p (List.mem_cons_of_mem _ hp)) hI'

omit hv in
/-- A run of passes is a run of some of them, and then one of the others. -/
theorem exists_of_executeAll_append {before after : List Pass}
    (h : (executeAll j (before ++ after)).run.run r = (.ok (), r')) :
    ∃ r₁, (executeAll j before).run.run r = (.ok (), r₁) ∧
      (executeAll j after).run.run r₁ = (.ok (), r') := by
  rw [executeAll_append, run_bind] at h
  split at h
  · next r₁ h₁ => exact ⟨r₁, h₁, h⟩
  · cases h

end Steps

/-- The function has a parameter of the name. -/
def Hides (g : Function) (name : String) : Prop := name ∈ g.parameters.map (·.name)

instance (g : Function) (name : String) : Decidable (Hides g name) :=
  inferInstanceAs (Decidable (name ∈ g.parameters.map (·.name)))

section Runs

variable {j : Job} {T : List Route} {r r' : Run} {b : Backbone}

/-- The parameters of a function that was made of another one are among those of that one, and all but
the last if what it returns constructs something. -/
theorem Rewritten.parameters_of_forwards {client endpoint method : String} {arguments : List String}
    {g g' : Function} {rs : List Pass} (h : Rewritten g rs g')
    (hforwards : Forwards client endpoint method arguments g) :
    g'.parameters ⊆ g.parameters ∧ ∀ callee types args, g'.body = [.construct callee types args] →
      g'.parameters.map (·.name) = (parameterNames client arguments).1 := by
  obtain ⟨hparameters, -⟩ := hforwards.found
  by_cases hrs : rs = []
  · obtain rfl := h.start hrs
    refine ⟨List.Subset.refl _, fun _ _ _ hbody => ?_⟩
    rw [hforwards.body] at hbody
    cases hbody
  · rw [h.parameters hrs, hparameters]
    refine ⟨List.dropLast_subset _, fun _ _ _ _ => ?_⟩
    rw [List.map_dropLast, hforwards.names, List.dropLast_concat]

/-- The function of a method in the file of its endpoint, which calls the client. -/
theorem Run.Sound.exists_wraps (hs : r.Sound j T) (hb : r.backbone = some b)
    {q : Endpoint × Method} (hq : q ∈ b.methods) :
    ∃ f g, r.sources.at? q.1.file = some f ∧ .function g ∈ f.declarations ∧ r.wrapper? q = some g ∧
      Wraps j.settings.conventions f.bindings q.1.name q.2.name g := by
  obtain ⟨he, hm⟩ := Backbone.mem_methods.1 hq
  obtain ⟨t, ht, hendpoint, hfile, hlocal, his⟩ := hs.exists_route hb he hm
  obtain ⟨f, hf⟩ := hs.exists_file hb hq
  obtain ⟨g, hg, hname, hwraps⟩ := (hs.serves _ f hf).wrapped t (mem_routesTo.2 ⟨ht, hfile⟩)
  rw [hendpoint, ← his.name] at hwraps
  exact ⟨f, g, hf, hg, hs.wrapper?_eq hf hg (hname.trans hlocal), hwraps⟩

/-- **The file of an endpoint is wired** after the pass that writes endpoints, when no function constructs
anything yet. -/
theorem Run.Forwarded.wires (hs : r.Sound j T) (hb : r.backbone = some b)
    (hfollows : b.Follows j.document T) (h : r.Forwarded j T) {e : Endpoint} {client : String}
    (hclient : r.client? j.settings.conventions e = some client) :
    r.Wires j.settings.conventions e.file client := by
  obtain ⟨f, hf, hclient⟩ := Option.bind_eq_some_iff.1 hclient
  refine ⟨f, hf, hclient, fun g hg x hx => ?_⟩
  have hvalue : f ∈ r.sources.files.values := List.mem_map.2 ⟨_, Entries.mem_of_at? hf, rfl⟩
  obtain ⟨q, hq, -, hg'⟩ := hs.exists_method hfollows hvalue hg
  obtain ⟨-, -, g₀, _, -, -, hwrapper, -, -, hforwards⟩ := h.wrapper? hs hb hq
  obtain rfl := Option.some.inj (hwrapper.symm.trans hg')
  rw [hforwards.body] at hx
  obtain rfl := List.mem_singleton.1 hx
  exact nofun

end Runs

/-- **Which imports parameters hide**, after any passes before and after the one that writes endpoints:
never the client, and the class of a signal exactly if it is the name of one of the parameters for the
arguments. It is if that is the name that an argument asks for, and only if it comes of one. -/
theorem executeAll_hides {d : Document} (hd : d.validate = .ok ()) {settings : Settings}
    {before after : List Pass} (hafter : .backbone ∉ after) {log : List LogLine} {r : Run}
    (hr : (executeAll ⟨d, settings⟩ (before ++ [.backbone] ++ after)).run.run
      { Run.start settings with log } = (.ok (), r)) :
    ∃ b, r.backbone = some b ∧
      (∀ f ∈ r.sources.files.values, ∀ g, .function g ∈ f.declarations →
        ∃ q ∈ b.methods, q.1.file = f.path ∧ r.wrapper? q = some g) ∧
      ∀ q ∈ b.methods, ∃ f g client x, r.sources.at? q.1.file = some f ∧ r.wrapper? q = some g ∧
        clientOf? settings.conventions f.bindings = some client ∧ g.body = [x] ∧
        Calls client q.1.name q.2.name x ∧ ¬ Hides g client ∧
        ∀ callee types args, x = .construct callee types args →
          ∃ name sp id, callee = .ident name ∧ f.bindings.imports.namedName? sp id = some name ∧
            let arguments := q.2.arguments.map (·.name)
            (Hides g name ↔ name ∈ (parameterNames client arguments).1) ∧
            (name ∈ arguments.map parameterName → Hides g name) ∧
            (Hides g name → ∃ a ∈ arguments, Given (parameterName a) name) := by
  have hv := Document.valid_of_validate hd
  obtain ⟨r₀, hr₀, hr⟩ := exists_of_executeAll_append hr
  obtain ⟨T, b, hs₀, hb₀, hfollows, -, hforwarded⟩ :=
    (executeAll_forwarded (j := ⟨d, settings⟩) hv before log).result hr₀
  have hchanges := (executeAll_changes (j := ⟨d, settings⟩) hv hafter hs₀ hb₀
    (hforwarded.exists_passed hs₀ hb₀)).result hr
  have hpass : ∀ p ∈ after, p ≠ .backbone := fun p hp heq => hafter (heq ▸ hp)
  have hb : r.backbone = some b := (executeAll_keeps (j := ⟨d, settings⟩) hv hs₀
    (I := fun r => r.backbone = some b) (fun _ _ h => h)
    (fun p hp _ _ hs hb => (execute_changes hv (hpass p hp) hs hb).imp fun _ _ h => h.1) hb₀).result hr
  obtain ⟨T', hs, hcalls⟩ := (executeAll_sound (j := ⟨d, settings⟩) hv after hs₀).result hr
  obtain rfl : T' = [] := by
    have hnil : after.flatMap (·.calls d) = [] := List.flatMap_eq_nil_iff.2 fun p hp => by
      cases p with
      | backbone => exact absurd hp hafter
      | _ => rfl
    exact List.map_eq_nil_iff.1 (hcalls.trans hnil)
  rw [List.append_nil] at hs
  refine ⟨b, hb, fun f hf g hg => hs.exists_method hfollows hf hg, fun q hq => ?_⟩
  obtain ⟨-, -, g₀, client, -, -, hwrapper, hclient, hreserved, hforwards⟩ :=
    hforwarded.wrapper? hs₀ hb₀ hq
  obtain ⟨g₁, g, hg₁, hg, hrewritten⟩ := hchanges q hq
  obtain rfl := Option.some.inj (hwrapper.symm.trans hg₁)
  obtain ⟨f, g', hf, hmem, hg', client', x, hbody, hreaches, hclient'⟩ := hs.exists_wraps hb hq
  obtain rfl := Option.some.inj (hg.symm.trans hg')
  -- The file is wired when endpoints are written, and stays so.
  obtain ⟨f', hf', hwired⟩ := (executeAll_keeps (j := ⟨d, settings⟩) hv hs₀
    (I := fun r => r.Wires settings.conventions q.1.file client) (fun _ _ h => h)
    (fun p hp _ _ hs h => execute_wires hv (hpass p hp) hs h)
    (hforwarded.wires hs₀ hb₀ hfollows hclient)).result hr
  obtain rfl := Option.some.inj (hf.symm.trans hf')
  obtain rfl := Option.some.inj (hwired.client.symm.trans hclient')
  have hfaithful := hforwards.faithful hreserved
  obtain ⟨hsub, hconstructs⟩ := hrewritten.parameters_of_forwards hforwards
  refine ⟨f, g, client, x, hf, hg, hclient', hbody, hreaches, fun hhides => ?_, ?_⟩
  · obtain ⟨p, hp, hname⟩ := List.mem_map.1 hhides
    exact hfaithful.apart p (hsub hp) hname
  · rintro callee types args rfl
    obtain ⟨name, sp, id, rfl, himported⟩ :=
      hwired.classes g hmem _ (hbody ▸ List.mem_cons_self) callee types args rfl
    have htidy := (hs.serves _ f hf).tidy
    have hunreserved : isReserved name = false :=
      htidy.unreserved name (List.mem_append_left _ (Imports.mem_localNames_of_named himported))
    have hne : name ≠ client := fun heq => by
      have hdefaults := (List.nodup_append.1 htidy.apart).1
      exact Imports.namedName?_ne_of_defaultName? hdefaults hclient' (heq ▸ himported)
    have hiff : Hides g name ↔ name ∈ (parameterNames client (q.2.arguments.map (·.name))).1 := by
      rw [Hides, hconstructs _ _ _ hbody]
    refine ⟨name, sp, id, rfl, himported, hiff, fun hasked => ?_, fun hhides => ?_⟩
    · exact hiff.2 (mem_parameterNames hasked hunreserved hreserved hne)
    · exact ((TypeContext.given_parameterNames client _).1 name (hiff.1 hhides)).1

/-- The name of the class that a function constructs. -/
def constructed? (g : Function) : Option String :=
  match g.body with
  | [.construct (.ident name) _ _] => some name
  | _ => none

theorem of_constructed? {g : Function} {name : String} (h : constructed? g = some name) :
    ∃ types args, g.body = [.construct (.ident name) types args] := by
  unfold constructed? at h
  split at h
  · next name' types args hbody => exact ⟨types, args, Option.some.inj h ▸ hbody⟩
  · cases h

/-- A method with parameters of the names that gives back a signal. -/
def countingWith (names : List String) : Json :=
  let response := Json.object [
    ("description", .string ""),
    ("content", .object [("application/json", .object [
      ("schema", refTo "com.vaadin.hilla.signals.NumberSignal")])])]
  .object [
    ("openapi", .string "3.0.1"),
    ("info", .object [("title", .string "t"), ("version", .string "1")]),
    ("paths", .object [("/E/count", .object [("post", .object [
      ("parameters", .array (names.map fun name =>
        .object [("name", .string name), ("in", .string "query")])),
      ("responses", .object [("200", response)])])])]),
    ("components", .object [("schemas", .object [
      ("com.vaadin.hilla.signals.NumberSignal", .object [("type", .string "object")])])])]

/-- A run of the usual passes in which parameters hide neither the client nor the class of a signal. -/
theorem executeAll_hides_visible :
    .backbone ∉ [Pass.model, .subtypes, .push, .signals] ∧
      ∃ d r b q g types args, Document.ofJson (countingWith ["start", "client"]) = .ok d ∧
        d.validate = .ok () ∧
        (executeAll ⟨d, {}⟩ Pass.usual).run.run (Run.start {}) = (.ok (), r) ∧
        r.backbone = some b ∧ b.methods = [q] ∧ r.wrapper? q = some g ∧
        g.body = [.construct (.ident "NumberSignal") types args] ∧
        ¬ Hides g "client" ∧ ¬ Hides g "NumberSignal" := by
  have hafter : .backbone ∉ [Pass.model, .subtypes, .push, .signals] := by decide
  have hrun := exists_of_runOf? (countingWith ["start", "client"]) {}
    Pass.usual (fun _ r => r.onlyMethod?.any fun q =>
      decide (r.client? (Settings.conventions {}) q.1 = some "client") &&
        decide ("NumberSignal" ∉ (parameterNames "client" (q.2.arguments.map (·.name))).1) &&
        decide ((r.wrapper? q).bind constructed? = some "NumberSignal")) (by decide +kernel)
  obtain ⟨d, r, hd, hvalid, hr, htest⟩ := hrun
  obtain ⟨q, honly, htest⟩ := (Option.any_eq_true ..).1 htest
  obtain ⟨b, hb, hmethods⟩ := Run.of_onlyMethod? honly
  obtain ⟨b', hb', -, hall⟩ := @executeAll_hides d hvalid {} [.transferTypes]
    [.model, .subtypes, .push, .signals] hafter [] r hr
  obtain rfl := Option.some.inj (hb.symm.trans hb')
  obtain ⟨f, g, client, x, hf, hg, hclient, hbody, -, hvisible, hclass⟩ := hall q (by simp [hmethods])
  have hknown : r.client? (Settings.conventions {}) q.1 = some client := by
    rw [Run.client?, hf]
    exact hclient
  simp only [hknown, hg, Option.bind_some, Bool.and_eq_true, decide_eq_true_eq, Option.some.injEq] at htest
  obtain ⟨⟨rfl, hfree⟩, hconstructed⟩ := htest
  obtain ⟨types, args, hconstruct⟩ := of_constructed? hconstructed
  obtain ⟨name, -, -, hname, -, hiff, -⟩ :=
    hclass _ _ _ (List.singleton_inj.1 (hbody.symm.trans hconstruct))
  obtain rfl := Expr.ident.inj hname
  exact ⟨hafter, d, r, b, q, g, types, args, hd, hvalid, hr, hb, hmethods, hg, hconstruct, hvisible,
    fun hhides => hfree (hiff.1 hhides)⟩

/-- **A class that is hidden**: the parameter for an argument has the name of the class that the function
constructs. -/
theorem hides_class :
    ∃ d r b q g name types args, Document.ofJson (countingWith ["NumberSignal"]) = .ok d ∧
      d.validate = .ok () ∧
      (executeAll ⟨d, {}⟩ Pass.usual).run.run (Run.start {}) = (.ok (), r) ∧
      r.backbone = some b ∧ b.methods = [q] ∧ r.wrapper? q = some g ∧
      g.body = [.construct (.ident name) types args] ∧ Hides g name := by
  have hrun := exists_of_runOf? (countingWith ["NumberSignal"]) {}
    Pass.usual (fun _ r => r.onlyMethod?.any fun q => (r.wrapper? q).any fun g =>
      (constructed? g).any fun name => decide (Hides g name)) (by decide +kernel)
  obtain ⟨d, r, hd, hvalid, hr, htest⟩ := hrun
  obtain ⟨q, honly, htest⟩ := (Option.any_eq_true ..).1 htest
  obtain ⟨b, hb, hq⟩ := Run.of_onlyMethod? honly
  obtain ⟨g, hg, htest⟩ := (Option.any_eq_true ..).1 htest
  obtain ⟨name, hname, htest⟩ := (Option.any_eq_true ..).1 htest
  obtain ⟨types, args, hbody⟩ := of_constructed? hname
  exact ⟨d, r, b, q, g, name, types, args, hd, hvalid, hr, hb, hq, hg, hbody, of_decide_eq_true htest⟩

end Client
end OpenApiClient
