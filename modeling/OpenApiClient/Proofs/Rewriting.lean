/-
# What becomes of wrappers

After the pass that writes endpoints, two passes give other wrappers to methods, and the settings may ask
for them in any order and repeatedly. `executeAll_rewritten` tells what becomes of the wrapper of a method
on the way: whoever replaces it keeps its parameters, but for the one for the request. The object that it
passes is looked for in a call, and is not found in the construction of a signal, so that whatever
replaces a construction passes an empty object.

Each pass but the one that writes endpoints replaces the wrappers of the methods that it selects, once
each, and leaves all other functions alone (`execute_changes`).
-/

import OpenApiClient.Proofs.Parameters

namespace OpenApiClient

namespace Module

open TypeScript

section Adjusting

variable {name : String} {change : Declaration → Declaration}

/-- The declaration of a name, after one was changed and kept its name. -/
theorem declaration?_adjust {f : File} (h : ∀ d ∈ f.declarations, d.name = name → (change d).name = name)
    (n : String) :
    (f.adjust name change).declaration? n =
      if n = name then (f.declaration? name).map change else f.declaration? n := by
  unfold File.adjust File.declaration?
  generalize f.declarations = ds at h
  induction ds with
  | nil => simp [File.adjustFirst]
  | cons d ds ih =>
    have ih := ih fun e he => h e (List.mem_cons_of_mem _ he)
    by_cases hd : d.name = name
    · have hchange : (change d).name = name := h d List.mem_cons_self hd
      by_cases hn : n = name
      · simp [File.adjustFirst, hd, hchange, hn]
      · have hne : ¬ name = n := fun heq => hn heq.symm
        simp [File.adjustFirst, hd, hchange, hn, hne]
    · simp only [File.adjustFirst, beq_iff_eq, hd, if_false, List.find?_cons, ih]
      by_cases hn : n = name
      · have hb : (d.name == name) = false := by simpa using hd
        simp [hn, hb]
      · simp [hn]

/-- A change that keeps functions keeps those that are found. -/
theorem function?_adjust {f : File} (hc : Client.Keeps change) (n : String) :
    (f.adjust name change).function? n = f.function? n := by
  unfold File.function?
  rw [declaration?_adjust fun d _ hd => (hc.name d).trans hd]
  by_cases hn : n = name
  · subst hn
    rw [if_pos rfl]
    cases hd : f.declaration? n with
    | none => rfl
    | some d =>
      rw [Option.map_some]
      cases hchange : change d with
      | function g => rw [hc.isFunction d g hchange]
      | interface i | «alias» i | enumeration i =>
        cases d with
        | function g => cases (hc.function g).symm.trans hchange
        | interface | «alias» | enumeration => rfl
  · rw [if_neg hn]

/-- A declaration that is no function adds none. -/
theorem function?_append {f g : File} {d : Declaration} (hd : ∀ g, d ≠ .function g)
    (hg : g.declarations = f.declarations ++ [d]) (n : String) : g.function? n = f.function? n := by
  unfold File.function? File.declaration?
  rw [hg, List.find?_append]
  cases f.declarations.find? (·.name == n) with
  | some e => rfl
  | none =>
    rw [Option.none_or, List.find?_singleton]
    split
    · next g' hg' =>
      split at hg'
      · exact absurd (Option.some.inj hg') (hd g')
      · cases hg'
    · rfl

end Adjusting

end Module

namespace Client

open OpenApi TypeScript OpenApiClient.Module

/-- Whether a replacement selects a method. -/
def Replacement.selects {κ : Type} (w : Replacement κ) (m : Method) : Bool :=
  m.response.any fun s => match w.select s with
    | .ok (some _) => true
    | _ => false

theorem Replacement.selects_iff {κ : Type} {w : Replacement κ} {m : Method} :
    w.selects m = true ↔ w.Selects m := by
  unfold selects Selects
  cases m.response with
  | none => simp
  | some s =>
    simp only [Option.any_some, Option.some.injEq]
    split
    · next k hk => simp [hk]
    · next h => simpa using h

/-- Whether a pass replaces the wrapper of a method. -/
def Pass.rewrites (classes : List String) (m : Method) : Pass → Bool
  | .push => (subscriptions classes).selects m
  | .signals => (signalConstructions none).selects m
  | _ => false

/-- Which methods give back signals does not depend on the models. -/
theorem selects_signalConstructions (models : Option (Entries Model)) (classes : List String)
    (m : Method) : (signalConstructions models).selects m = Pass.signals.rewrites classes m := by
  have hselect : ∀ models, (signalConstructions models).select = fun response => do
      return (← referencedComponent? response).bind Signal.ofSchema? := fun _ => rfl
  unfold Pass.rewrites Replacement.selects
  simp only [hselect]

/-- What becomes of the function `g₀` when the passes `rs` replace it one after another. -/
structure Rewritten (g₀ : Function) (rs : List Pass) (g : Function) : Prop where
  start : rs = [] → g = g₀
  parameters : rs ≠ [] → g.parameters = (Wrapper.ofFunction g₀).parameters
  passed : passed? g =
    some (if .signals ∈ rs.dropLast then .object [] else (Wrapper.ofFunction g₀).arguments)
  found : (Wrapper.ofFunction g).parameters = (Wrapper.ofFunction g₀).parameters ∧
    (Wrapper.ofFunction g).arguments =
      if .signals ∈ rs then .object [] else (Wrapper.ofFunction g₀).arguments

/-- A function that forwards its parameters, before it is replaced. -/
theorem Rewritten.refl {g : Function} (h : passed? g = some (Wrapper.ofFunction g).arguments) :
    Rewritten g [] g where
  start _ := rfl
  parameters h := absurd rfl h
  passed := by simpa using h
  found := by simp

/-- **A replacement** passes what it finds, and what it finds is an empty object after a signal was
constructed. -/
theorem Rewritten.step {g₀ g : Function} {rs : List Pass} (h : Rewritten g₀ rs g)
    (hobject : ∃ entries, (Wrapper.ofFunction g₀).arguments = .object entries) {p : Pass}
    (name : String) (result : Ty) {x : Expr} (hx : Passes p (Wrapper.ofFunction g).arguments x) :
    Rewritten g₀ (rs ++ [p]) ((Wrapper.ofFunction g).returning name result x) where
  start hnil := by simp at hnil
  parameters _ := h.found.1
  passed := by
    rw [passed?_returning, hx.passed, h.found.2, List.dropLast_concat]
  found := by
    rw [ofFunction_returning]
    refine ⟨h.found.1, ?_⟩
    obtain ⟨entries, hentries⟩ : ∃ entries, (Wrapper.ofFunction g).arguments = .object entries := by
      rw [h.found.2]
      split
      · exact ⟨[], rfl⟩
      · exact hobject
    rw [hx.found entries hentries]
    by_cases hp : p = .signals
    · simp [hp]
    · have hmem : .signals ∈ rs ++ [p] ↔ .signals ∈ rs := by simp [Ne.symm hp]
      simp only [hp, if_false, Option.getD_some, hmem]
      exact h.found.2

section Steps

variable {j : Job} {T : List Route} {r r' : Run}

/-- A file is written in which no function of the files has changed. -/
theorem Run.Writes.wrapper? {f : File} (hw : r.Writes f r')
    (hf : ∀ name, f.function? name = (r.sources.at? f.path).bind (·.function? name)) :
    r'.wrapper? = r.wrapper? := by
  obtain ⟨log, rfl⟩ := hw
  funext p
  unfold Run.wrapper?
  rw [Sources.at?_put]
  split
  · next hp => rw [hp, ← hf, Option.bind_some]
  · rfl

/-- A model changes no function. -/
theorem keptByModels_wrapper? (j : Job) (T : List Route) (r : Run) :
    KeptByModels j fun _ _ r' => (r'.Sound j T ∧ r.Frame r') ∧ r'.wrapper? = r.wrapper? where
  model := by
    intro cs ns r₁ r₂ component identifier names f' ⟨h, hsame⟩ hleads hwanted hfree hk hfile hopen hadd hw
    have hkept : KeptByModels j fun _ _ r' => r'.Sound j T ∧ r.Frame r' := Run.Sound.keptByModels T r
    refine ⟨@KeptByModels.model _ _ hkept cs ns _ _ _ _ _ _ h hleads hwanted hfree hk hfile hopen hadd hw, ?_⟩
    have hpath := hadd.place.1
    obtain ⟨form, d, b, -, hdeclares, -, -, -, rfl⟩ := hadd
    refine (hw.wrapper? fun name => ?_).trans hsame
    rw [function?_append (f := r₁.sources.openFile (Naming.modelFile component) Pass.model.path)
      (hdeclares b (.refl b)).ne_function rfl]
    cases hf : r₁.sources.at? (Naming.modelFile component) with
    | none =>
      have hblank : r₁.sources.openFile (Naming.modelFile component) Pass.model.path =
          r₁.sources.blank (Naming.modelFile component) Pass.model.path := by
        rw [Sources.openFile, hf, Option.getD_none]
      rw [hblank] at hpath ⊢
      have hat : r₁.sources.at? (r₁.sources.blank (Naming.modelFile component) Pass.model.path).path =
        none := hf
      simp only [hat]
      rfl
    | some f =>
      have hopen := Sources.openFile_of_at? Pass.model.path hf
      have hpath : f.path = Naming.modelFile component := (h.1.path _ f hf).1
      simp only [hopen, hpath, hf, Option.bind_some]

/-- A change of a model changes no function. -/
theorem Run.Edits.wrapper? (hs : r.Sound j T) {models : Entries Model} (h : r.Edits j models r') :
    r'.wrapper? = r.wrapper? := by
  obtain ⟨component, m, f, name, change, b, ns, -, hf, hkeeps, -, -, -, hw⟩ := h
  refine hw.wrapper? fun n => ?_
  have hpath : f.path = m.file := (hs.path _ f hf).1
  have hat : r.sources.at? (({ f with bindings := b } : File).adjust name change).path = some f :=
    (congrArg r.sources.at? hpath).trans hf
  rw [function?_adjust hkeeps, hat]
  rfl

/-- What a pass makes of the function of a method: another one that keeps what is found, if it replaces
the wrapper of the method. -/
def Changes (p : Pass) (replaces : Bool) (m : Method) (g g' : Option Function) : Prop :=
  if replaces then ∃ g₀ result x, g = some g₀ ∧
    g' = some ((Wrapper.ofFunction g₀).returning m.localName result x) ∧
    Passes p (Wrapper.ofFunction g₀).arguments x
  else g' = g

/-- **A visit to a method** changes its function alone. -/
theorem Run.Visits.wrapper? (hs : r.Sound j T) {κ : Type} {w : Replacement κ}
    {late : κ → Schema → List String} {q : Endpoint × Method}
    (hheld : ∃ f, r.sources.at? q.1.file = some f) (h : r.Visits w j late q.1 q.2 r') :
    Changes w.pass (w.selects q.2) q.2 (r.wrapper? q) (r'.wrapper? q) ∧
      ∀ q' : Endpoint × Method, (q'.1.file, q'.2.localName) ≠ (q.1.file, q.2.localName) →
        r'.wrapper? q' = r.wrapper? q' := by
  obtain ⟨f, hf⟩ := hheld
  rcases h with ⟨rfl, hnone⟩ | h
  · have hselects : ¬ w.selects q.2 = true := fun hselects => by
      have hno := hnone (Replacement.selects_iff.1 hselects)
      rw [hf] at hno
      cases hno
    exact ⟨by rw [Changes, if_neg hselects], fun _ _ => rfl⟩
  · obtain ⟨response, k, f', g, g', b, hresponse, hk, hf', hg, hname, -, ⟨result, x, rfl, hpasses, -⟩, -, -,
      hw⟩ := h
    obtain rfl := Option.some.inj (hf.symm.trans hf')
    obtain ⟨log, rfl⟩ := hw
    have hselects : w.selects q.2 = true :=
      Replacement.selects_iff.2 ⟨response, k, hresponse, hk⟩
    have hpath : f.path = q.1.file := (hs.path _ f hf).1
    let g' := (Wrapper.ofFunction g).returning q.2.localName result x
    let f' := ({ f with bindings := b } : File).adjust q.2.localName fun _ => .function g'
    have hfound : ∀ n, f'.declaration? n =
        if n = q.2.localName then some (.function g') else f.declaration? n := fun n => by
      have hkept : ∀ d ∈ ({ f with bindings := b } : File).declarations, d.name = q.2.localName →
          (Declaration.function g').name = q.2.localName := fun _ _ _ => rfl
      rw [declaration?_adjust hkept,
        show ({ f with bindings := b } : File).declaration? q.2.localName = some (.function g) from hg]
      rfl
    have hat : ∀ path, (r.sources.put f').at? path =
        if path = q.1.file then some f' else r.sources.at? path := fun path => by
      rw [Sources.at?_put, show f'.path = q.1.file from hpath]
    refine ⟨?_, fun q' hq' => ?_⟩
    · rw [Changes, if_pos hselects]
      refine ⟨g, result, x, ?_, ?_, hpasses⟩
      · rw [Run.wrapper?, hf, Option.bind_some, File.function?, hg]
      · have hat := hat q.1.file
        rw [if_pos rfl] at hat
        rw [Run.wrapper?]
        simp only [g', f', hat, Option.bind_some, File.function?, hfound, if_true]
    · unfold Run.wrapper?
      rw [hat]
      split
      · next hfile =>
        have hne : q'.2.localName ≠ q.2.localName := fun hl => hq' (Prod.ext hfile hl)
        rw [hfile, hf, Option.bind_some, Option.bind_some, File.function?, hfound, if_neg hne,
          File.function?]
      · rfl

/-- **A pass that replaces wrappers** replaces those of the methods that it selects, once each. -/
theorem replacement_changes {κ : Type} {w : Replacement κ} {late : κ → Schema → List String}
    (hw : w.Lawful (j.types r) late) (hreads : w.pass.reads = some .backbone) (hs : r.Sound j T)
    {b : Backbone} (hb : r.backbone = some b) :
    Ends (w.run j) r (fun _ r' => r'.backbone = some b ∧ ∀ q ∈ b.methods,
        Changes w.pass (w.selects q.2) q.2 (r.wrapper? q) (r'.wrapper? q)) fun _ _ => True := by
  have hnodup := hs.nodup_methods hb
  have hdistinct : ∀ q ∈ b.methods, ∀ q' ∈ b.methods, q' ≠ q →
      (q'.1.file, q'.2.localName) ≠ (q.1.file, q.2.localName) := fun q hq q' hq' hne heq =>
    hne (List.inj_on_of_nodup_map hnodup hq' hq heq)
  -- The methods that were visited have changed, and the others are as they were.
  refine (replacement_visits (I := fun done r' =>
    (∀ q ∈ b.methods, q ∉ done → r'.wrapper? q = r.wrapper? q) ∧
      ∀ q ∈ done, Changes w.pass (w.selects q.2) q.2 (r.wrapper? q) (r'.wrapper? q)) hw hreads hs ?_
    (fun _ _ _ h => h) ⟨fun _ _ _ => rfl, by simp⟩).mono ?_ fun _ _ _ => trivial
  · rintro b' done q rest r₁ r₂ hb' hsplit h₁ hframe ⟨hsame, hdone⟩ hvisit
    obtain rfl := Option.some.inj (hb.symm.trans hb')
    have hq : q ∈ b.methods := hsplit ▸ List.mem_append_right _ List.mem_cons_self
    have hnew : q ∉ done := fun hin => by
      have hn := List.Nodup.of_map _ hnodup
      rw [hsplit] at hn
      exact (List.nodup_append.1 hn).2.2 q hin q List.mem_cons_self rfl
    obtain ⟨hchanges, hothers⟩ :=
      hvisit.wrapper? h₁ (h₁.exists_file (hframe.backbone.trans hb) hq)
    refine ⟨fun q' hq' hnot => ?_, List.forall_mem_append.2 ⟨fun q' hin => ?_, ?_⟩⟩
    · simp only [List.mem_append, List.mem_singleton, not_or] at hnot
      rw [hothers q' (hdistinct q hq q' hq' hnot.2)]
      exact hsame q' hq' hnot.1
    · have hq' : q' ∈ b.methods := hsplit ▸ List.mem_append_left _ hin
      have hne : q' ≠ q := fun heq => hnew (heq ▸ hin)
      rw [hothers q' (hdistinct q hq q' hq' hne)]
      exact hdone q' hin
    · rw [List.forall_mem_singleton, ← hsame q hq hnew]
      exact hchanges
  · rintro _ r' ⟨-, hframe, b', hb', -, hall⟩
    obtain rfl := Option.some.inj (hb.symm.trans hb')
    exact ⟨hframe.backbone.trans hb, hall⟩

/-- The pass that registers transfer types changes no function. -/
theorem registerTargets_wrapper? (j : Job) (r : Run) :
    Ends (registerTargets j) r (fun _ r' => r'.backbone = r.backbone ∧ r'.wrapper? = r.wrapper?)
      fun _ _ => True := by
  unfold registerTargets
  dsimp only
  cases j.settings.transferTypes.find? (·.2.name.isEmpty) with
  | some e => exact trivial
  | none => exact ⟨rfl, rfl⟩

end Steps

section Runs

variable {j : Job} (hv : j.document.Valid) {T : List Route} {r : Run} {b : Backbone}
include hv

/-- **What a pass makes of the functions**, if it is not the one that writes endpoints. -/
theorem execute_changes {p : Pass} (hp : p ≠ .backbone) (hs : r.Sound j T) (hb : r.backbone = some b) :
    Ends (p.execute j) r (fun _ r' => r'.backbone = some b ∧ ∀ q ∈ b.methods,
      Changes p (p.rewrites j.settings.pushClasses q.2) q.2 (r.wrapper? q) (r'.wrapper? q))
      fun _ _ => True := by
  have hsame : ∀ {r' : Run}, r'.wrapper? = r.wrapper? → ∀ q ∈ b.methods,
      Changes p false q.2 (r.wrapper? q) (r'.wrapper? q) := fun h q _ => congrFun h q
  cases p with
  | backbone => exact absurd rfl hp
  | transferTypes =>
    refine (registerTargets_wrapper? j r).imp fun _ r' ⟨hbackbone, hwrapper⟩ => ?_
    exact ⟨hbackbone.trans hb, hsame hwrapper⟩
  | model =>
    refine (writeModels_spec (keptByModels_wrapper? j T r) hv (fun _ _ _ h => h.1.2.transfers)
      (fun _ _ => ⟨⟨hs, .refl r⟩, rfl⟩) hs.referenced).mono ?_ fun _ _ _ => trivial
    rintro _ _ ⟨b', ms, r₁, log, ns, -, ⟨⟨-, hframe⟩, hwrapper⟩, rfl, -⟩
    exact ⟨hframe.backbone.trans hb, hsame hwrapper⟩
  | subtypes =>
    refine (flattenUnions_keeps hv (I := fun r' => r'.wrapper? = r.wrapper?) hs
      (fun _ r₁ r₂ _ h₁ _ hwrapper hedit => (hedit.wrapper? h₁).trans hwrapper) (fun _ _ h => h)
      rfl).mono ?_ fun _ _ _ => trivial
    rintro _ r' ⟨-, hframe, hwrapper⟩
    exact ⟨hframe.backbone.trans hb, hsame hwrapper⟩
  | push => exact replacement_changes (subscriptions_lawful _ _) rfl hs hb
  | signals =>
    have hdo : Pass.execute j .signals =
      (get >>= fun r => (signalConstructions r.models).run j : Action Unit) := rfl
    rw [hdo, ends_bind, ends_get]
    refine (replacement_changes (signalConstructions_lawful hs.plain _) rfl hs hb).imp
      fun _ r' ⟨hb', hall⟩ => ⟨hb', fun q hq => ?_⟩
    exact selects_signalConstructions r.models j.settings.pushClasses q.2 ▸ hall q hq

omit hv in
/-- After the pass that writes endpoints, the functions of methods pass an object to the client. -/
theorem Run.Forwarded.exists_passed (hs : r.Sound j T) (hb : r.backbone = some b)
    (h : r.Forwarded j T) : ∀ q ∈ b.methods, ∃ g entries, r.wrapper? q = some g ∧
      passed? g = some (Wrapper.ofFunction g).arguments ∧
      (Wrapper.ofFunction g).arguments = .object entries := by
  intro q hq
  obtain ⟨-, -, g, client, -, -, hwrapper, -, -, hforwards⟩ := h.wrapper? hs hb hq
  obtain ⟨-, hpassed, entries, hentries⟩ := hforwards.found
  exact ⟨g, entries, hwrapper, hpassed, hentries⟩

/-- **What any passes make of the functions**, after the pass that writes endpoints. -/
theorem executeAll_changes {after : List Pass} (hafter : .backbone ∉ after) (hs : r.Sound j T)
    (hb : r.backbone = some b)
    (hstart : ∀ q ∈ b.methods, ∃ g entries, r.wrapper? q = some g ∧
      passed? g = some (Wrapper.ofFunction g).arguments ∧
      (Wrapper.ofFunction g).arguments = .object entries) :
    Ends (executeAll j after) r (fun _ r' => ∀ q ∈ b.methods, ∃ g g', r.wrapper? q = some g ∧
        r'.wrapper? q = some g' ∧
        Rewritten g (after.filter (Pass.rewrites j.settings.pushClasses q.2)) g')
      fun _ _ => True := by
  refine (ends_forM (fun done (r' : Run) => (∃ T', r'.Sound j T') ∧ r'.backbone = some b ∧
    ∀ q ∈ b.methods, ∃ g g', r.wrapper? q = some g ∧ r'.wrapper? q = some g' ∧
      Rewritten g (done.filter (Pass.rewrites j.settings.pushClasses q.2)) g')
    ⟨⟨T, hs⟩, hb, fun q hq => ?_⟩ ?_).imp fun _ _ h => h.2.2
  · obtain ⟨g, entries, hg, hpassed, -⟩ := hstart q hq
    exact ⟨g, g, hg, hg, .refl hpassed⟩
  · rintro done p rest r₁ hd ⟨⟨T₁, hs₁⟩, hb₁, hall⟩
    rw [ends_bind, ends_modify, ends_adapt]
    have hp : p ≠ .backbone := fun heq => hafter (hd ▸ heq ▸ by simp)
    have hs₁ := hs₁.log (r₁.log ++ [⟨.debug, "tsgen_core::generator", "executing plugin " ++ p.path⟩])
    refine ((execute_sound hv p hs₁).and (execute_changes hv hp hs₁ hb₁)).mono ?_ fun _ _ _ => trivial
    rintro _ r₂ ⟨⟨⟨T₂, hs₂, -⟩, -⟩, hb₂, hchanges⟩
    refine ⟨⟨_, hs₂⟩, hb₂, fun q hq => ?_⟩
    obtain ⟨g, g', hg, hg', hrewritten⟩ := hall q hq
    obtain ⟨g₀, entries, hg₀, -, hobject⟩ := hstart q hq
    obtain rfl := Option.some.inj (hg.symm.trans hg₀)
    have hchange : Changes p (p.rewrites j.settings.pushClasses q.2) q.2 (r₁.wrapper? q) (r₂.wrapper? q) :=
      hchanges q hq
    rw [hg', Changes] at hchange
    rw [List.filter_append]
    split at hchange
    · next hselected =>
      obtain ⟨g₁, result, x, hg₁, hg₂, hpasses⟩ := hchange
      obtain rfl := Option.some.inj hg₁
      rw [List.filter_cons_of_pos hselected, List.filter_nil]
      exact ⟨g, _, hg, hg₂, hrewritten.step ⟨entries, hobject⟩ _ _ hpasses⟩
    · next hnot =>
      rw [List.filter_cons_of_neg hnot, List.filter_nil, List.append_nil]
      exact ⟨g, g', hg, hchange, hrewritten⟩

end Runs

/-- A replaced function takes the parameters of the first one, but for that for the request, and passes
the object that it passed. -/
structure KeepsParameters (g g' : Function) : Prop where
  parameters : g'.parameters = g.parameters.dropLast
  passed : passed? g' = passed? g

/-- **What becomes of a wrapper** that any passes replace, in any order and repeatedly, after the pass
that writes endpoints: it always keeps its parameters, and it passes the same object, exactly if the
method takes no arguments or no signal is constructed before the last replacement. -/
theorem executeAll_rewritten {d : Document} (hd : d.validate = .ok ()) {settings : Settings}
    {before after : List Pass} (hafter : .backbone ∉ after) {log : List LogLine} {r r' : Run}
    (hr : (executeAll ⟨d, settings⟩ (before ++ [.backbone])).run.run
      { Run.start settings with log } = (.ok (), r))
    (hr' : (executeAll ⟨d, settings⟩ after).run.run r = (.ok (), r')) :
    ∃ b, r.backbone = some b ∧ ∀ q ∈ b.methods, ∃ g g', r.wrapper? q = some g ∧
      r'.wrapper? q = some g' ∧
      let rewrites := after.filter (Pass.rewrites settings.pushClasses q.2)
      (rewrites = [] → g' = g) ∧
      (rewrites ≠ [] → g'.parameters = g.parameters.dropLast ∧
        (KeepsParameters g g' ↔ q.2.arguments = [] ∨ .signals ∉ rewrites.dropLast)) := by
  have hv := Document.valid_of_validate hd
  obtain ⟨T, b, hs, hb, -, -, hforwarded⟩ :=
    (executeAll_forwarded (j := ⟨d, settings⟩) hv before log).result hr
  have hall := (executeAll_changes (j := ⟨d, settings⟩) hv hafter hs hb
    (hforwarded.exists_passed hs hb)).result hr'
  refine ⟨b, hb, fun q hq => ?_⟩
  obtain ⟨g, g', hg, hg', hrewritten⟩ := hall q hq
  obtain ⟨t, -, g₀, client, -, -, hwrapper, -, -, hforwards⟩ := hforwarded.wrapper? hs hb hq
  obtain rfl := Option.some.inj (hg.symm.trans hwrapper)
  obtain ⟨hparameters, hpassed, -⟩ := hforwards.found
  refine ⟨g, g', hg, hg', hrewritten.start, fun hne => ?_⟩
  have hkept : g'.parameters = g.parameters.dropLast := (hrewritten.parameters hne).trans hparameters
  have hempty : (Wrapper.ofFunction g).arguments = .object [] ↔ q.2.arguments = [] := by
    simpa using hforwards.arguments_eq_nil_iff
  refine ⟨hkept, fun hkeeps => ?_, fun h => ⟨hkept, ?_⟩⟩
  · have hsame := hkeeps.passed
    rw [hrewritten.passed, hpassed] at hsame
    split at hsame
    · exact .inl (hempty.1 (Option.some.inj hsame).symm)
    · next hnot => exact .inr hnot
  · rw [hrewritten.passed, hpassed]
    split
    · next hmem => rw [hempty.2 (h.resolve_right fun hnot => hnot hmem)]
    · rfl

/-- A method with an argument that gives back a signal. -/
def countingFrom : Json :=
  let response := Json.object [
    ("description", .string ""),
    ("content", .object [("application/json", .object [
      ("schema", refTo "com.vaadin.hilla.signals.NumberSignal")])])]
  .object [
    ("openapi", .string "3.0.1"),
    ("info", .object [("title", .string "t"), ("version", .string "1")]),
    ("paths", .object [("/E/count", .object [("post", .object [
      ("parameters", .array [.object [("name", .string "start"), ("in", .string "query")]]),
      ("responses", .object [("200", response)])])])]),
    ("components", .object [("schemas", .object [
      ("com.vaadin.hilla.signals.NumberSignal", .object [("type", .string "object")])])])]

/-- Other passes give the function of the only method another one, after the pass that writes endpoints. -/
def RewritesCounting (after : List Pass) (d : Document) (r r' : Run) (b : Backbone) (q : Endpoint × Method)
    (g g' : Function) : Prop :=
  Document.ofJson countingFrom = .ok d ∧ d.validate = .ok () ∧
    (executeAll ⟨d, {}⟩ ([.transferTypes] ++ [.backbone])).run.run (Run.start {}) = (.ok (), r) ∧
    (executeAll ⟨d, {}⟩ after).run.run r = (.ok (), r') ∧ r.backbone = some b ∧ b.methods = [q] ∧
    r.wrapper? q = some g ∧ r'.wrapper? q = some g'

theorem exists_of_rewritesCounting (after : List Pass) (test : Method → Function → Function → Bool)
    (h : (runOf? countingFrom {} ([.transferTypes] ++ [.backbone])).any (fun p =>
      (p.2.after? (executeAll ⟨p.1, {}⟩ after)).any fun r' => p.2.onlyMethod?.any fun q =>
        (p.2.wrapper? q).any fun g => (r'.wrapper? q).any fun g' => test q.2 g g') = true) :
    ∃ d r r' b q g g', RewritesCounting after d r r' b q g g' ∧ test q.2 g g' = true := by
  have hrun := exists_of_runOf? countingFrom {} ([.transferTypes] ++ [.backbone]) fun d r =>
    (r.after? (executeAll ⟨d, {}⟩ after)).any fun r' => r.onlyMethod?.any fun q =>
      (r.wrapper? q).any fun g => (r'.wrapper? q).any fun g' => test q.2 g g'
  obtain ⟨d, r, hd, hvalid, hr, htest⟩ := hrun h
  obtain ⟨r', hafter, htest⟩ := (Option.any_eq_true ..).1 htest
  obtain ⟨q, honly, htest⟩ := (Option.any_eq_true ..).1 htest
  obtain ⟨b, hb, hq⟩ := Run.of_onlyMethod? honly
  obtain ⟨g, hg, htest⟩ := (Option.any_eq_true ..).1 htest
  obtain ⟨g', hg', htest⟩ := (Option.any_eq_true ..).1 htest
  exact ⟨d, r, r', b, q, g, g', ⟨hd, hvalid, hr, Run.of_after? hafter, hb, hq, hg, hg'⟩, htest⟩

/-- A run in which a signal is constructed in the place of a call, and passes the argument. -/
theorem executeAll_rewritten_constructsOnce :
    .backbone ∉ [Pass.push, .signals] ∧
      ∃ d r r' b q g g', RewritesCounting [.push, .signals] d r r' b q g g' ∧
        [Pass.push, .signals].filter (Pass.rewrites (Settings.pushClasses {}) q.2) = [.signals] ∧
        g.parameters.map (·.name) = ["start", "init"] ∧ KeepsParameters g g' := by
  have hafter : .backbone ∉ [Pass.push, .signals] := by decide
  obtain ⟨d, r, r', b, q, g, g', hrun, htest⟩ := exists_of_rewritesCounting
    [.push, .signals] (fun m g _ =>
      decide ([Pass.push, .signals].filter (Pass.rewrites (Settings.pushClasses {}) m) = [.signals]) &&
        decide (g.parameters.map (·.name) = ["start", "init"])) (by decide +kernel)
  obtain ⟨hrewrites, hnames⟩ := Bool.and_eq_true_iff.1 htest
  obtain ⟨-, hvalid, hr, hr', hb, hq, hg, hg'⟩ := id hrun
  obtain ⟨b', hb', hall⟩ := executeAll_rewritten hvalid hafter hr hr'
  obtain rfl := Option.some.inj (hb.symm.trans hb')
  obtain ⟨g₀, g₀', hg₀, hg₀', -, hkeeps⟩ := hall q (by simp [hq])
  obtain rfl := Option.some.inj (hg.symm.trans hg₀)
  obtain rfl := Option.some.inj (hg'.symm.trans hg₀')
  have hrewrites := of_decide_eq_true hrewrites
  rw [hrewrites] at hkeeps
  exact ⟨hafter, d, r, r', b, q, g, g', hrun, hrewrites, of_decide_eq_true hnames,
    (hkeeps (by simp)).2.2 (.inr (by simp))⟩

/-- **An object that is lost**: the construction of a signal that replaces another one passes no
argument. -/
theorem not_keepsParameters :
    ∃ d r r' b q g g', RewritesCounting [.signals, .signals] d r r' b q g g' ∧ ¬ KeepsParameters g g' := by
  obtain ⟨d, r, r', b, q, g, g', hrun, htest⟩ := exists_of_rewritesCounting
    [.signals, .signals] (fun _ g g' =>
      decide ((passed? g').map (·.keys) ≠ (passed? g).map (·.keys))) (by decide +kernel)
  exact ⟨d, r, r', b, q, g, g', hrun, fun hkeeps => of_decide_eq_true htest (by rw [hkeeps.passed])⟩

end Client
end OpenApiClient
