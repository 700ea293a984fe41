/-
# Names at the top of a file

Imports and declarations enter a file from several passes, and several endpoints and models may share
one. Still no two of them have one name, and none is called by a reserved word, in whatever order and
however often passes come (`executeAll_names`): a name is only given when it is free, what is imported
already keeps its name, and a sound run has tidy files (`Run.Sound`).

The passes that come after the one that writes models change declarations in place. They leave all
names as they are (`execute_declaredNames`).
-/

import OpenApiClient.Proofs.Generation

namespace OpenApiClient

namespace Module

/-- The names at the top of a file: those of its imports and those of its declarations. -/
def File.topNames (f : File) : List String :=
  f.bindings.imports.localNames ++ f.declarations.map (·.name)

/-- The names of the declarations of each file. -/
def Sources.declaredNames (s : Sources) : Entries (List String) :=
  s.files.map fun e => (e.1, e.2.declarations.map (·.name))

/-- A file in the place of one that declares the same names. -/
theorem Sources.declaredNames_put {s : Sources} {f g : File} (hg : s.at? f.path = some g)
    (h : f.declarations.map (·.name) = g.declarations.map (·.name)) :
    (s.put f).declaredNames = s.declaredNames := by
  unfold Sources.at? at hg
  simp only [Sources.declaredNames, Sources.put]
  generalize s.files = es at hg
  induction es with
  | nil => cases hg
  | cons e es ih =>
    rw [Entries.at?_cons] at hg
    split at hg
    · next hk =>
      obtain rfl := Option.some.inj hg
      simp [Entries.put, hk, h]
    · next hk =>
      have hk' : ¬ e.1 = f.path := fun he => hk he.symm
      simp [Entries.put, hk', ih hg]

end Module

namespace Client

open OpenApi OpenApiClient.Module TypeScript

section Late

variable {j : Job} {T : List Route} {r r' : Run}

/-- A declaration is changed in place. -/
theorem declaredNames_of_adjust (h : r.Sound j T) {path name : String} {f : File}
    {b : Bindings} {change : Declaration → Declaration} (hf : r.sources.at? path = some f)
    (hname : ∀ d ∈ f.declarations, d.name = name → (change d).name = name)
    (hw : r.Writes ({ f with bindings := b }.adjust name change) r') :
    r'.sources.declaredNames = r.sources.declaredNames := by
  obtain ⟨log, rfl⟩ := hw
  refine Sources.declaredNames_put (g := f) ?_ (map_name_adjustFirst hname)
  rw [← hf]
  exact congrArg _ (h.path path f hf).1

variable (hv : j.document.Valid)
include hv

/-- **The passes over unions, subscriptions and signals change no name of a declaration.** -/
theorem execute_declaredNames (h : r.Sound j T) {p : Pass}
    (hp : p = .subtypes ∨ p = .push ∨ p = .signals) :
    Ends (p.execute j) r (fun _ r' => r'.sources.declaredNames = r.sources.declaredNames)
      fun _ _ => True := by
  refine (execute_keeps (I := fun r' => r'.sources.declaredNames = r.sources.declaredNames) hv hp h
    ?_ ?_ (fun _ _ h => h) rfl).mono (fun _ _ h => h.2.2) fun _ _ _ => trivial
  · rintro ms r₁ r₂ - h₁ - hnames ⟨component, m, f, name, change, b, ns, -, hat, hkeeps, -, -, -, hw⟩
    exact (declaredNames_of_adjust h₁ hat (fun d _ hn => (hkeeps.name d).trans hn) hw).trans hnames
  · rintro κ w late b e m r₁ r₂ - - - h₁ - hnames
      ⟨response, k, f, g, g', b', -, -, hat, -, hname, -, -, -, -, hw⟩
    have hkeeps : ∀ d ∈ f.declarations, d.name = m.localName →
      (Declaration.function g').name = m.localName := fun _ _ _ => hname
    exact (declaredNames_of_adjust h₁ hat hkeeps hw).trans hnames

end Late

/-- **The names at the top of each file are pairwise different, and none is a reserved word**, whatever
passes were executed; and unions, subscriptions and signals leave the names of declarations alone. -/
theorem executeAll_names {d : Document} (hd : d.validate = .ok ()) {settings : Settings}
    {passes : List Pass} {log : List LogLine} {r : Run}
    (hr : (executeAll ⟨d, settings⟩ passes).run.run { Run.start settings with log } = (.ok (), r)) :
    (∀ f ∈ r.sources.files.values, f.topNames.Nodup ∧ ∀ n ∈ f.topNames, n ∉ reservedWords) ∧
      ∀ p : Pass, p = .subtypes ∨ p = .push ∨ p = .signals → ∀ r',
        (p.execute ⟨d, settings⟩).run.run r = (.ok (), r') →
          r'.sources.declaredNames = r.sources.declaredNames := by
  have hv := Document.valid_of_validate hd
  obtain ⟨T, hs, -⟩ := (executeAll_sound (j := ⟨d, settings⟩) hv passes
    (Run.Sound.start ⟨d, settings⟩ log)).result hr
  refine ⟨fun f hf => ?_, fun p hp r' hr' => (execute_declaredNames hv hs hp).result hr'⟩
  have htidy := (hs.serves f.path f (hs.mem_values hf)).tidy
  refine ⟨htidy.apart, fun n hn hreserved => ?_⟩
  have := htidy.unreserved n hn
  rw [isReserved, List.contains_eq_mem, decide_eq_false_iff_not] at this
  exact this hreserved

/-- Two methods, one called by a reserved word and one like the component that both give back. -/
def collidingNames : Json :=
  operationsDocument [("/E/delete", refTo "a.Page"), ("/E/Page", refTo "a.Page")]
    [("a.Page", .object [("properties", .object [("next", refTo "b.Page")])]),
      ("b.Page", .object [("type", .string "string")])]

/-- A run in which names collide, and a pass after it. -/
theorem executeAll_names_collidingNames :
    let passes : List Pass := [.backbone, .model, .push, .subtypes, .push]
    ∃ d r r', Document.ofJson collidingNames = .ok d ∧ d.validate = .ok () ∧
      (executeAll ⟨d, {}⟩ passes).run.run (Run.start {}) = (.ok (), r) ∧
      (Pass.push.execute ⟨d, {}⟩).run.run r = (.ok (), r') ∧
      (r.sources.files.values.map fun f => (f.path, f.topNames)) = [
        ("E.ts", ["Page_1", "EndpointRequestInit", "client", "delete_1", "Page"]),
        ("a/Page.ts", ["Page_1", "Page"]), ("b/Page.ts", ["Page"])] ∧
      (∀ f ∈ r.sources.files.values, f.topNames.Nodup ∧ ∀ n ∈ f.topNames, n ∉ reservedWords) ∧
      r'.sources.declaredNames = r.sources.declaredNames := by
  intro passes
  obtain ⟨d, r, hd, hvalid, hr, htest⟩ := exists_of_runOf? collidingNames {} passes
    (fun d r =>
      decide (((Pass.push.execute ⟨d, {}⟩).run.run r).1 = .ok ()) &&
        decide ((r.sources.files.values.map fun f => (f.path, f.topNames)) = [
          ("E.ts", ["Page_1", "EndpointRequestInit", "client", "delete_1", "Page"]),
          ("a/Page.ts", ["Page_1", "Page"]), ("b/Page.ts", ["Page"])])) (by decide +kernel)
  obtain ⟨hpush, hnames⟩ := Bool.and_eq_true_iff.1 htest
  have hr' : (Pass.push.execute ⟨d, {}⟩).run.run r =
      (.ok (), ((Pass.push.execute ⟨d, {}⟩).run.run r).2) :=
    Prod.ext (of_decide_eq_true hpush) rfl
  obtain ⟨hall, hkept⟩ := @executeAll_names d hvalid {} passes [] r hr
  exact ⟨d, r, _, hd, hvalid, hr, hr', of_decide_eq_true hnames, hall, hkept .push (by simp) _ hr'⟩

end Client
end OpenApiClient
