/-
# How a generation ends

A generation loads a document, which is valid then, and executes the passes of the settings from an
empty run. Its result is that of the run: the error of the pass that failed (`generate_eq_pass`), or
the files that are not empty (`generate_eq_ok`).
-/

import OpenApiClient.Proofs.DocumentEncoding
import OpenApiClient.Proofs.Runs

namespace OpenApiClient
namespace Client

open OpenApi OpenApiClient.Module

/-- A document that is loaded was read and validated. -/
theorem read_of_load {origin : Origin} {log : List LogLine} {d : Document}
    (h : load origin = (log, .ok d)) : d.WasRead ∧ d.validate = .ok () := by
  have hvalidated : ∀ {x : Except DocumentError Document}, validated x = .ok d →
      x = .ok d ∧ d.validate = .ok () := by
    intro x hx
    obtain ⟨d', hread, hx⟩ := bind_eq_ok.1 hx
    obtain ⟨⟨⟩, hval, hd⟩ := bind_eq_ok.1 hx
    obtain rfl := Except.ok.inj hd
    constructor
    · cases x with
      | ok d => exact congrArg _ (Except.ok.inj hread)
      | error e => cases hread
    · cases hv : d'.validate with
      | ok u => rfl
      | error e => rw [hv] at hval; cases hval
  cases origin with
  | text text =>
    obtain ⟨hread, hval⟩ := hvalidated (Prod.mk.inj h).2
    rw [Document.ofText] at hread
    split at hread
    · exact ⟨.inl ⟨text, hread⟩, hval⟩
    · exact ⟨.inr (.inl ⟨text, hread⟩), hval⟩
  | value value =>
    obtain ⟨hread, hval⟩ := hvalidated (Prod.mk.inj h).2
    exact ⟨.inr (.inr ⟨value, hread⟩), hval⟩
  | path files path =>
    unfold load at h
    dsimp only at h
    split at h
    · cases (Prod.mk.inj h).2
    · obtain ⟨hread, hval⟩ := hvalidated (Prod.mk.inj h).2
      exact ⟨.inr (.inr ⟨_, hread⟩), hval⟩

/-- A document that is loaded was found valid. -/
theorem valid_of_load {origin : Origin} {log : List LogLine} {d : Document}
    (h : load origin = (log, .ok d)) : d.Valid :=
  Document.valid_of_validate (read_of_load h).2

theorem unknown_of_ofNames {names : List String} {e : GenerationError}
    (h : Pass.ofNames names = .error e) : ∃ name, e = .unknownPass name := by
  obtain ⟨name, -, hname⟩ := exists_eq_error_of_mapM h
  split at hname
  · cases hname
  · exact ⟨name, (Except.error.inj hname).symm⟩

/-- **A failed pass** failed in the run of the passes on the loaded document. -/
theorem generate_eq_pass {settings : Settings} {directory : String} {origin : Origin} {p : Pass}
    {e : PassError} (h : (generate settings directory origin).result = .error (.pass p e)) :
    ∃ passes log d log' r, Pass.ofNames settings.passes = .ok passes ∧ load origin = (log, .ok d) ∧
      (executeAll ⟨d, settings⟩ passes).run.run { Run.start settings with log := log' } =
        (.error (p, e), r) := by
  unfold generate at h
  cases hp : Pass.ofNames settings.passes with
  | error e' =>
    obtain ⟨name, rfl⟩ := unknown_of_ofNames hp
    rw [hp] at h
    cases h
  | ok passes =>
    rw [hp] at h
    rcases hl : load origin with ⟨log, e' | d⟩
    · rw [hl] at h; cases h
    · rw [hl] at h
      dsimp only at h
      split at h
      · next p' e' r hr =>
        cases h
        exact ⟨passes, log, d, _, r, rfl, rfl, hr⟩
      · cases h

/-- A document of operations, by their paths and the schemas of what they give back, and of components. -/
def operationsDocument (operations components : List (String × Json)) : Json :=
  let response (schema : Json) : Json := .object [
    ("description", .string ""),
    ("content", .object [("application/json", .object [("schema", schema)])])]
  .object [
    ("openapi", .string "3.0.1"),
    ("info", .object [("title", .string "t"), ("version", .string "1")]),
    ("paths", .object (operations.map fun (path, schema) =>
      (path, .object [("post", .object [("responses", .object [("200", response schema)])])]))),
    ("components", .object [("schemas", .object components)])]

/-- A reference to a component. -/
def refTo (component : String) : Json :=
  .object [("$ref", .string ("#/components/schemas/" ++ component))]

/-- The run of passes on the document that a value stands for, if it is valid and no pass fails. -/
def runOf? (document : Json) (settings : Settings) (passes : List Pass) : Option (Document × Run) :=
  match Document.ofJson document with
  | .error _ => none
  | .ok d =>
    if d.validate = .ok () then
      match (executeAll ⟨d, settings⟩ passes).run.run (Run.start settings) with
      | (.ok _, r) => some (d, r)
      | (.error _, _) => none
    else none

theorem exists_of_runOf? (document : Json) (settings : Settings) (passes : List Pass)
    (test : Document → Run → Bool)
    (h : (runOf? document settings passes).any (fun p => test p.1 p.2) = true) :
    ∃ d r, Document.ofJson document = .ok d ∧ d.validate = .ok () ∧
      (executeAll ⟨d, settings⟩ passes).run.run (Run.start settings) = (.ok (), r) ∧
        test d r = true := by
  unfold runOf? at h
  split at h
  · cases h
  · next d hd =>
    split at h
    · next hvalid =>
      split at h
      · next u r hr => exact ⟨d, r, hd, hvalid, hr, h⟩
      · cases h
    · cases h

/-- The run after an action, if it does not fail. -/
def Run.after? {ε : Type} (r : Run) (m : ExceptT ε (StateM Run) Unit) : Option Run :=
  match m.run.run r with
  | (.ok _, r') => some r'
  | (.error _, _) => none

theorem Run.of_after? {ε : Type} {r r' : Run} {m : ExceptT ε (StateM Run) Unit}
    (h : r.after? m = some r') : m.run.run r = (.ok (), r') := by
  unfold Run.after? at h
  split at h
  · next u r₁ hr => rw [hr, Option.some.inj h]
  · cases h

/-- The files that are written. -/
def emitted (s : Sources) : List File := s.files.values.filter (!·.isEmpty)

/-- A file that declares something is written. -/
theorem mem_emitted {s : Sources} {path : String} {f : File} {d : TypeScript.Declaration}
    (hf : s.at? path = some f) (hd : d ∈ f.declarations) : f ∈ emitted s := by
  refine List.mem_filter.2 ⟨List.mem_map.2 ⟨_, Entries.mem_of_at? hf, rfl⟩, ?_⟩
  cases hds : f.declarations with
  | nil => simp [hds] at hd
  | cons d ds => simp [File.isEmpty, hds]

theorem Run.Sound.mem_values {j : Job} {T : List Route} {r : Run} (h : r.Sound j T) {f : File}
    (hf : f ∈ r.sources.files.values) : r.sources.at? f.path = some f := by
  obtain ⟨⟨path, f'⟩, hmem, rfl⟩ := List.mem_map.1 hf
  have hat : r.sources.at? path = some f' := Entries.at?_of_mem h.keys hmem
  rw [(h.path path f' hat).1, hat]

/-- **The files of a client** are those of the run of the passes on the loaded document. -/
theorem generate_eq_ok {settings : Settings} {directory : String} {origin : Origin}
    {outputs : List Output} (h : (generate settings directory origin).result = .ok outputs) :
    ∃ passes log d log' r, Pass.ofNames settings.passes = .ok passes ∧ load origin = (log, .ok d) ∧
      (executeAll ⟨d, settings⟩ passes).run.run { Run.start settings with log := log' } =
        (.ok (), r) ∧ outputs = (emitted r.sources).map fun f => ⟨f.path, f.text, f.origin⟩ := by
  unfold generate at h
  cases hp : Pass.ofNames settings.passes with
  | error e => rw [hp] at h; cases h
  | ok passes =>
    rw [hp] at h
    rcases hl : load origin with ⟨log, e | d⟩
    · rw [hl] at h; cases h
    · rw [hl] at h
      dsimp only at h
      split at h
      · cases h
      · next u r hr =>
        exact ⟨passes, log, d, _, r, rfl, rfl, hr, (Except.ok.inj h).symm⟩

end Client
end OpenApiClient
