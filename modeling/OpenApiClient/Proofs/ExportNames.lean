/-
# The names that a file exports

What a file writes about its exports is a list of statements (`Exports.lines_eq`): one for the named exports,
and one for the default export, which other modules import under the name `default`.

`Exports.add` keeps the named exports apart: a name belongs to the first binding that asked for it
(`named_ofSteps`), whatever is done in between, and who asks for a name of another binding is refused and
changes nothing. It does not look at the default export, and neither does `Exports.setDefault` look at the
names, so that `default` is exported twice exactly when a binding was exported under that name and there is a
default export (`exportedOnce_iff`).
-/

import OpenApiClient.Module.Exports
import OpenApiClient.Proofs.Entries
import Mathlib.Data.List.Induction

namespace OpenApiClient
namespace Module

/-- An export statement. -/
inductive ExportStatement where
  /-- Bindings, with the names that they are exported under. -/
  | named (items : List (String × String))
  | default (localName : String)
deriving DecidableEq, Repr

namespace ExportStatement

/-- The statement as it is written. -/
def text : ExportStatement → String
  | .named items => "export \x7b " ++ ", ".intercalate (items.map Exports.item) ++ " \x7d;"
  | .default localName => "export default " ++ localName ++ ";"

/-- The names that the statement exports something under. -/
def names : ExportStatement → List String
  | .named items => items.map (·.2)
  | .default _ => ["default"]

end ExportStatement

namespace Exports

/-- The statements for the exports. -/
def statements (e : Exports) : List ExportStatement :=
  (if e.named.isEmpty then [] else [.named e.named]) ++ e.default.toList.map .default

/-- **What is written of the exports are their statements.** -/
theorem lines_eq (e : Exports) : e.lines = e.statements.map ExportStatement.text := by
  rw [lines, statements, List.map_append, apply_ite (List.map _), List.map_map]
  rfl

/-- The names that the statements export something under. -/
def exportedNames (e : Exports) : List String := e.statements.flatMap ExportStatement.names

theorem exportedNames_eq (e : Exports) :
    e.exportedNames = e.named.map (·.2) ++ e.default.toList.map fun _ => "default" := by
  have hnamed : ((if e.named.isEmpty then [] else [.named e.named]) : List ExportStatement).flatMap
      ExportStatement.names = e.named.map (·.2) := by
    cases e.named <;> simp [ExportStatement.names]
  rw [exportedNames, statements, List.flatMap_append, hnamed]
  cases e.default <;> rfl

/-- Something done to the exports. -/
inductive Step where
  | add (localName exported : String)
  | setDefault (localName : String)
deriving DecidableEq, Repr

/-- What a step answers if it is refused, and the exports after it. -/
def perform (e : Exports) : Step → Option DuplicateExport × Exports
  | .add localName exported => match e.add localName exported with
    | .ok e' => (none, e')
    | .error error => (some error, e)
  | .setDefault localName => (none, e.setDefault localName)

/-- The exports after steps. -/
def ofSteps (steps : List Step) : Exports := steps.foldl (fun e s => (e.perform s).2) {}

/-- The name that a step asks for, and the binding that it asks it for. -/
def Step.request? : Step → Option (String × String)
  | .add localName exported => some (exported, localName)
  | .setDefault _ => none

/-- The binding that a step makes the default export. -/
def Step.default? : Step → Option String
  | .add _ _ => none
  | .setDefault localName => some localName

section Perform

variable {e : Exports} {localName exported : String}

/-- The named exports as a map of names to bindings. -/
def byName (e : Exports) : Entries String := e.named.map Prod.swap

theorem find?_named (e : Exports) (exported : String) :
    e.named.find? (·.2 == exported) = (e.byName.at? exported).map (·, exported) := by
  rw [byName]
  induction e.named with
  | nil => rfl
  | cons p ps ih =>
    rw [List.map_cons, List.find?_cons, Entries.at?_cons, ih]
    by_cases h : p.2 = exported
    · simp [← h]
    · simp [beq_eq_false_iff_ne.2 h, Ne.symm h]

theorem perform_add_of_none (h : e.byName.at? exported = none) :
    e.perform (.add localName exported) = (none, { e with named := e.named ++ [(localName, exported)] }) := by
  simp [perform, add, find?_named, h]

theorem perform_add_of_some {existing : String} (h : e.byName.at? exported = some existing) :
    e.perform (.add localName exported) =
      (if existing = localName then none else some ⟨exported, existing, localName⟩, e) := by
  by_cases hl : existing = localName <;> simp [perform, add, find?_named, h, hl]

/-- **A step that is refused changes nothing**, and tells the name and the binding that has it. -/
theorem perform_eq_some_iff {step : Step} {error : DuplicateExport} :
    (e.perform step).1 = some error ↔
      step = .add error.localName error.exported ∧ e.byName.at? error.exported = some error.existing ∧
        error.existing ≠ error.localName := by
  cases step with
  | setDefault localName => simp [perform]
  | add localName exported =>
    cases h : e.byName.at? exported with
    | none =>
      rw [perform_add_of_none h]
      simp only [reduceCtorEq, Step.add.injEq, false_iff, not_and]
      rintro ⟨-, rfl⟩ hsome
      rw [h] at hsome
      cases hsome
    | some existing =>
      rw [perform_add_of_some h]
      obtain ⟨x, n, l⟩ := error
      by_cases hl : existing = localName <;> grind

/-- After a step each name has the binding that it had, or the one that asks for it. -/
theorem byName_perform (step : Step) :
    (e.perform step).2.byName = match step.request? with
      | none => e.byName
      | some r => if e.byName.has r.1 then e.byName else e.byName ++ [r] := by
  cases step with
  | setDefault localName => rfl
  | add localName exported =>
    cases h : e.byName.at? exported with
    | none =>
      have hnew : ¬ e.byName.has exported = true := by simp [Entries.has, h]
      rw [perform_add_of_none h]
      dsimp only [Step.request?]
      rw [if_neg hnew, byName, List.map_append]
      rfl
    | some existing =>
      rw [perform_add_of_some h]
      simp [Step.request?, Entries.has, h]

theorem default_perform (step : Step) :
    (e.perform step).2.default = step.default?.or e.default := by
  cases step with
  | setDefault localName => rfl
  | add localName exported =>
    cases h : e.byName.at? exported with
    | none => rw [perform_add_of_none h]; rfl
    | some existing => rw [perform_add_of_some h]; rfl

end Perform

section Runs

/-- **A name belongs to the first binding that asked for it.** -/
theorem byName_ofSteps (steps : List Step) :
    (ofSteps steps).byName = Entries.firsts (steps.filterMap Step.request?) := by
  induction steps using List.reverseRecOn with
  | nil => rfl
  | append_singleton steps step ih =>
    rw [ofSteps, List.foldl_append, List.foldl_cons, List.foldl_nil, byName_perform, ← ofSteps,
      List.filterMap_append, Entries.firsts, List.foldl_append, ← Entries.firsts, ih]
    cases hr : step.request? <;> simp [hr]

/-- The default export is the last one that was set. -/
theorem default_ofSteps (steps : List Step) :
    (ofSteps steps).default = (steps.filterMap Step.default?).getLast? := by
  induction steps using List.reverseRecOn with
  | nil => rfl
  | append_singleton steps step ih =>
    rw [ofSteps, List.foldl_append, List.foldl_cons, List.foldl_nil, default_perform, ← ofSteps,
      List.filterMap_append, List.getLast?_append, ih]
    cases hd : step.default? <;> simp [hd]

theorem map_snd_named (e : Exports) : e.named.map (·.2) = e.byName.keys := by
  rw [byName, Entries.keys, List.map_map]
  rfl

theorem nodup_named_ofSteps (steps : List Step) : ((ofSteps steps).named.map (·.2)).Nodup := by
  rw [map_snd_named, byName_ofSteps]
  exact Entries.nodup_keys_firsts _

theorem named_default_iff (steps : List Step) :
    "default" ∈ (ofSteps steps).named.map (·.2) ↔ ∃ localName, .add localName "default" ∈ steps := by
  rw [map_snd_named, byName_ofSteps, Entries.mem_keys_firsts, Entries.keys, List.mem_map]
  constructor
  · rintro ⟨⟨exported, localName⟩, hr, rfl⟩
    obtain ⟨step, hstep, hr⟩ := List.mem_filterMap.1 hr
    cases step with
    | setDefault => cases hr
    | add => cases hr; exact ⟨_, hstep⟩
  · rintro ⟨localName, h⟩
    exact ⟨_, List.mem_filterMap.2 ⟨_, h, rfl⟩, rfl⟩

theorem default_ne_none_iff (steps : List Step) :
    (ofSteps steps).default ≠ none ↔ ∃ localName, .setDefault localName ∈ steps := by
  rw [default_ofSteps, ne_eq, List.getLast?_eq_none_iff, List.filterMap_eq_nil_iff]
  push Not
  constructor
  · rintro ⟨step, hstep, hd⟩
    cases step with
    | add => exact absurd rfl hd
    | setDefault localName => exact ⟨localName, hstep⟩
  · rintro ⟨localName, h⟩
    exact ⟨_, h, nofun⟩

/-- **When each name is exported once.** After any steps, no name is given to two bindings; the statements
export each name at most once, the default export among them as `default`, unless the steps both exported
a binding under the name `default` and set a default export. A step that is refused changes nothing. -/
theorem exportedOnce_iff (steps : List Step) :
    let e := ofSteps steps
    e.lines = e.statements.map ExportStatement.text ∧
      (e.named.map (·.2)).Nodup ∧
      (e.exportedNames.Nodup ↔
        ¬ ((∃ localName, .add localName "default" ∈ steps) ∧ ∃ localName, .setDefault localName ∈ steps)) ∧
      ∀ step error, (e.perform step).1 = some error → (e.perform step).2 = e := by
  intro e
  refine ⟨lines_eq e, nodup_named_ofSteps steps, ?_, fun step error h => ?_⟩
  · rw [exportedNames_eq, ← named_default_iff, ← default_ne_none_iff]
    have hnamed := nodup_named_ofSteps steps
    cases hd : (ofSteps steps).default with
    | none => simpa [e, hd] using hnamed
    | some localName =>
      rw [and_iff_left (Option.some_ne_none localName)]
      exact ⟨fun h hmem => (List.nodup_append.1 h).2.2 _ hmem _ (List.mem_singleton_self _) rfl,
        nodup_snoc hnamed⟩
  · obtain ⟨rfl, hname, -⟩ := perform_eq_some_iff.1 h
    rw [perform_add_of_some hname]

/-- A binding may be exported as `default` beside another default export. -/
theorem not_exportedOnce :
    let e := ofSteps [.setDefault "Page", .add "default_1" "default"]
    ¬ e.exportedNames.Nodup ∧
      e.lines = ["export \x7b default_1 as default \x7d;", "export default Page;"] := by
  decide

end Runs

end Exports

end Module
end OpenApiClient
