/-
# What stops a run

A document is checked when it is loaded, so that later no pass meets a reference that leads nowhere:
whatever the passes are and in whatever order they come, a run that fails does not fail on a
reference (`generate_error`).
-/

import OpenApiClient.Proofs.Generation
import Mathlib.Tactic.IntervalCases

namespace OpenApiClient
namespace Client

open OpenApi

/-- In the usual order every pass comes after those whose results it needs. -/
theorem usual_ordered {done rest : List Pass} {p : Pass} {slot : Slot}
    (h : Pass.usual = done ++ p :: rest) (hp : p.reads = some slot) :
    ∃ q ∈ done, q.fills = some slot := by
  have hdone : done = Pass.usual.take done.length := by rw [h]; simp
  have hget : Pass.usual[done.length]? = some p := by rw [h]; simp
  have hlt : done.length < 6 := by
    have := congrArg List.length h
    simp [Pass.usual] at this
    omega
  rw [hdone]
  generalize done.length = n at hlt hget
  interval_cases n <;> obtain rfl := Option.some.inj hget <;> cases slot <;> revert hp <;> decide

/-- **No pass fails on a reference**, nor for want of the wrapper of a method, whatever the passes are
and in whatever order they come; in the usual order none misses the result of another. -/
theorem generate_error {settings : Settings} {directory : String} {origin : Origin} {p : Pass}
    {e : PassError} (h : (generate settings directory origin).result = .error (.pass p e)) :
    (∀ x, e ≠ .reference x) ∧ (∀ name file, e ≠ .fault (.noFunction name file)) ∧
      (settings.passes = Pass.usual.map (·.name) → ∀ slot reader, e ≠ .missingSlot slot reader) := by
  obtain ⟨passes, log, d, log', r, hpasses, hload, hrun⟩ := generate_eq_pass h
  obtain ⟨done, rest, r₁, hsplit, htame, hhas⟩ :=
    (executeAll_sound (j := ⟨d, settings⟩) (valid_of_load hload) passes
      (Run.Sound.start ⟨d, settings⟩ log')).failure hrun
  refine ⟨htame.reference, htame.function, fun husual slot reader he => ?_⟩
  obtain rfl : passes = Pass.usual := by
    rw [husual] at hpasses
    exact (Except.ok.inj hpasses).symm
  obtain ⟨hreads, hempty⟩ := htame.slot slot reader he
  have := hhas slot (usual_ordered hsplit hreads)
  rw [hempty] at this
  cases this

/-- A document with two operations of one name. -/
def repeatedOperations : Json := .object [
  ("openapi", .string "3.0.1"),
  ("info", .object [("title", .string "t"), ("version", .string "1")]),
  ("paths", .object [("/E/m", .object [("get", .object []), ("put", .object [])])])]

/-- A run of the usual passes that fails, and on neither of the above. -/
theorem generate_error_repeatedOperations :
    let e : PassError := .fault (.repeatedMethod "E" "m" .put "/E/m")
    (generate {} "" (.value repeatedOperations)).result = .error (.pass .backbone e) ∧
      (∀ x, e ≠ .reference x) ∧ (∀ name file, e ≠ .fault (.noFunction name file)) ∧
        ∀ slot reader, e ≠ .missingSlot slot reader := by
  have h : (generate {} "" (.value repeatedOperations)).result =
      .error (.pass .backbone (.fault (.repeatedMethod "E" "m" .put "/E/m"))) := by decide +kernel
  have ⟨hreference, hfunction, hslot⟩ := generate_error h
  exact ⟨h, hreference, hfunction, hslot rfl⟩

end Client
end OpenApiClient
