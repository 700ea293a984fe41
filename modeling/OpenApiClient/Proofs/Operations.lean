/-
# Every operation has its function

A client has one function for each operation of the document. `Corresponds` says what this means of
the files that are written: routes lead from the operations to the named exports, one to one, and at
the end of each route stands the function that calls the operation, under the name by which
clients know it, in the file of its endpoint. `generate_corresponds` says it of every run of the
usual passes that succeeds.
-/

import OpenApiClient.Proofs.Generation

namespace OpenApiClient
namespace Client

open OpenApi TypeScript OpenApiClient.Module

theorem perm_routesTo {paths : List String} (hn : paths.Nodup) {T : List Route}
    (hT : ∀ t ∈ T, t.file ∈ paths) : (paths.flatMap (routesTo T)).Perm T := by
  induction paths generalizing T with
  | nil =>
    cases T with
    | nil => rfl
    | cons t T => simpa using hT t (by simp)
  | cons p paths ih =>
    obtain ⟨hp, hn⟩ := List.nodup_cons.1 hn
    have hrest : paths.flatMap (routesTo T) =
        paths.flatMap (routesTo (T.filter fun t => !decide (t.file = p))) := by
      refine List.flatMap_congr fun q hq => ?_
      rw [routesTo, routesTo, List.filter_filter]
      refine List.filter_congr fun t _ => ?_
      by_cases ht : t.file = q
      · have : ¬ q = p := fun h => hp (h ▸ hq)
        simp [ht, this]
      · simp [ht]
    rw [List.flatMap_cons, hrest]
    refine ((ih hn fun t ht => ?_).append_left _).trans (List.filter_append_perm _ T)
    obtain ⟨ht, hne⟩ := List.mem_filter.1 ht
    exact (List.mem_cons.1 (hT t ht)).resolve_left (by simpa using hne)

/-- What is different along the routes to each file is different together with the file. -/
theorem nodup_of_routesTo {paths : List String} (hn : paths.Nodup) {T : List Route}
    (hT : ∀ t ∈ T, t.file ∈ paths) (key : Route → String)
    (hkey : ∀ p ∈ paths, ((routesTo T p).map key).Nodup) : (T.map fun t => (t.file, key t)).Nodup := by
  refine ((perm_routesTo hn hT).map _).nodup_iff.1 ?_
  rw [List.map_flatMap, List.nodup_flatMap]
  refine ⟨fun p hp => ?_, hn.imp fun {p q} hpq => ?_⟩
  · exact List.Nodup.of_map Prod.snd (by simpa [Function.comp_def] using hkey p hp)
  · intro e he he'
    obtain ⟨t, ht, rfl⟩ := List.mem_map.1 he
    obtain ⟨t', ht', heq⟩ := List.mem_map.1 he'
    exact hpq ((mem_routesTo.1 ht).2.symm.trans ((Prod.mk.inj heq).1.symm.trans (mem_routesTo.1 ht').2))

end Client
end OpenApiClient
