/-
# What inspection lists

Inspection lists the schemas that operations refer to, and those that listed schemas refer to. It does so
until nothing is left: each name leaves the queue once and each schema fills it once, so that the fuel is
enough (`reach_spec`). No name is listed twice.

A client has models for what its operations name, and for what models name. Where the types of operations
stand in place, inspection finds the same references, and lists every model. But it does not open the
parameters, bodies and responses that operations refer to. So it lists every model exactly if it lists what
the shared types name (`reachableSchemas_covers_iff`); `not_covers` is a document in which it does not.
-/

import OpenApiClient.Proofs.Occurrences
import OpenApiClient.Proofs.Owners

namespace OpenApiClient
namespace Client

open OpenApi

section Reaching

variable {c : Components}

/-- What the schemas that were not seen refer to. -/
def unseen (c : Components) (seen : List String) : List String :=
  (c.schemas.keys.filter (· ∉ seen)).flatMap (schemasOfSchema c)

theorem schemasOfSchema_of_at? {name : String} {s : Schema} (h : c.schemas.at? name = some s) :
    schemasOfSchema c name = schemasIn s.toJson := by
  rw [schemasOfSchema, h]
  rfl

theorem mem_keys_of_schemasOfSchema {name : String} (h : schemasOfSchema c name ≠ []) :
    name ∈ c.schemas.keys := by
  by_contra hnot
  rw [schemasOfSchema, Entries.at?_eq_none.2 hnot] at h
  exact h rfl

/-- What an element gives is there no more when the element is left out. -/
theorem length_add_length_flatMap_filter_le {α β : Type} [DecidableEq α] (f : α → List β) {xs : List α}
    {x : α} (hx : x ∈ xs) :
    (f x).length + ((xs.filter (· ≠ x)).flatMap f).length ≤ (xs.flatMap f).length := by
  induction xs with
  | nil => cases hx
  | cons y ys ih =>
    rw [List.flatMap_cons, List.length_append]
    by_cases hy : y = x
    · subst hy
      rw [List.filter_cons_of_neg (by simp)]
      exact Nat.add_le_add_left (List.filter_sublist.flatMap f).length_le _
    · have hys := ih ((List.mem_cons.1 hx).resolve_left fun h => hy h.symm)
      rw [List.filter_cons_of_pos (by simpa using hy), List.flatMap_cons, List.length_append]
      omega

/-- A name that is seen brings what its schema refers to into the queue, where it was to come from. -/
theorem length_unseen {seen : List String} {name : String} (hname : name ∉ seen) :
    (schemasOfSchema c name).length + (unseen c (seen ++ [name])).length ≤ (unseen c seen).length := by
  have hfilter : c.schemas.keys.filter (· ∉ seen ++ [name]) =
      (c.schemas.keys.filter (· ∉ seen)).filter (· ≠ name) := by
    rw [List.filter_filter]
    refine List.filter_congr fun k _ => ?_
    simp [not_or, and_comm]
  rw [unseen, unseen, hfilter]
  by_cases hkey : schemasOfSchema c name = []
  · rw [hkey, List.length_nil, Nat.zero_add]
    exact (List.filter_sublist.flatMap _).length_le
  · refine length_add_length_flatMap_filter_le _ (List.mem_filter.2 ⟨mem_keys_of_schemasOfSchema hkey, ?_⟩)
    simpa using hname

/-- The names hold the queue and what was seen, each once, and what their schemas refer to. -/
structure Reached (c : Components) (queue seen names : List String) : Prop where
  nodup : names.Nodup
  seen : seen ⊆ names
  queue : queue ⊆ names
  closed : ∀ name ∈ names, schemasOfSchema c name ⊆ names

theorem Reached.refl {seen : List String} (hn : seen.Nodup)
    (h : ∀ name ∈ seen, schemasOfSchema c name ⊆ seen ++ []) : Reached c [] seen seen :=
  ⟨hn, List.Subset.refl _, List.nil_subset _, fun name hname => List.append_nil seen ▸ h name hname⟩

/-- **Everything is reached**, if there is fuel for the queue and for what is to come into it. -/
theorem reach_spec : ∀ (fuel : Nat) (queue seen : List String), seen.Nodup →
    (∀ name ∈ seen, schemasOfSchema c name ⊆ seen ++ queue) →
    queue.length + (unseen c seen).length ≤ fuel → Reached c queue seen (reach c fuel queue seen)
  | 0, queue, seen, hn, hseen, hfuel => by
    obtain rfl : queue = [] := List.length_eq_zero_iff.1 (by omega)
    rw [reach]
    exact .refl hn hseen
  | fuel + 1, [], seen, hn, hseen, _ => by
    rw [reach]
    · exact .refl hn hseen
    · exact Nat.succ_ne_zero fuel
  | fuel + 1, name :: queue, seen, hn, hseen, hfuel => by
    rw [List.length_cons] at hfuel
    rw [reach]
    split
    · next hname =>
      have hagain : seen ++ name :: queue ⊆ seen ++ queue :=
        List.append_subset.2 ⟨List.subset_append_left _ _, List.cons_subset.2
          ⟨List.mem_append_left _ hname, List.subset_append_right _ _⟩⟩
      have h := reach_spec fuel queue seen hn (fun k hk => List.Subset.trans (hseen k hk) hagain) (by omega)
      exact ⟨h.nodup, h.seen, List.cons_subset.2 ⟨h.seen hname, h.queue⟩, h.closed⟩
    · next hname =>
      have hless := length_unseen (c := c) hname
      have h := reach_spec fuel (queue ++ schemasOfSchema c name) (seen ++ [name]) (nodup_snoc hn hname)
        (fun k hk => ?_) (by rw [List.length_append]; omega)
      · have hsub := List.append_subset.1 h.seen
        exact ⟨h.nodup, hsub.1, List.cons_subset.2 ⟨hsub.2 (by simp), (List.append_subset.1 h.queue).1⟩,
          h.closed⟩
      · rw [List.append_assoc, List.singleton_append]
        rcases List.mem_append.1 hk with hk | hk
        · have hmore : seen ++ name :: queue ⊆ seen ++ name :: (queue ++ schemasOfSchema c name) :=
            List.append_subset.2 ⟨List.subset_append_left _ _, List.subset_append_of_subset_right _
              (List.cons_subset_cons _ (List.subset_append_left _ _))⟩
          exact List.Subset.trans (hseen k hk) hmore
        · obtain rfl := List.mem_singleton.1 hk
          exact fun n hn => List.mem_append_right _ (List.mem_cons_of_mem _ (List.mem_append_right _ hn))

end Reaching

/-- **The names listed** are those that operations refer to, with all that their schemas refer to. -/
theorem reachableSchemas_spec (d : Document) :
    Reached d.parts (schemasOfOperations d) [] (reachableSchemas d) := by
  refine reach_spec _ _ _ List.nodup_nil (by simp) (Nat.add_le_add_left (Nat.le_of_eq ?_) _)
  simp [unseen]

section Listing

variable {d : Document} (h : d.Shown)
include h

/-- A reference in an operation is followed. -/
theorem mem_reachableSchemas_of_link {e : String × Verb × Operation} (he : e ∈ d.operations) {p : String}
    (hp : (Section.schemas, p) ∈ e.2.2.links) {n : String} (hn : componentName p = .ok n) :
    n ∈ reachableSchemas d := by
  refine (reachableSchemas_spec d).queue (List.mem_flatMap.2 ⟨e, he, ?_⟩)
  exact mem_schemasIn.2 ⟨p, h.operations e he p hp, hn⟩

/-- So are those in the schemas that are listed. -/
theorem selfContained_reachableSchemas : d.parts.SelfContained (· ∈ reachableSchemas d) := by
  intro name s hname hs p hp target htarget
  refine (reachableSchemas_spec d).closed name hname ?_
  rw [schemasOfSchema_of_at? hs]
  exact mem_schemasIn.2 ⟨p, h.schemas name s hs p (List.mem_map.2 ⟨p, hp, rfl⟩), htarget⟩

end Listing

end Client

namespace OpenApi

open Client

/-- The references in the payload are among those of the content. -/
theorem mem_contentLinks {content : Content} {q : Schema} (hq : payload? content = some q) {p : String}
    (hp : p ∈ q.pointers) : (Section.schemas, p) ∈ contentLinks content := by
  obtain ⟨m, hm, hs⟩ := exists_of_payload? hq
  refine List.mem_flatMap.2 ⟨m, hm, List.mem_flatMap.2 ⟨q, by simp [hs], ?_⟩⟩
  exact List.mem_map.2 ⟨p, hp, rfl⟩

/-- A type that is not shared stands in the operation. -/
theorem Operation.Types.mem_links {c : Components} {o : Operation} {s : Schema} (h : o.Types c false s)
    {p : String} (hp : p ∈ s.pointers) : (Section.schemas, p) ∈ o.links := by
  generalize hshared : false = shared at h
  cases h with
  | @parameter item x s hitem hx hs =>
    cases item with
    | ref pointer => cases hshared
    | item y =>
      obtain rfl : y = x := Except.ok.inj hx
      refine List.mem_append_left _ (List.mem_append_left _ (List.mem_flatMap.2 ⟨_, hitem, ?_⟩))
      exact List.mem_flatMap.2 ⟨s, by simp [hs], List.mem_map.2 ⟨p, hp, rfl⟩⟩
  | @body item b a s hitem hb ha hs =>
    cases item with
    | ref pointer => cases hshared
    | item y =>
      obtain rfl : y = b := Except.ok.inj hb
      obtain ⟨q, hq, hsub⟩ := exists_payload_of_ofBody ha hs
      refine List.mem_append_left _ (List.mem_append_right _ (List.mem_flatMap.2 ⟨.item y, ?_, ?_⟩))
      · simp [hitem]
      · exact mem_contentLinks hq (hsub hp)
  | @response item x s hitem hx hs =>
    cases item with
    | ref pointer => cases hshared
    | item y =>
      obtain rfl : y = x := Except.ok.inj hx
      refine List.mem_append_right _ (List.mem_flatMap.2 ⟨_, mem_of_successResponse? hitem, ?_⟩)
      exact mem_contentLinks hs hp

end OpenApi

namespace Client

open OpenApi

/-- **Inspection lists every model** of a client exactly if it lists what shared types name, but for
components that types of the client stand for. It lists nothing twice. -/
theorem reachableSchemas_covers_iff {origin : Origin} {log : List LogLine} {d : Document}
    (hload : load origin = (log, .ok d)) :
    (reachableSchemas d).Nodup ∧ ∀ (settings : Settings) (log' : List LogLine) (r : Run),
      (executeAll ⟨d, settings⟩ Pass.usual).run.run { Run.start settings with log := log' } = (.ok (), r) →
        ∃ ms, r.models = some ms ∧ ((∀ n ∈ ms.keys, n ∈ reachableSchemas d) ↔
          ∀ e ∈ d.operations, ∀ s, e.2.2.Types d.parts true s → ∀ n, .component n ∈ s.mentions →
            r.transfers.has n = false → n ∈ reachableSchemas d) := by
  obtain ⟨hread, hvalid⟩ := read_of_load hload
  have hv := Document.valid_of_validate hvalid
  refine ⟨(reachableSchemas_spec d).nodup, fun settings log' r hr => ?_⟩
  obtain ⟨T, b, ms, -, h⟩ := (executeAll_holds (j := ⟨d, settings⟩) hv log').result hr
  refine ⟨ms, h.models, fun hall e he s hs n hn hfree => ?_, fun hshared n hn => ?_⟩
  · have hroot : n ∈ b.referenced := (h.named n).2 ⟨hfree, e, he, true, s, hs, hn⟩
    exact hall n ((h.needed n).2 (.root hroot hfree))
  · replace hn := (h.needed n).1 hn
    induction hn with
    | @root n hroot hfree =>
      obtain ⟨-, e, he, shared, s, hs, hmention⟩ := (h.named n).1 hroot
      cases shared with
      | true => exact hshared e he s hs n hmention hfree
      | false =>
        obtain ⟨p, hp, hname⟩ := Schema.exists_pointer_of_mention hmention
        exact mem_reachableSchemas_of_link hread.shown he (hs.mem_links hp) hname
    | @named k n form hk hform hmention hfree ih =>
      exact TypeContext.mem_of_mentionsOf (selfContained_reachableSchemas hread.shown)
        ih hform hmention

/-- A document of an operation that has a shared parameter of the type of a component, and gives back the
schema. Another component refers to that one. -/
def lookup (response : Schema) : Document where
  openapi := "3.1"
  info := { title := "t", version := "1" }
  paths := [("/E/find", { get := some {
    parameters := [.ref (pointerTo .parameters "key")]
    responses := [("200", .item { content := [("application/json", { schema := some response })] })] } })]
  components := some {
    schemas := [("Entry", .inline { properties := [("key", .ref (pointerTo .schemas "Key"))] }),
      ("Key", .inline { type := some (.single .string) })]
    parameters := [("key", .item {
      name := "key", location := .query, schema := some (.ref (pointerTo .schemas "Key")) })] }

/-- The shared types of the operation. -/
theorem types_lookup {response s : Schema} {e : String × Verb × Operation}
    (he : e ∈ (lookup response).operations) (h : e.2.2.Types (lookup response).parts true s) :
    s = .ref (pointerTo .schemas "Key") := by
  obtain rfl := List.mem_singleton.1 he
  generalize hshared : true = shared at h
  cases h with
  | @parameter item x s hitem hx hs =>
    obtain rfl := List.mem_singleton.1 hitem
    obtain rfl := Except.ok.inj hx
    exact (Option.some.inj hs).symm
  | body hitem => cases hitem
  | response hitem =>
    obtain rfl := Option.some.inj hitem
    cases hshared

/-- A run in which inspection lists what the shared parameter names, since the response names it too. -/
theorem reachableSchemas_covers_iff_lookup :
    load (.value (lookup (.ref (pointerTo .schemas "Entry"))).toJson) =
        ([], .ok (lookup (.ref (pointerTo .schemas "Entry")))) ∧
      ∃ r ms, (executeAll ⟨lookup (.ref (pointerTo .schemas "Entry")), {}⟩ Pass.usual).run.run
          (Run.start {}) = (.ok (), r) ∧ r.models = some ms ∧ ms.keys = ["Key", "Entry"] ∧
        ∀ n ∈ ms.keys, n ∈ reachableSchemas (lookup (.ref (pointerTo .schemas "Entry"))) := by
  have hload : load (.value (lookup (.ref (pointerTo .schemas "Entry"))).toJson) =
      ([], .ok (lookup (.ref (pointerTo .schemas "Entry")))) := rfl
  have hrun := exists_of_runOf? (lookup (.ref (pointerTo .schemas "Entry"))).toJson {} Pass.usual
    (fun _ r => r.models.any fun ms => decide (ms.keys = ["Key", "Entry"])) (by decide +kernel)
  obtain ⟨d, r, hd, -, hr, htest⟩ := hrun
  obtain rfl : lookup (.ref (pointerTo .schemas "Entry")) = d := Except.ok.inj hd
  obtain ⟨ms, hms, hcovers⟩ := (reachableSchemas_covers_iff hload).2 {} [] r hr
  simp only [hms, Option.any_some, decide_eq_true_eq] at htest
  refine ⟨hload, r, ms, hr, hms, htest, hcovers.2 fun e he s hs n hn _ => ?_⟩
  obtain rfl := types_lookup he hs
  obtain rfl : n = "Key" := Mention.component.inj (List.mem_singleton.1 hn)
  decide +kernel

/-- **A model that inspection does not list**: nothing but the shared parameter names its component. -/
theorem not_covers :
    load (.value (lookup (.inline {})).toJson) = ([], .ok (lookup (.inline {}))) ∧
      ∃ r ms, (executeAll ⟨lookup (.inline {}), {}⟩ Pass.usual).run.run (Run.start {}) = (.ok (), r) ∧
        r.models = some ms ∧ ms.keys = ["Key"] ∧ reachableSchemas (lookup (.inline {})) = [] ∧
        ¬ ∀ n ∈ ms.keys, n ∈ reachableSchemas (lookup (.inline {})) := by
  have hload : load (.value (lookup (.inline {})).toJson) = ([], .ok (lookup (.inline {}))) := rfl
  have hrun := exists_of_runOf? (lookup (.inline {})).toJson {} Pass.usual
    (fun _ r => r.models.any fun ms => decide (ms.keys = ["Key"])) (by decide +kernel)
  obtain ⟨d, r, hd, -, hr, htest⟩ := hrun
  obtain rfl : lookup (.inline {}) = d := Except.ok.inj hd
  obtain ⟨ms, hms, hkeys⟩ := (Option.any_eq_true ..).1 htest
  have hkeys : ms.keys = ["Key"] := of_decide_eq_true hkeys
  have hnone : reachableSchemas (lookup (.inline {})) = [] := rfl
  refine ⟨hload, r, ms, hr, hms, hkeys, hnone, fun hall => ?_⟩
  have hlisted := hall "Key" (by simp [hkeys])
  rw [hnone] at hlisted
  cases hlisted

end Client
end OpenApiClient
