/-
# Methods of valid operations

In a valid document the arguments and the response of every operation can be found, and their
schemas are closed (`argumentsOf_ok`, `responseOf_ok`). The type parameters that they stand for are
among those of the document.
-/

import OpenApiClient.Client.Endpoint
import OpenApiClient.Proofs.Types

namespace OpenApiClient
namespace Client

open OpenApi

variable {c : Components}

/-- The schema of the payload is that of a media type. -/
theorem exists_of_payload? {content : Content} {s : Schema} (hs : payload? content = some s) :
    ∃ m ∈ content.values, m.schema = some s := by
  obtain ⟨m, hm, hs⟩ := Option.bind_eq_some_iff.1 hs
  refine ⟨m, ?_, hs⟩
  cases ha : content.at? "application/json" with
  | some m' =>
    rw [ha, Option.some_or, Option.some.injEq] at hm
    exact hm ▸ List.mem_map.2 ⟨_, Entries.mem_of_at? ha, rfl⟩
  | none =>
    rw [ha, Option.none_or] at hm
    exact List.mem_of_head? hm

theorem closed_payload {content : Content} (h : c.ClosedContent content) {s : Schema}
    (hs : payload? content = some s) : c.Closed s :=
  have ⟨m, hm, hschema⟩ := exists_of_payload? hs
  h m hm s hschema

/-- The references in an argument that the body of a request is passed as are in its payload. -/
theorem exists_payload_of_ofBody {b : RequestBody} {a : Argument} (ha : a ∈ Argument.ofBody b)
    {s : Schema} (hs : a.schema = some s) :
    ∃ p, payload? b.content = some p ∧ s.pointers ⊆ p.pointers := by
  unfold Argument.ofBody at ha
  cases hp : payload? b.content with
  | none => simp [hp] at ha
  | some p =>
    refine ⟨p, rfl, ?_⟩
    simp only [hp] at ha
    split at ha
    · next o ho =>
      obtain ⟨⟨name, x⟩, hx, rfl⟩ := List.mem_map.1 ha
      obtain rfl : x = s := by simpa using hs
      obtain rfl : p = .inline o := by
        have := (Option.filter_eq_some_iff.1 ho).1
        cases p <;> simp_all [Schema.object?]
      exact Schema.pointers_subset (SchemaOf.mem_children.2 (.inl ⟨name, hx⟩))
    · obtain rfl := List.mem_singleton.1 ha
      exact Option.some.inj hs ▸ List.Subset.refl _

/-- The arguments that the body of a request is passed as are closed. -/
theorem closed_ofBody {b : RequestBody} (h : c.ClosedContent b.content) {a : Argument}
    (ha : a ∈ Argument.ofBody b) {s : Schema} (hs : a.schema = some s) : c.Closed s := by
  obtain ⟨p, hp, hsub⟩ := exists_payload_of_ofBody ha hs
  exact fun pointer hpointer => closed_payload h hp pointer (hsub hpointer)

/-- **The arguments of a valid operation** can be found, and are closed. -/
theorem argumentsOf_ok {o : Operation} (ho : c.ValidOperation o) :
    ∃ as, argumentsOf c o = .ok as ∧ ∀ a ∈ as, ∀ s, a.schema = some s → c.Closed s := by
  obtain ⟨ps, hps, hclosed⟩ := exists_mapM_eq_ok ho.parameters
  have hbody : ∃ b, o.requestBody.mapM c.resolveItem = .ok b ∧
      ∀ x ∈ b, c.ClosedContent x.content := by
    cases hb : o.requestBody with
    | none => exact ⟨none, rfl, by simp⟩
    | some b =>
      obtain ⟨x, hx, hc⟩ := ho.requestBody b hb
      exact ⟨some x, by simp [hx, Functor.map, Except.map], by simpa using hc⟩
  obtain ⟨b, hb, hbody⟩ := hbody
  refine ⟨_, by simp only [argumentsOf, hps, hb]; rfl, fun a ha s hs => ?_⟩
  rcases List.mem_append.1 ha with ha | ha
  · obtain ⟨p, hp, rfl⟩ := List.mem_map.1 ha
    exact hclosed p hp s hs
  · obtain ⟨x, hx, ha⟩ := List.mem_flatMap.1 ha
    exact closed_ofBody (hbody x (by simpa using hx)) ha hs

theorem mem_of_successResponse? {o : Operation} {r : Referable Response}
    (h : successResponse? o = some r) : r ∈ o.responses.values := by
  have at_mem : ∀ status, o.responses.at? status = some r → r ∈ o.responses.values :=
    fun status h => List.mem_map.2 ⟨_, Entries.mem_of_at? h, rfl⟩
  unfold successResponse? at h
  rcases Option.or_eq_some_iff.1 h with h | ⟨-, h⟩
  · exact at_mem _ h
  rcases Option.or_eq_some_iff.1 h with h | ⟨-, h⟩
  · obtain ⟨e, he, rfl⟩ := Option.map_eq_some_iff.1 h
    exact List.mem_map.2 ⟨e, List.mem_of_find?_eq_some he, rfl⟩
  · exact at_mem _ h

/-- **The response of a valid operation** can be found, and is closed. -/
theorem responseOf_ok {o : Operation} (ho : c.ValidOperation o) :
    ∃ r, responseOf c o = .ok r ∧ ∀ s, r = some s → c.Closed s := by
  unfold responseOf
  cases hr : successResponse? o with
  | none => exact ⟨none, rfl, by simp⟩
  | some r =>
    obtain ⟨x, hx, hc⟩ := ho.responses r (mem_of_successResponse? hr)
    refine ⟨payload? x.content, by simp [hx, Functor.map, Except.map, bind, Except.bind]; rfl,
      fun s hs => closed_payload hc hs⟩

/-- The method is that of a call: it has its name, and the arguments and the response of its operation. -/
structure Method.IsOf (c : Components) (call : Call) (m : Method) : Prop where
  name : m.name = call.name
  arguments : argumentsOf c call.operation = .ok m.arguments
  response : responseOf c call.operation = .ok m.response

/-- The names of type parameters that the schemas of an operation have. -/
def variablesOf (c : Components) (o : Operation) : List String :=
  (((argumentsOf c o).toOption.getD []).flatMap fun a =>
      a.schema.toList.flatMap Schema.typeVariables) ++
    ((responseOf c o).toOption.getD none).toList.flatMap Schema.typeVariables

end Client

namespace OpenApi.Document

open Client

/-- The document has the operation. -/
def Has (d : Document) (o : Operation) : Prop := ∃ e ∈ d.operations, e.2.2 = o

/-- The names of type parameters that schemas of the document have. -/
def typeVariables (d : Document) : List String :=
  (d.parts.schemas.flatMap fun e => e.2.typeVariables) ++
    d.operations.flatMap fun e => variablesOf d.parts e.2.2

theorem variablesOf_subset {d : Document} {o : Operation} (h : d.Has o) :
    variablesOf d.parts o ⊆ d.typeVariables := by
  obtain ⟨e, he, rfl⟩ := h
  exact fun name hn => List.mem_append_right _ (List.mem_flatMap.2 ⟨e, he, hn⟩)

theorem Valid.operation_of_has {d : Document} (hd : d.Valid) {o : Operation} (h : d.Has o) :
    d.parts.ValidOperation o := by
  obtain ⟨e, he, rfl⟩ := h
  exact hd.operations e he

end OpenApi.Document

end OpenApiClient
