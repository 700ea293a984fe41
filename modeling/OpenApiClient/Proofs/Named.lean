/-
# What operations name

The types of a method come from the parameters, the body and the response of its operation. Each of them
stands in the operation, or is shared: then the operation refers to a component. `Operation.Types` lists
the schemas, and `Operation.Names` the components that their types name.

These are where models start: the endpoints that a run leaves name a component if some operation names it,
and no type of the client stands for it (`executeAll_named`).
-/

import OpenApiClient.Proofs.Generation

namespace OpenApiClient

namespace OpenApi

open Client

theorem mem_of_mapM_eq_ok {ε α β : Type} {f : α → Except ε β} {xs : List α} {ys : List β}
    (h : xs.mapM f = .ok ys) {y : β} : y ∈ ys ↔ ∃ x ∈ xs, f x = .ok y := by
  induction xs generalizing ys with
  | nil =>
    obtain rfl := Except.ok.inj h
    simp
  | cons x xs ih =>
    rw [List.mapM_cons] at h
    obtain ⟨z, hz, h⟩ := bind_eq_ok.1 h
    obtain ⟨zs, hzs, h⟩ := bind_eq_ok.1 h
    obtain rfl := Except.ok.inj h
    simp [ih hzs, hz, eq_comm]

/-- Whether the value is kept among the components. -/
def Referable.isShared {α : Type} (item : Referable α) : Bool := item.pointer?.isSome

/-- A schema that a method of the operation takes values of, or gives back one of, and whether it stands
in a component that the operation refers to. -/
inductive Operation.Types (c : Components) (o : Operation) : (shared : Bool) → Schema → Prop
  | parameter {item : Referable Parameter} {x : Parameter} {s : Schema} (hitem : item ∈ o.parameters)
    (hx : c.resolveItem item = .ok x) (hs : x.schema = some s) : Types c o item.isShared s
  | body {item : Referable RequestBody} {b : RequestBody} {a : Argument} {s : Schema}
    (hitem : o.requestBody = some item) (hb : c.resolveItem item = .ok b) (ha : a ∈ Argument.ofBody b)
    (hs : a.schema = some s) : Types c o item.isShared s
  | response {item : Referable Response} {x : Response} {s : Schema} (hitem : successResponse? o = some item)
    (hx : c.resolveItem item = .ok x) (hs : payload? x.content = some s) : Types c o item.isShared s

/-- A type of the operation takes the component by name. -/
def Operation.Names (c : Components) (o : Operation) (n : String) : Prop :=
  ∃ shared s, o.Types c shared s ∧ .component n ∈ s.mentions

end OpenApi

namespace Client

open OpenApi TypeScript OpenApiClient.Module

section Methods

variable {c : Components} {o : Operation}

/-- The schemas of the arguments of an operation. -/
theorem exists_argument_iff {as : List Argument} (h : argumentsOf c o = .ok as) {P : Schema → Prop} :
    (∃ a ∈ as, ∃ s, a.schema = some s ∧ P s) ↔
      (∃ item ∈ o.parameters, ∃ x, c.resolveItem item = .ok x ∧ ∃ s, x.schema = some s ∧ P s) ∨
        ∃ item, o.requestBody = some item ∧ ∃ b, c.resolveItem item = .ok b ∧
          ∃ a ∈ Argument.ofBody b, ∃ s, a.schema = some s ∧ P s := by
  obtain ⟨ps, hps, h⟩ := bind_eq_ok.1 h
  obtain ⟨body, hbody, h⟩ := bind_eq_ok.1 h
  obtain rfl := Except.ok.inj h
  have hb : ∀ b, body = some b ↔ ∃ item, o.requestBody = some item ∧ c.resolveItem item = .ok b := by
    cases hr : o.requestBody with
    | none =>
      rw [hr] at hbody
      obtain rfl := Except.ok.inj hbody
      simp
    | some item =>
      rw [hr] at hbody
      obtain ⟨x, hx, rfl⟩ := map_eq_ok.1 hbody
      simp [hx]
  simp only [List.mem_append, or_and_right, exists_or, List.mem_map, List.mem_flatMap, Option.mem_toList,
    hb, mem_of_mapM_eq_ok hps]
  refine or_congr ?_ ?_
  · constructor
    · rintro ⟨_, ⟨x, ⟨item, hitem, hx⟩, rfl⟩, s, hs, hP⟩
      exact ⟨item, hitem, x, hx, s, hs, hP⟩
    · rintro ⟨item, hitem, x, hx, s, hs, hP⟩
      exact ⟨_, ⟨x, ⟨item, hitem, hx⟩, rfl⟩, s, hs, hP⟩
  · constructor
    · rintro ⟨a, ⟨b, ⟨item, hitem, hb⟩, ha⟩, s, hs, hP⟩
      exact ⟨item, hitem, b, hb, a, ha, s, hs, hP⟩
    · rintro ⟨item, hitem, b, hb, a, ha, s, hs, hP⟩
      exact ⟨a, ⟨b, ⟨item, hitem, hb⟩, ha⟩, s, hs, hP⟩

/-- The schema of the response of an operation. -/
theorem responseOf_eq_ok {r : Option Schema} (h : responseOf c o = .ok r) {s : Schema} :
    r = some s ↔ ∃ item, successResponse? o = some item ∧ ∃ x, c.resolveItem item = .ok x ∧
      payload? x.content = some s := by
  obtain ⟨response, hresponse, h⟩ := bind_eq_ok.1 h
  obtain rfl := Except.ok.inj h
  cases hr : successResponse? o with
  | none =>
    rw [hr] at hresponse
    obtain rfl := Except.ok.inj hresponse
    simp
  | some item =>
    rw [hr] at hresponse
    obtain ⟨x, hx, rfl⟩ := map_eq_ok.1 hresponse
    simp [hx]

/-- **The types of a method** are those of its operation. -/
theorem Method.IsOf.mem_mentions {call : Call} {m : Method} (h : m.IsOf c call) {x : Mention} :
    x ∈ m.mentions ↔ ∃ shared s, call.operation.Types c shared s ∧ x ∈ s.mentions := by
  have harguments := exists_argument_iff h.arguments (P := fun s => x ∈ s.mentions)
  have hresponse := fun s => responseOf_eq_ok h.response (s := s)
  rw [Method.mentions, List.mem_append]
  simp only [List.mem_flatMap, Option.mem_toList]
  rw [harguments]
  simp only [hresponse]
  constructor
  · rintro ((⟨item, hitem, y, hy, s, hs, hmem⟩ | ⟨item, hitem, b, hb, a, ha, s, hs, hmem⟩) |
      ⟨s, ⟨item, hitem, y, hy, hs⟩, hmem⟩)
    · exact ⟨_, s, .parameter hitem hy hs, hmem⟩
    · exact ⟨_, s, .body hitem hb ha hs, hmem⟩
    · exact ⟨_, s, .response hitem hy hs, hmem⟩
  · rintro ⟨_, s, htype, hmem⟩
    cases htype with
    | parameter hitem hy hs => exact .inl (.inl ⟨_, hitem, _, hy, s, hs, hmem⟩)
    | body hitem hb ha hs => exact .inl (.inr ⟨_, hitem, _, hb, _, ha, s, hs, hmem⟩)
    | response hitem hy hs => exact .inr ⟨s, ⟨_, hitem, _, hy, hs⟩, hmem⟩

end Methods

section Runs

variable {j : Job} {T : List Route} {transfers : Entries TransferTarget}

/-- **Each step that writes endpoints** names what the operation of the new route names. -/
theorem keptByEndpoints_named {I : List Route → List String → Run → Prop} (hI : KeptByEndpoints j I)
    (htransfers : ∀ T ns r, I T ns r → r.transfers = transfers) :
    KeptByEndpoints j fun T₁ ns r => I T₁ ns r ∧ ∃ T₂, T₁ = T ++ T₂ ∧ ∀ n, n ∈ ns ↔
      transfers.has n = false ∧ ∃ t ∈ T₂, t.call.operation.Names j.document.parts n where
  files h hf := hI.files h.1 hf
  declares h hw := ⟨hI.declares h.1 hw, h.2⟩
  method := by
    intro T₁ ns r r' names f f' t ⟨h, T₂, hT, hnamed⟩ hf ht hopen hhas hadd hw
    refine ⟨hI.method h hf ht hopen hhas hadd hw, T₂ ++ [t], by simp [hT], fun n => ?_⟩
    obtain ⟨-, -, -, -, -, ⟨m, -, his, hnames, -⟩, -⟩ := hadd
    have hmentions : .component n ∈ m.mentions ↔ t.call.operation.Names j.document.parts n :=
      Method.IsOf.mem_mentions (c := j.document.parts) his
    have hnew : n ∈ names ↔ transfers.has n = false ∧ t.call.operation.Names j.document.parts n := by
      have hfree : (j.types r).transfers = transfers := htransfers _ _ _ h
      rw [hnames, TypeContext.mem_notedBy, hmentions, hfree, and_comm]
      exact and_congr_left fun _ => and_iff_left rfl
    have hroutes : (∃ t' ∈ T₂ ++ [t], t'.call.operation.Names j.document.parts n) ↔
        (∃ t' ∈ T₂, t'.call.operation.Names j.document.parts n) ∨
          t.call.operation.Names j.document.parts n := by simp [or_and_right, exists_or]
    rw [List.mem_append, hnamed, hnew, hroutes, and_or_left]

variable (hv : j.document.Valid) {r : Run}
include hv

theorem writeBackbone_named (hs : r.Sound j T) :
    Ends (writeBackbone j) r (fun _ r' => ∃ b, r'.backbone = some b ∧ ∀ n, n ∈ b.referenced ↔
      r'.transfers.has n = false ∧ ∃ e ∈ j.document.operations, e.2.2.Names j.document.parts n)
      fun _ _ => True := by
  have hkept := keptByEndpoints_named (T := T) (Run.Sound.keptByEndpoints (j := j) r)
    fun _ _ _ h => h.2.1.transfers
  refine (writeBackbone_spec hkept hv (T := T) []
    ⟨⟨hs, .refl r, by simp⟩, [], (List.append_nil T).symm, by simp⟩).mono ?_ fun _ _ _ => trivial
  rintro _ _ ⟨T', b, r₁, log, ns, ⟨⟨-, hframe, -⟩, T₂, hT, hnamed⟩, rfl, hcalls, -, hreferenced⟩
  obtain rfl := List.append_cancel_left hT
  refine ⟨b, rfl, fun n => ?_⟩
  have hmem : ∀ p : String × Call, (∃ t ∈ T', (t.endpoint, t.call) = p) ↔
      ∃ e ∈ j.document.operations, callOf e = p := fun p => by
    rw [← List.mem_map, ← List.mem_map, hcalls, (perm_callsByEndpoint _).mem_iff]
  rw [hreferenced, ← List.nil_append ns, hnamed, hframe.transfers]
  refine and_congr_right fun _ => ⟨?_, ?_⟩
  · rintro ⟨t, ht, hn⟩
    obtain ⟨e, he, heq⟩ := (hmem _).1 ⟨t, ht, rfl⟩
    have hoperation : e.2.2 = t.call.operation := congrArg (·.2.operation) heq
    exact ⟨e, he, hoperation ▸ hn⟩
  · rintro ⟨e, he, hn⟩
    obtain ⟨t, ht, heq⟩ := (hmem _).2 ⟨e, he, rfl⟩
    have hoperation : t.call.operation = e.2.2 := congrArg (·.2.operation) heq
    exact ⟨t, ht, hoperation ▸ hn⟩

/-- **The endpoints name what the operations name**, but for components that types of the client stand
for. -/
theorem executeAll_named (before : List Pass) (log : List LogLine) :
    Ends (executeAll j (before ++ [.backbone])) { Run.start j.settings with log }
      (fun _ r => ∃ b, r.backbone = some b ∧ ∀ n, n ∈ b.referenced ↔
        r.transfers.has n = false ∧ ∃ e ∈ j.document.operations, e.2.2.Names j.document.parts n)
      fun _ _ => True :=
  executeAll_snoc hv (Run.Sound.start j log) fun _ _ hs _ => writeBackbone_named hv hs

end Runs

end Client
end OpenApiClient
