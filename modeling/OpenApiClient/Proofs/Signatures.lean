/-
# Signatures of methods

A method has one argument for each parameter of its operation, and after them those that the body is
passed as (`argumentsOf_eq_ok`). Two things do not follow from this. A path may declare parameters for
all its operations, which validation looks at and no method has an argument for: a method carries
everything that is declared for its operation exactly if the operation takes the place of all of them
(`executeAll_signatures`). And the arguments are passed in one object under their own names, in which two
parameters of different locations may get the same key (`executeAll_distinctKeys`).
-/

import OpenApiClient.Proofs.Occurrences
import OpenApiClient.Proofs.Parameters

namespace OpenApiClient

namespace OpenApi

/-- What tells the parameters of an operation apart: where they are passed, and under which name. -/
def Parameter.place (p : Parameter) : String × Location := (p.name, p.location)

/-- The parameters of a path that the parameters of an operation take the place of none of. -/
def inherited (own shared : List Parameter) : List Parameter :=
  shared.filter fun p => decide (p.place ∉ own.map (·.place))

theorem inherited_eq_nil_iff {own shared : List Parameter} :
    inherited own shared = [] ↔ ∀ p ∈ shared, p.place ∈ own.map (·.place) := by
  simp [inherited]

namespace Components

variable {c : Components}

/-- What a reference leads to is written in place or among the components. -/
theorem mem_of_followItem {α : Type} [Kept α] {fuel : Nat} {seen : List String} {item : Referable α}
    {x : α} (h : c.followItem fuel seen item = .ok x) :
    item = .item x ∨ .item x ∈ (Kept.entries c : Entries (Referable α)).values := by
  induction fuel generalizing seen item with
  | zero =>
    cases item with
    | item y => exact .inl (congrArg _ (Except.ok.inj h))
    | ref p => cases h
  | succ fuel ih =>
    cases item with
    | item y => exact .inl (congrArg _ (Except.ok.inj h))
    | ref p =>
      right
      rw [followItem] at h
      split at h
      · cases h
      split at h
      · cases h
      split at h
      · cases h
      · next next hnext =>
        have hmem : next ∈ (Kept.entries c : Entries (Referable α)).values :=
          List.mem_map.2 ⟨_, Entries.mem_of_at? hnext, rfl⟩
        exact (ih h).elim (fun heq => heq ▸ hmem) id

/-- **The parameters that a valid document declares for a path** can be found. -/
theorem exists_shared {d : Document} (hd : d.validate = .ok ()) {path : String} {item : PathItem}
    (hitem : (path, item) ∈ d.paths) :
    ∃ shared, item.parameters.mapM d.parts.resolveItem = .ok shared := by
  obtain ⟨_, hpaths, -⟩ := bind_eq_ok.1 hd
  obtain ⟨_, hparameters, -⟩ := bind_eq_ok.1 (forM_eq_ok.1 hpaths item (List.mem_map.2 ⟨_, hitem, rfl⟩))
  obtain ⟨shared, hshared, -⟩ := exists_mapM_eq_ok fun p hp =>
    checkParameter_eq_ok.1 (forM_eq_ok.1 hparameters p hp)
  exact ⟨shared, hshared⟩

end Components

end OpenApi

namespace Client

open OpenApi TypeScript OpenApiClient.Module

section Declared

variable {c : Components} {o : Operation}

/-- What an operation declares itself: its parameters, and the arguments that its body is passed as. -/
structure Declares (c : Components) (o : Operation) (own : List OpenApi.Parameter)
    (body : List Argument) : Prop where
  own : o.parameters.mapM c.resolveItem = .ok own
  body : ∃ b, o.requestBody.mapM c.resolveItem = .ok b ∧ body = b.toList.flatMap Argument.ofBody

/-- **The arguments of an operation** are its parameters, and then those for its body. -/
theorem argumentsOf_eq_ok {arguments : List Argument} :
    argumentsOf c o = .ok arguments ↔
      ∃ own body, Declares c o own body ∧ arguments = own.map .ofParameter ++ body := by
  unfold argumentsOf
  constructor
  · intro h
    obtain ⟨own, hown, h⟩ := bind_eq_ok.1 h
    obtain ⟨b, hb, h⟩ := bind_eq_ok.1 h
    exact ⟨own, _, ⟨hown, b, hb, rfl⟩, (Except.ok.inj h).symm⟩
  · rintro ⟨own, _, ⟨hown, b, hb, rfl⟩, rfl⟩
    exact bind_eq_ok.2 ⟨own, hown, bind_eq_ok.2 ⟨b, hb, rfl⟩⟩

/-- The arguments have one for each parameter that is declared for the operation, by itself or by its
path, and then those for the body. -/
def Carries (own shared : List OpenApi.Parameter) (body arguments : List Argument) : Prop :=
  ∃ front, arguments = front ++ body ∧
    ((own ++ inherited own shared).map Argument.ofParameter).Subperm front

theorem Carries.length_le {own shared : List OpenApi.Parameter} {body arguments : List Argument}
    (h : Carries own shared body arguments) :
    own.length + (inherited own shared).length + body.length ≤ arguments.length := by
  obtain ⟨front, rfl, hsub⟩ := h
  have hlength := hsub.length_le
  rw [List.length_map, List.length_append] at hlength
  rw [List.length_append]
  exact Nat.add_le_add_right hlength _

/-- **No argument is there for a parameter of the path** that the operation does not take the place
of. -/
theorem carries_iff {own shared : List OpenApi.Parameter} {body : List Argument} :
    Carries own shared body (own.map .ofParameter ++ body) ↔
      ∀ p ∈ shared, p.place ∈ own.map (·.place) := by
  rw [← inherited_eq_nil_iff]
  constructor
  · intro h
    have hlength := h.length_le
    rw [List.length_append, List.length_map] at hlength
    exact List.length_eq_zero_iff.1 (by omega)
  · intro hnil
    exact ⟨own.map .ofParameter, rfl, by rw [hnil, List.append_nil]⟩

end Declared

section Bodies

variable {α : Type} [Leaf α]

/-- The arguments that a body is passed as have different names if those of its properties are. -/
theorem nodup_ofBody {b : RequestBody}
    (h : ∀ s, payload? b.content = some (.inline s) → (Entries.keys s.properties).Nodup) :
    ((Argument.ofBody b).map (·.name)).Nodup := by
  unfold Argument.ofBody
  cases hp : payload? b.content with
  | none => simp
  | some p =>
    dsimp only
    split
    · next s hs =>
      obtain rfl : p = .inline s := by
        have := (Option.filter_eq_some_iff.1 hs).1
        cases p <;> simp_all [Schema.object?]
      simpa [Entries.keys, Function.comp_def] using h s hp
    · simp

theorem nodup_properties_of_read? {t : Tree α} {s : SchemaObject}
    (h : Schema.read? t = some (.inline s)) : (Entries.keys s.properties).Nodup := by
  obtain ⟨d, -, hd⟩ := Option.bind_eq_some_iff.1 h
  rw [Schema.ofDatum?, Schema.layers?] at hd
  split at hd
  · cases hd
  · obtain ⟨s', hs', heq⟩ := Option.map_eq_some_iff.1 hd
    obtain rfl := Schema.inline.inj heq
    exact (SchemaOf.wasRead hs').properties

/-- The arguments for a body that was read have different names. -/
theorem nodup_ofBody_of_read? {t : Tree α} {b : RequestBody} (h : RequestBody.read? t = some b) :
    ((Argument.ofBody b).map (·.name)).Nodup := by
  simp only [RequestBody.read?, ↓do_eq_some_iff] at h
  obtain ⟨r, -, content, hcontent, required, -, description, -, h⟩ := h
  obtain rfl := Option.some.inj h
  refine nodup_ofBody fun s hs => ?_
  obtain ⟨m, hm, hschema⟩ := exists_of_payload? hs
  obtain ⟨e, he, rfl⟩ := List.mem_map.1 hm
  obtain ⟨t', ht'⟩ := (Record.of_map_eq_some hcontent).2 e he
  simp only [MediaType.read?, ↓do_eq_some_iff] at ht'
  obtain ⟨r', -, schema, hread, ht'⟩ := ht'
  have hsame : schema = e.2.schema := congrArg MediaType.schema (Option.some.inj ht')
  obtain ⟨t'', ht''⟩ := Record.of_optional?_eq_some hread (hsame.trans hschema)
  exact nodup_properties_of_read? ht''

/-- **The arguments for the body of an operation** that was read have different names. -/
theorem Declares.nodup_body {d : Document} (hread : d.WasRead) {e : String × Verb × Operation}
    (he : e ∈ d.operations) {own : List OpenApi.Parameter} {body : List Argument}
    (h : Declares d.parts e.2.2 own body) : (body.map (·.name)).Nodup := by
  obtain ⟨b, hb, rfl⟩ := h.body
  obtain ⟨hback, -⟩ := hread.readsBack
  cases hr : e.2.2.requestBody with
  | none =>
    rw [hr] at hb
    obtain rfl := Except.ok.inj hb
    simp
  | some item =>
    rw [hr] at hb
    obtain ⟨x, hx, rfl⟩ := map_eq_ok.1 hb
    suffices ∃ t : Datum, RequestBody.read? t = some x by
      obtain ⟨t, ht⟩ := this
      simpa using nodup_ofBody_of_read? ht
    rcases Components.mem_of_followItem hx with rfl | hmem
    · obtain ⟨t, ht⟩ := Document.exists_read? hback he
      simp only [Operation.read?, ↓do_eq_some_iff] at ht
      obtain ⟨_, -, _, -, _, -, _, -, _, -, _, -, requestBody, hbody, _, -, _, -, ht⟩ := ht
      have hsame : requestBody = e.2.2.requestBody :=
        congrArg Operation.requestBody (Option.some.inj ht)
      obtain ⟨t', ht'⟩ := Record.of_optional?_eq_some hbody (hsame.trans hr)
      exact Referable.exists_read? ht'
    · rcases Document.exists_read?_parts hback with hnone | ⟨t, ht⟩
      · rw [hnone] at hmem
        cases hmem
      · simp only [Components.read?, ↓do_eq_some_iff] at ht
        obtain ⟨_, -, _, -, _, -, bodies, hbodies, _, -, ht⟩ := ht
        obtain ⟨e', he', heq⟩ := List.mem_map.1 hmem
        have hsame : bodies = d.parts.requestBodies :=
          congrArg Components.requestBodies (Option.some.inj ht)
        obtain ⟨t', ht'⟩ := (Record.of_map_eq_some hbodies).2 e' (hsame ▸ he')
        exact Referable.exists_read? (heq ▸ ht')

end Bodies

/-- **The method of a route** is that of its call. -/
theorem Run.Sound.exists_method_of_route {j : Job} {T : List Route} {r : Run} {b : Backbone}
    (hs : r.Sound j T) (hb : r.backbone = some b) (hfollows : b.Follows j.document T) {t : Route}
    (ht : t ∈ T) : ∃ q ∈ b.methods, q.1.name = t.endpoint ∧ q.2.IsOf j.document.parts t.call := by
  have hplace : (t.file, t.localName) ∈ b.methods.map fun q => (q.1.file, q.2.localName) :=
    hfollows.locals ▸ List.mem_map.2 ⟨t, ht, rfl⟩
  obtain ⟨q, hq, heq⟩ := List.mem_map.1 hplace
  obtain ⟨he, hm⟩ := Backbone.mem_methods.1 hq
  obtain ⟨t', ht', hendpoint, hfile, hlocal, his⟩ := hs.exists_route hb he hm
  -- Different routes lead to functions in different places, so it is the route of the method.
  have hnodup : (T.map fun t => (t.file, t.localName)).Nodup := hfollows.locals ▸ hs.nodup_methods hb
  obtain rfl : t' = t :=
    List.inj_on_of_nodup_map hnodup ht' ht ((Prod.ext hfile hlocal).trans heq)
  exact ⟨q, hq, hendpoint.symm, his⟩

/-- The function of a method after the pass that writes endpoints, with what its operation declares. -/
structure Run.Signs (r : Run) (d : Document) (o : Operation) (own : List OpenApi.Parameter)
    (body : List Argument) (q : Endpoint × Method) (g : Function) : Prop where
  wrapper : r.wrapper? q = some g
  declares : Declares d.parts o own body
  arguments : q.2.arguments = own.map .ofParameter ++ body
  faithful : ∃ client, Faithful client q.1.name q.2 g

section Runs

variable {j : Job} {T : List Route} {r : Run} {b : Backbone}

/-- **The function of a method** forwards what its operation declares. -/
theorem Run.Forwarded.exists_signs (hs : r.Sound j T) (hb : r.backbone = some b)
    (hforwarded : r.Forwarded j T) {q : Endpoint × Method} (hq : q ∈ b.methods) {call : Call}
    (his : q.2.IsOf j.document.parts call) :
    ∃ own body g, r.Signs j.document call.operation own body q g := by
  obtain ⟨-, -, g, client, -, -, hwrapper, -, hreserved, hforwards⟩ := hforwarded.wrapper? hs hb hq
  obtain ⟨own, body, hdeclares, harguments⟩ := argumentsOf_eq_ok.1 his.arguments
  exact ⟨own, body, g, hwrapper, hdeclares, harguments, client, hforwards.faithful hreserved⟩

end Runs

/-- **Which declared parameters reach the function of an operation**: those of the operation itself, in
their order, followed by the arguments for the body. So the function carries all that is declared for the
operation exactly if the operation takes the place of each parameter of its path. -/
theorem executeAll_signatures {d : Document} (hd : d.validate = .ok ()) {settings : Settings}
    {before : List Pass} {log : List LogLine} {r : Run}
    (hr : (executeAll ⟨d, settings⟩ (before ++ [.backbone])).run.run
      { Run.start settings with log } = (.ok (), r)) :
    ∃ b, r.backbone = some b ∧ ∀ path item, (path, item) ∈ d.paths →
      ∀ verb o, (verb, o) ∈ item.operations →
        ∃ q ∈ b.methods, ∃ own shared body g,
          q.1.name = o.endpoint path ∧ q.2.name = o.wireName (o.endpoint path) verb path ∧
          r.Signs d o own body q g ∧ item.parameters.mapM d.parts.resolveItem = .ok shared ∧
          (Carries own shared body q.2.arguments ↔ ∀ p ∈ shared, p.place ∈ own.map (·.place)) := by
  obtain ⟨T, b, hs, hb, hfollows, hcalls, hforwarded⟩ := (executeAll_forwarded
    (j := ⟨d, settings⟩) (Document.valid_of_validate hd) before log).result hr
  refine ⟨b, hb, fun path item hitem verb o ho => ?_⟩
  have hoperation : (path, verb, o) ∈ d.operations :=
    List.mem_flatMap.2 ⟨_, hitem, List.mem_map.2 ⟨_, ho, rfl⟩⟩
  have hroute : callOf (path, verb, o) ∈ T.map fun t => (t.endpoint, t.call) :=
    hcalls ▸ (perm_callsByEndpoint d).mem_iff.2 (List.mem_map.2 ⟨_, hoperation, rfl⟩)
  obtain ⟨t, ht, heq⟩ := List.mem_map.1 hroute
  obtain ⟨hendpoint, hcall⟩ := Prod.mk.inj heq
  obtain ⟨q, hq, hname, his⟩ := hs.exists_method_of_route hb hfollows ht
  rw [hcall] at his
  obtain ⟨own, body, g, hsigns⟩ := hforwarded.exists_signs hs hb hq his
  obtain ⟨shared, hshared⟩ := Components.exists_shared hd hitem
  refine ⟨q, hq, own, shared, body, g, hname.trans hendpoint, his.name, hsigns, hshared, ?_⟩
  rw [hsigns.arguments]
  exact carries_iff

/-- A parameter that is passed at a location. -/
def parameterIn (location name : String) : Json :=
  .object [("name", .string name), ("in", .string location)]

/-- A document with one operation, with its parameters and those of its path. -/
def oneMethod (shared own : List Json) : Json := .object [
  ("openapi", .string "3.0.1"),
  ("info", .object [("title", .string "t"), ("version", .string "1")]),
  ("paths", .object [("/E/get", .object [
    ("parameters", .array shared), ("post", .object [("parameters", .array own)])])])]

/-- The path of a document that has only one, with its operation if that is the only one too. -/
def onlyOperation? (d : Document) : Option ((String × PathItem) × Verb × Operation) :=
  match d.paths with
  | [e] => match e.2.operations with
    | [o] => some (e, o)
    | _ => none
  | _ => none

theorem of_onlyOperation? {d : Document} {e : String × PathItem} {o : Verb × Operation}
    (h : onlyOperation? d = some (e, o)) : d.paths = [e] ∧ e.2.operations = [o] := by
  unfold onlyOperation? at h
  split at h
  · next e' hpaths =>
    split at h
    · next o' hoperations =>
      obtain ⟨rfl, rfl⟩ := Prod.mk.inj (Option.some.inj h)
      exact ⟨hpaths, hoperations⟩
    · cases h
  · cases h

/-- A run on an operation that takes the place of the parameter of its path. -/
theorem executeAll_signatures_overridden :
    ∃ d r b q own shared body g, Document.ofJson
        (oneMethod [parameterIn "path" "id"] [parameterIn "query" "key", parameterIn "path" "id"]) =
        .ok d ∧ d.validate = .ok () ∧
      (executeAll ⟨d, {}⟩ ([.transferTypes] ++ [.backbone])).run.run (Run.start {}) = (.ok (), r) ∧
      r.backbone = some b ∧ q ∈ b.methods ∧ d.paths.map (fun e => e.2.operations.length) = [1] ∧
      (∃ e ∈ d.operations, r.Signs d e.2.2 own body q g) ∧ shared.map (·.name) = ["id"] ∧
      Carries own shared body q.2.arguments := by
  have hrun := exists_of_runOf?
    (oneMethod [parameterIn "path" "id"] [parameterIn "query" "key", parameterIn "path" "id"]) {}
    ([.transferTypes] ++ [.backbone]) (fun d _ => (onlyOperation? d).any fun p =>
      (p.1.2.parameters.mapM d.parts.resolveItem).toOption.any fun shared =>
        decide (shared.map (·.name) = ["id"]) &&
          (p.2.2.parameters.mapM d.parts.resolveItem).toOption.any fun own =>
            decide (∀ q ∈ shared, q.place ∈ own.map (·.place))) (by decide +kernel)
  obtain ⟨d, r, hd, hvalid, hr, htest⟩ := hrun
  obtain ⟨⟨⟨path, item⟩, verb, o⟩, honly, htest⟩ := (Option.any_eq_true ..).1 htest
  obtain ⟨hpaths, hoperations⟩ := of_onlyOperation? honly
  obtain ⟨shared, hshared, htest⟩ := (Option.any_eq_true ..).1 htest
  obtain ⟨hid, htest⟩ := Bool.and_eq_true_iff.1 htest
  obtain ⟨own, hown, hoverrides⟩ := (Option.any_eq_true ..).1 htest
  have hitem : (path, item) ∈ d.paths := by simp [hpaths]
  have ho : (verb, o) ∈ item.operations := by simp [hoperations]
  obtain ⟨b, hb, hall⟩ := executeAll_signatures hvalid hr
  obtain ⟨q, hq, own', shared', body, g, -, -, hsigns, hshared', hcarries⟩ :=
    hall path item hitem verb o ho
  obtain rfl := Except.ok.inj ((eq_ok_of_toOption hshared).symm.trans hshared')
  obtain rfl := Except.ok.inj ((eq_ok_of_toOption hown).symm.trans hsigns.declares.own)
  exact ⟨d, r, b, q, own, shared, body, g, hd, hvalid, hr, hb, hq, by simp [hpaths, hoperations],
    ⟨(path, verb, o), List.mem_flatMap.2 ⟨_, hitem, List.mem_map.2 ⟨_, ho, rfl⟩⟩, hsigns⟩,
    of_decide_eq_true hid, hcarries.2 (of_decide_eq_true hoverrides)⟩

/-- **A parameter that is lost**: no argument is there for the parameter that a path declares for its only
operation, which has none itself. -/
theorem not_carries :
    ∃ d r b q item verb o shared,
      Document.ofJson (oneMethod [parameterIn "path" "id"] []) = .ok d ∧ d.validate = .ok () ∧
      (executeAll ⟨d, {}⟩ ([.transferTypes] ++ [.backbone])).run.run (Run.start {}) = (.ok (), r) ∧
      r.backbone = some b ∧ b.methods = [q] ∧ d.paths = [("/E/get", item)] ∧
      item.operations = [(verb, o)] ∧ Declares d.parts o [] [] ∧
      item.parameters.mapM d.parts.resolveItem = .ok shared ∧ ¬ Carries [] shared [] q.2.arguments := by
  have hrun := exists_of_runOf?
    (oneMethod [parameterIn "path" "id"] []) {} ([.transferTypes] ++ [.backbone])
    (fun d r => (onlyOperation? d).any fun p => r.onlyMethod?.any fun q =>
      decide (p.1.1 = "/E/get") && p.2.2.parameters.isEmpty && p.2.2.requestBody.isNone &&
        q.2.arguments.isEmpty && (p.1.2.parameters.mapM d.parts.resolveItem).toOption.any fun shared =>
          decide (shared.length = 1)) (by decide +kernel)
  obtain ⟨d, r, hd, hvalid, hr, htest⟩ := hrun
  obtain ⟨⟨⟨path, item⟩, verb, o⟩, honly, htest⟩ := (Option.any_eq_true ..).1 htest
  obtain ⟨hpaths, hoperations⟩ := of_onlyOperation? honly
  obtain ⟨q, honly, htest⟩ := (Option.any_eq_true ..).1 htest
  obtain ⟨b, hb, hq⟩ := Run.of_onlyMethod? honly
  simp only [Bool.and_eq_true, decide_eq_true_eq, List.isEmpty_iff, Option.isNone_iff_eq_none] at htest
  obtain ⟨⟨⟨⟨rfl, hparameters⟩, hbody⟩, harguments⟩, hone⟩ := htest
  obtain ⟨shared, hshared, hone⟩ := (Option.any_eq_true ..).1 hone
  obtain ⟨p, rfl⟩ := List.length_eq_one_iff.1 (of_decide_eq_true hone)
  have hdeclares : Declares d.parts o [] [] := ⟨by rw [hparameters]; rfl, none, by rw [hbody]; rfl, rfl⟩
  refine ⟨d, r, b, q, item, verb, o, [p], hd, hvalid, hr, hb, hq, hpaths, hoperations, hdeclares,
    eq_ok_of_toOption hshared, fun hcarries => ?_⟩
  have hlength := hcarries.length_le
  simp [harguments, inherited] at hlength

/-- **The keys of the object that a function passes** are the names of the parameters of its operation and
of the arguments for the body, so they are different exactly if these names are. Those for the body always
are, if the document was read. -/
theorem executeAll_distinctKeys {d : Document} (hd : d.validate = .ok ()) {settings : Settings}
    {before : List Pass} {log : List LogLine} {r : Run}
    (hr : (executeAll ⟨d, settings⟩ (before ++ [.backbone])).run.run
      { Run.start settings with log } = (.ok (), r)) :
    ∃ b, r.backbone = some b ∧
      (∀ f ∈ r.sources.files.values, ∀ g, .function g ∈ f.declarations →
        ∃ q ∈ b.methods, q.1.file = f.path ∧ r.wrapper? q = some g) ∧
      ∀ q ∈ b.methods, ∃ e ∈ d.operations, q.1.name = (callOf e).1 ∧ q.2.IsOf d.parts (callOf e).2 ∧
        ∃ own body g entries, r.Signs d e.2.2 own body q g ∧ passed? g = some (.object entries) ∧
        entries.map (·.key) = own.map (·.name) ++ body.map (·.name) ∧
        (d.WasRead → ((entries.map (·.key)).Nodup ↔
          (own.map (·.name)).Nodup ∧ ∀ p ∈ own, p.name ∉ body.map (·.name))) := by
  obtain ⟨T, b, hs, hb, hfollows, hcalls, hforwarded⟩ := (executeAll_forwarded
    (j := ⟨d, settings⟩) (Document.valid_of_validate hd) before log).result hr
  refine ⟨b, hb, fun f hf g hg => hs.exists_method hfollows hf hg, fun q hq => ?_⟩
  obtain ⟨he, hm⟩ := Backbone.mem_methods.1 hq
  obtain ⟨t, ht, hendpoint, -, -, his⟩ := hs.exists_route hb he hm
  have hcall : (t.endpoint, t.call) ∈ d.operations.map callOf :=
    (perm_callsByEndpoint d).mem_iff.1 (hcalls ▸ List.mem_map.2 ⟨t, ht, rfl⟩)
  obtain ⟨e, he, heq⟩ := List.mem_map.1 hcall
  rw [← (Prod.mk.inj heq).2] at his
  obtain ⟨own, body, g, hsigns⟩ := hforwarded.exists_signs hs hb hq his
  obtain ⟨client, hfaithful⟩ := hsigns.faithful
  obtain ⟨parameters, init, entries, -, -, -, hbody, hkeys, -⟩ := hfaithful.calls
  have hnames : entries.map (·.key) = own.map (·.name) ++ body.map (·.name) := by
    rw [hkeys, hsigns.arguments, List.map_append, List.map_map]
    rfl
  refine ⟨e, he, hendpoint.symm.trans (Prod.mk.inj heq).1.symm, his, own, body, g, entries, hsigns, ?_,
    hnames, fun hread => ?_⟩
  · rw [passed?, hbody]
    rfl
  · have hdistinct := hsigns.declares.nodup_body hread he
    rw [hnames, List.nodup_append]
    constructor
    · rintro ⟨hown, -, hapart⟩
      exact ⟨hown, fun p hp hmem => hapart _ (List.mem_map.2 ⟨p, hp, rfl⟩) _ hmem rfl⟩
    · rintro ⟨hown, hapart⟩
      refine ⟨hown, hdistinct, fun name hname name' hname' heq => ?_⟩
      obtain ⟨p, hp, rfl⟩ := List.mem_map.1 hname
      exact hapart p hp (heq ▸ hname')

/-- A run on a method whose arguments have different names. -/
theorem executeAll_distinctKeys_pathAndQuery :
    ∃ d r b q e own body g entries,
      Document.ofJson (oneMethod [] [parameterIn "path" "id", parameterIn "query" "key"]) = .ok d ∧
      d.validate = .ok () ∧
      (executeAll ⟨d, {}⟩ ([.transferTypes] ++ [.backbone])).run.run (Run.start {}) = (.ok (), r) ∧
      r.backbone = some b ∧ b.methods = [q] ∧ e ∈ d.operations ∧ r.Signs d e.2.2 own body q g ∧
      passed? g = some (.object entries) ∧ entries.map (·.key) = ["id", "key"] ∧
      (own.map (·.name)).Nodup ∧ ∀ p ∈ own, p.name ∉ body.map (·.name) := by
  have hrun := exists_of_runOf?
    (oneMethod [] [parameterIn "path" "id", parameterIn "query" "key"]) {}
    ([.transferTypes] ++ [.backbone]) (fun _ r => r.onlyMethod?.any fun q =>
      decide (q.2.arguments.map (·.name) = ["id", "key"])) (by decide +kernel)
  obtain ⟨d, r, hd, hvalid, hr, htest⟩ := hrun
  obtain ⟨q, honly, hnames⟩ := (Option.any_eq_true ..).1 htest
  obtain ⟨b, hb, hmethods⟩ := Run.of_onlyMethod? honly
  obtain ⟨b', hb', -, hall⟩ := executeAll_distinctKeys hvalid hr
  obtain rfl := Option.some.inj (hb.symm.trans hb')
  obtain ⟨e, he, -, -, own, body, g, entries, hsigns, hpassed, hkeys, hiff⟩ := hall q (by simp [hmethods])
  have hnames : entries.map (·.key) = ["id", "key"] := by
    rw [hkeys, ← of_decide_eq_true hnames, hsigns.arguments, List.map_append, List.map_map]
    rfl
  exact ⟨d, r, b, q, e, own, body, g, entries, hd, hvalid, hr, hb, hmethods, he, hsigns, hpassed, hnames,
    (hiff (.inr (.inr ⟨_, hd⟩))).1 (by rw [hnames]; decide)⟩

/-- **A value that is lost**: two parameters of different locations have the same key in the object. -/
theorem not_distinctKeys :
    ∃ d r b q g entries,
      Document.ofJson (oneMethod [] [parameterIn "path" "id", parameterIn "query" "id"]) = .ok d ∧
      d.validate = .ok () ∧
      (executeAll ⟨d, {}⟩ ([.transferTypes] ++ [.backbone])).run.run (Run.start {}) = (.ok (), r) ∧
      r.backbone = some b ∧ b.methods = [q] ∧ r.wrapper? q = some g ∧
      passed? g = some (.object entries) ∧ ¬ (entries.map (·.key)).Nodup := by
  have hrun := exists_of_runOf?
    (oneMethod [] [parameterIn "path" "id", parameterIn "query" "id"]) {}
    ([.transferTypes] ++ [.backbone]) (fun _ r => r.onlyMethod?.any fun q => (r.wrapper? q).any fun g =>
      (passed? g).any fun x => decide (¬ x.keys.Nodup)) (by decide +kernel)
  obtain ⟨d, r, hd, hvalid, hr, htest⟩ := hrun
  obtain ⟨q, honly, htest⟩ := (Option.any_eq_true ..).1 htest
  obtain ⟨b, hb, hq⟩ := Run.of_onlyMethod? honly
  obtain ⟨g, hg, htest⟩ := (Option.any_eq_true ..).1 htest
  obtain ⟨x, hpassed, htest⟩ := (Option.any_eq_true ..).1 htest
  have hrepeats : ¬ x.keys.Nodup := of_decide_eq_true htest
  obtain ⟨entries, rfl⟩ := Expr.eq_object_of_keys fun hnone => hrepeats (hnone ▸ List.nodup_nil)
  exact ⟨d, r, b, q, g, entries, hd, hvalid, hr, hb, hq, hg, hpassed, hrepeats⟩

end Client
end OpenApiClient
