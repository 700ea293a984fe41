/-
# Documents are read back

What `SchemaOf.ofDatum?_toJson` is for one layer of a schema, `readsBack` is for each of the other
structures of a document: a value that was read, from any source, is written as data that is read
as the same value, with the entries of its maps in their order. A value is never taken for a
reference, since none of the structures has a field `$ref` (`Referable.readsBack`).

`Document.ofText_toJson` puts the sources in front: a document that was read from JSON text, from
YAML text or from a JSON value is read back from any JSON text that holds what it is written as.
-/

import OpenApiClient.Json.Printer
import OpenApiClient.OpenApi.Document.Text
import OpenApiClient.OpenApi.Document.Writer
import OpenApiClient.Proofs.SchemaEncoding

namespace OpenApiClient
namespace OpenApi

open OpenApiClient.Tree (ReadsBack)

variable {α : Type} [Leaf α]

/-- A reference, or a value that is not taken for one and is read back, is read back. -/
theorem Referable.readsBack {β : Type} {read : Datum → Option β} {write : β → Json}
    (hobject : ∀ x, pointerOfDatum? (write x).toDatum = none)
    (hread : ∀ {d x}, read d = some x → ReadsBack read write x) {t : Tree α} {o : Referable β}
    (h : Referable.read? read t = some o) :
    ReadsBack (Referable.read? read) (Referable.toJson write) o := by
  obtain ⟨d, -, h⟩ := Option.bind_eq_some_iff.1 h
  rw [ReadsBack, Referable.read?, Json.typed?_toDatum, Option.bind_some]
  split at h
  · next p _ =>
    obtain rfl := Option.some.inj h
    rw [toJson, pointerOfDatum?_reference]
  · obtain ⟨x, hx, rfl⟩ := Option.map_eq_some_iff.1 h
    have hback : read (write x).toDatum = some x := hread hx
    rw [toJson, hobject x, hback]
    rfl

theorem Referable.toJson_ne_null {β : Type} {write : β → Json} (hwrite : ∀ x, write x ≠ .null) :
    ∀ o : Referable β, o.toJson write ≠ .null
  | .ref _ => Json.noConfusion
  | .item x => hwrite x

theorem MediaType.readsBack {t : Tree α} {m : MediaType} (h : read? t = some m) :
    ReadsBack read? toJson m := by
  simp only [read?, ↓do_eq_some_iff] at h
  obtain ⟨r, -, schema, hschema, h⟩ := h
  obtain rfl := Option.some.inj h
  obtain ⟨r', hr', hj⟩ := Record.exists_record? [⟨"schema", false⟩] (j := toJson ⟨schema⟩) rfl
    (keys_entryOf schema) (by decide)
  have hschema' : Record.optional? r' "schema" Schema.read? = some schema :=
    Record.optional?_again Schema.readsBack hschema hj (by simp [toJson]) Schema.toJson_ne_null
  rw [ReadsBack, read?, hr']
  simp only [Option.bind_eq_bind, Option.bind_some, hschema']
  rfl

theorem Location.readsBack (l : Location) :
    ReadsBack Location.read? (fun l => .string l.name) l := by
  cases l <;> rfl

theorem Parameter.keys_toJson (p : Parameter) : ∃ es : Entries Json, p.toJson = .object es ∧
    es.keys.Sublist ["name", "in", "required", "schema", "description"] := by
  have hrest : (Entries.keys (entryOf "schema" Schema.toJson p.schema ++
      entryOf "description" .string p.description)).Sublist ["schema", "description"] :=
    keys_append_sublist (keys_entryOf p.schema) (keys_entryOf p.description)
  exact ⟨_, rfl, .cons_cons _ (.cons_cons _ (.cons_cons _ hrest))⟩

theorem Parameter.readsBack {t : Tree α} {p : Parameter} (h : read? t = some p) :
    ReadsBack read? toJson p := by
  simp only [read?, ↓do_eq_some_iff] at h
  obtain ⟨r, -, name, -, location, -, required, -, schema, hschema, description, -, h⟩ := h
  obtain ⟨es, hes, hkeys⟩ := p.keys_toJson
  obtain ⟨r', hr', hj⟩ := Record.exists_record? [⟨"name", false⟩, ⟨"in", false⟩,
    .orDefault "required", ⟨"schema", false⟩, ⟨"description", false⟩] hes hkeys (by decide)
  obtain rfl := Option.some.inj h
  have hname : Record.required? r' "name" Tree.text? = some name :=
    Record.text_written hj (by simp [toJson, Entries.at?_cons])
  have hlocation : Record.required? r' "in" Location.read? = some location :=
    Record.required?_written hj (by simp [toJson, Entries.at?_cons]) location.readsBack
  have hrequired : Record.withDefault? r' "required" false Tree.flag? = some required :=
    Record.withDefault?_written hj (by simp [toJson, Entries.at?_cons])
      (Tree.readsBack_bool required)
  have hschema' : Record.optional? r' "schema" Schema.read? = some schema :=
    Record.optional?_again Schema.readsBack hschema hj (by simp [toJson, Entries.at?_cons])
      Schema.toJson_ne_null
  have hdescription : Record.optional? r' "description" Tree.text? = some description :=
    Record.optionalText_written hj (by simp [toJson, Entries.at?_cons])
  rw [ReadsBack, read?, hr']
  simp only [Option.bind_eq_bind, Option.bind_some, hname, hlocation, hrequired, hschema',
    hdescription]
  rfl

theorem RequestBody.keys_toJson (b : RequestBody) : ∃ es : Entries Json, b.toJson = .object es ∧
    es.keys.Sublist ["content", "required", "description"] :=
  ⟨_, rfl, .cons_cons _ (.cons_cons _ (keys_entryOf b.description))⟩

theorem RequestBody.readsBack {t : Tree α} {b : RequestBody} (h : read? t = some b) :
    ReadsBack read? toJson b := by
  simp only [read?, ↓do_eq_some_iff] at h
  obtain ⟨r, -, content, hcontent, required, -, description, -, h⟩ := h
  obtain ⟨es, hes, hkeys⟩ := b.keys_toJson
  obtain ⟨r', hr', hj⟩ := Record.exists_record?
    [.orDefault "content", .orDefault "required", ⟨"description", false⟩] hes hkeys (by decide)
  obtain rfl := Option.some.inj h
  have hpayloads : ReadsBack Content.read? (mapToJson MediaType.toJson) content := by
    obtain ⟨hn, hm⟩ := Record.of_map_eq_some hcontent
    refine Tree.readsBack_map hn fun e he => ?_
    obtain ⟨t, ht⟩ := hm e he
    exact MediaType.readsBack ht
  have hcontent' : Record.withDefault? r' "content" [] Content.read? = some content :=
    Record.withDefault?_written hj (by simp [toJson, Entries.at?_cons]) hpayloads
  have hrequired : Record.withDefault? r' "required" false Tree.flag? = some required :=
    Record.withDefault?_written hj (by simp [toJson, Entries.at?_cons])
      (Tree.readsBack_bool required)
  have hdescription : Record.optional? r' "description" Tree.text? = some description :=
    Record.optionalText_written hj (by simp [toJson, Entries.at?_cons])
  rw [ReadsBack, read?, hr']
  simp only [Option.bind_eq_bind, Option.bind_some, hcontent', hrequired, hdescription]
  rfl

theorem Response.keys_toJson (r : Response) : ∃ es : Entries Json, r.toJson = .object es ∧
    es.keys.Sublist ["description", "content"] :=
  ⟨_, rfl, .cons_cons _ (keys_entryOfMap r.content)⟩

theorem Response.readsBack {t : Tree α} {r : Response} (h : read? t = some r) :
    ReadsBack read? toJson r := by
  simp only [read?, ↓do_eq_some_iff] at h
  obtain ⟨s, -, description, -, content, hcontent, h⟩ := h
  obtain ⟨es, hes, hkeys⟩ := r.keys_toJson
  obtain ⟨s', hs', hj⟩ := Record.exists_record?
    [.orDefault "description", .orDefault "content"] hes hkeys (by decide)
  obtain rfl := Option.some.inj h
  have hdescription : Record.withDefault? s' "description" "" Tree.text? = some description :=
    Record.withDefault?_written hj (by simp [toJson, Entries.at?_cons])
      (Tree.readsBack_string description)
  have hcontent' : Record.withDefault? s' "content" [] Content.read? = some content :=
    Record.map_again MediaType.readsBack hcontent hj (by simp [toJson, Entries.at?_cons])
  rw [ReadsBack, read?, hs']
  simp only [Option.bind_eq_bind, Option.bind_some, hdescription, hcontent']
  rfl

/-- What is written with other keys is not taken for a reference. -/
theorem pointerOfDatum?_of_keys {j : Json} {names : List String}
    (h : ∃ es : Entries Json, j = .object es ∧ es.keys.Sublist names) (hn : "$ref" ∉ names) :
    pointerOfDatum? j.toDatum = none := by
  obtain ⟨es, rfl, hkeys⟩ := h
  exact pointerOfDatum?_object fun hmem => hn (hkeys.subset hmem)

theorem parameterOrRef?_readsBack {t : Tree α} {p : Referable Parameter}
    (h : parameterOrRef? t = some p) :
    ReadsBack parameterOrRef? (Referable.toJson Parameter.toJson) p :=
  Referable.readsBack (fun p => pointerOfDatum?_of_keys p.keys_toJson (by decide))
    Parameter.readsBack h

theorem requestBodyOrRef?_readsBack {t : Tree α} {b : Referable RequestBody}
    (h : requestBodyOrRef? t = some b) :
    ReadsBack requestBodyOrRef? (Referable.toJson RequestBody.toJson) b :=
  Referable.readsBack (fun b => pointerOfDatum?_of_keys b.keys_toJson (by decide))
    RequestBody.readsBack h

theorem responseOrRef?_readsBack {t : Tree α} {r : Referable Response}
    (h : responseOrRef? t = some r) :
    ReadsBack responseOrRef? (Referable.toJson Response.toJson) r :=
  Referable.readsBack (fun r => pointerOfDatum?_of_keys r.keys_toJson (by decide))
    Response.readsBack h

theorem Operation.keys_toJson (o : Operation) : ∃ es : Entries Json, o.toJson = .object es ∧
    es.keys.Sublist (fields.map (·.name)) :=
  ⟨_, rfl, keys_append_sublist (keys_entryOf _) (keys_append_sublist (keys_entryOf _)
    (keys_append_sublist (keys_entryOf _) (keys_append_sublist (keys_entryOfList _)
    (keys_append_sublist (keys_entryOfList _) (keys_append_sublist (keys_entryOf _)
    (keys_append_sublist (keys_entryOfMap _) (keys_entryOf _)))))))⟩

theorem Operation.readsBack {t : Tree α} {o : Operation} (h : read? t = some o) :
    ReadsBack read? toJson o := by
  simp only [read?, ↓do_eq_some_iff] at h
  obtain ⟨r, -, operationId, -, summary, -, description, -, tags, -, parameters, hparameters,
    requestBody, hrequestBody, responses, hresponses, deprecated, -, h⟩ := h
  obtain rfl := Option.some.inj h
  obtain ⟨es, hes, hkeys⟩ := keys_toJson ⟨operationId, summary, description, tags, parameters,
    requestBody, responses, deprecated⟩
  obtain ⟨r', hr', hj⟩ := Record.exists_record? fields hes hkeys (by decide)
  have hoperationId : Record.optional? r' "operationId" Tree.text? = some operationId :=
    Record.optionalText_written hj (by simp [toJson])
  have hsummary : Record.optional? r' "summary" Tree.text? = some summary :=
    Record.optionalText_written hj (by simp [toJson])
  have hdescription : Record.optional? r' "description" Tree.text? = some description :=
    Record.optionalText_written hj (by simp [toJson])
  have htags : Record.withDefault? r' "tags" [] (Tree.list? Tree.text?) = some tags :=
    Record.texts_written hj (by simp [toJson])
  have hparameters' : Record.withDefault? r' "parameters" [] (Tree.list? parameterOrRef?) =
      some parameters :=
    Record.list_again parameterOrRef?_readsBack hparameters hj (by simp [toJson])
  have hrequestBody' : Record.optional? r' "requestBody" requestBodyOrRef? = some requestBody :=
    Record.optional?_again requestBodyOrRef?_readsBack hrequestBody hj (by simp [toJson])
      (Referable.toJson_ne_null fun _ => Json.noConfusion)
  have hresponses' : Record.withDefault? r' "responses" [] (Tree.map? responseOrRef?) =
      some responses :=
    Record.map_again responseOrRef?_readsBack hresponses hj (by simp [toJson])
  have hdeprecated : Record.optional? r' "deprecated" Tree.flag? = some deprecated :=
    Record.optionalFlag_written hj (by simp [toJson])
  rw [ReadsBack, read?]
  refine bind_of_eq_some hr' (bind_of_eq_some hoperationId (bind_of_eq_some hsummary ?_))
  refine bind_of_eq_some hdescription (bind_of_eq_some htags (bind_of_eq_some hparameters' ?_))
  refine bind_of_eq_some hrequestBody' (bind_of_eq_some hresponses' (bind_of_eq_some hdeprecated ?_))
  rfl

theorem PathItem.readsBack {t : Tree α} {p : PathItem} (h : read? t = some p) :
    ReadsBack read? toJson p := by
  simp only [read?, ↓do_eq_some_iff] at h
  obtain ⟨r, -, summary, -, description, -, parameters, hparameters, get, hget, post, hpost,
    put, hput, delete, hdelete, patch, hpatch, options, hoptions, head, hhead, trace, htrace, h⟩ := h
  obtain rfl := Option.some.inj h
  obtain ⟨r', hr', hj⟩ := Record.exists_record? fields
    (j := toJson ⟨summary, description, parameters, get, post, put, delete, patch, options, head,
      trace⟩) rfl
    (keys_append_sublist (keys_entryOf _) (keys_append_sublist (keys_entryOf _)
      (keys_append_sublist (keys_entryOfList _) (keys_append_sublist (keys_entryOf _)
      (keys_append_sublist (keys_entryOf _) (keys_append_sublist (keys_entryOf _)
      (keys_append_sublist (keys_entryOf _) (keys_append_sublist (keys_entryOf _)
      (keys_append_sublist (keys_entryOf _) (keys_append_sublist (keys_entryOf _)
      (keys_entryOf _))))))))))) (by decide)
  have hsummary : Record.optional? r' "summary" Tree.text? = some summary :=
    Record.optionalText_written hj (by simp [toJson])
  have hdescription : Record.optional? r' "description" Tree.text? = some description :=
    Record.optionalText_written hj (by simp [toJson])
  have hparameters' : Record.withDefault? r' "parameters" [] (Tree.list? parameterOrRef?) =
      some parameters :=
    Record.list_again parameterOrRef?_readsBack hparameters hj (by simp [toJson])
  have hverb : ∀ {name : String} {o : Option Operation},
      Record.optional? r name Operation.read? = some o →
        (toJson ⟨summary, description, parameters, get, post, put, delete, patch, options, head,
          trace⟩).field? name = o.map Operation.toJson →
            Record.optional? r' name Operation.read? = some o := fun ho hat =>
    Record.optional?_again Operation.readsBack ho hj hat fun _ => Json.noConfusion
  rw [ReadsBack, read?]
  refine bind_of_eq_some hr' (bind_of_eq_some hsummary (bind_of_eq_some hdescription ?_))
  refine bind_of_eq_some hparameters' (bind_of_eq_some (hverb hget (by simp [toJson])) ?_)
  refine bind_of_eq_some (hverb hpost (by simp [toJson])) ?_
  refine bind_of_eq_some (hverb hput (by simp [toJson])) ?_
  refine bind_of_eq_some (hverb hdelete (by simp [toJson])) ?_
  refine bind_of_eq_some (hverb hpatch (by simp [toJson])) ?_
  refine bind_of_eq_some (hverb hoptions (by simp [toJson])) ?_
  refine bind_of_eq_some (hverb hhead (by simp [toJson])) ?_
  refine bind_of_eq_some (hverb htrace (by simp [toJson])) ?_
  rfl

theorem Components.readsBack {t : Tree α} {c : Components} (h : read? t = some c) :
    ReadsBack read? toJson c := by
  simp only [read?, ↓do_eq_some_iff] at h
  obtain ⟨r, -, schemas, hschemas, parameters, hparameters, requestBodies, hrequestBodies,
    responses, hresponses, h⟩ := h
  obtain rfl := Option.some.inj h
  obtain ⟨r', hr', hj⟩ := Record.exists_record? fields
    (j := toJson ⟨schemas, parameters, requestBodies, responses⟩) rfl
    (keys_append_sublist (keys_entryOfMap _) (keys_append_sublist (keys_entryOfMap _)
      (keys_append_sublist (keys_entryOfMap _) (keys_entryOfMap _)))) (by decide)
  have hschemas' : Record.withDefault? r' "schemas" [] (Tree.map? Schema.read?) = some schemas :=
    Record.map_again Schema.readsBack hschemas hj (by simp [toJson])
  have hparameters' : Record.withDefault? r' "parameters" [] (Tree.map? parameterOrRef?) =
      some parameters :=
    Record.map_again parameterOrRef?_readsBack hparameters hj (by simp [toJson])
  have hrequestBodies' : Record.withDefault? r' "requestBodies" []
      (Tree.map? requestBodyOrRef?) = some requestBodies :=
    Record.map_again requestBodyOrRef?_readsBack hrequestBodies hj (by simp [toJson])
  have hresponses' : Record.withDefault? r' "responses" [] (Tree.map? responseOrRef?) =
      some responses :=
    Record.map_again responseOrRef?_readsBack hresponses hj (by simp [toJson])
  rw [ReadsBack, read?, hr']
  simp only [Option.bind_eq_bind, Option.bind_some, hschemas', hparameters', hrequestBodies',
    hresponses']
  rfl

theorem Info.readsBack (i : Info) : ReadsBack read? toJson i := by
  obtain ⟨r, hr, hj⟩ := Record.exists_record? fields (j := i.toJson) rfl
    (.cons_cons _ (.cons_cons _ (keys_entryOf i.description))) (by decide)
  have htitle : Record.required? r "title" Tree.text? = some i.title :=
    Record.text_written hj (by simp [toJson, Entries.at?_cons])
  have hversion : Record.required? r "version" Tree.text? = some i.version :=
    Record.text_written hj (by simp [toJson, Entries.at?_cons])
  have hdescription : Record.optional? r "description" Tree.text? = some i.description :=
    Record.optionalText_written hj (by simp [toJson, Entries.at?_cons])
  rw [ReadsBack, read?, hr]
  simp only [Option.bind_eq_bind, Option.bind_some, htitle, hversion, hdescription]
  rfl

/-- **A document is read back.**  Whatever tree it was read from, it is read again from what it is
written as. -/
theorem Document.readsBack {t : Tree α} {d : Document} (h : read? t = some d) :
    ReadsBack read? toJson d := by
  simp only [read?, ↓do_eq_some_iff] at h
  obtain ⟨r, -, openapi, -, info, -, paths, hpaths, components, hcomponents, h⟩ := h
  obtain rfl := Option.some.inj h
  have hrest : (Entries.keys (entryOfMap "paths" PathItem.toJson paths ++
      entryOf "components" Components.toJson components)).Sublist ["paths", "components"] :=
    keys_append_sublist (keys_entryOfMap paths) (keys_entryOf components)
  obtain ⟨r', hr', hj⟩ := Record.exists_record? fields
    (j := toJson ⟨openapi, info, paths, components⟩) rfl
    (.cons_cons _ (.cons_cons _ hrest)) (by decide)
  have hopenapi : Record.required? r' "openapi" Tree.text? = some openapi :=
    Record.text_written hj (by simp [toJson, Entries.at?_cons])
  have hinfo : Record.required? r' "info" Info.read? = some info :=
    Record.required?_written hj (by simp [toJson, Entries.at?_cons]) info.readsBack
  have hpaths' : Record.withDefault? r' "paths" [] (Tree.map? PathItem.read?) = some paths :=
    Record.map_again PathItem.readsBack hpaths hj (by simp [toJson, Entries.at?_cons])
  have hcomponents' : Record.optional? r' "components" Components.read? = some components :=
    Record.optional?_again Components.readsBack hcomponents hj
      (by simp [toJson, Entries.at?_cons]) fun _ => Json.noConfusion
  rw [ReadsBack, read?, hr']
  simp only [Option.bind_eq_bind, Option.bind_some, hopenapi, hinfo, hpaths', hcomponents']
  rfl

namespace Document

/-- A document that was read: from JSON text, from YAML text or from a JSON value. -/
def WasRead (d : Document) : Prop :=
  (∃ text, ofJsonText text = .ok d) ∨ (∃ text, ofYamlText text = .ok d) ∨ ∃ j, ofJson j = .ok d

theorem of_ofTree_eq_ok {error : DocumentError} {t : Option (Tree α)} {d : Document}
    (h : ofTree error t = .ok d) : ReadsBack read? toJson d ∧ d.supported = .ok d := by
  rw [ofTree] at h
  split at h
  · next d' hd' =>
    obtain ⟨t', -, ht'⟩ := Option.bind_eq_some_iff.1 hd'
    rw [supported] at h
    split at h
    · next hversion =>
      obtain rfl := Except.ok.inj h
      exact ⟨readsBack ht', if_pos hversion⟩
    · cases h
  · cases h

/-- What was read, from any source, is read back, and is of a version that is supported. -/
theorem WasRead.readsBack {d : Document} (h : d.WasRead) :
    ReadsBack read? toJson d ∧ d.supported = .ok d := by
  rcases h with ⟨text, h⟩ | ⟨text, h⟩ | ⟨j, h⟩
  · exact of_ofTree_eq_ok h
  · exact of_ofTree_eq_ok h
  · exact of_ofTree_eq_ok h

/-- A document is read back from any text that holds what it is written as. -/
theorem ofJsonText_of_readDocument? {d : Document} (h : d.WasRead) {text : String}
    (htext : Json.readDocument? text = some d.toJson.toDatum) : ofJsonText text = .ok d := by
  obtain ⟨hback, hversion⟩ := h.readsBack
  have hread : read? d.toJson.toDatum = some d := hback
  rw [ofJsonText, htext, ofTree, Option.bind_some, hread]
  exact hversion

/-- **Decoding undoes encoding.**  A document that was read, from JSON text, from YAML text or from a
JSON value, is read back from its JSON text, with the entries of every map in their order, provided
that the text holds the value that it is the text of. -/
theorem ofJsonText_compact {d : Document} (h : d.WasRead)
    (htext : Json.readDocument? d.toJson.compact = some d.toJson.toDatum) :
    ofJsonText d.toJson.compact = .ok d :=
  ofJsonText_of_readDocument? h htext

/-- A document with two schemas that are not in the order of their names. -/
def twoSchemas : Document where
  openapi := "3.1"
  info := { title := "", version := "" }
  components := some { schemas := [("b", .ref "a"), ("a", .inline { enumeration := [.null] })] }

/-- The document is read back from its text. -/
theorem ofJsonText_compact_twoSchemas :
    twoSchemas.WasRead ∧ ofJsonText twoSchemas.toJson.compact = .ok twoSchemas := by
  have hread : twoSchemas.WasRead := .inr (.inr ⟨twoSchemas.toJson, rfl⟩)
  have htext : Json.readDocument? twoSchemas.toJson.compact = some twoSchemas.toJson.toDatum :=
    Json.eq_some_of_isDatum (by decide +kernel)
  exact ⟨hread, ofJsonText_compact hread htext⟩

end Document

end OpenApi
end OpenApiClient
