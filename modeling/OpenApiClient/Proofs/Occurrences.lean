/-
# References as they are written

Inspection looks for references in the JSON forms of operations and of schemas, with the keys of objects
in order. Where no key comes twice, sorting loses nothing: what is found in a part of a value is found in
the value (`shown_item`, `shown_entry`).

No structure of a document is written with a key twice, and no map that was read has one. So all
references to schemas are found in the JSON forms of the schemas (`Schema.shows`) and of the operations
(`Operation.shows`) of a document that was read (`Document.Shown`).
-/

import OpenApiClient.Client.Inspection
import OpenApiClient.Proofs.DocumentEncoding
import OpenApiClient.Proofs.Reach

namespace OpenApiClient

namespace Json

theorem sortedItems_eq (xs : List Json) : sortedItems xs = xs.map sorted := by
  induction xs with
  | nil => rfl
  | cons x xs ih => rw [sortedItems, ih, List.map_cons]

theorem sortedEntries_eq (es : List (String × Json)) :
    sortedEntries es = es.map fun e => (e.1, sorted e.2) := by
  induction es with
  | nil => rfl
  | cons e es ih => rw [sortedEntries, ih, List.map_cons]

end Json

namespace Client

open OpenApi

theorem pointersInItems_eq (xs : List Json) : pointersInItems xs = xs.flatMap pointersIn := by
  induction xs with
  | nil => rfl
  | cons x xs ih => rw [pointersInItems, ih, List.flatMap_cons]

theorem pointersInEntries_eq (es : List (String × Json)) :
    pointersInEntries es = es.flatMap fun e => referencePointer e ++ pointersIn e.2 := by
  induction es with
  | nil => rfl
  | cons e es ih => rw [pointersInEntries, ih, List.flatMap_cons]

/-- The pointers that are found in a value. -/
def shown (j : Json) : List String := pointersIn j.sorted

theorem mem_schemasIn {j : Json} {name : String} :
    name ∈ schemasIn j ↔ ∃ p ∈ shown j, componentName p = .ok name := by
  have htoOption : ∀ p, (componentName p).toOption = some name ↔ componentName p = .ok name :=
    fun p => by cases componentName p <;> simp [Except.toOption]
  simp only [schemasIn, List.mem_filterMap, htoOption]
  rfl

theorem shown_item {xs : List Json} {x : Json} (hx : x ∈ xs) : shown x ⊆ shown (.array xs) :=
  fun p hp => by
    rw [shown, Json.sorted, pointersIn, pointersInItems_eq, Json.sortedItems_eq]
    exact List.mem_flatMap.2 ⟨_, List.mem_map_of_mem hx, hp⟩

/-- **What is found in a value at a key** is found in the object, if no key comes twice. -/
theorem shown_entry {es : Entries Json} (hn : es.keys.Nodup) {e : String × Json} (he : e ∈ es) :
    shown e.2 ⊆ shown (.object es) := fun p hp => by
  have hkeys : Entries.keys (es.map fun e => (e.1, Json.sorted e.2)) = es.keys := by
    simp [Entries.keys]
  have hmem : (e.1, Json.sorted e.2) ∈ Json.sortEntries (es.map fun e => (e.1, Json.sorted e.2)) :=
    Json.mem_sortEntries (hkeys ▸ hn) (List.mem_map.2 ⟨e, he, rfl⟩)
  rw [shown, Json.sorted, pointersIn, pointersInEntries_eq, Json.sortedEntries_eq]
  exact List.mem_flatMap.2 ⟨_, hmem, List.mem_append_right _ hp⟩

section Fields

variable {α : Type} {names : List String} {j x : Json} (key : String) (write : α → Json)
  (hkeys : ∃ es : Entries Json, j = .object es ∧ es.keys.Sublist names) (hn : names.Nodup)
include hkeys hn

omit write in
theorem shown_field (hx : j.field? key = some x) : shown x ⊆ shown j := by
  obtain ⟨es, rfl, hsub⟩ := hkeys
  exact shown_entry (hn.sublist hsub) (Entries.mem_of_at? (k := key) hx)

/-- What is found in an element of a list is found where the list is a field. -/
theorem shown_list {xs : List α}
    (hat : j.field? key = if xs ≠ [] then some (.array (xs.map write)) else none) {y : α} (hy : y ∈ xs) :
    shown (write y) ⊆ shown j := by
  rw [if_pos (List.ne_nil_of_mem hy)] at hat
  exact List.Subset.trans (shown_item (List.mem_map_of_mem hy)) (shown_field key hkeys hn hat)

omit key hkeys hn in
theorem shown_value {m : Entries α} (hm : m.keys.Nodup) {e : String × α} (he : e ∈ m) :
    shown (write e.2) ⊆ shown (mapToJson write m) := by
  have hkeys : Entries.keys (m.map fun e => (e.1, write e.2)) = m.keys := by simp [Entries.keys]
  exact shown_entry (e := (e.1, write e.2)) (hkeys ▸ hm) (List.mem_map.2 ⟨e, he, rfl⟩)

/-- What is found in a value of a map is found where the map is a field. -/
theorem shown_map {m : Entries α}
    (hat : j.field? key = if m ≠ [] then some (mapToJson write m) else none) (hm : m.keys.Nodup)
    {e : String × α} (he : e ∈ m) : shown (write e.2) ⊆ shown j := by
  rw [if_pos (List.ne_nil_of_mem he)] at hat
  exact List.Subset.trans (shown_value write hm he) (shown_field key hkeys hn hat)

end Fields

end Client

namespace OpenApi

open Client

variable {α : Type} [Leaf α]

/-- What is found in a schema inside an object is found in the object. -/
theorem SchemaOf.shown_child {s : SchemaOf Json} (hn : (Entries.keys s.properties).Nodup) {x : Json}
    (h : x ∈ s.children) : shown x ⊆ shown s.toJson := by
  have hfields : (SchemaOf.fields.map (·.name)).Nodup := by decide
  have hfield : ∀ key {y : Json}, s.toJson.field? key = some y → shown y ⊆ shown s.toJson :=
    fun key _ => shown_field key s.keys_toJson hfields
  have hlist : ∀ key (xs : List Json), x ∈ xs →
      s.toJson.field? key = (if xs ≠ [] then some (.array xs) else none) →
        shown x ⊆ shown s.toJson := fun key xs hx hat =>
    shown_list key id s.keys_toJson hfields (by simpa using hat) hx
  rcases mem_children.1 h with ⟨name, hx⟩ | hx | hx | hx | hx | hx | ⟨args, hargs, hx⟩
  · exact shown_map "properties" id (e := (name, x)) s.keys_toJson hfields (by simp [toJson]) hn hx
  · exact hfield "items" (by simp [toJson, hx])
  · exact hlist "allOf" s.allOf hx (by simp [toJson])
  · exact hlist "oneOf" s.oneOf hx (by simp [toJson])
  · exact hlist "anyOf" s.anyOf hx (by simp [toJson])
  · exact hfield "additionalProperties" (by simp [toJson, hx, Additional.toJson])
  · have hat : s.toJson.field? "x-type-arguments" =
        some (.object [("allOf", .array args)]) := by simp [toJson, hargs]
    have hargument : shown (.array args) ⊆ shown (.object [("allOf", .array args)]) :=
      shown_entry (e := ("allOf", .array args)) (by simp [Entries.keys]) List.mem_cons_self
    exact List.Subset.trans (List.Subset.trans (shown_item hx) hargument) (hfield _ hat)

/-- All references to schemas are found in a value as it is written. -/
def Shows {β : Type} (write : β → Json) (links : β → List Link) (x : β) : Prop :=
  ∀ p, (Section.schemas, p) ∈ links x → p ∈ shown (write x)

/-- **The references in a schema that was read** are found in its JSON form. -/
theorem Schema.pointers_subset_shown {n : Nat} {t : Datum} {s : Schema} (h : layers? n t = some s) :
    s.pointers ⊆ shown s.toJson := by
  induction n generalizing t s with
  | zero => cases h
  | succ n ih =>
    rw [layers?] at h
    split at h
    · next p _ =>
      obtain rfl := Option.some.inj h
      rw [pointers_ref, toJson_ref]
      exact List.Subset.refl _
    · obtain ⟨s, hs, rfl⟩ := Option.map_eq_some_iff.1 h
      have hread := SchemaOf.wasRead hs
      rw [pointers_inline, toJson_inline]
      intro p hp
      obtain ⟨x, hx, hp⟩ := List.mem_flatMap.1 hp
      obtain ⟨t', ht'⟩ := hread.children x hx
      refine SchemaOf.shown_child ?_ ?_ (ih ht' hp)
      · simpa [SchemaOf.map, Entries.keys, Function.comp_def] using hread.properties
      · rw [SchemaOf.children_map]
        exact List.mem_map_of_mem hx

theorem Schema.shows {t : Tree α} {s : Schema} (h : read? t = some s) : Shows toJson links s :=
  fun p hp => by
    obtain ⟨d, -, hd⟩ := Option.bind_eq_some_iff.1 h
    obtain ⟨p', hp', heq⟩ := List.mem_map.1 hp
    exact (Prod.mk.inj heq).2 ▸ pointers_subset_shown hd hp'

/-- The references in a schema that may be missing are found where the schema is. -/
theorem shows_schema? {t : Entries (Tree α)} {name : String} {o : Option Schema}
    (h : Record.optional? t name Schema.read? = some o) {j : Json}
    (hj : ∀ s, o = some s → shown s.toJson ⊆ shown j) {p : String}
    (hp : (Section.schemas, p) ∈ o.toList.flatMap Schema.links) : p ∈ shown j := by
  obtain ⟨s, hs, hp⟩ := List.mem_flatMap.1 hp
  have hs : o = some s := by simpa using hs
  obtain ⟨t', ht'⟩ := Record.of_optional?_eq_some h hs
  exact hj s hs (Schema.shows ht' p hp)

theorem MediaType.shows {t : Tree α} {m : MediaType} (h : read? t = some m) :
    Shows toJson (fun m => m.schema.toList.flatMap Schema.links) m := by
  simp only [read?, ↓do_eq_some_iff] at h
  obtain ⟨r, -, schema, hschema, h⟩ := h
  obtain rfl := Option.some.inj h
  refine fun p hp => shows_schema? hschema (fun s hs => ?_) hp
  exact shown_field "schema" ⟨_, rfl, keys_entryOf schema⟩ (by decide) (by simp [toJson, hs])

/-- The references in payloads that were read are found where the payloads are. -/
theorem shows_content {content : Content} {j : Json}
    (h : ∀ e ∈ content, ∃ t : Tree α, MediaType.read? t = some e.2)
    (hj : ∀ e ∈ content, shown e.2.toJson ⊆ shown j) {p : String}
    (hp : (Section.schemas, p) ∈ contentLinks content) : p ∈ shown j := by
  obtain ⟨m, hm, hp⟩ := List.mem_flatMap.1 hp
  obtain ⟨e, he, rfl⟩ := List.mem_map.1 hm
  obtain ⟨t, ht⟩ := h e he
  exact hj e he (MediaType.shows ht p hp)

theorem Parameter.shows {t : Tree α} {x : Parameter} (h : read? t = some x) : Shows toJson links x := by
  simp only [read?, ↓do_eq_some_iff] at h
  obtain ⟨r, -, name, -, location, -, required, -, schema, hschema, description, -, h⟩ := h
  obtain rfl := Option.some.inj h
  refine fun p hp => shows_schema? hschema (fun s hs => ?_) hp
  exact shown_field "schema" (keys_toJson _) (by decide)
    (by simp [toJson, Entries.at?_cons, hs])

theorem RequestBody.shows {t : Tree α} {b : RequestBody} (h : read? t = some b) : Shows toJson links b := by
  simp only [read?, ↓do_eq_some_iff] at h
  obtain ⟨r, -, content, hcontent, required, -, description, -, h⟩ := h
  obtain rfl := Option.some.inj h
  obtain ⟨hn, hread⟩ := Record.of_map_eq_some hcontent
  refine fun p hp => shows_content hread (fun e he => List.Subset.trans (shown_value _ hn he) ?_) hp
  exact shown_field "content" (keys_toJson _) (by decide) (by simp [toJson, Entries.at?_cons])

theorem Response.shows {t : Tree α} {x : Response} (h : read? t = some x) : Shows toJson links x := by
  simp only [read?, ↓do_eq_some_iff] at h
  obtain ⟨r, -, description, -, content, hcontent, h⟩ := h
  obtain rfl := Option.some.inj h
  obtain ⟨hn, hread⟩ := Record.of_map_eq_some hcontent
  refine fun p hp => shows_content hread (fun e he => ?_) hp
  exact shown_map "content" _ (keys_toJson _) (by decide) (by simp [toJson, Entries.at?_cons]) hn he

/-- A value in the place of a reference was read as such. -/
theorem Referable.exists_read? {β : Type} {read : Datum → Option β} {t : Tree α} {x : β}
    (h : Referable.read? read t = some (.item x)) : ∃ d, read d = some x := by
  obtain ⟨d, -, h⟩ := Option.bind_eq_some_iff.1 h
  split at h
  · cases h
  · obtain ⟨y, hy, heq⟩ := Option.map_eq_some_iff.1 h
    exact ⟨d, Referable.item.inj heq ▸ hy⟩

/-- A reference to a value of another section is none to a schema. -/
theorem Referable.shows {β : Type} {read : Datum → Option β} {write : β → Json} {links : β → List Link}
    {s : Section} (hs : s ≠ .schemas) (hread : ∀ {d x}, read d = some x → Shows write links x)
    {t : Tree α} {item : Referable β} (h : Referable.read? read t = some item) :
    Shows (Referable.toJson write) (Referable.links s links) item := fun p hp => by
  cases item with
  | ref pointer => exact absurd (Prod.mk.inj (List.mem_singleton.1 hp)).1.symm hs
  | item x =>
    obtain ⟨d, hd⟩ := Referable.exists_read? h
    exact hread hd p hp

/-- **The references of an operation that was read** are found in its JSON form, but for those to shared
parameters, bodies and responses. -/
theorem Operation.shows {t : Tree α} {o : Operation} (h : read? t = some o) : Shows toJson links o := by
  simp only [read?, ↓do_eq_some_iff] at h
  obtain ⟨r, -, operationId, -, summary, -, description, -, tags, -, parameters, hparameters,
    requestBody, hrequestBody, responses, hresponses, deprecated, -, h⟩ := h
  obtain rfl := Option.some.inj h
  have hfields : (fields.map (·.name)).Nodup := by decide
  intro p hp
  rcases List.mem_append.1 hp with hp | hp
  · rcases List.mem_append.1 hp with hp | hp
    · obtain ⟨item, hitem, hp⟩ := List.mem_flatMap.1 hp
      obtain ⟨t', ht'⟩ := Record.of_list_eq_some hparameters hitem
      have hshown := Referable.shows (by decide) Parameter.shows ht' p hp
      exact shown_list "parameters" _ (keys_toJson _) hfields (by simp [toJson]) hitem hshown
    · obtain ⟨item, hitem, hp⟩ := List.mem_flatMap.1 hp
      have hitem : requestBody = some item := by simpa using hitem
      obtain ⟨t', ht'⟩ := Record.of_optional?_eq_some hrequestBody hitem
      have hshown := Referable.shows (by decide) RequestBody.shows ht' p hp
      exact shown_field "requestBody" (keys_toJson _) hfields (by simp [toJson, hitem]) hshown
  · obtain ⟨item, hitem, hp⟩ := List.mem_flatMap.1 hp
    obtain ⟨e, he, rfl⟩ := List.mem_map.1 hitem
    obtain ⟨hn, hread⟩ := Record.of_map_eq_some hresponses
    obtain ⟨t', ht'⟩ := hread e he
    have hshown := Referable.shows (by decide) Response.shows ht' p hp
    exact shown_map "responses" _ (keys_toJson _) hfields (by simp [toJson]) hn he hshown

/-- All references to schemas are found in the operations and in the schemas of a document. -/
structure Document.Shown (d : Document) : Prop where
  operations : ∀ e ∈ d.operations, Shows Operation.toJson Operation.links e.2.2
  schemas : ∀ name s, d.parts.schemas.at? name = some s → Shows Schema.toJson Schema.links s

/-- An operation of a path that was read was read. -/
theorem PathItem.exists_read? {t : Tree α} {p : PathItem} (h : read? t = some p) {e : Verb × Operation}
    (he : e ∈ p.operations) : ∃ t' : Tree α, Operation.read? t' = some e.2 := by
  simp only [read?, ↓do_eq_some_iff] at h
  obtain ⟨r, -, summary, -, description, -, parameters, -, get, hget, post, hpost, put, hput, delete,
    hdelete, patch, hpatch, options, hoptions, head, hhead, trace, htrace, h⟩ := h
  obtain rfl := Option.some.inj h
  have hread : ∀ {name : String} {o : Option Operation},
      Record.optional? r name Operation.read? = some o → ∀ verb, o.map (verb, ·) = some e →
        ∃ t' : Tree α, Operation.read? t' = some e.2 := fun ho verb heq => by
    obtain ⟨x, hx, rfl⟩ := Option.map_eq_some_iff.1 heq
    exact Record.of_optional?_eq_some ho hx
  obtain ⟨⟨verb, o⟩, hmem, heq⟩ := List.mem_filterMap.1 he
  simp only [List.mem_cons, Prod.mk.injEq, List.not_mem_nil, or_false] at hmem
  rcases hmem with ⟨-, rfl⟩ | ⟨-, rfl⟩ | ⟨-, rfl⟩ | ⟨-, rfl⟩ | ⟨-, rfl⟩ | ⟨-, rfl⟩ | ⟨-, rfl⟩ | ⟨-, rfl⟩
  · exact hread hget verb heq
  · exact hread hpost verb heq
  · exact hread hput verb heq
  · exact hread hdelete verb heq
  · exact hread hpatch verb heq
  · exact hread hoptions verb heq
  · exact hread hhead verb heq
  · exact hread htrace verb heq

/-- An operation of a document that was read was read. -/
theorem Document.exists_read? {t : Tree α} {d : Document} (h : read? t = some d)
    {e : String × Verb × Operation} (he : e ∈ d.operations) :
    ∃ t' : Tree α, Operation.read? t' = some e.2.2 := by
  simp only [read?, ↓do_eq_some_iff] at h
  obtain ⟨r, -, openapi, -, info, -, paths, hpaths, components, -, h⟩ := h
  obtain rfl := Option.some.inj h
  obtain ⟨⟨path, item⟩, hitem, he⟩ := List.mem_flatMap.1 he
  obtain ⟨t', ht'⟩ := (Record.of_map_eq_some hpaths).2 _ hitem
  obtain ⟨e', he', rfl⟩ := List.mem_map.1 he
  exact PathItem.exists_read? ht' he'

/-- The components of a document that was read were read, if it has them. -/
theorem Document.exists_read?_parts {t : Tree α} {d : Document} (h : read? t = some d) :
    d.parts = {} ∨ ∃ t' : Tree α, Components.read? t' = some d.parts := by
  simp only [read?, ↓do_eq_some_iff] at h
  obtain ⟨r, -, openapi, -, info, -, paths, -, components, hcomponents, h⟩ := h
  obtain rfl := Option.some.inj h
  cases hc : components with
  | none => exact .inl rfl
  | some c => exact .inr (Record.of_optional?_eq_some hcomponents hc)

theorem Components.shows {t : Tree α} {c : Components} (h : read? t = some c) {name : String} {s : Schema}
    (hs : c.schemas.at? name = some s) : Shows Schema.toJson Schema.links s := by
  simp only [read?, ↓do_eq_some_iff] at h
  obtain ⟨r, -, schemas, hschemas, parameters, -, requestBodies, -, responses, -, h⟩ := h
  obtain rfl := Option.some.inj h
  obtain ⟨t', ht'⟩ := (Record.of_map_eq_some hschemas).2 _ (Entries.mem_of_at? hs)
  exact Schema.shows ht'

/-- **All references to schemas are found in a document that was read.** -/
theorem Document.shown {t : Tree α} {d : Document} (h : read? t = some d) : d.Shown where
  operations e he :=
    have ⟨_, ht'⟩ := exists_read? h he
    Operation.shows ht'
  schemas name s hs := by
    rcases exists_read?_parts h with hnone | ⟨t', ht'⟩
    · simp [hnone] at hs
    · exact Components.shows ht' hs

theorem Document.WasRead.shown {d : Document} (h : d.WasRead) : d.Shown := Document.shown h.readsBack.1

end OpenApi
end OpenApiClient
