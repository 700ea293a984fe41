/-
# Where documents are read from

A document is read from the members of objects: what stands under the names of fields is what the
fields are read from (`at?_of_record?`), and what stands under a key of a map or at a position of a
list is read as a value of it (`of_map?_toDatum`, `of_list?_toDatum`). A map is read from an object
whose keys are all different, or the last value of a key would be read where the first one stands;
no value that was read from a text has a key twice (`Tree.isSorted_of_json?`).

So the values that operations and components are given in place or by reference are found at known
places (`Section.IsPlace`), and a valid document has no reference there that fails its check
(`Document.check_of_validate`).
-/

import OpenApiClient.OpenApi.Document.Text
import OpenApiClient.Proofs.Pointers
import OpenApiClient.Proofs.Valid

namespace OpenApiClient

open OpenApiClient.Bundle OpenApi

namespace Json

/-- A value all of whose objects list their keys in increasing order. -/
inductive IsSorted : Json → Prop
  | null : IsSorted .null
  | bool (b : Bool) : IsSorted (.bool b)
  | number (n : Number) : IsSorted (.number n)
  | string (s : String) : IsSorted (.string s)
  | array {xs : List Json} (items : ∀ x ∈ xs, IsSorted x) : IsSorted (.array xs)
  | object {es : Entries Json} (increasing : Increasing es) (values : ∀ e ∈ es, IsSorted e.2) :
    IsSorted (.object es)

theorem increasing_iff_keys {α : Type} {es : Entries α} :
    Increasing es ↔ es.keys.Pairwise fun a b => compare a b = .lt := by
  rw [Increasing, Entries.keys, List.pairwise_map]

theorem Increasing.nodup {α : Type} {es : Entries α} (h : Increasing es) : es.keys.Nodup := by
  refine (increasing_iff_keys.1 h).imp fun {_ b} hab heq => ?_
  have hself : compare b b = .eq := Std.ReflCmp.compare_self
  rw [heq, hself] at hab
  cases hab

namespace IsSorted

variable {j x : Json} {es : Entries Json} {name : String} {names : List String}

theorem nodup (h : (Json.object es).IsSorted) : es.keys.Nodup := by
  cases h with
  | object increasing values => exact increasing.nodup

theorem member? (h : j.IsSorted) (hx : Bundle.member? j name = some x) : x.IsSorted := by
  cases h with
  | array items =>
    obtain ⟨i, -, hi⟩ := Option.bind_eq_some_iff.1 hx
    exact items x (List.mem_of_getElem? hi)
  | object increasing values => exact values _ (Entries.mem_of_at? hx)
  | _ => cases hx

theorem locate? (h : j.IsSorted) (hx : Bundle.locate? j names = some x) : x.IsSorted := by
  induction names generalizing j with
  | nil => exact Option.some.inj hx ▸ h
  | cons name names ih =>
    obtain ⟨y, hy, hx⟩ := Option.bind_eq_some_iff.1 (locate?_cons ▸ hx)
    exact ih (h.member? hy) hx

theorem putSorted (h : (Json.object es).IsSorted) (hx : x.IsSorted) :
    (Json.object (Json.putSorted name x es)).IsSorted := by
  cases h with
  | object increasing values =>
    refine .object (increasing_putSorted increasing name x) fun e he => ?_
    rcases mem_putSorted he with rfl | he
    · exact hx
    · exact values e he

end IsSorted

end Json

namespace Tree

variable {α : Type} [Leaf α]

theorem isSorted_scalarToJson (v : Scalar) : v.toJson.IsSorted := by
  cases v with
  | number n =>
    cases n with
    | int n => exact .number _
    | float x =>
      rw [Scalar.toJson]
      split
      · exact .number _
      · exact .null
  | _ => constructor

mutual

/-- **A JSON value that was read is sorted.** -/
theorem isSorted_of_json? : ∀ {t : Tree α} {j : Json}, t.json? = some j → j.IsSorted
  | .leaf a, j, h => by
    obtain ⟨v, -, rfl⟩ := Option.map_eq_some_iff.1 h
    exact isSorted_scalarToJson v
  | .sequence items, j, h => by
    obtain ⟨js, hjs, rfl⟩ := Option.map_eq_some_iff.1 h
    exact .array (isSorted_of_jsonItems? hjs)
  | .mapping entries, j, h => by
    obtain ⟨es, hes, rfl⟩ := Option.map_eq_some_iff.1 h
    exact .object (Json.increasing_sortEntries es) fun e he =>
      isSorted_of_jsonEntries? hes e (Json.mem_of_mem_sortEntries he)

theorem isSorted_of_jsonItems? : ∀ {ts : List (Tree α)} {js : List Json},
    jsonItems? ts = some js → ∀ j ∈ js, j.IsSorted
  | [], _, h => by obtain rfl := Option.some.inj h; simp
  | t :: ts, js, h => by
    rw [jsonItems?] at h
    split at h
    · next j rest hj hrest =>
      obtain rfl := Option.some.inj h
      exact List.forall_mem_cons.2 ⟨isSorted_of_json? hj, isSorted_of_jsonItems? hrest⟩
    · cases h

theorem isSorted_of_jsonEntries? : ∀ {es : List (Tree α × Tree α)} {js : Entries Json},
    jsonEntries? es = some js → ∀ e ∈ js, e.2.IsSorted
  | [], _, h => by obtain rfl := Option.some.inj h; simp
  | e :: es, js, h => by
    rw [jsonEntries?] at h
    split at h
    · next k j rest _ hj hrest =>
      obtain rfl := Option.some.inj h
      exact List.forall_mem_cons.2 ⟨isSorted_of_json? hj, isSorted_of_jsonEntries? hrest⟩
    · cases h

end

variable {β : Type} {read : Datum → Option β} {j x : Json} {name : String}

/-- **What stands in an array is read as an item of the list.** -/
theorem of_list?_toDatum {ys : List β} (h : j.toDatum.list? read = some ys)
    (hx : member? j name = some x) : ∃ y ∈ ys, read x.toDatum = some y := by
  obtain ⟨items, hitems, h⟩ := Option.bind_eq_some_iff.1 h
  cases j with
  | array xs =>
    obtain ⟨i, -, hi⟩ := Option.bind_eq_some_iff.1 hx
    obtain rfl := Option.some.inj hitems
    refine exists_mem_of_mapM h ?_
    rw [Json.itemsToData_eq]
    exact List.mem_map_of_mem (List.mem_of_getElem? hi)
  | object es => cases hitems
  | _ => cases hx

/-- The pairs that are read from the entries of an object have its keys. -/
theorem at?_of_mapM_readPair? {es : Entries Json} {pairs : Entries β}
    (h : (Json.entriesToData es).mapM (readPair? read) = some pairs) :
    pairs.keys = es.keys ∧ ∀ name x, es.at? name = some x →
      ∃ y, pairs.at? name = some y ∧ read x.toDatum = some y := by
  induction es generalizing pairs with
  | nil =>
    obtain rfl := Option.some.inj h
    exact ⟨rfl, fun _ _ => nofun⟩
  | cons e es ih =>
    rw [Json.entriesToData, List.mapM_cons] at h
    obtain ⟨pair, hpair, h⟩ := Option.bind_eq_some_iff.1 h
    obtain ⟨rest, hrest, h⟩ := Option.bind_eq_some_iff.1 h
    obtain rfl := Option.some.inj h
    obtain ⟨hkeys, hat⟩ := ih hrest
    have hpair : (read e.2.toDatum).map (e.1, ·) = some pair := by
      rw [← hpair, readPair?]
      cases read e.2.toDatum <;> rfl
    obtain ⟨y, hy, rfl⟩ := Option.map_eq_some_iff.1 hpair
    refine ⟨congrArg (e.1 :: ·) hkeys, fun name x hx => ?_⟩
    rw [Entries.at?_cons] at hx ⊢
    dsimp only
    split at hx
    · next hname =>
      obtain rfl := Option.some.inj hx
      exact ⟨y, if_pos hname, hy⟩
    · next hname =>
      obtain ⟨z, hz, hxz⟩ := hat name x hx
      exact ⟨z, (if_neg hname).trans hz, hxz⟩

/-- **What stands under a key of an object is read as the value of the map.** -/
theorem of_map?_toDatum {m : Entries β} (hj : j.IsSorted) (h : j.toDatum.map? read = some m)
    (hx : member? j name = some x) : ∃ y, m.at? name = some y ∧ read x.toDatum = some y := by
  obtain ⟨entries, hentries, h⟩ := Option.bind_eq_some_iff.1 h
  obtain ⟨pairs, hpairs, rfl⟩ := Option.map_eq_some_iff.1 h
  cases j with
  | object es =>
    obtain rfl := Option.some.inj hentries
    obtain ⟨hkeys, hat⟩ := at?_of_mapM_readPair? hpairs
    rw [Entries.ofList_of_nodup (hkeys ▸ hj.nodup)]
    exact hat name x hx
  | array xs => cases hentries
  | _ => cases hx

end Tree

namespace Record

variable {β : Type} {read : Datum → Option β} {r : Entries Datum} {fields : List Field}
  {j x : Json} {name : String}

theorem at?_of_fieldsOfEntries? {es : Entries Json}
    (h : Tree.fieldsOfEntries? fields (Json.entriesToData es) = some r)
    (hname : name ∈ fields.map (·.name)) : r.at? name = (es.at? name).map Json.toDatum := by
  induction es generalizing r with
  | nil =>
    obtain rfl := Option.some.inj h
    rfl
  | cons e es ih =>
    rw [Json.entriesToData, Tree.fieldsOfEntries?] at h
    simp only [Tree.fieldKey?, Leaf.fieldKey?, Field.ofKey?] at h
    split at h
    · next key rest hkey hrest =>
      obtain rfl := Option.some.inj hkey
      split at h
      · next field hfield =>
        obtain ⟨f, hf, rfl⟩ := Option.map_eq_some_iff.1 hfield
        have hfe : f.name = e.1 := by simpa using List.find?_some hf
        split at h
        · cases h
        · obtain rfl := Option.some.inj h
          rw [Entries.at?_cons, Entries.at?_cons, ih hrest, hfe]
          split <;> rfl
      · next hnone =>
        obtain rfl := Option.some.inj h
        have hne : name ≠ e.1 := by
          rintro rfl
          obtain ⟨f, hf, hfe⟩ := List.mem_map.1 hname
          have := List.find?_eq_none.1 (Option.map_eq_none_iff.1 hnone) f hf
          simp [hfe] at this
        rw [ih hrest, Entries.at?_cons, if_neg hne]
    · cases h

/-- Entries with different keys name no field twice. -/
theorem exists_fieldsOfEntries? (fields : List Field) {es : Entries Json} (hn : es.keys.Nodup) :
    ∃ r, Tree.fieldsOfEntries? fields (Json.entriesToData es) = some r ∧ r.keys ⊆ es.keys := by
  induction es with
  | nil => exact ⟨[], rfl, List.Subset.refl _⟩
  | cons e es ih =>
    obtain ⟨hfresh, hn⟩ := List.nodup_cons.1 hn
    obtain ⟨r, hr, hkeys⟩ := ih hn
    rw [Json.entriesToData, Tree.fieldsOfEntries?, hr]
    simp only [Tree.fieldKey?, Leaf.fieldKey?, Field.ofKey?]
    cases hf : fields.find? (·.name == e.1) with
    | none => exact ⟨r, rfl, List.Subset.trans hkeys (List.subset_cons_self _ _)⟩
    | some f =>
      have hfe : f.name = e.1 := by simpa using List.find?_some hf
      have hnew : Entries.has r f.name = false :=
        Entries.has_eq_false.2 fun hmem => hfresh (hfe ▸ hkeys hmem)
      simp only [Option.map_some, hnew]
      refine ⟨_, rfl, ?_⟩
      change f.name :: Entries.keys r ⊆ e.1 :: Entries.keys es
      rw [hfe]
      exact List.cons_subset_cons _ hkeys

/-- **What stands under the name of a field is what the field is read from.** -/
theorem at?_of_record? (h : j.toDatum.record? fields = some r)
    (hname : name ∈ fields.map (·.name)) (hposition : position? name = none)
    (hx : member? j name = some x) : r.at? name = some x.toDatum := by
  cases j with
  | object es =>
    rw [at?_of_fieldsOfEntries? h hname]
    exact congrArg (Option.map Json.toDatum) hx
  | array xs =>
    rw [member?, hposition] at hx
    cases hx
  | _ => cases hx

section Members

variable (hr : j.toDatum.record? fields = some r) (hname : name ∈ fields.map (·.name))
  (hposition : position? name = none) (hx : member? j name = some x)

include hr hname hposition hx

theorem withDefault?_of_member? {v d : β} (h : withDefault? r name d read = some v) :
    read x.toDatum = some v := by
  rwa [withDefault?, at?_of_record? hr hname hposition hx] at h

theorem optional?_of_member? {o : Option β} (h : optional? r name read = some o)
    (hnull : x ≠ .null) : ∃ v, o = some v ∧ read x.toDatum = some v := by
  rw [optional?, at?_of_record? hr hname hposition hx] at h
  dsimp only at h
  rw [Tree.optional?_toDatum hnull] at h
  obtain ⟨v, hv, rfl⟩ := Option.map_eq_some_iff.1 h
  exact ⟨v, rfl, hv⟩

end Members

end Record

namespace OpenApi

variable {j x y : Json} {p q : String} {names : List String}

/-- What is taken for a reference is one. -/
theorem pointerOfDatum?_toDatum (hj : j.IsSorted) : pointerOfDatum? j.toDatum = reference? j := by
  cases j with
  | object es =>
    obtain ⟨r, hr, -⟩ := Record.exists_fieldsOfEntries? [⟨"$ref", false⟩] hj.nodup
    have hat := Record.at?_of_fieldsOfEntries? hr (List.mem_cons_self (a := "$ref"))
    rw [Json.toDatum, pointerOfDatum?, hr, Option.bind_some, Record.required?, hat, reference?]
    cases Entries.at? es "$ref" with
    | none => rfl
    | some x => cases x <;> rfl
  | _ => rfl

/-- What is written as a reference is read as one. -/
theorem Referable.read?_of_reference? {β : Type} {read : Datum → Option β} (hj : j.IsSorted)
    (hp : reference? j = some p) : Referable.read? read j.toDatum = some (.ref p) := by
  rw [Referable.read?, Json.typed?_toDatum, Option.bind_some, pointerOfDatum?_toDatum hj, hp]

section References

variable {β : Type} {read : Datum → Option β} {name : String} (hj : j.IsSorted)
  (hy : member? j name = some y) (hp : reference? y = some p)

include hj hy hp

/-- A reference in an array is among the items that are read from it. -/
theorem Referable.mem_of_list? {xs : List (Referable β)}
    (h : j.toDatum.list? (Referable.read? read) = some xs) : .ref p ∈ xs := by
  obtain ⟨item, hitem, hread⟩ := Tree.of_list?_toDatum h hy
  obtain rfl := Option.some.inj ((read?_of_reference? (hj.member? hy) hp).symm.trans hread)
  exact hitem

/-- A reference in an object is among the values that are read from it. -/
theorem Referable.mem_of_map? {m : Entries (Referable β)}
    (h : j.toDatum.map? (Referable.read? read) = some m) : .ref p ∈ m.values := by
  obtain ⟨item, hitem, hread⟩ := Tree.of_map?_toDatum hj h hy
  obtain rfl := Option.some.inj ((read?_of_reference? (hj.member? hy) hp).symm.trans hread)
  exact List.mem_map_of_mem (Entries.mem_of_at? hitem)

end References

/-- The key of the operation of a verb. -/
def Verb.key : Verb → String
  | .get => "get"
  | .post => "post"
  | .put => "put"
  | .delete => "delete"
  | .patch => "patch"
  | .options => "options"
  | .head => "head"
  | .trace => "trace"

/-- The operation of a verb. -/
def PathItem.operation? (item : PathItem) : Verb → Option Operation
  | .get => item.get
  | .post => item.post
  | .put => item.put
  | .delete => item.delete
  | .patch => item.patch
  | .options => item.options
  | .head => item.head
  | .trace => item.trace

theorem PathItem.mem_operations {item : PathItem} {verb : Verb} {op : Operation}
    (h : item.operation? verb = some op) : (verb, op) ∈ item.operations := by
  rw [operations, List.mem_filterMap]
  refine ⟨(verb, item.operation? verb), ?_, by rw [h]; rfl⟩
  cases verb <;> simp [operation?]

namespace Operation

/-- What the values of an operation are read from. -/
theorem exists_record_of_read? {op : Operation} (h : read? j.toDatum = some op) :
    ∃ r, j.toDatum.record? fields = some r ∧
      Record.withDefault? r "parameters" [] (Tree.list? parameterOrRef?) = some op.parameters ∧
        Record.optional? r "requestBody" requestBodyOrRef? = some op.requestBody ∧
          Record.withDefault? r "responses" [] (Tree.map? responseOrRef?) = some op.responses := by
  rw [read?] at h
  simp only [↓do_eq_some_iff] at h
  obtain ⟨r, hr, _, _, _, _, _, _, _, _, _, hparameters, _, hbody, _, hresponses, _, _, hop⟩ := h
  obtain rfl := Option.some.inj hop
  exact ⟨r, hr, hparameters, hbody, hresponses⟩

end Operation

namespace PathItem

/-- What the values of a path are read from. -/
theorem exists_record_of_read? {item : PathItem} (h : read? j.toDatum = some item) :
    ∃ r, j.toDatum.record? fields = some r ∧
      Record.withDefault? r "parameters" [] (Tree.list? parameterOrRef?) = some item.parameters ∧
        ∀ verb : Verb,
          Record.optional? r verb.key Operation.read? = some (item.operation? verb) := by
  rw [read?] at h
  simp only [↓do_eq_some_iff] at h
  obtain ⟨r, hr, _, _, _, _, _, hparameters, _, hget, _, hpost, _, hput, _, hdelete, _, hpatch,
    _, hoptions, _, hhead, _, htrace, hitem⟩ := h
  obtain rfl := Option.some.inj hitem
  refine ⟨r, hr, hparameters, fun verb => ?_⟩
  cases verb <;> assumption

end PathItem

/-- What the sections of components are read from. -/
theorem Components.exists_record_of_read? {c : Components} (h : read? j.toDatum = some c) :
    ∃ r, j.toDatum.record? fields = some r ∧
      Record.withDefault? r "schemas" [] (Tree.map? Schema.read?) = some c.schemas ∧
        Record.withDefault? r "parameters" [] (Tree.map? parameterOrRef?) = some c.parameters ∧
          Record.withDefault? r "requestBodies" [] (Tree.map? requestBodyOrRef?) =
            some c.requestBodies ∧
            Record.withDefault? r "responses" [] (Tree.map? responseOrRef?) =
              some c.responses := by
  rw [read?] at h
  simp only [↓do_eq_some_iff] at h
  obtain ⟨r, hr, _, hschemas, _, hparameters, _, hbodies, _, hresponses, hc⟩ := h
  obtain rfl := Option.some.inj hc
  exact ⟨r, hr, hschemas, hparameters, hbodies, hresponses⟩

namespace Document

variable {d : Document}

/-- What the paths and components of a document are read from. -/
theorem exists_record_of_ofJson (h : ofJson j = .ok d) :
    ∃ r, j.toDatum.record? fields = some r ∧
      Record.withDefault? r "paths" [] (Tree.map? PathItem.read?) = some d.paths ∧
        Record.optional? r "components" Components.read? = some d.components := by
  rw [ofJson, ofTree, Option.bind_some] at h
  split at h
  · next d' hd =>
    rw [supported] at h
    split at h
    · obtain rfl := Except.ok.inj h
      rw [read?] at hd
      simp only [↓do_eq_some_iff] at hd
      obtain ⟨r, hr, _, _, _, _, _, hpaths, _, hcomponents, hd⟩ := hd
      obtain rfl := Option.some.inj hd
      exact ⟨r, hr, hpaths, hcomponents⟩
    · cases h
  · cases h

end Document

section Places

/-- Where the parameters, bodies and responses of a document are, or references to them. -/
inductive Section.IsPlace : Section → List String → Prop
  | shared (path position : String) : IsPlace .parameters ["paths", path, "parameters", position]
  | parameter (path : String) (verb : Verb) (position : String) :
    IsPlace .parameters ["paths", path, verb.key, "parameters", position]
  | requestBody (path : String) (verb : Verb) :
    IsPlace .requestBodies ["paths", path, verb.key, "requestBody"]
  | response (path : String) (verb : Verb) (status : String) :
    IsPlace .responses ["paths", path, verb.key, "responses", status]
  | component {s : Section} (hs : s ≠ .schemas) (name : String) :
    IsPlace s ["components", s.name, name]

theorem Section.IsPlace.ne_schemas {s : Section} (h : s.IsPlace names) : s ≠ .schemas := by
  cases h with
  | component hs name => exact hs
  | _ => decide

/-- A reference leads to a value of the section, and so do those in the value. -/
def Components.checkReference (c : Components) (p : String) : Section → Except ReferenceError Unit
  | .schemas => c.checkSchema (.ref p)
  | .parameters => c.checkParameter (.ref p)
  | .requestBodies => c.checkRequestBody (.ref p)
  | .responses => c.checkResponse (.ref p)

theorem ne_null_of_member? {name : String} (h : member? j name = some x) : j ≠ .null := by
  rintro rfl
  cases h

theorem ne_null_of_reference? (h : reference? j = some p) : j ≠ .null := by
  rintro rfl
  cases h

namespace Operation

variable {op : Operation} {c : Components} (hj : j.IsSorted) (h : read? j.toDatum = some op)
  (hop : c.checkOperation op = .ok ()) (hp : reference? y = some p)

include hj h hop hp

theorem checkParameter_of_read? {position : String}
    (hy : locate? j ["parameters", position] = some y) :
    c.checkReference p .parameters = .ok () := by
  obtain ⟨x, hx, hy⟩ := Option.bind_eq_some_iff.1 (locate?_cons ▸ hy)
  rw [locate?_singleton] at hy
  obtain ⟨r, hr, hparameters, -, -⟩ := exists_record_of_read? h
  have hlist := Record.withDefault?_of_member? hr (by decide) (by rfl) hx hparameters
  simp only [Components.checkOperation, bind_eq_ok] at hop
  obtain ⟨⟨⟩, hcheck, -⟩ := hop
  exact forM_eq_ok.1 hcheck _ (Referable.mem_of_list? (hj.member? hx) hy hp hlist)

theorem checkRequestBody_of_read? (hy : locate? j ["requestBody"] = some y) :
    c.checkReference p .requestBodies = .ok () := by
  rw [locate?_singleton] at hy
  obtain ⟨r, hr, -, hbody, -⟩ := exists_record_of_read? h
  obtain ⟨b, hb, hread⟩ := Record.optional?_of_member? hr (by decide) (by rfl) hy hbody
    (ne_null_of_reference? hp)
  obtain rfl := Option.some.inj
    ((Referable.read?_of_reference? (hj.member? hy) hp).symm.trans hread)
  simp only [Components.checkOperation, bind_eq_ok] at hop
  obtain ⟨⟨⟩, -, ⟨⟩, hcheck, -⟩ := hop
  exact forM_eq_ok.1 hcheck _ (by rw [hb]; exact List.mem_cons_self)

theorem checkResponse_of_read? {status : String}
    (hy : locate? j ["responses", status] = some y) : c.checkReference p .responses = .ok () := by
  obtain ⟨x, hx, hy⟩ := Option.bind_eq_some_iff.1 (locate?_cons ▸ hy)
  rw [locate?_singleton] at hy
  obtain ⟨r, hr, -, -, hresponses⟩ := exists_record_of_read? h
  have hmap := Record.withDefault?_of_member? hr (by decide) (by rfl) hx hresponses
  simp only [Components.checkOperation, bind_eq_ok] at hop
  obtain ⟨⟨⟩, -, ⟨⟩, -, hcheck⟩ := hop
  exact forM_eq_ok.1 hcheck _ (Referable.mem_of_map? (hj.member? hx) hy hp hmap)

end Operation

namespace Document

variable {d : Document} {s : Section} (hj : j.IsSorted) (h : ofJson j = .ok d)

include hj h

/-- **What stands under a path** is read as the path. -/
theorem exists_path {path : String} (hx : locate? j ["paths", path] = some x) :
    ∃ item ∈ d.paths.values, PathItem.read? x.toDatum = some item := by
  obtain ⟨paths, hpaths, hx⟩ := Option.bind_eq_some_iff.1 (locate?_cons ▸ hx)
  rw [locate?_singleton] at hx
  obtain ⟨r, hr, hmap, -⟩ := exists_record_of_ofJson h
  have hmap := Record.withDefault?_of_member? hr (by decide) (by rfl) hpaths hmap
  obtain ⟨item, hitem, hread⟩ := Tree.of_map?_toDatum (hj.member? hpaths) hmap hx
  exact ⟨item, List.mem_map_of_mem (Entries.mem_of_at? hitem), hread⟩

omit hj in
/-- What stands under the key of the components is read as the components. -/
theorem parts_of_member? (hx : member? j "components" = some x) (hnull : x ≠ .null) :
    Components.read? x.toDatum = some d.parts := by
  obtain ⟨r, hr, -, hcomponents⟩ := exists_record_of_ofJson h
  obtain ⟨c, hc, hread⟩ := Record.optional?_of_member? hr (by decide) (by rfl) hx hcomponents hnull
  rw [parts, hc, Option.getD_some, hread]

/-- **What stands among the schemas of the components** is read as a schema. -/
theorem exists_schema {name : String} (hx : locate? j (schemaPlace name) = some x) :
    ∃ s, d.parts.schemas.at? name = some s ∧ Schema.read? x.toDatum = some s := by
  obtain ⟨components, hcomponents, hx⟩ := Option.bind_eq_some_iff.1 (locate?_cons ▸ hx)
  obtain ⟨schemas, hschemas, hx⟩ := Option.bind_eq_some_iff.1 (locate?_cons ▸ hx)
  rw [locate?_singleton] at hx
  obtain ⟨r, hr, hmap, -⟩ := Components.exists_record_of_read?
    (parts_of_member? h hcomponents (ne_null_of_member? hschemas))
  have hmap := Record.withDefault?_of_member? hr (by decide) (by rfl) hschemas hmap
  exact Tree.of_map?_toDatum ((hj.member? hcomponents).member? hschemas) hmap hx

/-- A path of a valid document passes its check. -/
theorem exists_checked_path {path : String} (hv : d.validate = .ok ())
    (hx : locate? j ["paths", path] = some x) :
    ∃ item, PathItem.read? x.toDatum = some item ∧
      (∀ p ∈ item.parameters, d.parts.checkParameter p = .ok ()) ∧
        ∀ e ∈ item.operations, d.parts.checkOperation e.2 = .ok () := by
  obtain ⟨item, hitem, hread⟩ := exists_path hj h hx
  simp only [validate, bind_eq_ok] at hv
  obtain ⟨⟨⟩, hpaths, -⟩ := hv
  have hpath := forM_eq_ok.1 hpaths item hitem
  simp only [Components.checkPath, bind_eq_ok] at hpath
  obtain ⟨⟨⟩, hparameters, hoperations⟩ := hpath
  exact ⟨item, hread, forM_eq_ok.1 hparameters, forM_eq_ok.1 hoperations⟩

/-- An operation of a valid document passes its check. -/
theorem exists_checked_operation {path : String} {verb : Verb} (hv : d.validate = .ok ())
    (hx : locate? j ["paths", path, verb.key] = some x) (hnull : x ≠ .null) :
    ∃ op, Operation.read? x.toDatum = some op ∧ d.parts.checkOperation op = .ok () := by
  change locate? j (["paths", path] ++ [verb.key]) = some x at hx
  obtain ⟨z, hz, hx⟩ := Option.bind_eq_some_iff.1 (locate?_append ▸ hx)
  rw [locate?_singleton] at hx
  obtain ⟨item, hread, -, hoperations⟩ := exists_checked_path hj h hv hz
  obtain ⟨r, hr, -, hverbs⟩ := PathItem.exists_record_of_read? hread
  obtain ⟨op, hop, hread⟩ := Record.optional?_of_member? hr (by cases verb <;> decide)
    (by cases verb <;> rfl) hx (hverbs verb) hnull
  exact ⟨op, hread, hoperations _ (PathItem.mem_operations hop)⟩

/-- A reference among the components of a valid document passes its check. -/
theorem checkReference_component {name : String} (hv : d.validate = .ok ()) (hs : s ≠ .schemas)
    (hy : locate? j ["components", s.name, name] = some y) (hp : reference? y = some p) :
    d.parts.checkReference p s = .ok () := by
  obtain ⟨components, hcomponents, hy⟩ := Option.bind_eq_some_iff.1 (locate?_cons ▸ hy)
  obtain ⟨values, hvalues, hy⟩ := Option.bind_eq_some_iff.1 (locate?_cons ▸ hy)
  rw [locate?_singleton] at hy
  have hsorted := (hj.member? hcomponents).member? hvalues
  obtain ⟨r, hr, -, hparameters, hbodies, hresponses⟩ := Components.exists_record_of_read?
    (parts_of_member? h hcomponents (ne_null_of_member? hvalues))
  simp only [validate, Components.check, bind_eq_ok] at hv
  obtain ⟨⟨⟩, -, ⟨⟩, -, ⟨⟩, hcheckParameters, ⟨⟩, hcheckBodies, hcheckResponses⟩ := hv
  -- what is read at the place is the reference, and all that is read was checked
  have hchecked : ∀ {β : Type} {read : Datum → Option β} {m : Entries (Referable β)}
      {check : Referable β → Except ReferenceError PUnit},
      Record.withDefault? r s.name [] (Tree.map? (Referable.read? read)) = some m →
        m.values.forM check = .ok ⟨⟩ → check (.ref p) = .ok ⟨⟩ := by
    intro β read m check hm hcheck
    have hmap := Record.withDefault?_of_member? hr (by cases s <;> decide) (by cases s <;> rfl)
      hvalues hm
    exact forM_eq_ok.1 hcheck _ (Referable.mem_of_map? hsorted hy hp hmap)
  cases s with
  | schemas => exact absurd rfl hs
  | parameters => exact hchecked hparameters hcheckParameters
  | requestBodies => exact hchecked hbodies hcheckBodies
  | responses => exact hchecked hresponses hcheckResponses

/-- **In a valid document every reference at a place of a section passes the check of the
section.** -/
theorem checkReference_of_validate (hv : d.validate = .ok ()) (hs : s.IsPlace names)
    (hy : locate? j names = some y) (hp : reference? y = some p) :
    d.parts.checkReference p s = .ok () := by
  cases hs with
  | shared path position =>
    change locate? j (["paths", path] ++ ["parameters", position]) = some y at hy
    obtain ⟨z, hz, hy⟩ := Option.bind_eq_some_iff.1 (locate?_append ▸ hy)
    obtain ⟨x, hx, hy⟩ := Option.bind_eq_some_iff.1 (locate?_cons ▸ hy)
    rw [locate?_singleton] at hy
    obtain ⟨item, hread, hparameters, -⟩ := exists_checked_path hj h hv hz
    obtain ⟨r, hr, hlist, -⟩ := PathItem.exists_record_of_read? hread
    have hlist := Record.withDefault?_of_member? hr (by decide) (by rfl) hx hlist
    exact hparameters _ (Referable.mem_of_list? ((hj.locate? hz).member? hx) hy hp hlist)
  | parameter path verb position =>
    change locate? j (["paths", path, verb.key] ++ ["parameters", position]) = some y at hy
    obtain ⟨z, hz, hy⟩ := Option.bind_eq_some_iff.1 (locate?_append ▸ hy)
    obtain ⟨x, hx, -⟩ := Option.bind_eq_some_iff.1 (locate?_cons ▸ hy)
    obtain ⟨op, hread, hop⟩ := exists_checked_operation hj h hv hz (ne_null_of_member? hx)
    exact Operation.checkParameter_of_read? (hj.locate? hz) hread hop hp hy
  | requestBody path verb =>
    change locate? j (["paths", path, verb.key] ++ ["requestBody"]) = some y at hy
    obtain ⟨z, hz, hy⟩ := Option.bind_eq_some_iff.1 (locate?_append ▸ hy)
    obtain ⟨op, hread, hop⟩ := exists_checked_operation hj h hv hz
      (ne_null_of_member? (locate?_singleton ▸ hy))
    exact Operation.checkRequestBody_of_read? (hj.locate? hz) hread hop hp hy
  | response path verb status =>
    change locate? j (["paths", path, verb.key] ++ ["responses", status]) = some y at hy
    obtain ⟨z, hz, hy⟩ := Option.bind_eq_some_iff.1 (locate?_append ▸ hy)
    obtain ⟨x, hx, -⟩ := Option.bind_eq_some_iff.1 (locate?_cons ▸ hy)
    obtain ⟨op, hread, hop⟩ := exists_checked_operation hj h hv hz (ne_null_of_member? hx)
    exact Operation.checkResponse_of_read? (hj.locate? hz) hread hop hp hy
  | component hs name => exact checkReference_component hj h hv hs hy hp

end Document

end Places

end OpenApi

end OpenApiClient
