/-
# What rewritten references lead to

A reference of the root that names a file becomes one to a schema of the components, whatever stands
at its place: bundling takes all that references lead to into the schemas. A document, though, asks
for a section at each place, and a pointer into another section fails (`targetName_pointerTo`).

So where a schema is asked for, the rewritten reference leads to what it referred to, with its own
references replaced (`Bundling.leadsTo_schema`). A parameter, a body or a response in another file
is never found, and a document that refers to one is not valid (`ofFile_leads_iff`).
-/

import OpenApiClient.Proofs.Bundling
import OpenApiClient.Proofs.Positions

namespace OpenApiClient

namespace OpenApi

variable {c : Components} {s s' : Section} {p : String} {e : ReferenceError}

theorem Section.not_slash_of_mem_name (s : Section) {c : Char} (h : c ∈ s.name.toList) :
    (c == '/') = false := by
  have hall : s.name.toList.all (fun c => !(c == '/')) = true := by cases s <;> rfl
  simpa using List.all_eq_true.1 hall c h

theorem Section.name_inj {s s' : Section} : s.name = s'.name ↔ s = s' := by
  cases s <;> cases s' <;> decide

/-- **A pointer at a component** points at its name in its own section and at nothing in another. -/
theorem targetName_pointerTo (s s' : Section) (name : String) :
    targetName s (pointerTo s' name) =
      if s' = s then .ok name
      else .error (.wrongSection s s'.name (pointerTo s' name)) := by
  have hdrop : Text.dropStart? pointerStart (pointerTo s' name) =
      some (.ofList (s'.name.toList ++ '/' :: (escapeName name).toList)) := by
    have hchars : (pointerTo s' name).toList = pointerStart.toList ++
        (s'.name.toList ++ '/' :: (escapeName name).toList) := by
      simp [pointerTo, String.toList_append]
    exact Text.dropStart?_of_append hchars.symm
  have hcut : Text.cutFirst? '/' (.ofList (s'.name.toList ++ '/' :: (escapeName name).toList)) =
      some (s'.name, escapeName name) := by
    rw [Text.cutFirst?, String.toList_ofList, Text.splitFirst?_append_cons
      (fun _ => s'.not_slash_of_mem_name) (by decide), Option.map_some]
    dsimp only
    rw [String.ofList_toList, String.ofList_toList]
  rw [targetName, hdrop, Option.bind_some, hcut]
  simp only [Section.name_inj, unescapeName_escapeName]

theorem resolveItem_of_targetName {α : Type} [Kept α]
    (h : targetName (Kept.place α) p = .error e) :
    c.resolveItem (.ref p : Referable α) = .error e := by
  rw [Components.resolveItem, Components.followItem, if_neg List.not_mem_nil, h]

/-- A pointer that names no component of the section fails the check of the section. -/
theorem checkReference_of_targetName (h : targetName s p = .error e) :
    c.checkReference p s = .error e := by
  cases s with
  | schemas =>
    have hresolve : c.resolve (.ref p) = .error e := by
      rw [Components.resolve, componentName, h]
      rfl
    rw [Components.checkReference, Components.checkSchema, Schema.pointers_ref, List.forM, hresolve]
    rfl
  | parameters =>
    rw [Components.checkReference, Components.checkParameter,
      resolveItem_of_targetName (α := Parameter) h]
    rfl
  | requestBodies =>
    rw [Components.checkReference, Components.checkRequestBody,
      resolveItem_of_targetName (α := RequestBody) h]
    rfl
  | responses =>
    rw [Components.checkReference, Components.checkResponse,
      resolveItem_of_targetName (α := Response) h]
    rfl

/-- A reference to the schema of a name leads to the object that stands under the name. -/
theorem Components.resolve_pointerTo {name : String} {o : SchemaObject}
    (h : c.schemas.at? name = some (.inline o)) :
    c.resolve (.ref (pointerTo .schemas name)) = .ok o := by
  rw [resolve, componentName, targetName_pointerTo, if_pos rfl]
  change c.schema name = _
  rw [schema, follow, h]

/-- A value is an object of the section, not a reference to one. -/
def Section.Reads : Section → Json → Prop
  | .schemas, j => ∃ o, Schema.read? j.toDatum = some (.inline o)
  | .parameters, j => ∃ x, parameterOrRef? j.toDatum = some (.item x)
  | .requestBodies, j => ∃ x, requestBodyOrRef? j.toDatum = some (.item x)
  | .responses, j => ∃ x, responseOrRef? j.toDatum = some (.item x)

/-- A reference at a place of the section leads to the object that a value is. -/
def Components.LeadsTo (c : Components) (p : String) : Section → Json → Prop
  | .schemas, j => ∃ o, Schema.read? j.toDatum = some (.inline o) ∧ c.resolve (.ref p) = .ok o
  | .parameters, j => ∃ x, parameterOrRef? j.toDatum = some (.item x) ∧
    c.resolveItem (.ref p) = .ok x
  | .requestBodies, j => ∃ x, requestBodyOrRef? j.toDatum = some (.item x) ∧
    c.resolveItem (.ref p) = .ok x
  | .responses, j => ∃ x, responseOrRef? j.toDatum = some (.item x) ∧
    c.resolveItem (.ref p) = .ok x

section Schemas

variable {j : Json} {schema : Schema} {o : SchemaObject}

theorem Schema.read?_toDatum (j : Json) :
    Schema.read? j.toDatum = match pointerOfDatum? j.toDatum with
      | some p => some (.ref p)
      | none => (SchemaOf.ofDatum? (layers? j.toDatum.depth) j.toDatum).map .inline := by
  rw [Schema.read?, Json.typed?_toDatum, Option.bind_some]
  cases hpointer : pointerOfDatum? j.toDatum <;> simp [Schema.ofDatum?, layers?, hpointer]

/-- What reads as an object is no reference. -/
theorem pointerOfDatum?_of_read? (h : Schema.read? j.toDatum = some (.inline o)) :
    pointerOfDatum? j.toDatum = none := by
  rw [Schema.read?_toDatum] at h
  split at h
  · cases h
  · next hnone => exact hnone

/-- What is read and is no reference is an object. -/
theorem exists_inline_of_read? (h : Schema.read? j.toDatum = some schema)
    (hnone : pointerOfDatum? j.toDatum = none) : ∃ o, schema = .inline o := by
  rw [Schema.read?_toDatum, hnone] at h
  obtain ⟨o, -, rfl⟩ := Option.map_eq_some_iff.1 h
  exact ⟨o, rfl⟩

end Schemas

end OpenApi

namespace Bundle

open OpenApi

section Sorting

variable {f : String → Option String} {j j' x : Json} {es : Entries Json}

theorem exists_of_mem_relocateEntries {own : Option String} {e : String × Json}
    (h : e ∈ relocateEntries f own es) :
    (∃ p, e.2 = .string p) ∨ ∃ e' ∈ es, e.2 = e'.2 ∨ e.2 = relocate f e'.2 := by
  induction es with
  | nil => cases h
  | cons e' es ih =>
    rw [relocateEntries] at h
    rcases List.mem_cons.1 h with rfl | h
    · by_cases hkey : e'.1 = "$ref"
      · cases own with
        | none => exact .inr ⟨e', List.mem_cons_self, .inl (by simp [hkey])⟩
        | some p => exact .inl ⟨p, by simp [hkey]⟩
      · exact .inr ⟨e', List.mem_cons_self, .inr (by simp [hkey])⟩
    · exact (ih h).imp_right fun ⟨e'', he'', h⟩ => ⟨e'', List.mem_cons_of_mem _ he'', h⟩

/-- **Replacing references keeps a value sorted.** -/
theorem isSorted_relocate (h : j.IsSorted) : (relocate f j).IsSorted := by
  induction h with
  | array items ih =>
    rw [relocate, relocateItems_eq_map]
    refine .array fun x hx => ?_
    obtain ⟨y, hy, rfl⟩ := List.mem_map.1 hx
    exact ih y hy
  | object increasing values ih =>
    rw [relocate]
    refine .object ?_ fun e he => ?_
    · rw [Json.increasing_iff_keys, keys_relocateEntries]
      exact Json.increasing_iff_keys.1 increasing
    · rcases exists_of_mem_relocateEntries he with ⟨p, hp⟩ | ⟨e', he', heq | heq⟩
      · exact hp ▸ .string p
      · exact heq ▸ values e' he'
      · exact heq ▸ ih e' he'
  | _ => constructor

theorem isSorted_adjustObject {key : String} {change : Json → Option Json} (hj : j.IsSorted)
    (hchange : ∀ x x', x.IsSorted → change x = some x' → x'.IsSorted)
    (h : adjustObject key change j = some j') : j'.IsSorted := by
  cases hj with
  | @object es increasing values =>
    obtain ⟨x', hx', rfl⟩ := Option.map_eq_some_iff.1 h
    refine Json.IsSorted.putSorted (.object increasing values) (hchange _ x' ?_ hx')
    cases hat : es.at? key with
    | none => exact .object List.Pairwise.nil nofun
    | some x => exact values _ (Entries.mem_of_at? hat)
  | _ => cases h

/-- **Writing sorted schemas keeps a document sorted.** -/
theorem isSorted_withSchemas {schemas : Entries Json} (hj : j.IsSorted)
    (hschemas : ∀ e ∈ schemas, e.2.IsSorted) (h : withSchemas j schemas = .ok j') :
    j'.IsSorted := by
  have hwritten : ∀ {es : Entries Json}, (Json.object es).IsSorted →
      (Json.object (schemas.foldl (fun m e => Json.putSorted e.1 e.2 m) es)).IsSorted := by
    clear h
    induction schemas with
    | nil => exact fun hes => hes
    | cons e schemas ih =>
      obtain ⟨he, hrest⟩ := List.forall_mem_cons.1 hschemas
      exact fun hes => ih hrest (hes.putSorted he)
  rw [withSchemas] at h
  split at h
  · next j'' hj'' =>
    obtain rfl := Except.ok.inj h
    refine isSorted_adjustObject hj (fun x x' hx hx' => ?_) hj''
    refine isSorted_adjustObject hx (fun y y' hy hy' => ?_) hx'
    split at hy'
    · obtain rfl := Option.some.inj hy'
      exact hwritten hy
    · cases hy'
  · cases h

theorem isSorted_of_readFile {files : Files} {file : Place} (h : readFile files file = .ok j) :
    j.IsSorted := by
  have hread : ∀ {α : Type} [Leaf α] {o : Option (Tree α)} {j : Json},
      o.bind Tree.json? = some j → j.IsSorted := by
    intro α _ o j h
    obtain ⟨t, -, ht⟩ := Option.bind_eq_some_iff.1 h
    exact Tree.isSorted_of_json? ht
  rw [readFile] at h
  split at h
  · rw [parse] at h
    -- JSON and YAML are read alike.
    split at h
    all_goals
      split at h
      · next hj => exact Except.ok.inj h ▸ hread hj
      · cases h
  · cases h

theorem isSorted_of_schemaAt {files : Files} {a : Address} (h : schemaAt files a = .ok x) :
    x.IsSorted := by
  rw [schemaAt] at h
  cases hread : readFile files a.file with
  | error e => rw [hread] at h; cases h
  | ok document =>
    rw [hread, Except.bind, pointee?_eq] at h
    split at h
    · next y hy =>
      obtain rfl := Except.ok.inj h
      obtain ⟨names, -, hy⟩ := Option.bind_eq_some_iff.1 hy
      exact (isSorted_of_readFile hread).locate? hy
    · cases h

end Sorting

/-- The reference that stands where names lead to. -/
def referenceAt? (j : Json) (names : List String) : Option String :=
  (locate? j names).bind reference?

/-- A reference that names a file is no pointer at a component. -/
theorem targetName_of_target? {files : Files} {directory : Place} {p : String} {a : Address}
    (h : target? files directory none p = .ok (some a)) (s : Section) :
    targetName s p = .error (.malformed p) := by
  have hdrop : Text.dropStart? pointerStart p = none := by
    rw [Text.dropStart?, Option.map_eq_none_iff]
    by_contra hstart
    obtain ⟨rest, hrest⟩ := Option.ne_none_iff_exists'.1 hstart
    have hchars := List.isPrefixOf?_eq_some_iff_append_eq.1 hrest
    have hcut : ∃ pointer, Text.cutFirst? '#' p = some ("", pointer) := by
      rw [Text.cutFirst?, ← hchars]
      exact ⟨_, rfl⟩
    obtain ⟨pointer, hcut⟩ := hcut
    have hne : p ≠ "" := by
      rintro rfl
      cases hcut
    rw [target?, hcut] at h
    simp [hne] at h
  rw [targetName, hdrop, Option.bind_none]

/-- No place of a parameter, body or response is a container. -/
theorem not_isContainer_of_isPlace {s : Section} {names : List String} (hs : s.IsPlace names) :
    ¬ IsContainer names := by
  intro h
  have hlength := h.length_le
  cases hs <;> simp at hlength

namespace Bundling

variable {files : Files} {path : String} {r : Result} {b : Bundling files path r} {d : Document}
  {names : List String} {x pointee : Json} {p name : String} {a : Address} {s : Section}

/-- **A bundled document is sorted**, as the documents of the files are. -/
theorem isSorted_document (b : Bundling files path r) : r.document.IsSorted := by
  have hlinked : b.linked.IsSorted :=
    b.relinked.value ▸ isSorted_relocate (isSorted_of_readFile b.read)
  have hadded : ∀ e ∈ b.state.added, e.2.IsSorted := by
    intro e he
    obtain ⟨i, hi, hname⟩ := (b.relinked.mem_keys e.1).1 (List.mem_map_of_mem he)
    obtain ⟨schema, hschema, hmem, -⟩ := b.relinked.completed i hi
    have hsame := Entries.at?_of_mem b.relinked.nodup (hname ▸ hmem)
    have he' := Option.some.inj (hsame.symm.trans (Entries.at?_of_mem b.relinked.nodup he))
    exact he' ▸ isSorted_relocate (isSorted_of_schemaAt hschema)
  rcases b.document_eq with ⟨-, hdocument⟩ | hw
  · exact hdocument ▸ hlinked
  · exact isSorted_withSchemas hlinked hadded hw

/-- What stands where a reference of the root stood. -/
theorem referenceAt?_linked (hx : place? b.document names = some x) (hp : reference? x = some p) :
    referenceAt? b.linked names =
      some (if "$ref" ∈ names then p else (b.rootForm p).getD p) := by
  have hplace : place? b.linked names = some (copyOf b.rootForm names x) := by
    rw [b.relinked.value, place?_relocate, hx]
    rfl
  rw [referenceAt?, locate?_of_place? hplace, Option.bind_some, copyOf]
  split
  · exact hp
  · rw [reference?_relocate, hp, Option.map_some]

/-- It stays there, unless a schema was taken to the place. -/
theorem referenceAt?_document (hc : ¬ IsContainer names) (ht : ¬ b.IsTaken names)
    (hx : place? b.document names = some x) :
    referenceAt? r.document names = referenceAt? b.linked names := by
  have hplace : place? b.linked names = some (copyOf b.rootForm names x) := by
    rw [b.relinked.value, place?_relocate, hx]
    rfl
  rw [referenceAt?, referenceAt?, b.locate?_root hc ht hx, locate?_of_place? hplace]

/-- What a reference of the root leads to in another file was taken, and the reference becomes the
pointer at it. -/
theorem exists_taken (hn : "$ref" ∉ names) (hx : place? b.document names = some x)
    (hp : reference? x = some p) (ht : target? files b.root.dropLast none p = .ok (some a)) :
    ∃ name, (a, name) ∈ b.state.imported ∧ b.rootForm p = some (pointerTo .schemas name) := by
  rcases b.relinked.covered names x p hn (locate?_of_place? hx) hp with
    hnone | ⟨a', name, htarget, hname⟩
  · rw [ht] at hnone
    cases hnone
  · obtain rfl : a = a' := Option.some.inj (Except.ok.inj (ht.symm.trans htarget))
    exact ⟨name, mem_of_lookup_eq hname, by simp only [rootForm, form, ht, hname, Option.map_some]⟩

/-- **Where a schema is asked for**, the pointer at a schema that was taken leads to it. -/
theorem leadsTo_schema (hd : Document.ofJson r.document = .ok d)
    (hi : (a, name) ∈ b.state.imported) (hpointee : schemaAt files a = .ok pointee)
    (hreads : Section.schemas.Reads pointee) :
    d.parts.checkReference (pointerTo .schemas name) .schemas = .ok () ∧
      d.parts.LeadsTo (pointerTo .schemas name) .schemas
        (relocate (b.formIn a.file) pointee) := by
  obtain ⟨o, ho⟩ := hreads
  have hsorted := isSorted_of_schemaAt hpointee
  obtain ⟨schema, hat, hread⟩ :=
    Document.exists_schema b.isSorted_document hd (b.locate?_taken hi hpointee)
  -- replacing references makes no reference of what is none
  have hnone : pointerOfDatum? (relocate (b.formIn a.file) pointee).toDatum = none := by
    rw [pointerOfDatum?_toDatum (isSorted_relocate hsorted), reference?_relocate,
      ← pointerOfDatum?_toDatum hsorted, pointerOfDatum?_of_read? ho, Option.map_none]
  obtain ⟨o', rfl⟩ := exists_inline_of_read? hread hnone
  have hresolve := Components.resolve_pointerTo hat
  refine ⟨?_, o', hread, hresolve⟩
  rw [Components.checkReference, Components.checkSchema, Schema.pointers_ref, List.forM, hresolve]
  rfl

/-- No schema is taken to one. -/
theorem not_isTaken_of_isPlace (hs : s.IsPlace names) : ¬ b.IsTaken names := by
  rintro ⟨i, -, h⟩
  cases hs with
  | component hs name =>
    have hname : Section.name .schemas = Section.name _ :=
      (List.cons_prefix_cons.1 (List.cons_prefix_cons.1 h).2).1
    exact hs (Section.name_inj.1 hname.symm)
  | _ => exact absurd (List.cons_prefix_cons.1 h).1 (by decide)

/-- **Where anything else is asked for**, and below the key of references, what a reference becomes
fails its check. -/
theorem exists_checkReference_eq_error (hx : place? b.document names = some x)
    (hp : reference? x = some p) (ht : target? files b.root.dropLast none p = .ok (some a))
    (hs : ¬ (s = .schemas ∧ "$ref" ∉ names)) :
    ∃ e, d.parts.checkReference (if "$ref" ∈ names then p else (b.rootForm p).getD p) s =
      .error e := by
  by_cases hn : "$ref" ∈ names
  · rw [if_pos hn]
    exact ⟨_, checkReference_of_targetName (targetName_of_target? ht s)⟩
  · obtain ⟨name, -, hform⟩ := exists_taken hn hx hp ht
    have hother : ¬ Section.schemas = s := fun h => hs ⟨h.symm, hn⟩
    have htarget := targetName_pointerTo s .schemas name
    rw [if_neg hother] at htarget
    rw [if_neg hn, hform, Option.getD_some]
    exact ⟨_, checkReference_of_targetName htarget⟩

end Bundling

/-- **What references to other files lead to**, in a bundled document that can be read. Where a
schema is asked for, the reference that the document has in place of one of the root passes its
check and leads to what the reference of the root led to, with its references replaced; only
references below the key of references do not. Where a parameter, a body or a response is asked for,
the check fails, and the document is not valid. -/
theorem ofFile_leads_iff {files : Files} {path : String} {r : Result} {d : Document}
    (hr : ofFile files path = .ok r) (hd : Document.ofJson r.document = .ok d) :
    ∃ b : Bundling files path r, ∀ names x p a pointee (s : Section),
      place? b.document names = some x → reference? x = some p →
      target? files b.root.dropLast none p = .ok (some a) → schemaAt files a = .ok pointee →
      s.Reads pointee → ∃ q, referenceAt? b.linked names = some q ∧
        (¬ IsContainer names → ¬ b.IsTaken names → referenceAt? r.document names = some q) ∧
        (d.parts.checkReference q s = .ok () ∧
          d.parts.LeadsTo q s (relocate (b.formIn a.file) pointee) ↔
            s = .schemas ∧ "$ref" ∉ names) ∧
        (s.IsPlace names → d.validate ≠ .ok ()) := by
  obtain ⟨b⟩ := exists_bundling hr
  refine ⟨b, fun names x p a pointee s hx hp ht hpointee hreads => ?_⟩
  have hlinked := b.referenceAt?_linked hx hp
  have hstays := fun hc htaken => (b.referenceAt?_document hc htaken hx).trans hlinked
  refine ⟨_, hlinked, hstays, ?_⟩
  by_cases hs : s = .schemas ∧ "$ref" ∉ names
  · obtain ⟨rfl, hn⟩ := hs
    obtain ⟨name, hi, hform⟩ := b.exists_taken hn hx hp ht
    rw [if_neg hn, hform, Option.getD_some]
    exact ⟨iff_of_true (b.leadsTo_schema hd hi hpointee hreads) ⟨rfl, hn⟩,
      fun hplace => absurd rfl hplace.ne_schemas⟩
  · obtain ⟨e, he⟩ := b.exists_checkReference_eq_error (d := d) hx hp ht hs
    refine ⟨iff_of_false (fun h => nomatch he.symm.trans h.1) hs, fun hplace hvalid => ?_⟩
    obtain ⟨y, hy, hq⟩ := Option.bind_eq_some_iff.1
      (hstays (not_isContainer_of_isPlace hplace) (b.not_isTaken_of_isPlace hplace))
    have hok := Document.checkReference_of_validate b.isSorted_document hd hvalid hplace hy hq
    cases he.symm.trans hok

section Divided

/-- The text of a file that refers to a parameter and to a schema of other ones, in pieces: the
characters of a long literal are costly to compute. -/
def dividedText : String := .ofList <| List.flatMap String.toList [
  "\x7b\"openapi\":\"3.0.1\",", "\"info\":\x7b\"title\":\"t\",", "\"version\":\"1\"\x7d,",
  "\"paths\":\x7b\"/E/get\":\x7b", "\"post\":\x7b\"parameters\":[",
  "\x7b\"$ref\":\"k.json\"\x7d,", "\x7b\"name\":\"n\",\"in\":\"query\",",
  "\"schema\":\x7b\"$ref\":\"N.json\"\x7d\x7d]\x7d\x7d\x7d\x7d"]

/-- The file with a parameter and a schema beside it. -/
def divided : Files := .ofEntries "/w" [
  ("api.json", dividedText),
  ("k.json", "\x7b\"name\":\"k\",\"in\":\"query\"\x7d"),
  ("N.json", "\x7b\"type\":\"integer\"\x7d")]

/-- The value of the file. -/
def dividedRoot : Json := .object [
  ("info", .object [("title", .string "t"), ("version", .string "1")]),
  ("openapi", .string "3.0.1"),
  ("paths", .object [("/E/get", .object [("post", .object [("parameters", .array [
    .object [("$ref", .string "k.json")],
    .object [("in", .string "query"), ("name", .string "n"),
      ("schema", .object [("$ref", .string "N.json")])]])])])])]

theorem canonical_divided : divided.canonical "api.json" = .ok ["w", "api.json"] :=
  eq_ok_of_toOption (by decide)

/-- The values of the files. -/
def dividedDocuments : List (Place × Json) := [
  (["w", "api.json"], dividedRoot),
  (["w", "k.json"], .object [("in", .string "query"), ("name", .string "k")]),
  (["w", "N.json"], .object [("type", .string "integer")])]

theorem holds_divided : Holds divided.contents dividedDocuments :=
  .entry (by decide) (by decide) (parse_of_toList String.toList_ofList (by cbv)) <|
    .entry (by decide) (by decide) (parse_of_toList String.toList_ofList rfl) <|
      .entry (by decide) (by decide) (parse_of_toList String.toList_ofList rfl) .nil

theorem schemaAt_divided_k : schemaAt divided ⟨["w", "k.json"], ""⟩ =
    .ok (.object [("in", .string "query"), ("name", .string "k")]) :=
  Holds.schemaAt holds_divided rfl rfl

theorem schemaAt_divided_N : schemaAt divided ⟨["w", "N.json"], ""⟩ =
    .ok (.object [("type", .string "integer")]) :=
  Holds.schemaAt holds_divided rfl rfl

theorem target?_divided_k :
    target? divided ["w"] none "k.json" = .ok (some ⟨["w", "k.json"], ""⟩) :=
  eq_ok_of_toOption (by decide)

theorem target?_divided_N :
    target? divided ["w"] none "N.json" = .ok (some ⟨["w", "N.json"], ""⟩) :=
  eq_ok_of_toOption (by decide)

theorem exists_divided : ∃ r d, ofFile divided "api.json" = .ok r ∧
    Document.ofJson r.document = .ok d := by
  have hsome : ((ofFile divided "api.json").toOption.bind fun r =>
      (Document.ofJson r.document).toOption).isSome := by
    rw [Holds.ofFile_eq holds_divided canonical_divided rfl]
    decide +kernel
  obtain ⟨d, hd⟩ := Option.isSome_iff_exists.1 hsome
  obtain ⟨r, hr, hd⟩ := Option.bind_eq_some_iff.1 hd
  exact ⟨r, d, eq_ok_of_toOption hr, eq_ok_of_toOption hd⟩

/-- The schema of the other file is found, and the document is not valid for the parameter. -/
theorem ofFile_leads_iff_divided : ∃ r d q, ofFile divided "api.json" = .ok r ∧
    Document.ofJson r.document = .ok d ∧
      referenceAt? r.document ["paths", "/E/get", "post", "parameters", "1", "schema"] = some q ∧
        d.parts.LeadsTo q .schemas (.object [("type", .string "integer")]) ∧
          d.validate ≠ .ok () := by
  obtain ⟨r, d, hr, hd⟩ := exists_divided
  obtain ⟨b, hleads⟩ := ofFile_leads_iff hr hd
  obtain ⟨hroot, hdocument⟩ := b.eq_of_read canonical_divided (Holds.readFile holds_divided rfl)
  rw [hroot, hdocument] at hleads
  obtain ⟨q, -, hq, hfinds, -⟩ := hleads ["paths", "/E/get", "post", "parameters", "1", "schema"]
    _ _ _ _ .schemas rfl rfl target?_divided_N schemaAt_divided_N ⟨_, rfl⟩
  obtain ⟨-, -, -, -, hinvalid⟩ := hleads ["paths", "/E/get", "post", "parameters", "0"] _ _ _ _
    .parameters rfl rfl target?_divided_k schemaAt_divided_k ⟨_, rfl⟩
  have hcontainer : ¬ IsContainer ["paths", "/E/get", "post", "parameters", "1", "schema"] :=
    fun hprefix => absurd (List.cons_prefix_cons.1 hprefix).1 (by decide)
  have hfree : ¬ b.IsTaken ["paths", "/E/get", "post", "parameters", "1", "schema"] := by
    rintro ⟨i, -, hprefix⟩
    exact absurd (List.cons_prefix_cons.1 hprefix).1 (by decide)
  exact ⟨r, d, q, hr, hd, hq hcontainer hfree, (hfinds.2 ⟨rfl, by decide⟩).2,
    hinvalid (.parameter "/E/get" .post "0")⟩

/-- The parameter of the other file is taken for a schema: the reference to it points into the
schemas, where no parameter is looked for. -/
theorem not_checkReference : ¬ ∀ files path r d (b : Bundling files path r) names x p a pointee
    (s : Section) q, Document.ofJson r.document = .ok d → place? b.document names = some x →
      reference? x = some p → target? files b.root.dropLast none p = .ok (some a) →
      schemaAt files a = .ok pointee → s.Reads pointee → s.IsPlace names →
      referenceAt? r.document names = some q → d.parts.checkReference q s = .ok () := by
  intro hcheck
  obtain ⟨r, d, hr, hd⟩ := exists_divided
  obtain ⟨b⟩ := exists_bundling hr
  obtain ⟨hroot, hdocument⟩ := b.eq_of_read canonical_divided (Holds.readFile holds_divided rfl)
  have hplace : Section.IsPlace .parameters ["paths", "/E/get", "post", "parameters", "0"] :=
    .parameter "/E/get" .post "0"
  have hx : place? b.document ["paths", "/E/get", "post", "parameters", "0"] =
      some (.object [("$ref", .string "k.json")]) := by
    rw [hdocument]
    rfl
  have ht : target? divided b.root.dropLast none "k.json" =
      .ok (some ⟨["w", "k.json"], ""⟩) := by
    rw [hroot]
    exact target?_divided_k
  have hq := (b.referenceAt?_document (not_isContainer_of_isPlace hplace)
    (b.not_isTaken_of_isPlace hplace) hx).trans (b.referenceAt?_linked hx rfl)
  have hok := hcheck divided "api.json" r d b _ _ _ _ _ .parameters _ hd hx rfl ht
    schemaAt_divided_k ⟨_, rfl⟩ hplace hq
  obtain ⟨e, he⟩ := b.exists_checkReference_eq_error (s := .parameters) hx rfl ht (by decide)
  cases he.symm.trans hok

end Divided

end Bundle

end OpenApiClient
