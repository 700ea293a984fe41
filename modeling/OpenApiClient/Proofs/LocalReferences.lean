/-
# Local references tell their names

Bundling writes a reference for each schema that it takes: the pointer at the name of the schema, in
which tildes and slashes are escaped. Escaping takes two passes, and so does undoing it, in the other
order, so that a name that looks escaped already comes back as it was (`unescapeName_escapeName`). A
pointer therefore tells its section and its name (`pointerTo_inj`), whatever the name holds.

What a reference leads to is looked up by the name that it tells. `Bundling.leadsToStored` says that it
is the schema that was stored under this name, for whoever follows the reference: the reader of a value,
who goes along the pointer, and the reader of a document, who looks in the schemas of the components.
-/

import OpenApiClient.Proofs.Loading
import OpenApiClient.Proofs.TakingOnce

namespace OpenApiClient

namespace OpenApi

/-- **The name is read back** from the pointer at a schema. -/
theorem componentName_pointerTo (name : String) :
    componentName (pointerTo .schemas name) = .ok name := by
  rw [componentName, targetName_pointerTo, if_pos rfl]

/-- **Pointers at different components differ**, by their sections or by their names. -/
theorem pointerTo_inj {s s' : Section} {name name' : String} :
    pointerTo s name = pointerTo s' name' ↔ s = s' ∧ name = name' := by
  refine ⟨fun h => ?_, fun ⟨hs, hname⟩ => by rw [hs, hname]⟩
  have htarget := targetName_pointerTo s s name
  rw [if_pos rfl, h, targetName_pointerTo] at htarget
  split at htarget
  · next hs => exact ⟨hs.symm, (Except.ok.inj htarget).symm⟩
  · cases htarget

/-- A reference to the schema of a name leads to what the name leads to. -/
theorem Components.resolve_ref_pointerTo (c : Components) (name : String) :
    c.resolve (.ref (pointerTo .schemas name)) = c.schema name := by
  rw [resolve, componentName_pointerTo]
  rfl

end OpenApi

namespace Bundle

open OpenApi

/-- A reference in a document tells a name, and leads to the schema that is stored under it. -/
structure LeadsToStored (document : Json) (ref name : String) (stored : Json) : Prop where
  told : componentName ref = .ok name
  stands : locate? document (schemaPlace name) = some stored
  /-- As a pointer it points at the schema. -/
  pointed : (localPointer? ref).bind (pointee? document) = some stored
  /-- Where the document can be read, the components have the schema under the name, and the reference
  leads to what the name leads to: to the schema itself, if that is no other reference. -/
  resolved : ∀ d, Document.ofJson document = .ok d →
    ∃ schema, d.parts.schemas.at? name = some schema ∧ Schema.read? stored.toDatum = some schema ∧
      d.parts.resolve (.ref ref) = d.parts.schema name ∧
        ∀ o, schema = .inline o → d.parts.resolve (.ref ref) = .ok o

namespace Bundling

variable {files : Files} {path : String} {r : Result} (b : Bundling files path r)

/-- The reference leads to the schema of the address, as it was stored with its own references
replaced. -/
def PointsAt (a : Address) (ref : String) : Prop :=
  ∃ name schema, (a, name) ∈ b.state.imported ∧ schemaAt files a = .ok schema ∧
    LeadsToStored r.document ref name (relocate (b.formIn a.file) schema)

variable {b} {a : Address} {name : String} {schema : Json}

/-- **The pointer at a schema that was taken** leads to it. -/
theorem leadsToStored (hi : (a, name) ∈ b.state.imported) (hs : schemaAt files a = .ok schema) :
    LeadsToStored r.document (pointerTo .schemas name) name (relocate (b.formIn a.file) schema) := by
  have hstored := b.locate?_taken hi hs
  refine ⟨componentName_pointerTo name, hstored, ?_, fun d hd => ?_⟩
  · have hnames := localNames?_pointerTo name
    rw [localNames?] at hnames
    rw [← hstored, ← Option.bind_some (schemaPlace name) (locate? r.document), ← hnames,
      Option.bind_assoc]
    exact congrArg _ (funext (pointee?_eq r.document))
  · obtain ⟨x, hat, hread⟩ := Document.exists_schema b.isSorted_document hd hstored
    refine ⟨x, hat, hread, d.parts.resolve_ref_pointerTo name, fun o ho => ?_⟩
    exact Components.resolve_pointerTo (ho ▸ hat)

theorem pointsAt_pointerTo (hi : (a, name) ∈ b.state.imported) :
    b.PointsAt a (pointerTo .schemas name) := by
  obtain ⟨schema, hs⟩ := b.exists_schema hi
  exact ⟨name, schema, hi, hs, leadsToStored hi hs⟩

/-- **What a reference becomes** points at what it led to. -/
theorem pointsAt_of_form {directory : Place} {current : Option Place} {p q : String}
    (h : form files b.state.table directory current p = some q) :
    ∃ a, target? files directory current p = .ok (some a) ∧ b.PointsAt a q := by
  rw [form] at h
  split at h
  · next a ht =>
    obtain ⟨name, hname, rfl⟩ := Option.map_eq_some_iff.1 h
    exact ⟨a, ht, pointsAt_pointerTo (mem_of_lookup_eq hname)⟩
  · cases h

end Bundling

/-- **Pointers give names back, and bundled references lead to what is stored under them.** Whatever
characters a name holds, it is told by the pointer at the schema of the name; so no two names have one
pointer. Each reference that bundling writes, into the root or into a schema that it takes, leads in
the result to the schema that the reference in its place led to, stored under the name that it tells. -/
theorem pointerTo_leads :
    (∀ name, componentName (pointerTo .schemas name) = .ok name) ∧
    (∀ name name', pointerTo .schemas name = pointerTo .schemas name' → name = name') ∧
    ∀ files path r, ofFile files path = .ok r → ∃ b : Bundling files path r,
      (∀ p q, b.rootForm p = some q →
        ∃ a, target? files b.root.dropLast none p = .ok (some a) ∧ b.PointsAt a q) ∧
      (∀ file p q, b.formIn file p = some q →
        ∃ a, target? files file.dropLast (some file) p = .ok (some a) ∧ b.PointsAt a q) ∧
      ∀ names x p, ¬ IsContainer names → ¬ b.IsTaken names → "$ref" ∉ names →
        place? b.document names = some x → reference? x = some p →
          referenceAt? r.document names = some ((b.rootForm p).getD p) := by
  refine ⟨componentName_pointerTo, fun _ _ h => (pointerTo_inj.1 h).2, fun files path r hr => ?_⟩
  obtain ⟨b⟩ := exists_bundling hr
  refine ⟨b, fun p q => b.pointsAt_of_form, fun file p q => b.pointsAt_of_form,
    fun names x p hc ht hn hx hp => ?_⟩
  rw [b.referenceAt?_document hc ht hx, b.referenceAt?_linked hx hp, if_neg hn]

section Escaped

/-- The text of a document that refers to a schema in another file, in pieces as the characters of a long
literal are costly to compute. -/
def escapedText : String := .ofList <| List.flatMap String.toList [
  "\x7b\"openapi\":\"3.0.1\",", "\"info\":\x7b\"title\":\"t\",", "\"version\":\"1\"\x7d,",
  "\"components\":\x7b\"schemas\":", "\x7b\"A\":\x7b\"$ref\":", "\"x.json#/a~1b~01\"\x7d\x7d\x7d\x7d"]

/-- The file with the document, and one with a schema whose name holds a slash, and a tilde that looks
like an escaped slash. -/
def escaped : Files := .ofEntries "/w" [
  ("api.json", escapedText),
  ("x.json", "\x7b\"a/b~1\":\x7b\"type\":\"string\"\x7d\x7d")]

/-- The value of the document. -/
def escapedRoot : Json := .object [
  ("components", .object [("schemas", .object [
    ("A", .object [("$ref", .string "x.json#/a~1b~01")])])]),
  ("info", .object [("title", .string "t"), ("version", .string "1")]),
  ("openapi", .string "3.0.1")]

theorem canonical_escaped : escaped.canonical "api.json" = .ok ["w", "api.json"] :=
  eq_ok_of_toOption (by decide)

/-- The values of the two files. -/
def escapedDocuments : List (Place × Json) := [
  (["w", "api.json"], escapedRoot),
  (["w", "x.json"], .object [("a/b~1", .object [("type", .string "string")])])]

theorem holds_escaped : Holds escaped.contents escapedDocuments :=
  .entry (by decide) (by decide) (parse_of_toList String.toList_ofList (by cbv)) <|
    .entry (by decide) (by decide) (parse_of_toList String.toList_ofList rfl) .nil

theorem target?_escaped : target? escaped ["w"] none "x.json#/a~1b~01" =
    .ok (some ⟨["w", "x.json"], "/a~1b~01"⟩) :=
  eq_ok_of_toOption (by decide)

theorem schemaAt_escaped : schemaAt escaped ⟨["w", "x.json"], "/a~1b~01"⟩ =
    .ok (.object [("type", .string "string")]) :=
  Holds.schemaAt holds_escaped rfl rfl

/-- The schema is stored under its name, and the reference to it, in which the name is escaped, leads to
it. -/
theorem pointerTo_leads_escaped : ∃ r d, ofFile escaped "api.json" = .ok r ∧
    Document.ofJson r.document = .ok d ∧
      referenceAt? r.document (schemaPlace "A") = some "#/components/schemas/a~1b~01" ∧
        LeadsToStored r.document "#/components/schemas/a~1b~01" "a/b~1"
          (.object [("type", .string "string")]) ∧
          ∃ o, d.parts.resolve (.ref "#/components/schemas/a~1b~01") = .ok o ∧
            o.type = some (.single .string) := by
  have hadded : ((ofFile escaped "api.json").toOption.bind fun r =>
      (Document.ofJson r.document).toOption.map fun _ => r.added) = some ["a/b~1"] := by
    rw [Holds.ofFile_eq holds_escaped canonical_escaped rfl]
    decide +kernel
  obtain ⟨r, hr, hadded⟩ := Option.bind_eq_some_iff.1 hadded
  obtain ⟨d, hd, hadded⟩ := Option.map_eq_some_iff.1 hadded
  have hr := eq_ok_of_toOption hr
  obtain ⟨b, hleads, -, hstands⟩ := pointerTo_leads.2.2 escaped "api.json" r hr
  obtain ⟨hroot, hdocument⟩ := b.eq_of_read canonical_escaped (Holds.readFile holds_escaped rfl)
  have hx : place? b.document (schemaPlace "A") =
      some (.object [("$ref", .string "x.json#/a~1b~01")]) := by
    rw [hdocument]
    rfl
  have ht : target? escaped b.root.dropLast none "x.json#/a~1b~01" =
      .ok (some ⟨["w", "x.json"], "/a~1b~01"⟩) := by
    rw [hroot]
    exact target?_escaped
  obtain ⟨name, hi, hform⟩ := b.exists_taken (by decide) hx rfl ht
  have hname : ∀ i ∈ b.state.imported, i.2 = "a/b~1" := fun i hi => by
    have hmem := b.added_perm.symm.subset (List.mem_map_of_mem hi)
    rw [hadded] at hmem
    exact List.mem_singleton.1 hmem
  obtain rfl : name = "a/b~1" := hname _ hi
  have hfree : ¬ b.IsTaken (schemaPlace "A") := by
    rintro ⟨i, hi, hprefix⟩
    rw [hname i hi] at hprefix
    exact absurd hprefix (by decide)
  have hreference := hstands _ _ _ (Bundling.not_isContainer_schemaPlace "A") hfree (by decide) hx rfl
  rw [hform] at hreference
  obtain ⟨a, ha, name, schema, -, hs, hstored⟩ := hleads _ _ hform
  obtain rfl := Option.some.inj (Except.ok.inj (ht.symm.trans ha))
  obtain rfl : "a/b~1" = name := Except.ok.inj ((componentName_pointerTo _).symm.trans hstored.told)
  obtain rfl := Except.ok.inj (schemaAt_escaped.symm.trans hs)
  obtain ⟨x, -, hread, -, hinline⟩ := hstored.resolved d (eq_ok_of_toOption hd)
  refine ⟨r, d, hr, eq_ok_of_toOption hd, hreference, hstored, ?_⟩
  obtain ⟨o, ho, htype⟩ : ∃ o, x = .inline o ∧ o.type = some (.single .string) := by
    obtain rfl := Option.some.inj hread
    exact ⟨_, rfl, rfl⟩
  exact ⟨o, hinline o ho, htype⟩

end Escaped

end Bundle
end OpenApiClient
