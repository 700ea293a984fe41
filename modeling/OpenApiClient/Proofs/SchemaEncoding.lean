/-
# Schemas are read back

`SchemaOf.ofDatum?_toJson` is about one layer: an object that was read, written and read again is
the same, provided that the schemas inside it are. Nothing is captured on the way. An object is
never taken for a reference, since it has no key `$ref`; a schema is never taken for a truth value,
nor a list of types for one type.

`Schema.ofDatum?_toJson` ties the knot, by induction on the layers that were read first. The layers
that are needed to read it again are those of what was written (`Schema.depth_lt_of_mem_children`).
-/

import OpenApiClient.Proofs.Records
import OpenApiClient.Proofs.Schema

namespace OpenApiClient
namespace OpenApi

theorem SchemaType.readsBack (t : SchemaType) :
    Tree.ReadsBack SchemaType.ofDatum? SchemaType.toJson t := by
  cases t <;> rfl

theorem TypeSet.readsBack : ∀ t : TypeSet, Tree.ReadsBack TypeSet.ofDatum? TypeSet.toJson t
  | .single t => by
    have ht : SchemaType.ofDatum? t.toJson.toDatum = some t := t.readsBack
    rw [Tree.ReadsBack, TypeSet.toJson, TypeSet.ofDatum?, ht]
    rfl
  | .multiple ts => by
    have hts : (Json.array (ts.map SchemaType.toJson)).toDatum.list? SchemaType.ofDatum? = some ts :=
      Tree.readsBack_list fun t _ => t.readsBack
    have hsingle : SchemaType.ofDatum? (Json.array (ts.map SchemaType.toJson)).toDatum = none := rfl
    rw [Tree.ReadsBack, TypeSet.toJson, TypeSet.ofDatum?, hsingle, hts]
    rfl

theorem Discriminator.readsBack {d : Discriminator} (hn : d.mapping.keys.Nodup) :
    Tree.ReadsBack Discriminator.ofDatum? Discriminator.toJson d := by
  obtain ⟨r, hr, hd⟩ := Record.exists_record?
    [⟨"propertyName", false⟩, .orDefault "mapping"] (j := d.toJson) rfl
    (List.Sublist.cons_cons _ (keys_entryOfMap d.mapping)) (by decide)
  have hname : Record.required? r "propertyName" Tree.text? = some d.propertyName :=
    Record.text_written hd (by simp [toJson, Entries.at?_cons])
  have hmapping : Record.withDefault? r "mapping" [] (Tree.map? Tree.text?) = some d.mapping :=
    Record.map_written hd (by simp [toJson, Entries.at?_cons]) hn
      fun e _ => Tree.readsBack_string e.2
  rw [Tree.ReadsBack, ofDatum?, hr]
  simp only [Option.bind_eq_bind, Option.bind_some, hname, hmapping]
  rfl

theorem Discriminator.nodup_keys {t : Datum} {d : Discriminator} (h : ofDatum? t = some d) :
    d.mapping.keys.Nodup := by
  simp only [ofDatum?, ↓do_eq_some_iff] at h
  obtain ⟨r, -, name, -, mapping, hmapping, h⟩ := h
  obtain rfl := Option.some.inj h
  exact (Record.of_map_eq_some hmapping).1

section Layer

variable {α β : Type} {nested : Datum → Option α} {back : Datum → Option α} {write : α → Json}

theorem argumentsOfDatum?_written {args : List α}
    (h : ∀ x ∈ args, Tree.ReadsBack back write x) :
    Tree.ReadsBack (argumentsOfDatum? back)
      (fun args => .object [("allOf", .array (args.map write))]) args := by
  obtain ⟨r, hr, hj⟩ := Record.exists_record? [.orDefault "allOf"]
    (j := .object [("allOf", .array (args.map write))]) rfl (List.Sublist.refl _) (by decide)
  rw [Tree.ReadsBack, argumentsOfDatum?, hr]
  exact Record.withDefault?_written hj rfl (Tree.readsBack_list h)

theorem of_argumentsOfDatum? {t : Datum} {args : List α}
    (h : argumentsOfDatum? nested t = some args) {x : α} (hx : x ∈ args) :
    ∃ t', nested t' = some x := by
  obtain ⟨r, -, h⟩ := Option.bind_eq_some_iff.1 h
  exact Record.of_list_eq_some h hx

theorem Additional.readsBack (hobject : ∀ x, ∃ es, write x = .object es) {a : Additional α}
    (h : ∀ x ∈ a.schema?, Tree.ReadsBack back write x) :
    Tree.ReadsBack (Additional.ofDatum? back) (fun a => (a.map write).toJson) a := by
  cases a with
  | allowed b => rfl
  | schema x =>
    obtain ⟨es, hes⟩ := hobject x
    have hflag : (write x).toDatum.flag? = none := by rw [hes]; rfl
    have hx : back (write x).toDatum = some x := h x rfl
    rw [Tree.ReadsBack, map, toJson, ofDatum?, hflag, hx]
    rfl

theorem of_additional? {t : Datum} {a : Additional α} (h : Additional.ofDatum? nested t = some a)
    {x : α} (hx : x ∈ a.schema?) : ∃ t', nested t' = some x := by
  cases a with
  | allowed b => cases hx
  | schema y =>
    obtain rfl : y = x := Option.some.inj hx
    rcases Option.or_eq_some_iff.1 h with h | ⟨-, h⟩
    · obtain ⟨b, -, hb⟩ := Option.map_eq_some_iff.1 h
      cases hb
    · obtain ⟨z, hz, hzy⟩ := Option.map_eq_some_iff.1 h
      obtain rfl : z = y := by cases hzy; rfl
      exact ⟨t, hz⟩

/-- What reading an object says about it: no map has a key twice, free values are as they are read
back, and the schemas inside it were read. -/
structure SchemaOf.WasRead (nested : Datum → Option α) (s : SchemaOf α) : Prop where
  properties : (Entries.keys s.properties).Nodup
  mapping : ∀ d ∈ s.discriminator, d.mapping.keys.Nodup
  enumeration : ∀ j ∈ s.enumeration, j.toDatum.json? = some j
  children : ∀ x ∈ s.children, ∃ t, nested t = some x

theorem SchemaOf.wasRead {t : Datum} {s : SchemaOf α} (h : SchemaOf.ofDatum? nested t = some s) :
    s.WasRead nested := by
  -- One keyword after another, in the order in which they are read.
  rw [ofDatum?] at h
  obtain ⟨r, -, h⟩ := Option.bind_eq_some_iff.1 h
  obtain ⟨type, -, h⟩ := Option.bind_eq_some_iff.1 h
  obtain ⟨format, -, h⟩ := Option.bind_eq_some_iff.1 h
  obtain ⟨title, -, h⟩ := Option.bind_eq_some_iff.1 h
  obtain ⟨description, -, h⟩ := Option.bind_eq_some_iff.1 h
  obtain ⟨nullable, -, h⟩ := Option.bind_eq_some_iff.1 h
  obtain ⟨properties, hproperties, h⟩ := Option.bind_eq_some_iff.1 h
  obtain ⟨required, -, h⟩ := Option.bind_eq_some_iff.1 h
  obtain ⟨additional, hadditional, h⟩ := Option.bind_eq_some_iff.1 h
  obtain ⟨items, hitems, h⟩ := Option.bind_eq_some_iff.1 h
  obtain ⟨allOf, hallOf, h⟩ := Option.bind_eq_some_iff.1 h
  obtain ⟨oneOf, honeOf, h⟩ := Option.bind_eq_some_iff.1 h
  obtain ⟨anyOf, hanyOf, h⟩ := Option.bind_eq_some_iff.1 h
  obtain ⟨discriminator, hdiscriminator, h⟩ := Option.bind_eq_some_iff.1 h
  obtain ⟨enumeration, henumeration, h⟩ := Option.bind_eq_some_iff.1 h
  obtain ⟨readOnly, -, h⟩ := Option.bind_eq_some_iff.1 h
  obtain ⟨deprecated, -, h⟩ := Option.bind_eq_some_iff.1 h
  obtain ⟨className, -, h⟩ := Option.bind_eq_some_iff.1 h
  obtain ⟨parameters, -, h⟩ := Option.bind_eq_some_iff.1 h
  obtain ⟨variable_, -, h⟩ := Option.bind_eq_some_iff.1 h
  obtain ⟨arguments, harguments, h⟩ := Option.bind_eq_some_iff.1 h
  obtain rfl := Option.some.inj h
  refine ⟨(Record.of_map_eq_some hproperties).1, fun d hd => ?_, fun j hj => ?_, fun x hx => ?_⟩
  · obtain ⟨t, ht⟩ := Record.of_optional?_eq_some hdiscriminator hd
    exact Discriminator.nodup_keys ht
  · obtain ⟨t, ht⟩ := Record.of_list_eq_some henumeration hj
    exact Tree.json?_toDatum ht
  · rcases mem_children.1 hx with ⟨name, hx⟩ | hx | hx | hx | hx | hx | ⟨args, hargs, hx⟩
    · exact (Record.of_map_eq_some hproperties).2 _ hx
    · exact Record.of_optional?_eq_some hitems hx
    · exact Record.of_list_eq_some hallOf hx
    · exact Record.of_list_eq_some honeOf hx
    · exact Record.of_list_eq_some hanyOf hx
    · obtain ⟨t, ht⟩ := Record.of_optional?_eq_some hadditional hx
      exact of_additional? ht rfl
    · obtain ⟨t, ht⟩ := Record.of_optional?_eq_some harguments hargs
      exact of_argumentsOfDatum? ht hx

/-- The keywords are written in the order of the fields. -/
theorem SchemaOf.keys_toJson (s : SchemaOf Json) : ∃ es : Entries Json, s.toJson = .object es ∧
    es.keys.Sublist (SchemaOf.fields.map (·.name)) := by
  refine ⟨_, rfl, ?_⟩
  repeat' first
    | exact keys_entryOf _
    | exact keys_entryOfList _
    | exact keys_entryOfMap _
    | refine keys_append_sublist ?_ ?_

/-- **One layer is read back.**  An object that was read is read back if the schemas inside it
are. -/
theorem SchemaOf.ofDatum?_toJson {s : SchemaOf α} (hs : s.WasRead nested)
    (hobject : ∀ x, ∃ es, write x = .object es)
    (hchildren : ∀ x ∈ s.children, Tree.ReadsBack back write x) :
    SchemaOf.ofDatum? back (s.map write).toJson.toDatum = some s := by
  obtain ⟨es, hes, hkeys⟩ := (s.map write).keys_toJson
  obtain ⟨r, hr, hj⟩ := Record.exists_record? _ hes hkeys (by decide)
  have hnull : ∀ x, write x ≠ .null := fun x hx => by
    obtain ⟨es, hes⟩ := hobject x
    rw [hes] at hx
    cases hx
  have hadditionalNull : ∀ a : Additional α, (a.map write).toJson ≠ .null := fun a => by
    cases a with
    | allowed b => exact Json.noConfusion
    | schema x => exact hnull x
  have hmem : ∀ x, _ → Tree.ReadsBack back write x := fun x hx => hchildren x (mem_children.2 hx)
  have htype : Record.optional? r "type" TypeSet.ofDatum? = some s.type :=
    Record.optional?_written hj (by simp [toJson, map])
      (fun t => by cases t <;> exact Json.noConfusion) fun t _ => t.readsBack
  have hlist : ∀ name (xs : List α), (∀ x ∈ xs, x ∈ s.children) →
      (s.map write).toJson.field? name =
          (if xs ≠ [] then some (.array (xs.map write)) else none) →
        Record.withDefault? r name [] (Tree.list? back) = some xs := fun name xs hxs hat =>
    Record.list_written hj hat fun x hx => hchildren x (hxs x hx)
  have hproperties : Record.withDefault? r "properties" [] (Tree.map? back) = some s.properties :=
    Record.map_written hj
      (by simp [toJson, map, mapToJson]; rfl)
      hs.properties fun e he => hmem e.2 (.inl ⟨e.1, he⟩)
  have hadditional : Record.optional? r "additionalProperties" (Additional.ofDatum? back) =
      some s.additionalProperties :=
    Record.optional?_written hj (by simp [toJson, map]; rfl)
      hadditionalNull fun a ha => Additional.readsBack hobject fun x hx => by
        cases a with
        | allowed b => cases hx
        | schema y =>
          obtain rfl : y = x := Option.some.inj hx
          exact hmem y (by simp [show s.additionalProperties = _ from ha])
  have hitems : Record.optional? r "items" back = some s.items :=
    Record.optional?_written hj (by simp [toJson, map])
      hnull fun x hx => hmem x (.inr (.inl hx))
  have hdiscriminator : Record.optional? r "discriminator" Discriminator.ofDatum? =
      some s.discriminator :=
    Record.optional?_written hj (by simp [toJson, map])
      (fun _ => Json.noConfusion) fun d hd => Discriminator.readsBack (hs.mapping d hd)
  have henumeration : Record.withDefault? r "enum" [] (Tree.list? Tree.json?) =
      some s.enumeration :=
    Record.list_written hj (by simp [toJson, map])
      hs.enumeration
  have harguments : Record.optional? r "x-type-arguments" (argumentsOfDatum? back) =
      some s.typeArguments :=
    Record.optional?_written hj (by simp [toJson, map]; rfl)
      (fun _ => Json.noConfusion) fun args hargs => argumentsOfDatum?_written fun x hx =>
        hmem x (by simp [show s.typeArguments = _ from hargs, hx])
  have hallOf := hlist "allOf" s.allOf (fun x hx => mem_children.2 (by simp [hx]))
    (by simp [toJson, map])
  have honeOf := hlist "oneOf" s.oneOf (fun x hx => mem_children.2 (by simp [hx]))
    (by simp [toJson, map])
  have hanyOf := hlist "anyOf" s.anyOf (fun x hx => mem_children.2 (by simp [hx]))
    (by simp [toJson, map])
  have hformat : Record.optional? r "format" Tree.text? = some s.format :=
    Record.optionalText_written hj (by simp [toJson, map])
  have htitle : Record.optional? r "title" Tree.text? = some s.title :=
    Record.optionalText_written hj (by simp [toJson, map])
  have hdescription : Record.optional? r "description" Tree.text? = some s.description :=
    Record.optionalText_written hj (by simp [toJson, map])
  have hclass : Record.optional? r "x-class-name" Tree.text? = some s.className :=
    Record.optionalText_written hj (by simp [toJson, map])
  have hvariable : Record.optional? r "x-type-variable" Tree.text? = some s.typeVariable :=
    Record.optionalText_written hj (by simp [toJson, map])
  have hnullable : Record.optional? r "nullable" Tree.flag? = some s.nullable :=
    Record.optionalFlag_written hj (by simp [toJson, map])
  have hreadOnly : Record.optional? r "readOnly" Tree.flag? = some s.readOnly :=
    Record.optionalFlag_written hj (by simp [toJson, map])
  have hdeprecated : Record.optional? r "deprecated" Tree.flag? = some s.deprecated :=
    Record.optionalFlag_written hj (by simp [toJson, map])
  have hrequired : Record.withDefault? r "required" [] (Tree.list? Tree.text?) =
      some s.required := Record.texts_written hj (by simp [toJson, map])
  have hparameters : Record.withDefault? r "x-type-parameters" [] (Tree.list? Tree.text?) =
      some s.typeParameters := Record.texts_written hj (by simp [toJson, map])
  rw [ofDatum?]
  refine bind_of_eq_some hr (bind_of_eq_some htype (bind_of_eq_some hformat ?_))
  refine bind_of_eq_some htitle (bind_of_eq_some hdescription (bind_of_eq_some hnullable ?_))
  refine bind_of_eq_some hproperties (bind_of_eq_some hrequired (bind_of_eq_some hadditional ?_))
  refine bind_of_eq_some hitems (bind_of_eq_some hallOf (bind_of_eq_some honeOf ?_))
  refine bind_of_eq_some hanyOf (bind_of_eq_some hdiscriminator (bind_of_eq_some henumeration ?_))
  refine bind_of_eq_some hreadOnly (bind_of_eq_some hdeprecated (bind_of_eq_some hclass ?_))
  refine bind_of_eq_some hparameters (bind_of_eq_some hvariable (bind_of_eq_some harguments ?_))
  rfl

end Layer

theorem pointerOfDatum?_reference (p : String) :
    pointerOfDatum? (referenceToJson p).toDatum = some p := rfl

/-- An object without a key `$ref` is not taken for a reference. -/
theorem pointerOfDatum?_object {es : Entries Json} (h : "$ref" ∉ es.keys) :
    pointerOfDatum? (Json.object es).toDatum = none := by
  have hfields : Tree.fieldsOfEntries? [⟨"$ref", false⟩] (Json.entriesToData es) = some [] := by
    induction es with
    | nil => rfl
    | cons e es ih =>
      rw [Entries.keys, List.map_cons, List.mem_cons, not_or] at h
      have hkey : Field.ofKey? [⟨"$ref", false⟩] (.name e.1) = none := by
        simp [Field.ofKey?, h.1]
      rw [Json.entriesToData, Tree.fieldsOfEntries?, ih h.2]
      simp only [Tree.fieldKey?, Leaf.fieldKey?, hkey]
  rw [Json.toDatum, pointerOfDatum?, hfields]
  rfl

theorem depth_lt_of_mem_items {xs : List Json} {x : Json} (h : x ∈ xs) :
    x.toDatum.depth < (Json.array xs).toDatum.depth := by
  have hle : ∀ ys : List Json, x ∈ ys → x.toDatum.depth ≤ Tree.depthOfItems (Json.itemsToData ys) := by
    intro ys hys
    induction ys with
    | nil => simp at hys
    | cons y ys ih =>
      rw [Json.itemsToData, Tree.depthOfItems]
      rcases List.mem_cons.1 hys with rfl | hys
      · exact Nat.le_max_left _ _
      · exact Nat.le_trans (ih hys) (Nat.le_max_right _ _)
  exact Nat.lt_succ_of_le (hle xs h)

theorem depth_lt_of_mem_entries {es : Entries Json} {e : String × Json} (h : e ∈ es) :
    e.2.toDatum.depth < (Json.object es).toDatum.depth := by
  have hle : ∀ fs : Entries Json, e ∈ fs →
      e.2.toDatum.depth ≤ Tree.depthOfEntries (Json.entriesToData fs) := by
    intro fs hfs
    induction fs with
    | nil => simp at hfs
    | cons f fs ih =>
      rw [Json.entriesToData, Tree.depthOfEntries]
      rcases List.mem_cons.1 hfs with rfl | hfs
      · exact Nat.le_max_left _ _
      · exact Nat.le_trans (ih hfs) (Nat.le_max_right _ _)
  exact Nat.lt_succ_of_le (hle es h)

theorem depth_lt_of_field? {j x : Json} {key : String} (h : j.field? key = some x) :
    x.toDatum.depth < j.toDatum.depth := by
  cases j with
  | object es => exact depth_lt_of_mem_entries (Entries.mem_of_at? h)
  | _ => cases h

/-- A schema inside an object is written with fewer layers. -/
theorem SchemaOf.depth_lt_of_mem_children {s : SchemaOf Json} {x : Json} (h : x ∈ s.children) :
    x.toDatum.depth < s.toJson.toDatum.depth := by
  have hlist : ∀ key (xs : List Json), x ∈ xs →
      s.toJson.field? key = (if xs ≠ [] then some (.array xs) else none) →
        x.toDatum.depth < s.toJson.toDatum.depth := fun key xs hx hat => by
    rw [if_pos (List.ne_nil_of_mem hx)] at hat
    exact Nat.lt_trans (depth_lt_of_mem_items hx) (depth_lt_of_field? hat)
  rcases mem_children.1 h with ⟨name, hx⟩ | hx | hx | hx | hx | hx | ⟨args, hargs, hx⟩
  · have hat : s.toJson.field? "properties" = some (mapToJson id s.properties) := by
      simp [toJson, List.ne_nil_of_mem hx]
    have hentry : (name, x) ∈ s.properties.map fun e => (e.1, id e.2) := by simpa using hx
    exact Nat.lt_trans (depth_lt_of_mem_entries hentry) (depth_lt_of_field? hat)
  · have hat : s.toJson.field? "items" = some x := by simp [toJson, hx]
    exact depth_lt_of_field? hat
  · exact hlist "allOf" s.allOf hx (by simp [toJson])
  · exact hlist "oneOf" s.oneOf hx (by simp [toJson])
  · exact hlist "anyOf" s.anyOf hx (by simp [toJson])
  · have hat : s.toJson.field? "additionalProperties" = some x := by
      simp [toJson, hx, Additional.toJson]
    exact depth_lt_of_field? hat
  · have hat : s.toJson.field? "x-type-arguments" =
        some (.object [("allOf", .array args)]) := by simp [toJson, hargs]
    have hargument := Nat.lt_trans (depth_lt_of_mem_items hx)
      (depth_lt_of_mem_entries (List.mem_singleton_self ("allOf", Json.array args)))
    exact Nat.lt_trans hargument (depth_lt_of_field? hat)

namespace Schema

theorem toJson_inline (s : SchemaObject) : toJson (.inline s) = (s.map toJson).toJson :=
  fold_inline _ _ s

theorem toJson_ref (p : String) : toJson (.ref p) = referenceToJson p := fold_ref _ _ p

theorem exists_toJson_eq_object : ∀ s : Schema, ∃ es, s.toJson = .object es
  | .ref p => ⟨_, toJson_ref p⟩
  | .inline s => ⟨_, toJson_inline s⟩

theorem toJson_ne_null (s : Schema) : s.toJson ≠ .null := fun h => by
  obtain ⟨es, hes⟩ := s.exists_toJson_eq_object
  rw [hes] at h
  cases h

/-- A schema written in place is not taken for a reference. -/
theorem pointerOfDatum?_toJson (s : SchemaObject) :
    pointerOfDatum? (toJson (.inline s)).toDatum = none := by
  obtain ⟨es, hes, hkeys⟩ := (s.map toJson).keys_toJson
  rw [toJson_inline, hes]
  exact pointerOfDatum?_object fun h => absurd (hkeys.subset h) (by decide)

/-- A schema that was read is read back with fuel for its layers. -/
theorem layers?_toJson {n : Nat} {t : Datum} {s : Schema} (h : layers? n t = some s) {m : Nat}
    (hm : s.toJson.toDatum.depth < m) : layers? m s.toJson.toDatum = some s := by
  induction n generalizing t s m with
  | zero => cases h
  | succ n ih =>
    obtain ⟨m, rfl⟩ : ∃ k, m = k + 1 := ⟨m - 1, by omega⟩
    rw [layers?] at h
    split at h
    · next p _ =>
      obtain rfl := Option.some.inj h
      rw [toJson_ref, layers?, pointerOfDatum?_reference]
    · obtain ⟨s, hs, rfl⟩ := Option.map_eq_some_iff.1 h
      have hread := SchemaOf.wasRead hs
      have hchildren : ∀ x ∈ s.children, Tree.ReadsBack (layers? m) toJson x := by
        intro x hx
        obtain ⟨t', ht'⟩ := hread.children x hx
        have hdepth : x.toJson.toDatum.depth < (s.map toJson).toJson.toDatum.depth :=
          SchemaOf.depth_lt_of_mem_children (by
            rw [SchemaOf.children_map]
            exact List.mem_map_of_mem hx)
        rw [toJson_inline] at hm
        exact ih ht' (by omega)
      have hobject := SchemaOf.ofDatum?_toJson hread exists_toJson_eq_object hchildren
      rw [layers?, pointerOfDatum?_toJson, toJson_inline, hobject]
      rfl

/-- **A schema that was read is read back.** -/
theorem readsBack {α : Type} [Leaf α] {t : Tree α} {s : Schema} (h : read? t = some s) :
    Tree.ReadsBack read? toJson s := by
  obtain ⟨d, -, hd⟩ := Option.bind_eq_some_iff.1 h
  rw [Tree.ReadsBack, read?, Json.typed?_toDatum]
  exact layers?_toJson hd (Nat.lt_succ_self _)

end Schema

end OpenApi
end OpenApiClient
