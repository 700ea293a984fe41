/-
# Schemas are taken once

Schemas of different files may refer to each other in circles. Taking them ends nonetheless: a schema
that has a name is not taken again, and each address that is followed is that of a reference in one of
the files (`addresses`). So every schema that is taken leaves fewer of them (`State.left_register`).

The fuel of `take` is more than there are references. That this is enough is told of two runs at once
(`SameBelow`): with as much fuel as there are addresses left, or more, they do the same, and do not
run out of it (`take_sameBelow`).

In a bundled document each address then has a name of its own, and under it stands the schema of that
address, with its references made local in the same way (`ofFile_takes_once`).
-/

import OpenApiClient.Proofs.Bundling

namespace OpenApiClient
namespace Bundle

open OpenApi

section References

variable {x j : Json} {key name pointer : String} {names : List String}

theorem references_subset_of_mem_items {xs : List Json} (h : x ∈ xs) :
    references x ⊆ referencesOfItems xs := by
  induction xs with
  | nil => cases h
  | cons y ys ih =>
    rw [referencesOfItems]
    rcases List.mem_cons.1 h with rfl | h
    · exact List.subset_append_left _ _
    · exact List.Subset.trans (ih h) (List.subset_append_right _ _)

theorem references_subset_of_mem_entries {es : List (String × Json)} (h : (key, x) ∈ es) :
    references x ⊆ referencesOfEntries es := by
  induction es with
  | nil => cases h
  | cons e es ih =>
    rw [referencesOfEntries]
    rcases List.mem_cons.1 h with rfl | h
    · exact List.subset_append_left _ _
    · exact List.Subset.trans (ih h) (List.subset_append_right _ _)

theorem references_object (es : List (String × Json)) : references (.object es) =
    (reference? (.object es)).toList ++ referencesOfEntries es := by
  rw [references, reference?]
  cases Entries.at? es "$ref" with
  | none => rfl
  | some x => cases x <;> rfl

theorem references_subset_of_member? (h : member? j name = some x) : references x ⊆ references j := by
  cases j with
  | array xs =>
    obtain ⟨i, -, hi⟩ := Option.bind_eq_some_iff.1 h
    rw [references]
    exact references_subset_of_mem_items (List.mem_of_getElem? hi)
  | object es =>
    rw [references_object]
    exact List.Subset.trans (references_subset_of_mem_entries (Entries.mem_of_at? h))
      (List.subset_append_right _ _)
  | _ => cases h

/-- What stands in a value holds only references of the value. -/
theorem references_subset_of_locate? (h : locate? j names = some x) :
    references x ⊆ references j := by
  induction names generalizing j with
  | nil => exact Option.some.inj h ▸ List.Subset.refl _
  | cons name names ih =>
    obtain ⟨y, hy, h⟩ := Option.bind_eq_some_iff.1 (locate?_cons ▸ h)
    exact List.Subset.trans (ih h) (references_subset_of_member? hy)

end References

section Addresses

variable (files : Files)

/-- The addresses that the references in the files lead to. -/
def addresses : List Address :=
  files.contents.flatMap fun e => (referencesOf (isJsonFile e.1) e.2).filterMap fun ref =>
    (target? files e.1.dropLast (some e.1) ref).toOption.join

theorem length_addresses_le : (addresses files).length ≤ referenceCount files := by
  rw [addresses, referenceCount, List.length_flatMap, List.length_flatMap]
  exact List.sum_le_sum fun e _ => List.length_filterMap_le _ _

/-- How many of these addresses have no name yet. -/
def State.left (s : State) : Nat :=
  ((addresses files).toFinset.filter fun a => s.imported.lookup a = none).card

variable {files} {s : State} {a b : Address} {file : Place} {document schema : Json} {ref : String}

theorem mem_addresses (hread : readFile files file = .ok document) (href : ref ∈ references document)
    (htarget : target? files file.dropLast (some file) ref = .ok (some b)) : b ∈ addresses files := by
  rw [readFile, Files.read] at hread
  cases htext : files.content? file with
  | none => rw [htext] at hread; cases hread
  | some text =>
    rw [htext] at hread
    have hparse : parse (isJsonFile file) text = .ok document := hread
    have hmem : (file, text) ∈ files.contents := by
      obtain ⟨l, r, h, -⟩ := List.lookup_eq_some_iff.1 htext
      rw [h]
      exact List.mem_append_right _ List.mem_cons_self
    refine List.mem_flatMap.2 ⟨_, hmem, List.mem_filterMap.2 ⟨ref, ?_, ?_⟩⟩
    · rw [referencesOf, hparse]
      exact href
    · rw [htarget]
      rfl

/-- A schema at an address is found in the value of its file. -/
theorem schemaAt_eq_ok (h : schemaAt files a = .ok schema) : ∃ document,
    readFile files a.file = .ok document ∧ pointee? document a.pointer = some schema := by
  rw [schemaAt] at h
  cases hread : readFile files a.file with
  | error e => rw [hread] at h; cases h
  | ok document =>
    rw [hread, Except.bind] at h
    cases hpointee : pointee? document a.pointer with
    | none => rw [hpointee] at h; cases h
    | some x =>
      rw [hpointee] at h
      exact ⟨document, rfl, Except.ok.inj h ▸ hpointee⟩

/-- The references of such a schema lead to addresses of the files. -/
theorem mem_addresses_of_schemaAt (hschema : schemaAt files a = .ok schema)
    (href : ref ∈ references schema)
    (htarget : target? files a.file.dropLast (some a.file) ref = .ok (some b)) :
    b ∈ addresses files := by
  obtain ⟨document, hread, hpointee⟩ := schemaAt_eq_ok hschema
  rw [pointee?_eq] at hpointee
  obtain ⟨names, -, hx⟩ := Option.bind_eq_some_iff.1 hpointee
  exact mem_addresses hread (references_subset_of_locate? hx href) htarget

/-- A schema that gets a name leaves fewer addresses without one. -/
theorem State.left_register (ha : a ∈ addresses files) (hnew : s.imported.lookup a = none) :
    (s.register a schema).left files < s.left files := by
  refine Finset.card_lt_card (Finset.ssubset_iff_of_subset (fun b hb => ?_) |>.2 ⟨a, ?_, fun h => ?_⟩)
  · obtain ⟨hb, hlookup⟩ := Finset.mem_filter.1 hb
    refine Finset.mem_filter.2 ⟨hb, ?_⟩
    rw [State.register, List.lookup_cons] at hlookup
    split at hlookup
    · cases hlookup
    · exact hlookup
  · exact Finset.mem_filter.2 ⟨List.mem_toFinset.2 ha, hnew⟩
  · have hlookup := (Finset.mem_filter.1 h).2
    rw [State.register, List.lookup_cons_self] at hlookup
    cases hlookup

theorem State.left_le (s : State) : s.left files ≤ referenceCount files :=
  (Finset.card_filter_le _ _).trans <| (List.toFinset_card_le _).trans (length_addresses_le files)

end Addresses

section Fuel

variable (files : Files) {α β : Type}

/-- An error that is not for lack of fuel. -/
def LoadError.IsProper (e : LoadError) : Prop := ∀ pointer, e ≠ .reference (.circular pointer)

theorem LoadError.IsProper.file (e : FileError) : (LoadError.file e).IsProper := fun _ h => by cases h

theorem LoadError.IsProper.document (e : DocumentError) : (LoadError.document e).IsProper :=
  fun _ h => by cases h

theorem LoadError.IsProper.missing (pointer : String) :
    (LoadError.reference (.missing pointer)).IsProper := fun _ h => by cases h

/-- From states that leave fewer than `n` addresses two runs do the same: they end in such a state, or
fail for another reason than lack of fuel. -/
def SameBelow (n : Nat) (m m' : Taking α) : Prop :=
  ∀ s, s.left files < n → m.run s = m'.run s ∧
    (∀ x s', m.run s = .ok (x, s') → s'.left files < n) ∧ ∀ e, m.run s = .error e → e.IsProper

variable {files} {n : Nat} {m m' : Taking α} {k k' : α → Taking β} {x : α}

theorem SameBelow.pure : SameBelow files n (Pure.pure x) (Pure.pure x) := by
  refine fun s hs => ⟨rfl, fun y s' h => ?_, nofun⟩
  obtain ⟨rfl, rfl⟩ : x = y ∧ s = s' := Prod.mk.inj (Except.ok.inj h)
  exact hs

theorem SameBelow.throw {e : LoadError} (he : e.IsProper) :
    SameBelow files n (α := α) (MonadExcept.throw e) (MonadExcept.throw e) :=
  fun _ _ => ⟨rfl, nofun, fun _ h => Except.error.inj h ▸ he⟩

theorem SameBelow.bind (hm : SameBelow files n m m') (hk : ∀ x, SameBelow files n (k x) (k' x)) :
    SameBelow files n (m >>= k) (m' >>= k') := by
  intro s hs
  obtain ⟨heq, hleft, hproper⟩ := hm s hs
  rw [StateT.run_bind, StateT.run_bind, ← heq]
  cases hrun : m.run s with
  | error e => exact ⟨rfl, nofun, fun _ h => Except.error.inj h ▸ hproper e hrun⟩
  | ok r => exact hk r.1 r.2 (hleft r.1 r.2 hrun)

section Relinking

variable {follow follow' : String → Taking (Option String)}

mutual

/-- Replacing references does the same if following them does. -/
theorem relink_sameBelow : (j : Json) →
    (∀ p ∈ references j, SameBelow files n (follow p) (follow' p)) →
      SameBelow files n (relink follow j) (relink follow' j)
  | .array xs, h => by
    rw [references] at h
    rw [relink, relink]
    exact (relinkItems_sameBelow xs h).bind fun _ => .pure
  | .object es, h => by
    rw [references_object] at h
    rw [relink_object, relink_object]
    refine SameBelow.bind ?_ fun own => (relinkEntries_sameBelow own es fun p hp =>
      h p (List.mem_append_right _ hp)).bind fun _ => .pure
    cases hr : reference? (.object es) with
    | none => exact .pure
    | some p => exact h p (List.mem_append_left _ (by simp [hr]))
  | .null, _ | .bool _, _ | .number _, _ | .string _, _ => by
    rw [relink, relink]
    · exact .pure
    all_goals exact nofun

theorem relinkItems_sameBelow : (xs : List Json) →
    (∀ p ∈ referencesOfItems xs, SameBelow files n (follow p) (follow' p)) →
      SameBelow files n (relinkItems follow xs) (relinkItems follow' xs)
  | [], _ => by
    rw [relinkItems, relinkItems]
    exact .pure
  | x :: xs, h => by
    rw [referencesOfItems] at h
    rw [relinkItems, relinkItems]
    refine (relink_sameBelow x fun p hp => h p (List.mem_append_left _ hp)).bind fun _ => ?_
    exact (relinkItems_sameBelow xs fun p hp => h p (List.mem_append_right _ hp)).bind fun _ => .pure

theorem relinkEntries_sameBelow (own : Option String) : (es : List (String × Json)) →
    (∀ p ∈ referencesOfEntries es, SameBelow files n (follow p) (follow' p)) →
      SameBelow files n (relinkEntries follow own es) (relinkEntries follow' own es)
  | [], _ => by
    rw [relinkEntries, relinkEntries]
    exact .pure
  | (key, x) :: es, h => by
    rw [referencesOfEntries] at h
    rw [relinkEntries_cons, relinkEntries_cons]
    refine SameBelow.bind ?_ fun _ => (relinkEntries_sameBelow own es fun p hp =>
      h p (List.mem_append_right _ hp)).bind fun _ => .pure
    split
    · exact .pure
    · exact relink_sameBelow x fun p hp => h p (List.mem_append_left _ hp)

end

end Relinking

section Taking

variable {a : Address}

theorem localForm?_sameBelow {take take' : Address → Taking String} {directory : Place}
    {current : Option Place} {ref : String}
    (h : ∀ a, target? files directory current ref = .ok (some a) →
      SameBelow files n (take a) (take' a)) :
    SameBelow files n (localForm? files take directory current ref)
      (localForm? files take' directory current ref) := by
  rw [localForm?, localForm?]
  cases htarget : target? files directory current ref with
  | error e => exact .throw (.file e)
  | ok o =>
    cases o with
    | none => exact .pure
    | some a => exact (h a htarget).bind fun _ => .pure

theorem isProper_of_readFile {p : Place} {e : LoadError} (h : readFile files p = .error e) :
    e.IsProper := by
  rw [readFile] at h
  rintro pointer rfl
  split at h
  · rw [parse] at h
    split at h <;> split at h <;> cases h
  · cases h

theorem isProper_of_schemaAt {e : LoadError} (h : schemaAt files a = .error e) : e.IsProper := by
  rw [schemaAt] at h
  cases hread : readFile files a.file with
  | error e' =>
    rw [hread] at h
    obtain rfl := Except.error.inj h
    exact isProper_of_readFile hread
  | ok document =>
    rw [hread, Except.bind] at h
    split at h
    · cases h
    · obtain rfl := Except.error.inj h
      exact .missing _

/-- **The fuel is enough**: with as much of it as there are addresses left, taking a schema does the
same as with more. -/
theorem take_sameBelow (ha : a ∈ addresses files) (fuel more : Nat) :
    SameBelow files fuel (take files fuel a) (take files (fuel + more) a) := by
  induction fuel generalizing a with
  | zero => exact fun s hs => absurd hs (Nat.not_lt_zero _)
  | succ fuel ih =>
    intro s hs
    rw [Nat.add_right_comm]
    cases hlookup : s.imported.lookup a with
    | some name =>
      rw [take_run_of_lookup hlookup, take_run_of_lookup hlookup]
      refine ⟨rfl, fun x s' h => ?_, nofun⟩
      obtain ⟨-, rfl⟩ := Prod.mk.inj (Except.ok.inj h)
      exact hs
    | none =>
      rw [take_run hlookup, take_run hlookup]
      cases hschema : schemaAt files a with
      | error e => exact ⟨rfl, nofun, fun _ h => Except.error.inj h ▸ isProper_of_schemaAt hschema⟩
      | ok schema =>
        obtain ⟨heq, hleft, hproper⟩ := relink_sameBelow schema (fun p hp => localForm?_sameBelow
          fun b hb => ih (mem_addresses_of_schemaAt hschema hp hb)) (s.register a schema)
            ((State.left_register ha hlookup).trans_le (Nat.lt_succ_iff.1 hs))
        simp only [Except.bind]
        rw [← heq]
        cases hrun : (relink (localForm? files (take files fuel) a.file.dropLast (some a.file))
            schema).run (s.register a schema) with
        | error e => exact ⟨rfl, nofun, fun _ h => Except.error.inj h ▸ hproper e hrun⟩
        | ok r =>
          refine ⟨rfl, fun x s' h => ?_, nofun⟩
          obtain ⟨-, rfl⟩ := Prod.mk.inj (Except.ok.inj h)
          exact (hleft r.1 r.2 hrun).trans (Nat.lt_succ_self fuel)

/-- **A schema is not taken again**: names that were given stay, and wherever they go on from there, the
name of the schema is found. -/
theorem take_once {s s' : State} {fuel : Nat} {name : String} (hs : s.Valid)
    (hrun : (take files fuel a).run s = .ok (name, s')) :
    s'.Valid ∧ s.imported <:+ s'.imported ∧
      ∀ later n, State.Valid later → s'.imported <:+ later.imported →
        (take files (n + 1) a).run later = .ok (name, later) := by
  obtain ⟨hgrows, hname⟩ := take_gives (T := s'.table) fuel a s name s' hrun
  obtain ⟨new, -, himported, -⟩ := hgrows.adds
  have hvalid := hgrows.valid hs
  refine ⟨hvalid, ⟨new, himported.symm⟩, fun later n hlater hmore => ?_⟩
  have hmem := hmore.subset (mem_of_lookup_eq (hname hvalid.within))
  exact take_run_of_lookup (lookup_eq_of_mem hlater.addresses hmem)

end Taking

end Fuel

section Root

variable {files : Files} {path : String} {root : Place} {document : Json} {r : Result}

/-- The document of the root with its references replaced, and what was taken for it, with so much
fuel. -/
def linkRoot (files : Files) (fuel : Nat) (root : Place) (document : Json) :
    Except LoadError (Json × State) :=
  (relink (localForm? files (take files fuel) root.dropLast none) document).run
    { taken := ownSchemas document }

/-- **Bundling ends**: more fuel than there are references makes no difference, and is enough. -/
theorem linkRoot_ends (hread : readFile files root = .ok document) {fuel : Nat}
    (hfuel : referenceCount files < fuel) :
    linkRoot files fuel root document = linkRoot files (referenceCount files + 1) root document ∧
      ∀ e, linkRoot files fuel root document = .error e → e.IsProper := by
  obtain ⟨more, rfl⟩ := Nat.exists_eq_add_of_le (Nat.succ_le_of_lt hfuel)
  obtain ⟨heq, -, hproper⟩ := relink_sameBelow document
    (fun p hp => localForm?_sameBelow fun a ha =>
      take_sameBelow (mem_addresses hread hp (target?_of_some ha)) (referenceCount files + 1) more)
    { taken := ownSchemas document } (Nat.lt_succ_of_le (State.left_le _))
  exact ⟨heq.symm, fun e he => hproper e (heq.trans he)⟩

/-- Bundling does not fail for lack of fuel. -/
theorem ofFile_isProper {e : LoadError} (h : ofFile files path = .error e) : e.IsProper := by
  cases hroot : files.canonical path with
  | error e' =>
    rw [ofFile, hroot] at h
    obtain rfl := Except.error.inj h
    exact .file e'
  | ok root =>
    cases hread : readFile files root with
    | error e' =>
      rw [ofFile, hroot] at h
      change (readFile files root).bind _ = _ at h
      rw [hread] at h
      obtain rfl := Except.error.inj h
      exact isProper_of_readFile hread
    | ok document =>
      rw [ofFile_eq hroot hread] at h
      change (linkRoot files (referenceCount files + 1) root document).bind _ = _ at h
      cases hlink : linkRoot files (referenceCount files + 1) root document with
      | error e' =>
        rw [hlink] at h
        obtain rfl := Except.error.inj h
        exact (linkRoot_ends hread (Nat.lt_succ_self _)).2 e' hlink
      | ok run =>
        rw [hlink] at h
        dsimp only [Except.bind] at h
        split at h
        · cases h
        · rw [withSchemas] at h
          split at h
          · cases h
          · obtain rfl := Except.error.inj h
            exact .document _

namespace Bundling

variable (b : Bundling files path r)

/-- The reference stays if it is local to the root, and else points at the schema that was taken from
where it leads. -/
def Follows (directory : Place) (current : Option Place) (ref : String) : Prop :=
  (target? files directory current ref = .ok none ∧
      form files b.state.table directory current ref = none) ∨
    ∃ a name, target? files directory current ref = .ok (some a) ∧ (a, name) ∈ b.state.imported ∧
      form files b.state.table directory current ref = some (pointerTo .schemas name)

theorem follows_of_settled {directory : Place} {current : Option Place} {ref : String}
    (h : Settled files b.state.table directory current ref) : b.Follows directory current ref := by
  rcases h with hnone | ⟨a, name, htarget, hname⟩
  · exact .inl ⟨hnone, by rw [form, hnone]⟩
  · exact .inr ⟨a, name, htarget, mem_of_lookup_eq hname, by simp only [form, htarget, hname,
      Option.map_some]⟩

theorem added_perm : r.added.Perm (b.state.imported.map Prod.snd) := by
  have hperm := b.relinked.perm
  have hresult := b.result
  split at hresult
  · next hempty =>
    have hadded : [] = r.added := congrArg Result.added (Except.ok.inj hresult)
    rwa [List.isEmpty_iff.1 hempty, Entries.keys, List.map_nil, hadded] at hperm
  · cases hw : withSchemas b.linked b.state.added with
    | error e => rw [hw] at hresult; cases hresult
    | ok j =>
      rw [hw] at hresult
      have hadded : b.state.added.keys = r.added := congrArg Result.added (Except.ok.inj hresult)
      rwa [hadded] at hperm

end Bundling

end Root

/-- **Names of bundled schemas are unique and hold what is pointed at.**  Whatever files there are,
taking the schemas that the root refers to ends, and none is taken twice. In the result each address
that was taken has a name of its own, under which stands the schema at the address, with its references
made local; each of them points at the name of the address that it led to, as do those of the root. A
name that the root has for a schema is given only to one that is the same. -/
theorem ofFile_takes_once (files : Files) (path : String) :
    (∀ e, ofFile files path = .error e → e.IsProper) ∧
    (∀ root document fuel, readFile files root = .ok document → referenceCount files < fuel →
      linkRoot files fuel root document = linkRoot files (referenceCount files + 1) root document ∧
        ∀ e, linkRoot files fuel root document = .error e → e.IsProper) ∧
    (∀ fuel a name s s', s.Valid → (take files fuel a).run s = .ok (name, s') →
      s'.Valid ∧ s.imported <:+ s'.imported ∧
        ∀ later n, State.Valid later → s'.imported <:+ later.imported →
          (take files (n + 1) a).run later = .ok (name, later)) ∧
    ∀ r, ofFile files path = .ok r → ∃ b : Bundling files path r, b.state.Valid ∧
      r.added.Perm (b.state.imported.map Prod.snd) ∧
      (∀ i ∈ b.state.imported, ∃ schema, schemaAt files i.1 = .ok schema ∧
        locate? r.document (schemaPlace i.2) = some (relocate (b.formIn i.1.file) schema) ∧
        Covered (b.Follows i.1.file.dropLast (some i.1.file)) schema ∧
        ∀ own, (ownSchemas b.document).at? i.2 = some own → own.same schema = true) ∧
      (∀ names x, ¬ IsContainer names → ¬ b.IsTaken names → place? b.document names = some x →
        locate? r.document names = some (copyOf b.rootForm names x)) ∧
      Covered (b.Follows b.root.dropLast none) b.document := by
  refine ⟨fun e => ofFile_isProper, fun root document fuel hread => linkRoot_ends hread,
    fun fuel a name s s' hs hrun => take_once hs hrun, fun r hr => ?_⟩
  obtain ⟨b⟩ := exists_bundling hr
  refine ⟨b, b.relinked.valid, b.added_perm, fun i hi => ?_, fun names x hc ht hx =>
    b.locate?_root hc ht hx, fun names x p hn hx hp => b.follows_of_settled
      (b.relinked.covered names x p hn hx hp)⟩
  obtain ⟨schema, hschema⟩ := b.exists_schema hi
  refine ⟨schema, hschema, b.locate?_taken hi hschema, fun names x p hn hx hp =>
    b.follows_of_settled (b.covered_taken hi hschema names x p hn hx hp), fun own hown => ?_⟩
  obtain ⟨schema', hschema', hsame⟩ := b.relinked.shares.same i hi own hown
  obtain rfl := Except.ok.inj (hschema.symm.trans hschema')
  exact hsame

/-- A file that refers to another one, which refers to itself. -/
def circle : Files := .ofEntries "/w" [
  ("api.json", "\x7b\"A\":\x7b\"$ref\":\"x.json\"\x7d\x7d"),
  ("x.json", "\x7b\"items\":\x7b\"$ref\":\"#\"\x7d\x7d")]

/-- The values of the two files. -/
def circleDocuments : List (Place × Json) := [
  (["w", "api.json"], .object [("A", .object [("$ref", .string "x.json")])]),
  (["w", "x.json"], .object [("items", .object [("$ref", .string "#")])])]

theorem holds_circle : Holds circle.contents circleDocuments :=
  .entry (by decide) (by decide) (parse_of_toList String.toList_ofList rfl) <|
    .entry (by decide) (by decide) (parse_of_toList String.toList_ofList rfl) .nil

/-- In the circle one schema is taken, and refers to itself. -/
theorem ofFile_takes_once_circle : ∃ r, ofFile circle "api.json" = .ok r ∧ r.added = ["x"] ∧
    locate? r.document (schemaPlace "x") =
      some (.object [("items", .object [("$ref", .string "#/components/schemas/x")])]) := by
  have hcanonical : circle.canonical "api.json" = .ok ["w", "api.json"] :=
    eq_ok_of_toOption (by decide)
  have hadded : (ofFile circle "api.json").toOption.map (·.added) = some ["x"] := by
    rw [Holds.ofFile_eq holds_circle hcanonical rfl]
    decide +kernel
  have hschema : schemaAt circle ⟨["w", "x.json"], ""⟩ =
      .ok (.object [("items", .object [("$ref", .string "#")])]) :=
    Holds.schemaAt holds_circle rfl rfl
  have htarget : target? circle ["w"] none "x.json" = .ok (some ⟨["w", "x.json"], ""⟩) :=
    eq_ok_of_toOption (by decide)
  have hself : target? circle ["w"] (some ["w", "x.json"]) "#" = .ok (some ⟨["w", "x.json"], ""⟩) :=
    eq_ok_of_toOption (by decide)
  obtain ⟨r, hr, hadded⟩ := Option.map_eq_some_iff.1 hadded
  obtain ⟨b, hvalid, hperm, hholds, -, hcovered⟩ :=
    (ofFile_takes_once circle "api.json").2.2.2 r (eq_ok_of_toOption hr)
  obtain ⟨hroot, hdocument⟩ := b.eq_of_read hcanonical (Holds.readFile holds_circle rfl)
  rw [hroot, hdocument] at hcovered
  -- the reference of the root tells the address that was taken
  obtain ⟨hnone, -⟩ | ⟨a, name, ha, hi, -⟩ := hcovered ["A"] _ "x.json" (by decide) rfl rfl
  · cases htarget.symm.trans hnone
  obtain rfl := Option.some.inj (Except.ok.inj (htarget.symm.trans ha))
  obtain rfl : name = "x" := by
    have hmem := hperm.symm.subset (List.mem_map_of_mem hi)
    rw [hadded] at hmem
    exact List.mem_singleton.1 hmem
  obtain ⟨schema, hat, hlocate, -⟩ := hholds _ hi
  obtain rfl := Except.ok.inj (hschema.symm.trans hat)
  have hform : b.formIn ["w", "x.json"] "#" = some "#/components/schemas/x" := by
    have hname : b.state.table ⟨["w", "x.json"], ""⟩ = some "x" := hvalid.within _ hi
    change form circle b.state.table ["w"] (some ["w", "x.json"]) "#" = _
    simp only [form, hself, hname, Option.map_some]
    decide
  refine ⟨r, eq_ok_of_toOption hr, hadded, hlocate.trans ?_⟩
  simp [relocate, relocateEntries, reference?, Entries.at?, hform]

end Bundle
end OpenApiClient
