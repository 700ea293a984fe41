/-
# What taking schemas does

Schemas are taken while references to them are replaced, and the references in a schema that is
being taken are replaced before it is done. What a reference becomes depends on names that are
given later, so all is told of a table `T` of the names that addresses have in the end: `form` is
what it makes of a reference, and a run is right as far as the table knows its names (`Within`).

A run only adds to the state, a schema for each name it gives (`Grows`), and what it gives back
follows rules like those of a program logic (`Gives.pure`, `Gives.bind`). Replacing references
relocates a value (`relink_gives`), and taking a schema gives it the name of the table
(`take_gives`): each schema that was taken stands among those added, relocated.
-/

import OpenApiClient.Proofs.Unfolding
import OpenApiClient.Proofs.Entries
import OpenApiClient.Proofs.FreshName

namespace OpenApiClient
namespace Bundle

open OpenApi

section Forms

variable (files : Files) (T : Address → Option String) (directory : Place) (current : Option Place)

/-- What becomes of a reference found in a file; `none` if it stays. -/
def form (ref : String) : Option String :=
  match target? files directory current ref with
  | .ok (some a) => (T a).map (pointerTo .schemas)
  | _ => none

/-- A reference that is local to the root, or leads to a schema with a name. -/
def Settled (ref : String) : Prop :=
  target? files directory current ref = .ok none ∨
    ∃ a name, target? files directory current ref = .ok (some a) ∧ T a = some name

/-- The references of a value are so, apart from those below the key of references. -/
def Covered (P : String → Prop) (j : Json) : Prop :=
  ∀ names x p, "$ref" ∉ names → locate? j names = some x → reference? x = some p → P p

/-- The schema at an address, with its references replaced, is among those added under its name. -/
def Completed (added : Entries Json) (a : Address) (name : String) : Prop :=
  ∃ schema, schemaAt files a = .ok schema ∧
    (name, relocate (form files T a.file.dropLast (some a.file)) schema) ∈ added ∧
      Covered (Settled files T a.file.dropLast (some a.file)) schema

theorem Completed.mono {files : Files} {T : Address → Option String} {added more : Entries Json}
    {a : Address} {name : String} (h : Completed files T added a name) (hsub : added ⊆ more) :
    Completed files T more a name := by
  obtain ⟨schema, hschema, hmem, hcovered⟩ := h
  exact ⟨schema, hschema, hsub hmem, hcovered⟩

end Forms

/-- Each address has one name, no two have the same, and the names are in use. -/
structure State.Valid (s : State) : Prop where
  addresses : (s.imported.map Prod.fst).Nodup
  names : (s.imported.map Prod.snd).Nodup
  taken : ∀ i ∈ s.imported, i.2 ∈ s.taken.keys

/-- Of the schemas that the root defines, those whose names were not given are what these names stand
for, and the others are the same as the schemas that their names were given to. -/
structure State.Shares (files : Files) (own : Entries Json) (s : State) : Prop where
  taken : ∀ key ∈ own.keys, key ∈ s.taken.keys
  kept : ∀ key, (∀ i ∈ s.imported, i.2 ≠ key) → ∀ x, own.at? key = some x → s.taken.at? key = some x
  same : ∀ i ∈ s.imported, ∀ x, own.at? i.2 = some x →
    ∃ schema, schemaAt files i.1 = .ok schema ∧ x.same schema = true

/-- The names that addresses were given. -/
def State.table (s : State) : Address → Option String := (s.imported.lookup ·)

/-- The table knows the names that were given. -/
def State.Within (T : Address → Option String) (s : State) : Prop :=
  ∀ i ∈ s.imported, T i.1 = some i.2

section Growth

variable (files : Files) (T : Address → Option String)

/-- What a run does to the state: it gives names to new addresses and adds a schema for each. -/
structure Grows (s s' : State) : Prop where
  valid : s.Valid → s'.Valid
  shares : ∀ own, s.Shares files own → s'.Shares files own
  adds : ∃ new late, s'.imported = new ++ s.imported ∧ s'.added = s.added ++ late ∧
    late.keys.Perm (new.map Prod.snd) ∧
      (s'.Within T → ∀ i ∈ new, Completed files T late i.1 i.2)

variable {files T} {s s' s'' : State}

theorem Grows.refl : Grows files T s s where
  valid := id
  shares _ := id
  adds := ⟨[], [], rfl, (List.append_nil _).symm, List.Perm.refl _, fun _ => nofun⟩

theorem Grows.within (h : Grows files T s s') (hT : s'.Within T) : s.Within T := by
  obtain ⟨new, -, himported, -⟩ := h.adds
  exact fun i hi => hT i (himported ▸ List.mem_append_right _ hi)

theorem Grows.trans (h : Grows files T s s') (h' : Grows files T s' s'') : Grows files T s s'' where
  valid hs := h'.valid (h.valid hs)
  shares own hs := h'.shares own (h.shares own hs)
  adds := by
    obtain ⟨new, late, himported, hadded, hperm, hdone⟩ := h.adds
    obtain ⟨new', late', himported', hadded', hperm', hdone'⟩ := h'.adds
    refine ⟨new' ++ new, late ++ late', ?_, ?_, ?_, fun hT i hi => ?_⟩
    · rw [himported', himported, List.append_assoc]
    · rw [hadded', hadded, List.append_assoc]
    · rw [Entries.keys_append, List.map_append]
      exact (hperm.append hperm').trans List.perm_append_comm
    · rcases List.mem_append.1 hi with hi | hi
      · exact (hdone' hT i hi).mono (List.subset_append_right _ _)
      · exact (hdone (h'.within hT) i hi).mono (List.subset_append_left _ _)

end Growth

section Rules

variable (files : Files) (T : Address → Option String) {α β : Type}

/-- A run that ends only adds to the state, and its result is so if the table knows the names
given. -/
def Gives (m : Taking α) (Q : α → Prop) : Prop :=
  ∀ s x s', m.run s = .ok (x, s') → Grows files T s s' ∧ (s'.Within T → Q x)

variable {files T} {m : Taking α} {k : α → Taking β} {P Q : α → Prop} {R : β → Prop} {x : α}

theorem Gives.pure (h : Q x) : Gives files T (pure x) Q := by
  intro s y s' hrun
  obtain ⟨rfl, rfl⟩ : x = y ∧ s = s' := Prod.mk.inj (Except.ok.inj hrun)
  exact ⟨.refl, fun _ => h⟩

theorem Gives.bind (hm : Gives files T m P) (hk : ∀ x, Gives files T (k x) fun y => P x → R y) :
    Gives files T (m >>= k) R := by
  intro s y s' hrun
  rw [StateT.run_bind] at hrun
  cases hx : m.run s with
  | error e => rw [hx] at hrun; cases hrun
  | ok r =>
    obtain ⟨x, s₁⟩ := r
    rw [hx] at hrun
    obtain ⟨h₁, hP⟩ := hm s x s₁ hx
    obtain ⟨h₂, hR⟩ := hk x s₁ y s' hrun
    exact ⟨h₁.trans h₂, fun hT => hR hT (hP (h₂.within hT))⟩

theorem Gives.mono (hm : Gives files T m P) (h : ∀ x, P x → Q x) : Gives files T m Q :=
  fun s x s' hrun => ⟨(hm s x s' hrun).1, fun hT => h x ((hm s x s' hrun).2 hT)⟩

theorem Gives.throw {e : LoadError} : Gives files T (throw e) Q := fun _ _ _ => nofun

end Rules

section Relinking

variable {files : Files} {T : Address → Option String} {follow : String → Taking (Option String)}
  {f : String → Option String} {S : String → Prop}

theorem covered_of_items {xs : List Json} (h : ∀ x ∈ xs, Covered S x) :
    Covered S (.array xs) := by
  intro names x p hnames hx hp
  cases names with
  | nil => obtain rfl := Option.some.inj hx; cases hp
  | cons name names =>
    obtain ⟨y, hy, hx⟩ := Option.bind_eq_some_iff.1 (locate?_cons ▸ hx)
    obtain ⟨i, -, hi⟩ := Option.bind_eq_some_iff.1 hy
    exact h y (List.mem_of_getElem? hi) names x p (fun hm => hnames (.tail _ hm)) hx hp

theorem covered_of_entries {es : List (String × Json)}
    (hown : ∀ p, reference? (.object es) = some p → S p)
    (h : ∀ e ∈ es, e.1 ≠ "$ref" → Covered S e.2) : Covered S (.object es) := by
  intro names x p hnames hx hp
  cases names with
  | nil => obtain rfl := Option.some.inj hx; exact hown p hp
  | cons name names =>
    obtain ⟨y, hy, hx⟩ := Option.bind_eq_some_iff.1 (locate?_cons ▸ hx)
    have hmem := Entries.mem_of_at? hy
    exact h _ hmem (fun hn => hnames (hn ▸ .head _)) names x p
      (fun hm => hnames (.tail _ hm)) hx hp

/-- The reference of an object itself comes first. -/
theorem relink_object (es : List (String × Json)) :
    relink follow (.object es) = (match reference? (.object es) with
      | some p => follow p
      | none => pure none) >>= fun own => (do return .object (← relinkEntries follow own es)) := by
  rw [relink, reference?]
  cases Entries.at? es "$ref" with
  | none => rfl
  | some x => cases x <;> rfl

theorem relinkEntries_cons (own : Option String) (e : String × Json) (es : List (String × Json)) :
    relinkEntries follow own (e :: es) =
      (if e.1 = "$ref" then pure (own.elim e.2 .string) else relink follow e.2) >>= fun x =>
        (do return (e.1, x) :: (← relinkEntries follow own es)) := by
  rw [relinkEntries.eq_def]
  dsimp only
  cases own <;> split <;> rfl

mutual

/-- **Replacing references relocates a value**, if following a reference gives what it becomes. -/
theorem relink_gives (hf : ∀ p, Gives files T (follow p) fun o => S p ∧ o = f p) :
    (j : Json) → Gives files T (relink follow j) fun j' => j' = relocate f j ∧ Covered S j
  | .array xs => by
    rw [relink]
    refine (relinkItems_gives hf xs).bind fun ys => .pure fun h => ⟨?_, covered_of_items h.2⟩
    rw [h.1, relocate]
  | .object es => by
    have hown : Gives files T (match reference? (.object es) with
        | some p => follow p
        | none => pure none) fun own =>
          own = (reference? (.object es)).bind f ∧ ∀ p, reference? (.object es) = some p → S p := by
      cases reference? (.object es) with
      | none => exact .pure ⟨rfl, nofun⟩
      | some p =>
        refine (hf p).mono fun own h => ⟨h.2, fun q hq => ?_⟩
        exact Option.some.inj hq ▸ h.1
    rw [relink_object]
    refine hown.bind fun own => (relinkEntries_gives hf own es).bind fun es' => .pure ?_
    intro h hown
    rw [h.1, hown.1, relocate]
    exact ⟨rfl, covered_of_entries hown.2 h.2⟩
  | .null | .bool _ | .number _ | .string _ => by
    rw [relink]
    · refine .pure ⟨rfl, fun names x p _ hx hp => ?_⟩
      cases names with
      | nil => obtain rfl := Option.some.inj hx; cases hp
      | cons name names => cases hx
    all_goals exact nofun

theorem relinkItems_gives (hf : ∀ p, Gives files T (follow p) fun o => S p ∧ o = f p) :
    (xs : List Json) → Gives files T (relinkItems follow xs) fun ys =>
      ys = relocateItems f xs ∧ ∀ x ∈ xs, Covered S x
  | [] => by
    rw [relinkItems]
    exact .pure ⟨rfl, nofun⟩
  | x :: xs => by
    rw [relinkItems]
    refine (relink_gives hf x).bind fun y => (relinkItems_gives hf xs).bind fun ys => .pure ?_
    intro hxs hx
    rw [hx.1, hxs.1]
    exact ⟨rfl, List.forall_mem_cons.2 ⟨hx.2, hxs.2⟩⟩

theorem relinkEntries_gives (hf : ∀ p, Gives files T (follow p) fun o => S p ∧ o = f p)
    (own : Option String) :
    (es : List (String × Json)) → Gives files T (relinkEntries follow own es) fun es' =>
      es' = relocateEntries f own es ∧ ∀ e ∈ es, e.1 ≠ "$ref" → Covered S e.2
  | [] => by
    rw [relinkEntries]
    exact .pure ⟨rfl, nofun⟩
  | (key, x) :: es => by
    have hx : Gives files T (if key = "$ref" then pure (own.elim x .string) else relink follow x)
        fun y => y = (if key = "$ref" then own.elim x .string else relocate f x) ∧
          (key ≠ "$ref" → Covered S x) := by
      split
      · next hkey => exact .pure ⟨rfl, fun h => absurd hkey h⟩
      · exact (relink_gives hf x).mono fun y h => ⟨h.1, fun _ => h.2⟩
    rw [relinkEntries_cons]
    refine hx.bind fun y => (relinkEntries_gives hf own es).bind fun es' => .pure ?_
    intro hes hy
    rw [hy.1, hes.1, relocateEntries]
    exact ⟨rfl, List.forall_mem_cons.2 ⟨hy.2, hes.2⟩⟩

end

end Relinking

section Taking

variable {files : Files} {T : Address → Option String} {fuel : Nat} {a : Address} {s : State}
  {schema : Json} {name : String}

theorem lookup_eq_of_mem {l : List (Address × String)} (hn : (l.map Prod.fst).Nodup)
    (h : (a, name) ∈ l) : l.lookup a = some name := by
  obtain ⟨l₁, l₂, rfl⟩ := List.mem_iff_append.1 h
  rw [List.map_append, List.map_cons, List.nodup_append] at hn
  refine List.lookup_eq_some_iff.2 ⟨l₁, l₂, rfl, fun i hi => ?_⟩
  have hne := hn.2.2 i.1 (List.mem_map_of_mem hi) a (.head _)
  simpa using Ne.symm hne

theorem mem_of_lookup_eq {l : List (Address × String)} (h : l.lookup a = some name) :
    (a, name) ∈ l := by
  obtain ⟨l₁, l₂, rfl, -⟩ := List.lookup_eq_some_iff.1 h
  simp

/-- The names that were given are a table that knows them. -/
theorem State.Valid.within (h : s.Valid) : s.Within s.table :=
  fun _ hi => lookup_eq_of_mem h.addresses hi

/-- The name for a schema is not in use, or stands for the same and was not given. -/
theorem State.freeName_spec (s : State) (natural : String) (schema : Json) :
    s.freeName natural schema ∉ s.taken.keys ∨
      ∃ existing, s.taken.at? (s.freeName natural schema) = some existing ∧
        existing.same schema = true ∧ ∀ i ∈ s.imported, i.2 ≠ s.freeName natural schema := by
  rw [State.freeName]
  split
  · next hnone => exact .inl (Entries.at?_eq_none.1 hnone)
  · next existing hexisting =>
    split
    · next hsame =>
      rw [Bool.and_eq_true, Bool.not_eq_true', State.isImported, Bool.or_eq_false_iff] at hsame
      exact .inr ⟨existing, hexisting, hsame.1, fun i hi => by
        simpa using List.any_eq_false.1 hsame.2.2 i hi⟩
    · have hfresh := Module.freeSuffix_not_mem s.taken.keys natural 1
      rw [Entries.keys, List.length_map, ← Entries.keys] at hfresh
      exact .inl hfresh

/-- A name that is given was not given before. -/
theorem State.Valid.freeName_ne (h : s.Valid) (natural : String) {i : Address × String}
    (hi : i ∈ s.imported) : i.2 ≠ s.freeName natural schema := by
  rcases s.freeName_spec natural schema with hfree | ⟨_, -, -, hnew⟩
  · exact fun heq => hfree (heq ▸ h.taken i hi)
  · exact hnew i hi

/-- The state in which a schema has a name but is not yet among those added. -/
def State.register (s : State) (a : Address) (schema : Json) : State where
  imported := (a, s.freeName (naturalName a) schema) :: s.imported
  taken := s.taken.put (s.freeName (naturalName a) schema) schema
  added := s.added

theorem State.mem_keys_register {key : String} : key ∈ (s.register a schema).taken.keys ↔
    key ∈ s.taken.keys ∨ key = s.freeName (naturalName a) schema := by
  rw [State.register, Entries.keys_put]
  split
  · next hmem => exact ⟨.inl, fun h => h.elim id (· ▸ hmem)⟩
  · simp

theorem State.Valid.register (h : s.Valid) (ha : s.imported.lookup a = none) :
    (s.register a schema).Valid where
  addresses := by
    rw [State.register, List.map_cons, List.nodup_cons]
    refine ⟨fun hmem => ?_, h.addresses⟩
    obtain ⟨i, hi, rfl⟩ := List.mem_map.1 hmem
    simpa using List.lookup_eq_none_iff.1 ha i hi
  names := by
    rw [State.register, List.map_cons, List.nodup_cons]
    refine ⟨fun hmem => ?_, h.names⟩
    obtain ⟨i, hi, heq⟩ := List.mem_map.1 hmem
    exact h.freeName_ne (naturalName a) hi heq
  taken := by
    intro i hi
    rcases List.mem_cons.1 hi with rfl | hi
    · exact State.mem_keys_register.2 (.inr rfl)
    · exact State.mem_keys_register.2 (.inl (h.taken i hi))

/-- A schema of the root whose name is given to another one is the same. -/
theorem State.Shares.same_of_freeName {own : Entries Json} {x : Json} (h : s.Shares files own)
    (natural : String) (hx : own.at? (s.freeName natural schema) = some x) :
    x.same schema = true := by
  rcases s.freeName_spec natural schema with hfree | ⟨existing, hexisting, hsame, hnew⟩
  · exact absurd (h.taken _ (List.mem_map_of_mem (Entries.mem_of_at? hx))) hfree
  · obtain rfl := Option.some.inj (hexisting.symm.trans (h.kept _ hnew x hx))
    exact hsame

theorem State.Shares.register {own : Entries Json} (h : s.Shares files own)
    (hschema : schemaAt files a = .ok schema) : (s.register a schema).Shares files own where
  taken key hkey := State.mem_keys_register.2 (.inl (h.taken key hkey))
  kept key hnew x hx := by
    obtain ⟨hne, hnew⟩ := List.forall_mem_cons.1 hnew
    rw [State.register, Entries.at?_put, if_neg hne.symm]
    exact h.kept key hnew x hx
  same i hi x hx := by
    rcases List.mem_cons.1 hi with rfl | hi
    · exact ⟨schema, hschema, h.same_of_freeName _ hx⟩
    · exact h.same i hi x hx

theorem take_run_of_lookup (h : s.imported.lookup a = some name) :
    (take files (fuel + 1) a).run s = .ok (name, s) := by
  rw [take, StateT.run_bind, StateT.run_get]
  change (match s.imported.lookup a with
    | some name => pure name
    | none => _ : Taking String).run s = _
  rw [h]
  rfl

theorem take_run (h : s.imported.lookup a = none) :
    (take files (fuel + 1) a).run s = (schemaAt files a).bind fun schema =>
      ((relink (localForm? files (take files fuel) a.file.dropLast (some a.file)) schema).run
        (s.register a schema)).bind fun (x, s') =>
          .ok (s.freeName (naturalName a) schema,
            { s' with added := s'.added ++ [(s.freeName (naturalName a) schema, x)] }) := by
  rw [take, StateT.run_bind, StateT.run_get]
  change (match s.imported.lookup a with
    | some name => _
    | none => _ : Taking String).run s = _
  rw [h]
  simp only []
  cases schemaAt files a <;> rfl

theorem localForm?_gives {take : Address → Taking String}
    (h : ∀ a, Gives files T (take a) (T a = some ·)) (directory : Place) (current : Option Place)
    (ref : String) :
    Gives files T (localForm? files take directory current ref) fun o =>
      Settled files T directory current ref ∧ o = form files T directory current ref := by
  rw [localForm?]
  cases htarget : target? files directory current ref with
  | error e => exact .throw
  | ok o =>
    cases o with
    | none => exact .pure ⟨.inl htarget, by rw [form, htarget]⟩
    | some a =>
      refine (h a).bind fun name => .pure fun hname => ⟨.inr ⟨a, name, htarget, hname⟩, ?_⟩
      simp only [form, htarget, hname, Option.map_some]

/-- A schema whose references were replaced is added under the name that was given to it before. -/
theorem Grows.add {s' : State} {x : Json} (ha : s.imported.lookup a = none)
    (hschema : schemaAt files a = .ok schema) (h : Grows files T (s.register a schema) s')
    (hx : s'.Within T → x = relocate (form files T a.file.dropLast (some a.file)) schema ∧
      Covered (Settled files T a.file.dropLast (some a.file)) schema) :
    Grows files T s
      { s' with added := s'.added ++ [(s.freeName (naturalName a) schema, x)] } where
  valid hs := by
    have hs' := h.valid (hs.register ha)
    exact ⟨hs'.addresses, hs'.names, hs'.taken⟩
  shares own hs := by
    have hs' := h.shares own (hs.register hschema)
    exact ⟨hs'.taken, hs'.kept, hs'.same⟩
  adds := by
    obtain ⟨new, late, himported, hadded, hperm, hdone⟩ := h.adds
    refine ⟨new ++ [(a, s.freeName (naturalName a) schema)],
      late ++ [(s.freeName (naturalName a) schema, x)], ?_, ?_, ?_, fun hT i hi => ?_⟩
    · rw [himported, State.register, List.append_assoc, List.singleton_append]
    · rw [hadded, State.register, List.append_assoc]
    · rw [Entries.keys_append, List.map_append]
      exact hperm.append_right _
    · rcases List.mem_append.1 hi with hi | hi
      · exact (hdone hT i hi).mono (List.subset_append_left _ _)
      · obtain rfl := List.mem_singleton.1 hi
        obtain ⟨hx, hcovered⟩ := hx hT
        exact ⟨schema, hschema, hx ▸ List.mem_append_right _ (.head _), hcovered⟩

/-- **Taking a schema gives its name in the table.** -/
theorem take_gives (fuel : Nat) (a : Address) :
    Gives files T (take files fuel a) (T a = some ·) := by
  induction fuel generalizing a with
  | zero => rw [take]; exact .throw
  | succ fuel ih =>
    intro s name s' hrun
    cases ha : s.imported.lookup a with
    | some given =>
      rw [take_run_of_lookup ha] at hrun
      obtain ⟨rfl, rfl⟩ := Prod.mk.inj (Except.ok.inj hrun)
      exact ⟨.refl, fun hT => hT _ (mem_of_lookup_eq ha)⟩
    | none =>
      rw [take_run ha] at hrun
      cases hschema : schemaAt files a with
      | error e => rw [hschema] at hrun; cases hrun
      | ok schema =>
        rw [hschema, Except.bind] at hrun
        cases hrelink : (relink (localForm? files (take files fuel) a.file.dropLast (some a.file))
            schema).run (s.register a schema) with
        | error e => rw [hrelink] at hrun; cases hrun
        | ok r =>
          obtain ⟨x, s₁⟩ := r
          rw [hrelink] at hrun
          obtain ⟨rfl, rfl⟩ := Prod.mk.inj (Except.ok.inj hrun)
          obtain ⟨hgrows, hx⟩ := relink_gives (localForm?_gives ih _ _) schema _ _ _ hrelink
          have hgrown := hgrows.add ha hschema hx
          refine ⟨hgrown, fun hT => hT (a, _) ?_⟩
          obtain ⟨new, -, himported, -⟩ := hgrows.adds
          rw [himported]
          exact List.mem_append_right _ (.head _)

/-- What replacing references made of a value `j`, with all schemas taken that it needs, where the root
has schemas of its own: one schema was added for each name given, and each is complete. -/
structure Relinked (files : Files) (own : Entries Json) (directory : Place) (j j' : Json)
    (s : State) : Prop where
  valid : s.Valid
  shares : s.Shares files own
  perm : s.added.keys.Perm (s.imported.map Prod.snd)
  value : j' = relocate (form files s.table directory none) j
  covered : Covered (Settled files s.table directory none) j
  completed : ∀ i ∈ s.imported, Completed files s.table s.added i.1 i.2

section Relinked

variable {own : Entries Json} {directory : Place} {j j' : Json}

theorem Relinked.nodup (h : Relinked files own directory j j' s) : s.added.keys.Nodup :=
  h.perm.nodup_iff.2 h.valid.names

theorem Relinked.mem_keys (h : Relinked files own directory j j' s) (key : String) :
    key ∈ s.added.keys ↔ ∃ i ∈ s.imported, i.2 = key := by
  rw [h.perm.mem_iff, List.mem_map]

/-- **Replacing references relocates a value** and takes the schemas that it needs, if none was
taken before. -/
theorem relinked_of_run (h : (relink (localForm? files (take files fuel) directory none) j).run
    { taken := own } = .ok (j', s)) : Relinked files own directory j j' s := by
  obtain ⟨hgrows, hj⟩ := relink_gives (localForm?_gives (take_gives (T := s.table) fuel)
    directory none) j _ _ _ h
  have hvalid : s.Valid := hgrows.valid ⟨List.nodup_nil, List.nodup_nil, nofun⟩
  obtain ⟨hvalue, hcovered⟩ := hj hvalid.within
  obtain ⟨new, late, himported, hadded, hperm, hdone⟩ := hgrows.adds
  rw [List.append_nil] at himported
  rw [List.nil_append] at hadded
  rw [← himported, ← hadded] at hperm
  exact
    { valid := hvalid
      shares := hgrows.shares own ⟨fun _ => id, fun _ _ _ => id, nofun⟩
      perm := hperm
      value := hvalue
      covered := hcovered
      completed := fun i hi => hadded ▸ hdone hvalid.within i (himported ▸ hi) }

end Relinked

end Taking

end Bundle
end OpenApiClient
