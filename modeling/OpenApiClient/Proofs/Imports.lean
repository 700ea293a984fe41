/-
# What an import changes

An import changes the imports of a file and its scope, and nothing else. `Bindings.Adds ms b b'` says
that the bindings `b'` come from `b` by importing defaults of the modules `ms`, and named exports of
whatever modules: an import keeps the name that it has, there are no new imports of defaults but those
of `ms`, and the names of new imports are fresh. The relation composes (`Adds.trans`), so that a
computation that imports at many places is described by the list of the modules that it asks for.

`Bindings.Tidy b declared` says that the names of the imports and those declared in the file are
pairwise different and bound, and that none is a reserved word. Importing more keeps it so
(`Tidy.adds`), and so does declaring a fresh name (`Tidy.fresh`).
-/

import OpenApiClient.Module.Bindings
import OpenApiClient.Proofs.Entries
import OpenApiClient.Proofs.FreshName
import Mathlib.Data.List.Pairwise

namespace OpenApiClient
namespace Module

namespace ModuleImports

/-- The names by which the exports of a module are known. -/
def localNames (m : ModuleImports) : List String :=
  m.default.toList.map (·.2.localName) ++ m.named.map (·.2.localName)

end ModuleImports

namespace Imports

variable (i : Imports) (sp sp' id : String) (b : Binding)

/-- The local name of the default import of a module, if there is one. -/
def defaultName? : Option String := (i.default? sp).map (·.localName)

/-- The local name of a named import of a module, if there is one. -/
def namedName? : Option String := (i.named? sp id).map (·.localName)

/-- The names that imports bind. -/
def localNames : List String := i.modules.flatMap (·.2.localNames)

theorem ofModule_put (m : ModuleImports) :
    ofModule ⟨i.modules.put sp m⟩ sp' = if sp' = sp then m else i.ofModule sp' := by
  rw [ofModule, Entries.at?_put]
  split <;> rfl

@[simp] theorem defaultName?_putDefault :
    (i.putDefault sp id b).defaultName? sp' =
      if sp' = sp then some b.localName else i.defaultName? sp' := by
  rw [defaultName?, default?, putDefault, ofModule_put]
  split <;> rfl

@[simp] theorem defaultName?_putNamed :
    (i.putNamed sp id b).defaultName? sp' = i.defaultName? sp' := by
  rw [defaultName?, default?, putNamed, ofModule_put]
  split
  · next h => subst h; rfl
  · rfl

theorem namedName?_putDefault (id' : String) :
    (i.putDefault sp id b).namedName? sp' id' = i.namedName? sp' id' := by
  rw [namedName?, named?, putDefault, ofModule_put]
  split
  · next h => subst h; rfl
  · rfl

theorem namedName?_putNamed (id' : String) :
    (i.putNamed sp id b).namedName? sp' id' =
      if sp' = sp ∧ id' = id then some b.localName else i.namedName? sp' id' := by
  rw [namedName?, named?, putNamed, ofModule_put]
  by_cases hs : sp' = sp
  · subst hs
    by_cases hid : id' = id <;> simp [Entries.at?_put, hid, namedName?, named?]
  · simp [hs, namedName?, named?]

/-- What is imported from one module stands beside what is imported from the others. -/
theorem exists_perm_localNames (m : ModuleImports) :
    ∃ rest, i.localNames.Perm ((i.ofModule sp).localNames ++ rest) ∧
      (localNames ⟨i.modules.put sp m⟩).Perm (m.localNames ++ rest) := by
  obtain ⟨rest, h, h'⟩ := Entries.exists_perm_flatMap_put ModuleImports.localNames i.modules sp m
  refine ⟨rest, ?_, h'⟩
  cases hm : i.modules.at? sp <;> simpa [ofModule, hm, localNames, ModuleImports.localNames] using h

/-- Another use of a default import changes no name. -/
theorem localNames_putDefault_of_some {e : String × Binding} (h : (i.ofModule sp).default = some e)
    (isType : Bool) : (i.putDefault sp e.1 (e.2.used isType)).localNames.Perm i.localNames := by
  obtain ⟨rest, hold, hnew⟩ := i.exists_perm_localNames sp
    { i.ofModule sp with default := some (e.1, e.2.used isType) }
  refine hnew.trans (List.Perm.trans ?_ hold.symm)
  simp [ModuleImports.localNames, h, Binding.used]

/-- A new default import has one name more. -/
theorem localNames_putDefault_of_none (h : (i.ofModule sp).default = none) :
    (i.putDefault sp id b).localNames.Perm (i.localNames ++ [b.localName]) := by
  obtain ⟨rest, hold, hnew⟩ := i.exists_perm_localNames sp
    { i.ofModule sp with default := some (id, b) }
  refine hnew.trans (.trans ?_ (hold.append_right [b.localName]).symm)
  have hlast := (List.perm_append_singleton b.localName
    ((i.ofModule sp).named.map (·.2.localName) ++ rest)).symm
  simpa [ModuleImports.localNames, h] using hlast

/-- Another use of a named import changes no name. -/
theorem localNames_putNamed_of_some {e : Binding} (h : i.named? sp id = some e) (isType : Bool) :
    (i.putNamed sp id (e.used isType)).localNames.Perm i.localNames := by
  obtain ⟨rest, hold, hnew⟩ := i.exists_perm_localNames sp
    { i.ofModule sp with named := (i.ofModule sp).named.put id (e.used isType) }
  refine hnew.trans (.trans (.append_right _ (.append_left _ ?_)) hold.symm)
  obtain ⟨others, h₁, h₂⟩ := Entries.exists_perm_flatMap_put (fun b : Binding => [b.localName])
    (i.ofModule sp).named id (e.used isType)
  rw [show (i.ofModule sp).named.at? id = some e from h] at h₁
  simp only [← List.map_eq_flatMap] at h₁ h₂
  exact h₂.trans h₁.symm

/-- A new named import has one name more. -/
theorem localNames_putNamed_of_none (h : i.named? sp id = none) :
    (i.putNamed sp id b).localNames.Perm (i.localNames ++ [b.localName]) := by
  obtain ⟨rest, hold, hnew⟩ := i.exists_perm_localNames sp
    { i.ofModule sp with named := (i.ofModule sp).named.put id b }
  refine hnew.trans (.trans ?_ (hold.append_right [b.localName]).symm)
  obtain ⟨others, h₁, h₂⟩ := Entries.exists_perm_flatMap_put (fun b : Binding => [b.localName])
    (i.ofModule sp).named id b
  rw [show (i.ofModule sp).named.at? id = none from h] at h₁
  simp only [← List.map_eq_flatMap] at h₁ h₂
  have hnamed := h₂.trans (.append_left [b.localName] h₁.symm)
  simp only [ModuleImports.localNames]
  refine (((hnamed.append_left _).trans List.perm_middle).append_right rest).trans ?_
  exact (List.perm_append_singleton _ _).symm

theorem defaultName?_eq_some {name : String} :
    i.defaultName? sp = some name ↔ ∃ e, (i.ofModule sp).default = some e ∧ e.2.localName = name := by
  rw [defaultName?, default?]
  cases (i.ofModule sp).default <;> simp

theorem defaultName?_eq_none :
    i.defaultName? sp = none ↔ (i.ofModule sp).default = none := by
  rw [defaultName?, default?]
  cases (i.ofModule sp).default <;> simp

variable {i sp sp' id} {name : String}

theorem exists_of_defaultName? (h : i.defaultName? sp = some name) :
    ∃ m, (sp, m) ∈ i.modules ∧ name ∈ m.default.toList.map (·.2.localName) := by
  obtain ⟨e, he, rfl⟩ := (i.defaultName?_eq_some sp).1 h
  unfold ofModule at he
  cases hm : i.modules.at? sp with
  | none => simp [hm] at he
  | some m =>
    rw [hm, Option.getD_some] at he
    exact ⟨m, Entries.mem_of_at? hm, by simp [he]⟩

theorem exists_of_namedName? (h : i.namedName? sp id = some name) :
    ∃ m, (sp, m) ∈ i.modules ∧ name ∈ m.named.map (·.2.localName) := by
  obtain ⟨b, hb, rfl⟩ := Option.map_eq_some_iff.1 h
  unfold named? ofModule at hb
  cases hm : i.modules.at? sp with
  | none => simp [hm] at hb
  | some m =>
    rw [hm, Option.getD_some] at hb
    exact ⟨m, Entries.mem_of_at? hm, List.mem_map.2 ⟨_, Entries.mem_of_at? hb, rfl⟩⟩

theorem mem_localNames_of_default (h : i.defaultName? sp = some name) : name ∈ i.localNames := by
  obtain ⟨m, hm, hname⟩ := exists_of_defaultName? h
  exact List.mem_flatMap.2 ⟨_, hm, List.mem_append_left _ hname⟩

theorem mem_localNames_of_named (h : i.namedName? sp id = some name) : name ∈ i.localNames := by
  obtain ⟨m, hm, hname⟩ := exists_of_namedName? h
  exact List.mem_flatMap.2 ⟨_, hm, List.mem_append_right _ hname⟩

/-- With different names, a name belongs to one entry. -/
theorem eq_of_mem_localNames (hn : i.localNames.Nodup) {e e' : String × ModuleImports}
    (he : e ∈ i.modules) (he' : e' ∈ i.modules) (h : name ∈ e.2.localNames)
    (h' : name ∈ e'.2.localNames) : e = e' := by
  by_contra hne
  have : Std.Symm (Function.onFun List.Disjoint fun e : String × ModuleImports => e.2.localNames) :=
    ⟨fun _ _ h _ hx hy => h hy hx⟩
  exact (List.nodup_flatMap.1 hn).2.forall he he' hne h h'

/-- **With different names, a name is the default of one module**, -/
theorem eq_of_defaultName? (hn : i.localNames.Nodup) (h : i.defaultName? sp = some name)
    (h' : i.defaultName? sp' = some name) : sp = sp' := by
  obtain ⟨m, hm, hname⟩ := exists_of_defaultName? h
  obtain ⟨m', hm', hname'⟩ := exists_of_defaultName? h'
  exact (Prod.mk.inj (eq_of_mem_localNames hn hm hm' (List.mem_append_left _ hname)
    (List.mem_append_left _ hname'))).1

/-- and then it is no named export. -/
theorem namedName?_ne_of_defaultName? (hn : i.localNames.Nodup) (h : i.defaultName? sp = some name) :
    i.namedName? sp' id ≠ some name := fun h' => by
  obtain ⟨m, hm, hname⟩ := exists_of_defaultName? h
  obtain ⟨m', hm', hname'⟩ := exists_of_namedName? h'
  have := eq_of_mem_localNames hn hm hm' (List.mem_append_left _ hname)
    (List.mem_append_right _ hname')
  obtain ⟨rfl, rfl⟩ := Prod.mk.inj this
  exact (List.nodup_append.1 ((List.nodup_flatMap.1 hn).1 _ hm)).2.2 _ hname _ hname' rfl

end Imports

namespace Bindings

/-- The bindings `b'` come from `b` by imports, of which those of defaults are of the modules `ms`. -/
structure Adds (ms : List String) (b b' : Bindings) : Prop where
  site : b'.site = b.site
  suffixing : b'.suffixing = b.suffixing
  exports : b'.exports = b.exports
  /-- The names of new imports are fresh, and bound. -/
  names : ∃ new, b.scope.Fresh new ∧ b'.scope.taken = b.scope.taken ++ new ∧
    b'.imports.localNames.Perm (b.imports.localNames ++ new)
  kept : ∀ sp name, b.imports.defaultName? sp = some name → b'.imports.defaultName? sp = some name
  keptNamed : ∀ sp id name,
    b.imports.namedName? sp id = some name → b'.imports.namedName? sp id = some name
  new : ∀ sp, b'.imports.defaultName? sp ≠ none →
    b.imports.defaultName? sp ≠ none ∨ ∃ m ∈ ms, b.site.specifier m = sp
  asked : ∀ m ∈ ms, b'.imports.defaultName? (b.site.specifier m) ≠ none

variable {b b' b'' : Bindings} {ms ns : List String}

theorem Adds.refl (b : Bindings) : Adds [] b b :=
  ⟨rfl, rfl, rfl, ⟨[], .nil _, by simp⟩, fun _ _ h => h, fun _ _ _ h => h, fun _ h => .inl h,
    by simp⟩

theorem Adds.keeps (h : Adds ms b b') {sp : String} (hs : b.imports.defaultName? sp ≠ none) :
    b'.imports.defaultName? sp ≠ none := by
  obtain ⟨name, hn⟩ := Option.ne_none_iff_exists'.1 hs
  simp [h.kept sp name hn]

theorem Adds.trans (h : Adds ms b b') (h' : Adds ns b' b'') : Adds (ms ++ ns) b b'' where
  site := h'.site.trans h.site
  suffixing := h'.suffixing.trans h.suffixing
  exports := h'.exports.trans h.exports
  names := by
    obtain ⟨new, hfresh, htaken, hperm⟩ := h.names
    obtain ⟨new', hfresh', htaken', hperm'⟩ := h'.names
    refine ⟨new ++ new', hfresh.append ?_, by simp [htaken', htaken], ?_⟩
    · rwa [← htaken]
    · simpa using hperm'.trans (hperm.append_right new')
  kept sp name hs := h'.kept sp name (h.kept sp name hs)
  keptNamed sp id name hs := h'.keptNamed sp id name (h.keptNamed sp id name hs)
  new sp hs := by
    rcases h'.new sp hs with hs | ⟨m, hm, hs⟩
    · rcases h.new sp hs with hs | ⟨m, hm, hs⟩
      · exact .inl hs
      · exact .inr ⟨m, List.mem_append_left _ hm, hs⟩
    · exact .inr ⟨m, List.mem_append_right _ hm, h.site ▸ hs⟩
  asked m hm := by
    rcases List.mem_append.1 hm with hm | hm
    · exact h'.keeps (h.asked m hm)
    · exact h.site ▸ h'.asked m hm

/-- The order in which modules are asked for, and how often, does not matter. -/
theorem Adds.congr (h : Adds ms b b') (hm : ∀ m, m ∈ ms ↔ m ∈ ns) : Adds ns b b' :=
  { h with
    new := fun sp hs => (h.new sp hs).imp_right fun ⟨m, hms, hs⟩ => ⟨m, (hm m).1 hms, hs⟩
    asked := fun m hms => h.asked m ((hm m).2 hms) }

theorem importDefault_of_some {module : String} {e : String × Binding}
    (h : (b.imports.ofModule (b.site.specifier module)).default = some e) (id : String)
    (isType : Bool) :
    b.importDefault module id isType = (e.2.localName,
      { b with imports := b.imports.putDefault (b.site.specifier module) e.1 (e.2.used isType) }) := by
  simp [importDefault, Imports.reuseDefault?, h]

theorem importDefault_of_none {module : String}
    (h : (b.imports.ofModule (b.site.specifier module)).default = none) (id : String)
    (isType : Bool) :
    b.importDefault module id isType = ((b.bindImport id).1,
      { b with
        scope := (b.bindImport id).2
        imports := b.imports.putDefault (b.site.specifier module) id
          ⟨(b.bindImport id).1, isType⟩ }) := by
  simp [importDefault, Imports.reuseDefault?, h]

/-- **The import of a default** gives the name that the module is known by afterwards. -/
theorem importDefault_spec (b : Bindings) (module id : String) (isType : Bool) :
    Adds [module] b (b.importDefault module id isType).2 ∧
      (b.importDefault module id isType).2.imports.defaultName? (b.site.specifier module) =
        some (b.importDefault module id isType).1 := by
  cases hd : (b.imports.ofModule (b.site.specifier module)).default with
  | some e =>
    have hn : b.imports.defaultName? (b.site.specifier module) = some e.2.localName :=
      (b.imports.defaultName?_eq_some _).2 ⟨e, hd, rfl⟩
    have he : ∀ sp, (b.imports.putDefault (b.site.specifier module) e.1
        (e.2.used isType)).defaultName? sp = b.imports.defaultName? sp := by
      intro sp
      rw [Imports.defaultName?_putDefault]
      split
      · next h => rw [h, hn]; rfl
      · rfl
    rw [importDefault_of_some hd]
    refine ⟨⟨rfl, rfl, rfl, ⟨[], .nil _, by simp, ?_⟩, fun sp name h => ?_, fun sp id name h => ?_,
      fun sp h => ?_, ?_⟩, ?_⟩
    · simpa using b.imports.localNames_putDefault_of_some _ hd isType
    · exact (he sp).trans h
    · exact (Imports.namedName?_putDefault ..).trans h
    · exact .inl (he sp ▸ h)
    · intro m hm
      obtain rfl := List.mem_singleton.1 hm
      simp [he, hn]
    · exact (he _).trans hn
  | none =>
    have hn := (b.imports.defaultName?_eq_none _).2 hd
    rw [importDefault_of_none hd]
    refine ⟨⟨rfl, rfl, rfl, ⟨_, b.scope.fresh_bind id _, rfl, ?_⟩, fun sp name h => ?_,
      fun sp id name h => ?_, fun sp h => ?_, ?_⟩, ?_⟩
    · exact b.imports.localNames_putDefault_of_none _ _ _ hd
    · rw [Imports.defaultName?_putDefault, if_neg, h]
      rintro rfl
      simp [hn] at h
    · exact (Imports.namedName?_putDefault ..).trans h
    · by_cases hs : sp = b.site.specifier module
      · exact .inr ⟨module, List.mem_singleton.2 rfl, hs.symm⟩
      · rw [Imports.defaultName?_putDefault, if_neg hs] at h
        exact .inl h
    · intro m hm
      obtain rfl := List.mem_singleton.1 hm
      simp
    · simp

theorem importNamed_of_some {module id : String} {e : Binding}
    (h : b.imports.named? (b.site.specifier module) id = some e) (isType : Bool) :
    b.importNamed module id isType = (e.localName,
      { b with imports := b.imports.putNamed (b.site.specifier module) id (e.used isType) }) := by
  simp [importNamed, Imports.reuseNamed?, h]

theorem importNamed_of_none {module id : String}
    (h : b.imports.named? (b.site.specifier module) id = none) (isType : Bool) :
    b.importNamed module id isType = ((b.bindImport id).1,
      { b with
        scope := (b.bindImport id).2
        imports := b.imports.putNamed (b.site.specifier module) id
          ⟨(b.bindImport id).1, isType⟩ }) := by
  simp [importNamed, Imports.reuseNamed?, h]

/-- **The import of a named export** gives the name that the export is known by afterwards, and leaves
the default imports alone. -/
theorem importNamed_spec (b : Bindings) (module id : String) (isType : Bool) :
    Adds [] b (b.importNamed module id isType).2 ∧
      (b.importNamed module id isType).2.imports.namedName? (b.site.specifier module) id =
        some (b.importNamed module id isType).1 := by
  cases hn : b.imports.named? (b.site.specifier module) id with
  | some e =>
    have hname : b.imports.namedName? (b.site.specifier module) id = some e.localName := by
      rw [Imports.namedName?, hn]
      rfl
    rw [importNamed_of_some hn]
    refine ⟨⟨rfl, rfl, rfl, ⟨[], .nil _, by simp, ?_⟩, fun sp name h => ?_, fun sp id' name h => ?_,
      fun sp h => ?_, by simp⟩, ?_⟩
    · simpa using b.imports.localNames_putNamed_of_some _ _ hn isType
    · exact (Imports.defaultName?_putNamed ..).trans h
    · rw [Imports.namedName?_putNamed]
      split
      · next hid => rw [← h, hid.1, hid.2, hname]; rfl
      · exact h
    · exact .inl (by simpa using h)
    · rw [Imports.namedName?_putNamed]
      simp [Binding.used]
  | none =>
    have hname : b.imports.namedName? (b.site.specifier module) id = none := by
      rw [Imports.namedName?, hn]
      rfl
    rw [importNamed_of_none hn]
    refine ⟨⟨rfl, rfl, rfl, ⟨_, b.scope.fresh_bind id _, rfl, ?_⟩, fun sp name h => ?_,
      fun sp id' name h => ?_, fun sp h => ?_, by simp⟩, ?_⟩
    · exact b.imports.localNames_putNamed_of_none _ _ _ hn
    · exact (Imports.defaultName?_putNamed ..).trans h
    · rw [Imports.namedName?_putNamed, if_neg, h]
      rintro ⟨rfl, rfl⟩
      simp [hname] at h
    · exact .inl (by simpa using h)
    · rw [Imports.namedName?_putNamed]
      simp

/-- What the bindings `b` know by a name, `b'` know by the same name. -/
structure Grows (b b' : Bindings) : Prop where
  site : b'.site = b.site
  kept : ∀ sp name, b.imports.defaultName? sp = some name → b'.imports.defaultName? sp = some name
  keptNamed : ∀ sp id name,
    b.imports.namedName? sp id = some name → b'.imports.namedName? sp id = some name

theorem Grows.refl (b : Bindings) : b.Grows b := ⟨rfl, fun _ _ h => h, fun _ _ _ h => h⟩

theorem Grows.trans (h : b.Grows b') (h' : b'.Grows b'') : b.Grows b'' :=
  ⟨h'.site.trans h.site, fun sp name hs => h'.kept sp name (h.kept sp name hs),
    fun sp id name hs => h'.keptNamed sp id name (h.keptNamed sp id name hs)⟩

/-- Only the site and the imports matter. -/
theorem Grows.congr {a a' : Bindings} (h : b.Grows b') (hs : a.site = b.site)
    (hi : a.imports = b.imports) (hs' : a'.site = b'.site) (hi' : a'.imports = b'.imports) :
    a.Grows a' :=
  ⟨hs'.trans (h.site.trans hs.symm), by rw [hi, hi']; exact h.kept, by rw [hi, hi']; exact h.keptNamed⟩

theorem Adds.grows (h : Adds ms b b') : b.Grows b' := ⟨h.site, h.kept, h.keptNamed⟩

/-- The names of imports and those declared in the file are pairwise different and bound, and none is
a reserved word. -/
structure Tidy (b : Bindings) (declared : List String) : Prop where
  apart : (b.imports.localNames ++ declared).Nodup
  bound : b.imports.localNames ++ declared ⊆ b.scope.taken
  unreserved : ∀ n ∈ b.imports.localNames ++ declared, TypeScript.isReserved n = false

namespace Tidy

variable {declared names : List String}

theorem ofFile (path extension : String) (suffixing : Suffixing) :
    (Bindings.ofFile path extension suffixing).Tidy [] :=
  ⟨.nil, List.nil_subset _, by simp [Bindings.ofFile, Imports.localNames]⟩

/-- Fewer names are tidy as well. -/
theorem sublist (h : b.Tidy declared) (hs : names.Sublist declared) : b.Tidy names where
  apart := h.apart.sublist (hs.append_left _)
  bound := List.Subset.trans (hs.append_left _).subset h.bound
  unreserved n hn := h.unreserved n ((hs.append_left _).subset hn)

/-- Names that are bound and not declared change nothing. -/
theorem bind (h : b.Tidy declared) (names : List String) :
    Tidy { b with scope := ⟨b.scope.taken ++ names⟩ } declared :=
  ⟨h.apart, List.subset_append_of_subset_left _ h.bound, h.unreserved⟩

/-- **Fresh names may be declared.** -/
theorem fresh (h : b.Tidy declared) (hn : b.scope.Fresh names) :
    Tidy { b with scope := ⟨b.scope.taken ++ names⟩ } (declared ++ names) where
  apart := by
    rw [← List.append_assoc]
    exact List.nodup_append.2 ⟨h.apart, hn.nodup, fun n hl m hm hnm =>
      hn.fresh m hm (hnm ▸ h.bound hl)⟩
  bound := by
    rw [← List.append_assoc]
    exact List.append_subset.2 ⟨List.subset_append_of_subset_left _ h.bound,
      List.subset_append_right _ _⟩
  unreserved := by
    rw [← List.append_assoc]
    exact List.forall_mem_append.2 ⟨h.unreserved, hn.unreserved⟩

/-- **More may be imported.** -/
theorem adds (h : b.Tidy declared) (ha : Adds ms b b') : b'.Tidy declared := by
  obtain ⟨new, hnew, htaken, hperm⟩ := ha.names
  -- The names at the top are those from before and the new ones, in another order.
  have hall : (b'.imports.localNames ++ declared).Perm
      (b.imports.localNames ++ (declared ++ new)) := by
    refine (hperm.append_right declared).trans ?_
    rw [List.append_assoc]
    exact List.perm_append_comm.append_left _
  have hfresh := h.fresh hnew
  refine ⟨hall.nodup_iff.2 hfresh.apart, fun n hn => ?_, fun n hn => ?_⟩
  · rw [htaken]
    exact hfresh.bound (hall.mem_iff.1 hn)
  · exact hfresh.unreserved n (hall.mem_iff.1 hn)

end Tidy

end Bindings
end Module
end OpenApiClient
