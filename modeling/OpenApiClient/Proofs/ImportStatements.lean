/-
# Import statements

What a file writes about its imports is a list of statements (`Imports.lines_eq`). A statement binds local
names to the default export of a module or to named ones, and each binding is of a type only if the statement
says so, or a mark at the binding.

Packages come before modules of the output, each group in listing order, and of one module the default export
first (`Imports.isListed_statements`). Since that order is total, the statements can be told from what each
specifier binds (`Imports.mem_statements`): imports that hold the same bindings are written alike, in
whatever order they were registered (`lines_eq_of_same`).
-/

import OpenApiClient.Proofs.Collation
import OpenApiClient.Proofs.ImportHistory

namespace OpenApiClient
namespace Module

open Text TypeScript

/-- A named export in an import statement. -/
structure ImportItem where
  imported : String
  localName : String
  /-- The item is marked as a type. -/
  marked : Bool
deriving DecidableEq, Repr

/-- An import statement, which may be of types only. -/
inductive ImportStatement where
  | default (typesOnly : Bool) (localName source : String)
  | named (typesOnly : Bool) (items : List ImportItem) (source : String)
deriving DecidableEq, Repr

/-- The item as it is written. -/
def ImportItem.text (i : ImportItem) : String :=
  (if i.marked then "type " else "") ++
    (if i.imported = i.localName then i.imported else i.imported ++ " as " ++ i.localName)

namespace ImportStatement

/-- The module that a statement imports from. -/
def source : ImportStatement → String
  | .default _ _ source => source
  | .named _ _ source => source

/-- Whether the statement imports a default export. -/
def isDefault : ImportStatement → Bool
  | .default .. => true
  | .named .. => false

/-- The start of a statement. -/
def keyword (typesOnly : Bool) : String := if typesOnly then "import type " else "import "

/-- The statement as it is written. -/
def text : ImportStatement → String
  | .default typesOnly localName source =>
    keyword typesOnly ++ localName ++ " from " ++ quote source ++ ";"
  | .named typesOnly items source =>
    keyword typesOnly ++ "\x7b " ++ ", ".intercalate (items.map ImportItem.text) ++ " \x7d from " ++
      quote source ++ ";"

/-- What the statement imports, each with the name that is bound to it. A binding is of a type only if the
statement is, or the item is marked. -/
def binds : ImportStatement → List (Subject × Binding)
  | .default typesOnly localName source => [(.default source, ⟨localName, typesOnly⟩)]
  | .named typesOnly items source =>
    items.map fun i => (.named source i.imported, ⟨i.localName, typesOnly || i.marked⟩)

/-- A statement has its place before another one: packages come before modules of the output, each group in
listing order, and of one module the default export before the named ones. -/
inductive Before (s t : ImportStatement) : Prop where
  | package : isRelative s.source = false → isRelative t.source = true → Before s t
  | listing : isRelative s.source = isRelative t.source → collate s.source t.source = .lt → Before s t
  | sameModule : s.source = t.source → s.isDefault = true → t.isDefault = false → Before s t

theorem before_of_compareSpecifiers {s t : ImportStatement}
    (h : Imports.compareSpecifiers s.source t.source = .lt) : s.Before t := by
  rcases Ordering.then_eq_lt.1 h with hgroup | ⟨hgroup, hlisting⟩
  · refine .package ?_ ?_ <;> revert hgroup <;>
      cases isRelative s.source <;> cases isRelative t.source <;> decide
  · refine .listing ?_ hlisting
    revert hgroup
    cases isRelative s.source <;> cases isRelative t.source <;> decide

/-- No two statements come each before the other. -/
theorem Before.asymm {s t : ImportStatement} (h : s.Before t) (h' : t.Before s) : False := by
  have hirrefl : ∀ a, collate a a ≠ .lt := fun a h => by
    rw [(isTotal_collate.eq_iff a a).2 rfl] at h
    cases h
  have hasymm : ∀ {a b}, collate a b = .lt → collate b a ≠ .lt := fun h => by
    rw [isTotal_collate.swap, h]
    decide
  cases h <;> cases h' <;> simp_all

end ImportStatement

section Statements

variable {m : ModuleImports} {i : Imports} {used : List String}

namespace ModuleImports

/-- The named imports in use, in listing order. -/
def namedIn (m : ModuleImports) (used : List String) : Entries Binding :=
  Entries.sortBy collate (m.named.filter (·.2.localName ∈ used))

/-- The statement for the default export, if it is in use. -/
def defaultStatement? (m : ModuleImports) (source : String) (used : List String) :
    Option ImportStatement :=
  (m.default.filter (·.2.localName ∈ used)).map fun (_, b) => .default b.isType b.localName source

/-- The statement for named imports: they are marked one by one unless all are types. -/
def namedStatement (source : String) (es : Entries Binding) : ImportStatement :=
  let allTypes := es.all (·.2.isType)
  .named allTypes (es.map fun (id, b) => ⟨id, b.localName, b.isType && !allTypes⟩) source

/-- The statement for the named exports in use, if there are any. -/
def namedStatement? (m : ModuleImports) (source : String) (used : List String) :
    Option ImportStatement :=
  if (m.namedIn used).isEmpty then none else some (namedStatement source (m.namedIn used))

/-- The statements for the exports in use. -/
def statements (m : ModuleImports) (source : String) (used : List String) : List ImportStatement :=
  (m.defaultStatement? source used).toList ++ (m.namedStatement? source used).toList

theorem text_namedStatement (source : String) (es : Entries Binding) :
    (namedStatement source es).text =
      (if es.all (·.2.isType) then "import type \x7b " else "import \x7b ") ++
        ", ".intercalate (es.map (item (es.all (·.2.isType)))) ++ " \x7d from " ++ quote source ++ ";" := by
  have hitems : (es.map fun (id, b) => (⟨id, b.localName, b.isType && !es.all (·.2.isType)⟩ : ImportItem)).map
      ImportItem.text = es.map (item (es.all (·.2.isType))) := by
    rw [List.map_map]
    rfl
  rw [namedStatement, ImportStatement.text, hitems, ImportStatement.keyword]
  cases es.all (·.2.isType) <;> rfl

/-- **What is written of a module are its statements.** -/
theorem lines_eq (m : ModuleImports) (source : String) (used : List String) :
    m.lines source used = (m.statements source used).map ImportStatement.text := by
  have hnamed : m.namedLine? (quote source) used =
      (m.namedStatement? source used).map ImportStatement.text := by
    rw [namedStatement?, apply_ite (Option.map _), Option.map_some, text_namedStatement]
    rfl
  rw [lines, statements, List.map_append, hnamed, defaultLine?, defaultStatement?]
  cases m.default.filter (·.2.localName ∈ used) <;> cases m.namedStatement? source used <;> rfl

theorem eq_of_namedStatement? {sp : String} {s : ImportStatement}
    (h : m.namedStatement? sp used = some s) : s = namedStatement sp (m.namedIn used) :=
  (Option.some.inj (Option.ite_none_left_eq_some.1 h).2).symm

/-- The statements of a module import from it. -/
theorem source_of_mem_statements {sp : String} {s : ImportStatement} (h : s ∈ m.statements sp used) :
    s.source = sp := by
  rcases List.mem_append.1 h with h | h
  · obtain ⟨e, -, rfl⟩ := Option.map_eq_some_iff.1 (Option.mem_toList.1 h)
    rfl
  · rw [eq_of_namedStatement? (Option.mem_toList.1 h)]
    rfl

/-- The default import is written first. -/
theorem isListed_statements (m : ModuleImports) (sp : String) (used : List String) :
    (m.statements sp used).Pairwise ImportStatement.Before := by
  refine List.pairwise_append.2 ⟨?_, ?_, fun s hs t ht => ?_⟩
  · cases m.defaultStatement? sp used <;> simp
  · cases m.namedStatement? sp used <;> simp
  · refine .sameModule ?_ ?_ ?_
    · rw [source_of_mem_statements (List.mem_append_left _ hs),
        source_of_mem_statements (List.mem_append_right _ ht)]
    · obtain ⟨e, -, rfl⟩ := Option.map_eq_some_iff.1 (Option.mem_toList.1 hs)
      rfl
    · rw [eq_of_namedStatement? (Option.mem_toList.1 ht)]
      rfl

/-- What is imported from the module `sp`, and what it is known by. -/
def bindings (m : ModuleImports) (sp : String) : List (Subject × Binding) :=
  (m.default.toList.map fun e => (.default sp, e.2)) ++ m.named.map fun e => (.named sp e.1, e.2)

theorem binds_namedStatement (sp : String) (es : Entries Binding) :
    (namedStatement sp es).binds = es.map fun e => (.named sp e.1, e.2) := by
  rw [namedStatement, ImportStatement.binds, List.map_map]
  refine List.map_congr_left fun ⟨id, localName, isType⟩ he => ?_
  have hall : es.all (·.2.isType) = true → isType = true := fun h => List.all_eq_true.1 h _ he
  cases h : es.all (·.2.isType) with
  | true => simp [hall h]
  | false => simp

/-- **The statements of a module bind what is in use.** -/
theorem binds_statements (m : ModuleImports) (sp : String) (used : List String) :
    ((m.statements sp used).flatMap ImportStatement.binds).Perm
      ((m.bindings sp).filter (·.2.localName ∈ used)) := by
  rw [statements, List.flatMap_append, bindings, List.filter_append]
  refine .append ?_ ?_
  · rw [defaultStatement?]
    cases m.default with
    | none => rfl
    | some e => by_cases he : e.2.localName ∈ used <;> simp [he, ImportStatement.binds, Option.filter]
  · have hnamed : (m.namedStatement? sp used).toList.flatMap ImportStatement.binds =
        (m.namedIn used).map fun e => (Subject.named sp e.1, e.2) := by
      rw [namedStatement?]
      split
      · next h => rw [List.isEmpty_iff.1 h]; rfl
      · rw [Option.toList_some, List.flatMap_singleton, binds_namedStatement]
    rw [hnamed, List.filter_map]
    exact (Entries.sortBy_perm _ _).map _

/-- Modules with the same named imports write the same of them, whatever order they came in. -/
theorem namedIn_congr {m' : ModuleImports} {used' : List String} (hm : m.named.keys.Nodup)
    (hm' : m'.named.keys.Nodup) (h : ∀ id, m.named.at? id = m'.named.at? id)
    (hused : ∀ n, n ∈ used ↔ n ∈ used') : m.namedIn used = m'.namedIn used' := by
  have hnodup : m.named.Nodup := hm.of_map _
  have hnodup' : m'.named.Nodup := hm'.of_map _
  have hperm : (m.named.filter (·.2.localName ∈ used)).Perm
      (m'.named.filter (·.2.localName ∈ used')) := by
    refine (List.perm_ext_iff_of_nodup (hnodup.filter _) (hnodup'.filter _)).2 fun e => ?_
    simp only [List.mem_filter, decide_eq_true_eq, hused]
    refine and_congr_left fun _ => ?_
    rw [← Entries.at?_eq_some_iff hm, ← Entries.at?_eq_some_iff hm', h]
  have hsorted : Entries.IsSorted collate (m.namedIn used) :=
    Entries.isSorted_sortBy (hm.sublist (List.filter_sublist.map _))
  have hsorted' : Entries.IsSorted collate (m'.namedIn used') :=
    Entries.isSorted_sortBy (hm'.sublist (List.filter_sublist.map _))
  refine Entries.eq_of_perm_of_isSorted ?_ hsorted hsorted'
  exact (Entries.sortBy_perm _ _).trans (hperm.trans (Entries.sortBy_perm _ _).symm)

/-- **The statements of a module depend only on what is imported from it.** -/
theorem statements_congr {m' : ModuleImports} {used' : List String} (sp : String)
    (hdefault : m.default.map (·.2) = m'.default.map (·.2))
    (hnamed : m.namedIn used = m'.namedIn used') (hused : ∀ n, n ∈ used ↔ n ∈ used') :
    m.statements sp used = m'.statements sp used' := by
  have hone : m.defaultStatement? sp used = m'.defaultStatement? sp used' := by
    unfold defaultStatement?
    cases hm : m.default <;> cases hm' : m'.default <;> simp_all [Option.filter]
  rw [statements, statements, hone, namedStatement?, namedStatement?, hnamed]

end ModuleImports

namespace Imports

/-- The statements for the local names in use. -/
def statements (i : Imports) (used : List String) : List ImportStatement :=
  (Entries.sortBy compareSpecifiers i.modules).flatMap fun e => e.2.statements e.1 used

/-- **What is written are the statements.** -/
theorem lines_eq (i : Imports) (used : List String) :
    i.lines used = (i.statements used).map ImportStatement.text := by
  rw [statements, List.map_flatMap]
  exact List.flatMap_congr fun e _ => e.2.lines_eq e.1 used

/-- What is imported, and what it is known by. -/
def bindings (i : Imports) : List (Subject × Binding) := i.modules.flatMap fun e => e.2.bindings e.1

/-- What something imported is known by. -/
def binding? (i : Imports) (s : Subject) : Option Binding := (i.entryOf? s).map (·.2)

theorem localNames_eq (i : Imports) : i.localNames = i.bindings.map (·.2.localName) := by
  rw [localNames, bindings, List.map_flatMap]
  refine List.flatMap_congr fun e _ => ?_
  simp [ModuleImports.localNames, ModuleImports.bindings, Function.comp_def]

/-- **The statements bind what is in use**, each once. -/
theorem binds_statements (i : Imports) (used : List String) :
    ((i.statements used).flatMap ImportStatement.binds).Perm
      (i.bindings.filter (·.2.localName ∈ used)) := by
  rw [statements, List.flatMap_assoc, bindings, List.filter_flatMap]
  exact (Entries.sortBy_perm _ _).flatMap fun e _ => e.2.binds_statements e.1 used

/-- No module has two entries, and no export of a module. -/
structure IsKeyed (i : Imports) : Prop where
  modules : i.modules.keys.Nodup
  named : ∀ e ∈ i.modules, e.2.named.keys.Nodup

namespace IsKeyed

theorem empty : IsKeyed {} := ⟨.nil, by simp⟩

theorem ofModule (h : i.IsKeyed) (sp : String) : (i.ofModule sp).named.keys.Nodup := by
  rw [Imports.ofModule]
  cases hm : i.modules.at? sp with
  | none => exact .nil
  | some m => exact h.named _ (Entries.mem_of_at? hm)

theorem put (h : i.IsKeyed) (sp : String) {m : ModuleImports} (hm : m.named.keys.Nodup) :
    IsKeyed ⟨i.modules.put sp m⟩ := by
  refine ⟨Entries.nodup_keys_put h.modules _ _, fun e he => ?_⟩
  rcases Entries.mem_put he with rfl | he
  · exact hm
  · exact h.named e he

theorem putDefault (h : i.IsKeyed) (sp id : String) (b : Binding) : (i.putDefault sp id b).IsKeyed :=
  h.put sp (h.ofModule sp)

theorem putNamed (h : i.IsKeyed) (sp id : String) (b : Binding) : (i.putNamed sp id b).IsKeyed :=
  h.put sp (Entries.nodup_keys_put (h.ofModule sp) _ _)

end IsKeyed

/-- What is imported from a module stands in its entry. -/
theorem mem_modules_of_ne {sp : String} (h : i.ofModule sp ≠ {}) : (sp, i.ofModule sp) ∈ i.modules :=
  Entries.mem_of_at? (at?_of_ofModule_ne h)

/-- **The statements are told from what each specifier binds.** -/
theorem mem_statements (h : i.IsKeyed) {s : ImportStatement} :
    s ∈ i.statements used ↔ ∃ sp, s ∈ (i.ofModule sp).statements sp used := by
  rw [statements, List.mem_flatMap]
  constructor
  · rintro ⟨e, he, hs⟩
    have hat := Entries.at?_of_mem h.modules ((Entries.sortBy_perm _ _).mem_iff.1 he)
    exact ⟨e.1, by rwa [ofModule, hat]⟩
  · rintro ⟨sp, hs⟩
    have hne : i.ofModule sp ≠ {} := fun hempty => by
      simp [hempty, ModuleImports.statements, ModuleImports.defaultStatement?,
        ModuleImports.namedStatement?, ModuleImports.namedIn, Entries.sortBy] at hs
    exact ⟨_, (Entries.sortBy_perm _ _).mem_iff.2 (mem_modules_of_ne hne), hs⟩

/-- **Each statement has its place before those that come after it.** -/
theorem isListed_statements (h : i.IsKeyed) (used : List String) :
    (i.statements used).Pairwise ImportStatement.Before := by
  have hsorted : Entries.IsSorted compareSpecifiers (Entries.sortBy compareSpecifiers i.modules) :=
    Entries.isSorted_sortBy h.modules
  refine List.pairwise_flatMap.2 ⟨fun e _ => e.2.isListed_statements e.1 used, ?_⟩
  refine hsorted.imp fun hlt s hs t ht => ImportStatement.before_of_compareSpecifiers ?_
  rwa [ModuleImports.source_of_mem_statements hs, ModuleImports.source_of_mem_statements ht]

/-- **Imports that bind the same are written alike.** -/
theorem statements_congr {i' : Imports} {used' : List String} (hi : i.IsKeyed) (hi' : i'.IsKeyed)
    (h : ∀ s, i.binding? s = i'.binding? s) (hused : ∀ n, n ∈ used ↔ n ∈ used') :
    i.statements used = i'.statements used' := by
  have hmodule : ∀ sp, (i.ofModule sp).statements sp used = (i'.ofModule sp).statements sp used' := by
    refine fun sp => ModuleImports.statements_congr sp (h (.default sp)) ?_ hused
    refine ModuleImports.namedIn_congr (hi.ofModule sp) (hi'.ofModule sp) (fun id => ?_) hused
    have hid := h (.named sp id)
    simpa [binding?, entryOf?, named?, Function.comp_def] using hid
  have hasymm : ∀ {s t : ImportStatement}, s.Before t → s ≠ t := fun hb heq =>
    hb.asymm (heq ▸ hb)
  have hsame : ∀ s, s ∈ i.statements used ↔ s ∈ i'.statements used' := fun s => by
    simp only [mem_statements hi, mem_statements hi', hmodule]
  have hlisted := isListed_statements hi used
  have hlisted' := isListed_statements hi' used'
  have hperm : (i.statements used).Perm (i'.statements used') :=
    (List.perm_ext_iff_of_nodup (hlisted.imp hasymm) (hlisted'.imp hasymm)).2 hsame
  exact hperm.eq_of_pairwise (fun _ _ _ _ hb hb' => (hb.asymm hb').elim) hlisted hlisted'

/-- What is told to the imports of a file: a new binding, or a further use of one that is there. -/
inductive Registration where
  | addDefault (specifier id : String) (b : Binding)
  | addNamed (specifier id : String) (b : Binding)
  | useDefault (specifier : String) (isType : Bool)
  | useNamed (specifier id : String) (isType : Bool)
deriving DecidableEq, Repr

/-- The imports after a registration. A use of what is not there changes nothing. -/
def register (i : Imports) : Registration → Imports
  | .addDefault sp id b => i.putDefault sp id b
  | .addNamed sp id b => i.putNamed sp id b
  | .useDefault sp isType => ((i.reuseDefault? sp isType).map (·.2)).getD i
  | .useNamed sp id isType => ((i.reuseNamed? sp id isType).map (·.2)).getD i

/-- The imports after registrations, one after another. -/
def ofRegistrations (rs : List Registration) : Imports := rs.foldl register {}

/-- A registration keeps one entry for each module and each export. -/
theorem IsKeyed.register (h : i.IsKeyed) (r : Registration) : (i.register r).IsKeyed := by
  cases r with
  | addDefault sp id b => exact h.putDefault sp id b
  | addNamed sp id b => exact h.putNamed sp id b
  | useDefault sp isType =>
    rw [Imports.register, reuseDefault?]
    cases (i.ofModule sp).default with
    | none => exact h
    | some e => exact h.putDefault sp e.1 _
  | useNamed sp id isType =>
    rw [Imports.register, reuseNamed?]
    cases i.named? sp id with
    | none => exact h
    | some b => exact h.putNamed sp id _

theorem isKeyed_ofRegistrations (rs : List Registration) : (ofRegistrations rs).IsKeyed := by
  induction rs using List.reverseRecOn with
  | nil => exact .empty
  | append_singleton rs r ih =>
    rw [ofRegistrations, List.foldl_append]
    exact ih.register r

/-- **What is written of imports does not depend on the order in which they were registered.** The
listing order and the order of specifiers are total, with equal names alone at one place. So imports
that hold the same bindings, after whatever registrations, are written alike for the same names in use:
as statements of which each has its place before those that come after it, the packages before the modules
of the output and the default import of a module before the named ones. -/
theorem lines_eq_of_same :
    IsTotal collate ∧ IsTotal compareSpecifiers ∧
    ∀ rs rs', (∀ s, (ofRegistrations rs).binding? s = (ofRegistrations rs').binding? s) →
      ∀ used used' : List String, (∀ n, n ∈ used ↔ n ∈ used') →
        ∃ statements : List ImportStatement, statements.Pairwise ImportStatement.Before ∧
          (ofRegistrations rs).lines used = statements.map ImportStatement.text ∧
          (ofRegistrations rs').lines used' = statements.map ImportStatement.text := by
  refine ⟨isTotal_collate, isTotal_compareSpecifiers, fun rs rs' h used used' hused => ?_⟩
  have hi := isKeyed_ofRegistrations rs
  have hi' := isKeyed_ofRegistrations rs'
  refine ⟨_, isListed_statements hi used, lines_eq _ _, ?_⟩
  rw [lines_eq, statements_congr hi hi' h hused]

/-- Two exports of a module of the output and one of a package, of which the client was asked for as a type
first. In the other order the package comes last, and the client is a value at once. -/
theorem lines_eq_of_same_reordered :
    let early : List Registration :=
      [.addNamed "@scope/frontend" "Init" ⟨"Init", true⟩, .addDefault "./client.js" "client" ⟨"client", true⟩,
        .useDefault "./client.js" false, .addNamed "./client.js" "Options" ⟨"Options_1", true⟩]
    let late : List Registration :=
      [.addNamed "./client.js" "Options" ⟨"Options_1", true⟩, .addDefault "./client.js" "api" ⟨"client", false⟩,
        .addNamed "@scope/frontend" "Init" ⟨"Init", true⟩]
    (∀ s, (ofRegistrations early).binding? s = (ofRegistrations late).binding? s) ∧
      (∀ n, n ∈ ["client", "Init", "Options_1"] ↔ n ∈ ["Options_1", "Init", "client", "Init"]) ∧
      ∃ statements : List ImportStatement, statements.Pairwise ImportStatement.Before ∧
        (ofRegistrations early).lines ["client", "Init", "Options_1"] =
          statements.map ImportStatement.text ∧
        (ofRegistrations late).lines ["Options_1", "Init", "client", "Init"] =
          statements.map ImportStatement.text := by
  intro early late
  have hsame : ∀ s, (ofRegistrations early).binding? s = (ofRegistrations late).binding? s := by
    intro s
    have hearly : ofRegistrations early =
        ((((({} : Imports).putNamed "@scope/frontend" "Init" ⟨"Init", true⟩).putDefault "./client.js"
          "client" ⟨"client", true⟩).putDefault "./client.js" "client" ⟨"client", false⟩).putNamed
          "./client.js" "Options" ⟨"Options_1", true⟩) := by decide +kernel
    rw [hearly]
    simp only [binding?, ofRegistrations, late, List.foldl, register, entryOf?_putDefault,
      entryOf?_putNamed]
    by_cases hdefault : s = .default "./client.js"
    · subst hdefault; rfl
    · by_cases hoptions : s = .named "./client.js" "Options"
      · subst hoptions; rfl
      · simp [hdefault, hoptions]
  have hused : ∀ n, n ∈ ["client", "Init", "Options_1"] ↔ n ∈ ["Options_1", "Init", "client", "Init"] := by
    intro n
    simp only [List.mem_cons, List.not_mem_nil, or_false]
    tauto
  exact ⟨hsame, hused, lines_eq_of_same.2.2 early late hsame _ _ hused⟩

end Imports
end Statements
end Module
end OpenApiClient
