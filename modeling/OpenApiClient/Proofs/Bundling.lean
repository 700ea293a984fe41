/-
# What bundling keeps

A bundled document should unfold to what the files unfold to: in the files a reference that names no
file is read in its own file, and any other from the directory of that file (`sources`); in the
bundled document all of them are read in it (`within`).

Schemas that were taken keep what they unfold to, apart from references below the key of references,
which bundling leaves as they are (`keepsTaken_iff`). With them everything in the root is kept
except at the place of a schema whose name is shared: there the schema taken stands in place of the
one of the root. The two were equal as values, but references in them are read in different files.
So the root is kept exactly if schemas that share a name unfold to the same, and so do references
that are left as they are but lead out of the places of the root (`keepsRoot_iff`).
-/

import Mathlib
import OpenApiClient.Proofs.KnownFiles
import OpenApiClient.Proofs.Pointers
import OpenApiClient.Proofs.Taking
import OpenApiClient.Proofs.Valid

namespace OpenApiClient
namespace Bundle

open OpenApi

/-- References as files have them: one that names no file is read in the file that it is found in,
any other from the directory of that file. -/
def sources (files : Files) : Graph Place := fun file ref =>
  match target? files file.dropLast (some file) ref with
  | .ok (some a) => match schemaAt files a with
    | .ok x => some (a.file, x)
    | .error _ => none
  | _ => none

/-- References as one document has them, all of which are read in it. -/
def within (document : Json) : Graph Unit := fun _ ref =>
  ((localPointer? ref).bind (pointee? document)).map ((), ·)

/-- A run of bundling that gives a result. -/
structure Bundling (files : Files) (path : String) (r : Result) where
  root : Place
  /-- The document of the file. -/
  document : Json
  /-- The document with its references replaced. -/
  linked : Json
  state : State
  canonical : files.canonical path = .ok root
  read : readFile files root = .ok document
  linking : (relink (localForm? files (take files (referenceCount files + 1)) root.dropLast none)
    document).run { taken := ownSchemas document } = .ok (linked, state)
  result : (if state.added.isEmpty then .ok ⟨linked, []⟩
    else (withSchemas linked state.added).map (⟨·, state.added.keys⟩)) = Except.ok r

section Targets

variable {files : Files} {directory file : Place} {ref : String} {a : Address}

/-- A reference found in a file other than the root leads somewhere, if only in that file. -/
theorem target?_ne_none : target? files directory (some file) ref ≠ .ok none := by
  rw [target?]
  dsimp only
  split
  · exact nofun
  · cases files.canonical _ <;> exact nofun

/-- Where a reference leads that names a file does not depend on the file that it is found in. -/
theorem target?_of_some (h : target? files directory none ref = .ok (some a)) :
    target? files directory (some file) ref = .ok (some a) := by
  rw [target?] at h ⊢
  dsimp only at h ⊢
  split at h
  · cases h
  · next hlocal => rw [if_neg hlocal, h]

/-- A reference that names no file is read in the file that it is found in. -/
theorem target?_of_localPointer? {pointer : String} (h : localPointer? ref = some pointer) :
    target? files directory (some file) ref = .ok (some ⟨file, pointer⟩) := by
  rw [localPointer?] at h
  rw [target?]
  split at h
  · next start pointer' hcut =>
    have hne : ref ≠ "" := by
      rintro rfl
      cases hcut
    split at h
    · next hstart =>
      obtain rfl := Option.some.inj h
      simp [hcut, hstart, hne]
    · cases h
  · cases h

end Targets

theorem exists_bundling {files : Files} {path : String} {r : Result}
    (h : ofFile files path = .ok r) : Nonempty (Bundling files path r) := by
  cases hroot : files.canonical path with
  | error e => rw [ofFile, hroot] at h; cases h
  | ok root =>
    cases hread : readFile files root with
    | error e =>
      rw [ofFile, hroot] at h
      change (readFile files root).bind _ = _ at h
      rw [hread] at h
      cases h
    | ok document =>
      rw [ofFile_eq hroot hread] at h
      cases hlink : (relink (localForm? files (take files (referenceCount files + 1)) root.dropLast
          none) document).run { taken := ownSchemas document } with
      | error e => rw [hlink] at h; cases h
      | ok run =>
        rw [hlink] at h
        exact ⟨⟨root, document, run.1, run.2, hroot, hread, hlink, h⟩⟩

/-- A reference unfolds to the same in a file and in the bundled document. -/
def Alike (files : Files) (bundled : Json) (file : Place) (ref : String) : Prop :=
  ∀ n path, viewOf (sources files) n file ref path = viewOf (within bundled) n () ref path

/-- An object that schemas are written into, or that leads to it. -/
def IsContainer (names : List String) : Prop := names <+: ["components", "schemas"]

namespace Bundling

variable {files : Files} {path : String} {r : Result} (b : Bundling files path r)

/-- A place that a schema was taken to, or one below. -/
def IsTaken (names : List String) : Prop := ∃ i ∈ b.state.imported, schemaPlace i.2 <+: names

/-- Every place of the root unfolds to the same as before, apart from the containers. -/
def KeepsRoot : Prop :=
  ∀ names x, ¬ IsContainer names → place? b.document names = some x →
    ∃ y, locate? r.document names = some y ∧
      Agree (sources files) b.root x (within r.document) () y

/-- Every schema that was taken unfolds to the same as in its file. -/
def KeepsTaken : Prop :=
  ∀ i ∈ b.state.imported, ∃ x y, schemaAt files i.1 = .ok x ∧
    locate? r.document (schemaPlace i.2) = some y ∧
      Agree (sources files) i.1.file x (within r.document) () y

/-- A schema that was taken under the name of one of the root unfolds to the same. -/
def SharesAlike : Prop :=
  ∀ i ∈ b.state.imported, ∀ own x, place? b.document (schemaPlace i.2) = some own →
    schemaAt files i.1 = .ok x → Agree (sources files) b.root own (sources files) i.1.file x

/-- References below the key of references are left as they are in schemas that were taken; they
unfold to the same. -/
def HidesAlike : Prop :=
  ∀ i ∈ b.state.imported, ∀ schema names x p, schemaAt files i.1 = .ok schema → "$ref" ∈ names →
    place? schema names = some x → reference? x = some p → Alike files r.document i.1.file p

/-- A reference that leads to a place of the root other than a container. -/
def LeadsInside (ref : String) : Prop :=
  ∃ names, localNames? ref = some names ∧ ¬ IsContainer names ∧
    (place? b.document names).isSome

/-- References that are left as they are in the root, and do not lead to a place of it, unfold to
the same. -/
def LeavesAlike : Prop :=
  ∀ names x p, ¬ IsContainer names → ¬ b.IsTaken names → place? b.document names = some x →
    reference? x = some p → "$ref" ∈ names ∨ target? files b.root.dropLast none p = .ok none →
      ¬ b.LeadsInside p → Alike files r.document b.root p

/-- What becomes of references found in a file. -/
def formIn (file : Place) : String → Option String :=
  form files b.state.table file.dropLast (some file)

/-- What becomes of references found in the root. -/
def rootForm : String → Option String :=
  form files b.state.table b.root.dropLast none

/-- Every schema that was taken looks as in its file where `n` references are followed. -/
def TakenLooks (n : Nat) : Prop :=
  ∀ i ∈ b.state.imported, ∀ schema, schemaAt files i.1 = .ok schema → ∀ path,
    view (sources files) n i.1.file schema path =
      view (within r.document) n () (relocate (b.formIn i.1.file) schema) path

/-- Every place of the root looks as before where `n` references are followed. -/
def RootLooks (n : Nat) : Prop :=
  ∀ names x, ¬ IsContainer names → place? b.document names = some x →
    ∃ y, locate? r.document names = some y ∧ ∀ path,
      view (sources files) n b.root x path = view (within r.document) n () y path

variable {b} {names rest : List String} {x : Json} {i : Address × String}

theorem relinked : Relinked files (ownSchemas b.document) b.root.dropLast b.document b.linked
    b.state :=
  relinked_of_run b.linking

/-- The document is as it was linked, or has the schemas written into it. -/
theorem document_eq : b.state.added = [] ∧ r.document = b.linked ∨
    withSchemas b.linked b.state.added = .ok r.document := by
  have h := b.result
  split at h
  · next hempty =>
    exact .inl ⟨List.isEmpty_iff.1 hempty, congrArg Result.document (Except.ok.inj h).symm⟩
  · cases hw : withSchemas b.linked b.state.added with
    | error e => rw [hw] at h; cases h
    | ok j =>
      rw [hw] at h
      exact .inr (congrArg (Except.ok ∘ Result.document) (Except.ok.inj h))

section Schemas

variable {schema : Json}

theorem exists_schema (hi : i ∈ b.state.imported) : ∃ schema, schemaAt files i.1 = .ok schema := by
  obtain ⟨schema, hs, -⟩ := b.relinked.completed i hi
  exact ⟨schema, hs⟩

/-- A schema that was taken stands at its place, relocated. -/
theorem locate?_taken (hi : i ∈ b.state.imported) (hs : schemaAt files i.1 = .ok schema) :
    locate? r.document (schemaPlace i.2) = some (relocate (b.formIn i.1.file) schema) := by
  obtain ⟨schema', hs', hmem, -⟩ := b.relinked.completed i hi
  obtain rfl : schema = schema' := Except.ok.inj (hs.symm.trans hs')
  rcases b.document_eq with ⟨hempty, -⟩ | hw
  · rw [hempty] at hmem
    cases hmem
  · exact locate?_withSchemas_of_mem b.relinked.nodup hw hmem

theorem covered_taken (hi : i ∈ b.state.imported) (hs : schemaAt files i.1 = .ok schema) :
    Covered (Settled files b.state.table i.1.file.dropLast (some i.1.file)) schema := by
  obtain ⟨schema', hs', -, hcovered⟩ := b.relinked.completed i hi
  obtain rfl : schema = schema' := Except.ok.inj (hs.symm.trans hs')
  exact hcovered

end Schemas

/-- A place of the root stays, relocated, unless it is a container or a schema was taken to it. -/
theorem locate?_root (hc : ¬ IsContainer names) (ht : ¬ b.IsTaken names)
    (hx : place? b.document names = some x) :
    locate? r.document names = some (copyOf b.rootForm names x) := by
  have hlinked : locate? b.linked names = some (copyOf b.rootForm names x) := by
    refine locate?_of_place? ?_
    rw [b.relinked.value, place?_relocate, hx, Option.map_some]
    rfl
  rcases b.document_eq with ⟨-, hdoc⟩ | hw
  · rw [hdoc, hlinked]
  · rw [locate?_withSchemas b.relinked.nodup hw hc fun key hkey hp => ?_, hlinked]
    obtain ⟨i, hi, rfl⟩ := (b.relinked.mem_keys key).1 hkey
    exact ht ⟨i, hi, hp⟩

section References

variable {file : Place} {p : String} {a : Address} {schema : Json} {n : Nat} {path' : List String}

theorem viewOf_sources (ht : target? files file.dropLast (some file) p = .ok (some a))
    (hs : schemaAt files a = .ok schema) :
    viewOf (sources files) n file p path' = view (sources files) n a.file schema path' := by
  simp only [viewOf, sources, ht, hs]

theorem within_eq (document : Json) :
    within document () p = ((localNames? p).bind (locate? document)).map ((), ·) := by
  rw [within, localNames?, Option.bind_assoc]
  exact congrArg (fun f => ((localPointer? p).bind f).map _) (funext (pointee?_eq document))

theorem viewOf_within {document y : Json} (hn : localNames? p = some names)
    (hy : locate? document names = some y) :
    viewOf (within document) n () p path' = view (within document) n () y path' := by
  have hw : within document () p = some ((), y) := by
    rw [within_eq, hn, Option.bind_some, hy, Option.map_some]
  simp only [viewOf, hw]

/-- A reference to a schema that was taken, and the one that it becomes, are alike as far as the
schema and what it became are. -/
theorem viewOf_taken (hlooks : b.TakenLooks n)
    (ht : target? files file.dropLast (some file) p = .ok (some a)) {name : String}
    (ha : b.state.table a = some name) :
    viewOf (within r.document) n () (pointerTo .schemas name) path' =
      viewOf (sources files) n file p path' := by
  have hi := mem_of_lookup_eq ha
  obtain ⟨schema, hs⟩ := b.exists_schema hi
  rw [viewOf_sources ht hs, viewOf_within (localNames?_pointerTo name) (b.locate?_taken hi hs)]
  exact (hlooks _ hi schema hs path').symm

end References

section Taken

/-- **A schema that was taken looks as in its file**, however many references are followed. -/
theorem takenLooks (hh : b.HidesAlike) (n : Nat) : b.TakenLooks n := by
  induction n with
  | zero =>
    intro i hi schema hs path
    rw [view, view, observe_relocate fun _ _ _ _ _ _ => rfl]
  | succ n ih =>
    intro i hi schema hs path
    rw [view_succ, view_succ]
    refine (observe_relocate fun names x p path hx hp => ?_).symm
    by_cases hn : "$ref" ∈ names
    · rw [if_pos hn]
      exact (hh i hi schema names x p hs hn hx hp n path).symm
    · rw [if_neg hn]
      rcases b.covered_taken hi hs names x p hn (locate?_of_place? hx) hp with
        hnone | ⟨a, name, ht, ha⟩
      · exact absurd hnone target?_ne_none
      · have hform : b.formIn i.1.file p = some (pointerTo .schemas name) := by
          simp only [formIn, form, ht, ha, Option.map_some]
        rw [hform, Option.getD_some]
        exact viewOf_taken ih ht ha

end Taken

section Root

variable {p : String} {n : Nat}

theorem not_isContainer_schemaPlace (name : String) : ¬ IsContainer (schemaPlace name) := by
  intro h
  have := h.length_le
  simp [schemaPlace] at this

theorem not_isContainer_append (hc : ¬ IsContainer names) : ¬ IsContainer (names ++ rest) :=
  fun h => hc ((List.prefix_append names rest).trans h)

theorem not_isTaken_append (hc : ¬ IsContainer names) (ht : ¬ b.IsTaken names) :
    ¬ b.IsTaken (names ++ rest) := by
  rintro ⟨i, hi, h⟩
  rcases List.prefix_or_prefix_of_prefix (List.prefix_append names rest) h with h | h
  · rcases List.prefix_concat_iff.1 (show names <+: ["components", "schemas"] ++ [i.2] from h)
      with h | h
    · exact ht ⟨i, hi, h ▸ List.prefix_rfl⟩
    · exact hc h
  · exact ht ⟨i, hi, h⟩

/-- Where a schema was taken to the place of one of the root, the root is kept if they are alike. -/
theorem keeps_isTaken (hh : b.HidesAlike) (hs : b.SharesAlike) (ht : b.IsTaken names)
    (hx : place? b.document names = some x) : ∃ y, locate? r.document names = some y ∧
      Agree (sources files) b.root x (within r.document) () y := by
  obtain ⟨i, hi, rest, rfl⟩ := ht
  rw [place?_append] at hx
  obtain ⟨own, hown, hx⟩ := Option.bind_eq_some_iff.1 hx
  obtain ⟨schema, hschema⟩ := b.exists_schema hi
  have hagree : Agree (sources files) b.root own (within r.document) ()
      (relocate (b.formIn i.1.file) schema) := by
    intro n path
    rw [hs i hi own schema hown hschema n path, b.takenLooks hh n i hi schema hschema path]
  obtain ⟨y, hy, hxy⟩ := hagree.place? hx
  refine ⟨y, ?_, hxy⟩
  rw [locate?_append, b.locate?_taken hi hschema, Option.bind_some, locate?_of_place? hy]

/-- A reference that leads to a place of the root is alike as far as the root is. -/
theorem viewOf_inside (hin : b.LeadsInside p) (hlooks : b.RootLooks n) (path : List String) :
    viewOf (within r.document) n () p path = viewOf (sources files) n b.root p path := by
  obtain ⟨names, hnames, hc, hsome⟩ := hin
  obtain ⟨x, hx⟩ := Option.isSome_iff_exists.1 hsome
  obtain ⟨pointer, hpointer, hn⟩ := Option.bind_eq_some_iff.1 hnames
  obtain ⟨y, hy, hxy⟩ := hlooks names x hc hx
  have hat : schemaAt files ⟨b.root, pointer⟩ = .ok x := by
    rw [schemaAt, b.read, Except.bind, pointee?_eq, hn, Option.bind_some, locate?_of_place? hx]
  rw [viewOf_sources (target?_of_localPointer? hpointer) hat, viewOf_within hnames hy]
  exact (hxy path).symm

/-- A reference of the root and what becomes of it are alike as far as the root and the schemas
taken are. -/
theorem viewOf_root (htaken : b.TakenLooks n) (hroot : b.RootLooks n) (hl : b.LeavesAlike)
    (hc : ¬ IsContainer names) (ht : ¬ b.IsTaken names) (hx : place? b.document names = some x)
    (hp : reference? x = some p) (path : List String) :
    viewOf (within r.document) n () (if "$ref" ∈ names then p else (b.rootForm p).getD p) path =
      viewOf (sources files) n b.root p path := by
  have hstays : "$ref" ∈ names ∨ target? files b.root.dropLast none p = .ok none →
      viewOf (within r.document) n () p path = viewOf (sources files) n b.root p path := by
    intro hleft
    by_cases hin : b.LeadsInside p
    · exact viewOf_inside hin hroot path
    · exact (hl names x p hc ht hx hp hleft hin n path).symm
  by_cases hn : "$ref" ∈ names
  · rw [if_pos hn]
    exact hstays (.inl hn)
  · rw [if_neg hn]
    rcases b.relinked.covered names x p hn (locate?_of_place? hx) hp with
      hnone | ⟨a, name, htarget, ha⟩
    · have hform : b.rootForm p = none := by simp only [rootForm, form, hnone]
      rw [hform, Option.getD_none]
      exact hstays (.inr hnone)
    · have hform : b.rootForm p = some (pointerTo .schemas name) := by
        simp only [rootForm, form, htarget, ha, Option.map_some]
      rw [hform, Option.getD_some]
      exact viewOf_taken htaken (target?_of_some htarget) ha

/-- **A place of the root looks as before**, however many references are followed. -/
theorem rootLooks (hh : b.HidesAlike) (hs : b.SharesAlike) (hl : b.LeavesAlike) (n : Nat) :
    b.RootLooks n := by
  induction n with
  | zero =>
    intro names x hc hx
    by_cases ht : b.IsTaken names
    · obtain ⟨y, hy, hxy⟩ := keeps_isTaken hh hs ht hx
      exact ⟨y, hy, hxy 0⟩
    · refine ⟨_, b.locate?_root hc ht hx, fun path => ?_⟩
      rw [view, view, observe_copyOf fun _ _ _ _ _ _ => rfl]
  | succ n ih =>
    intro names x hc hx
    by_cases ht : b.IsTaken names
    · obtain ⟨y, hy, hxy⟩ := keeps_isTaken hh hs ht hx
      exact ⟨y, hy, hxy (n + 1)⟩
    · refine ⟨_, b.locate?_root hc ht hx, fun path => ?_⟩
      rw [view_succ, view_succ]
      refine (observe_copyOf fun rest y p path hy hp => ?_).symm
      have hplace : place? b.document (names ++ rest) = some y := by
        rw [place?_append, hx, Option.bind_some, hy]
      exact viewOf_root (b.takenLooks hh n) ih hl (not_isContainer_append hc)
        (not_isTaken_append hc ht) hplace hp path

end Root

section Keeping

/-- **Taking keeps schemas** exactly if references that are left as they are in them are alike. -/
theorem keepsTaken_iff : b.KeepsTaken ↔ b.HidesAlike := by
  constructor
  · intro hk i hi schema names x p hschema hn hx hp n path
    obtain ⟨schema', y, hschema', hy, hagree⟩ := hk i hi
    obtain rfl : schema = schema' := Except.ok.inj (hschema.symm.trans hschema')
    obtain rfl := Option.some.inj ((b.locate?_taken hi hschema).symm.trans hy)
    have hcopy : place? (relocate (b.formIn i.1.file) schema) names = some x := by
      rw [place?_relocate, hx, Option.map_some, copyOf, if_pos hn]
    have := hagree (n + 1) (names ++ path)
    rwa [view_of_place? hx, view_of_place? hcopy, view_of_reference? hp,
      view_of_reference? hp] at this
  · intro hh i hi
    obtain ⟨schema, hschema⟩ := b.exists_schema hi
    exact ⟨schema, _, hschema, b.locate?_taken hi hschema, fun n path =>
      b.takenLooks hh n i hi schema hschema path⟩

/-- **The root is kept** exactly if schemas that share a name are alike, and references that are
left as they are. -/
theorem keepsRoot_iff (hh : b.HidesAlike) : b.KeepsRoot ↔ b.SharesAlike ∧ b.LeavesAlike := by
  constructor
  · refine fun hk => ⟨?_, ?_⟩
    · intro i hi own schema hown hschema n path
      obtain ⟨y, hy, hagree⟩ := hk _ own (not_isContainer_schemaPlace i.2) hown
      obtain rfl := Option.some.inj ((b.locate?_taken hi hschema).symm.trans hy)
      rw [hagree n path, b.takenLooks hh n i hi schema hschema path]
    · intro names x p hc ht hx hp hleft _ n path
      obtain ⟨y, hy, hagree⟩ := hk names x hc hx
      obtain rfl := Option.some.inj ((b.locate?_root hc ht hx).symm.trans hy)
      have hp' : reference? (copyOf b.rootForm names x) = some p := by
        rw [copyOf]
        split
        · exact hp
        · next hn =>
          have hform : b.rootForm p = none := by
            simp only [rootForm, form, hleft.resolve_left hn]
          rw [reference?_relocate, hp, Option.map_some, hform, Option.getD_none]
      rw [← view_of_reference? hp, ← view_of_reference? hp']
      exact hagree (n + 1) path
  · rintro ⟨hs, hl⟩ names x hc hx
    obtain ⟨y, hy, -⟩ := rootLooks hh hs hl 0 names x hc hx
    refine ⟨y, hy, fun n path => ?_⟩
    obtain ⟨y', hy', hxy⟩ := rootLooks hh hs hl n names x hc hx
    obtain rfl : y = y' := Option.some.inj (hy.symm.trans hy')
    exact hxy path

end Keeping

end Bundling

/-- **What bundling keeps**: schemas that were taken unfold to the same as in their files exactly if
references below the key of references do. If so, the places of the root unfold to the same exactly
if schemas of the root do whose names were shared, and references that are left as they are but lead
out of these places. -/
theorem ofFile_keeps_iff {files : Files} {path : String} {r : Result}
    (h : ofFile files path = .ok r) : ∃ b : Bundling files path r,
      (b.KeepsTaken ↔ b.HidesAlike) ∧
        (b.HidesAlike → (b.KeepsRoot ↔ b.SharesAlike ∧ b.LeavesAlike)) := by
  obtain ⟨b⟩ := exists_bundling h
  exact ⟨b, b.keepsTaken_iff, b.keepsRoot_iff⟩

/-- The root of a bundling and its document, if they are known. -/
theorem Bundling.eq_of_read {files : Files} {path : String} {r : Result}
    (b : Bundling files path r) {root : Place} {document : Json}
    (hcanonical : files.canonical path = .ok root) (hread : readFile files root = .ok document) :
    b.root = root ∧ b.document = document := by
  obtain rfl : b.root = root := Except.ok.inj (b.canonical.symm.trans hcanonical)
  exact ⟨rfl, Except.ok.inj (b.read.symm.trans hread)⟩

/-- The run of a bundling, if the values of the files are known. -/
theorem Bundling.linkFrom_eq {files : Files} {path : String} {r : Result}
    (b : Bundling files path r) {documents : List (Place × Json)} {root : Place} {document : Json}
    (h : Holds files.contents documents) (hcanonical : files.canonical path = .ok root)
    (hroot : documents.lookup root = some document) :
    linkFrom files documents root document = .ok (b.linked, b.state) := by
  obtain ⟨rfl, rfl⟩ := b.eq_of_read hcanonical (h.readFile hroot)
  rw [h.linkFrom_eq, b.linking]

section Pair

variable {r : Result}

/-- A file that refers to another one. -/
def pair : Files := .ofEntries "/w" [
  ("api.json", "\x7b\"A\":\x7b\"$ref\":\"x.json\"\x7d\x7d"),
  ("x.json", "\x7b\"type\":\"string\"\x7d")]

/-- The value of the root. -/
def pairRoot : Json := .object [("A", .object [("$ref", .string "x.json")])]

/-- The values of the two files. -/
def pairDocuments : List (Place × Json) := [
  (["w", "api.json"], pairRoot), (["w", "x.json"], .object [("type", .string "string")])]

theorem holds_pair : Holds pair.contents pairDocuments :=
  .entry (by decide) (by decide) (parse_of_toList String.toList_ofList rfl) <|
    .entry (by decide) (by decide) (parse_of_toList String.toList_ofList rfl) .nil

theorem canonical_pair : pair.canonical "api.json" = .ok ["w", "api.json"] :=
  eq_ok_of_toOption (by decide)

/-- The schema of the other file is taken, and can be written into the root. -/
theorem linkFrom_pair : ∃ run, linkFrom pair pairDocuments ["w", "api.json"] pairRoot = .ok run ∧
    run.2.imported = [(⟨["w", "x.json"], ""⟩, "x")] ∧
      (withSchemas run.1 run.2.added).toOption.isSome := by
  have hrun : (linkFrom pair pairDocuments ["w", "api.json"] pairRoot).toOption.any (fun run =>
      decide (run.2.imported = [(⟨["w", "x.json"], ""⟩, "x")]) &&
        (withSchemas run.1 run.2.added).toOption.isSome) = true := by
    decide +kernel
  obtain ⟨run, hrun, htest⟩ := (Option.any_eq_true ..).1 hrun
  obtain ⟨himported, hwritten⟩ := Bool.and_eq_true_iff.1 htest
  exact ⟨run, eq_ok_of_toOption hrun, of_decide_eq_true himported, hwritten⟩

theorem pair_run (b : Bundling pair "api.json" r) : b.root = ["w", "api.json"] ∧
    b.document = pairRoot ∧ b.state.imported = [(⟨["w", "x.json"], ""⟩, "x")] := by
  obtain ⟨hroot, hdocument⟩ := b.eq_of_read canonical_pair (Holds.readFile holds_pair rfl)
  obtain ⟨run, hrun, himported, -⟩ := linkFrom_pair
  obtain rfl := Except.ok.inj (hrun.symm.trans (b.linkFrom_eq holds_pair canonical_pair rfl))
  exact ⟨hroot, hdocument, himported⟩

/-- In an object with one entry, a path goes through that entry. -/
theorem place?_singleton {key : String} {x y : Json} {names : List String}
    (h : place? (.object [(key, x)]) names = some y) :
    names = [] ∨ ∃ rest, names = key :: rest ∧ place? x rest = some y := by
  cases names with
  | nil => exact .inl rfl
  | cons name rest =>
    obtain ⟨z, hz, hy⟩ := Option.bind_eq_some_iff.1 (place?_cons ▸ h)
    have hm := (step?_eq_some.1 hz).2
    rw [member?, Entries.at?_cons] at hm
    split at hm
    · next hname =>
      obtain rfl := Option.some.inj hm
      exact .inr ⟨rest, by rw [hname], hy⟩
    · cases hm

theorem pair_hidesAlike (b : Bundling pair "api.json" r) : b.HidesAlike := by
  have hschema : schemaAt pair ⟨["w", "x.json"], ""⟩ =
      .ok (.object [("type", .string "string")]) :=
    Holds.schemaAt holds_pair rfl rfl
  intro i hi schema names x p hs hn hx hp
  obtain rfl := List.mem_singleton.1 ((pair_run b).2.2 ▸ hi)
  obtain rfl := Except.ok.inj (hschema.symm.trans hs)
  rcases place?_singleton hx with rfl | ⟨rest, rfl, hrest⟩
  · cases hn
  · cases rest with
    | nil => obtain rfl := Option.some.inj hrest; cases hp
    | cons name rest => cases hrest

theorem pair_sharesAlike (b : Bundling pair "api.json" r) : b.SharesAlike := by
  intro i hi own x hown
  rw [(pair_run b).2.1] at hown
  rcases place?_singleton hown with h | ⟨rest, h, -⟩ <;> simp [schemaPlace] at h

theorem pair_leavesAlike (b : Bundling pair "api.json" r) : b.LeavesAlike := by
  have htarget : target? pair ["w"] none "x.json" = .ok (some ⟨["w", "x.json"], ""⟩) :=
    eq_ok_of_toOption (by decide)
  intro names x p hc ht hx hp hleft
  rw [(pair_run b).2.1] at hx
  rcases place?_singleton hx with rfl | ⟨rest, rfl, hrest⟩
  · exact absurd List.nil_prefix hc
  · cases rest with
    | nil =>
      obtain rfl := Option.some.inj hrest
      obtain rfl : "x.json" = p := Option.some.inj hp
      rw [(pair_run b).1] at hleft
      rcases hleft with h | h
      · simp at h
      · exact absurd (htarget.symm.trans h) nofun
    | cons name rest => cases hrest

/-- Bundling keeps the root of the pair and what it takes from the other file. -/
theorem ofFile_keeps_iff_pair : ∃ r, ofFile pair "api.json" = .ok r ∧
    ∃ b : Bundling pair "api.json" r, b.KeepsTaken ∧ b.KeepsRoot := by
  obtain ⟨r, hr⟩ : ∃ r, ofFile pair "api.json" = .ok r := by
    obtain ⟨run, hrun, -, hwritten⟩ := linkFrom_pair
    obtain ⟨document, hdocument⟩ := Option.isSome_iff_exists.1 hwritten
    rw [Holds.ofFile_eq holds_pair canonical_pair rfl, hrun, Except.bind,
      eq_ok_of_toOption hdocument]
    split
    · exact ⟨_, rfl⟩
    · exact ⟨_, rfl⟩
  obtain ⟨b, htaken, hroot⟩ := ofFile_keeps_iff hr
  exact ⟨r, hr, b, htaken.2 (pair_hidesAlike b),
    (hroot (pair_hidesAlike b)).2 ⟨pair_sharesAlike b, pair_leavesAlike b⟩⟩

end Pair

section Twins

/-- The text that is seen, if it is one. -/
def View.text? : View → Option String
  | .leaf (.string s) => some s
  | _ => none

/-- Two files with a schema each that read the same, but refer to schemas that do not. -/
def twins : Files := .ofEntries "/w" [
  ("api.json", "\x7b\"components\":\x7b\"schemas\":\x7b"
    ++ "\"A\":\x7b\"$ref\":\"x.json#/components/schemas/M\"\x7d,"
    ++ "\"M\":\x7b\"items\":\x7b\"$ref\":\"#/components/schemas/N\"\x7d\x7d,"
    ++ "\"N\":\x7b\"type\":\"string\"\x7d\x7d\x7d\x7d"),
  ("x.json", "\x7b\"components\":\x7b\"schemas\":\x7b"
    ++ "\"M\":\x7b\"items\":\x7b\"$ref\":\"#/components/schemas/N\"\x7d\x7d,"
    ++ "\"N\":\x7b\"type\":\"number\"\x7d\x7d\x7d\x7d")]

/-- The schema `M`, as both files have it. -/
def twin : Json := .object [("items", .object [("$ref", .string "#/components/schemas/N")])]

/-- The value of the root. -/
def twinsRoot : Json := .object [("components", .object [("schemas", .object [
  ("A", .object [("$ref", .string "x.json#/components/schemas/M")]), ("M", twin),
  ("N", .object [("type", .string "string")])])])]

/-- The values of the two files. -/
def twinsDocuments : List (Place × Json) := [
  (["w", "api.json"], twinsRoot),
  (["w", "x.json"], .object [("components", .object [("schemas", .object [
    ("M", twin), ("N", .object [("type", .string "number")])])])])]

theorem holds_twins : Holds twins.contents twinsDocuments :=
  .entry (by decide) (by decide) (parse_of_toList
      (by rw [String.toList_append, String.toList_append, String.toList_append]) (by cbv)) <|
    .entry (by decide) (by decide) (parse_of_toList
      (by rw [String.toList_append, String.toList_append]) (by cbv)) .nil

theorem canonical_twins : twins.canonical "api.json" = .ok ["w", "api.json"] :=
  eq_ok_of_toOption (by decide)

/-- In the files the items of the schema `M` of the root are strings. -/
theorem view_twins :
    view (sources twins) 1 ["w", "api.json"] twin ["items", "type"] = .leaf (.string "string") := by
  have hitems : place? twin ["items"] =
      some (.object [("$ref", .string "#/components/schemas/N")]) :=
    rfl
  have htarget : target? twins (List.dropLast ["w", "api.json"]) (some ["w", "api.json"])
      "#/components/schemas/N" = .ok (some ⟨["w", "api.json"], "/components/schemas/N"⟩) :=
    target?_of_localPointer? (by decide)
  have hschema : schemaAt twins ⟨["w", "api.json"], "/components/schemas/N"⟩ =
      .ok (.object [("type", .string "string")]) :=
    Holds.schemaAt holds_twins rfl rfl
  calc view (sources twins) 1 ["w", "api.json"] twin (["items"] ++ ["type"])
    _ = viewOf (sources twins) 0 ["w", "api.json"] "#/components/schemas/N" ["type"] := by
      rw [view_of_place? hitems, view_of_reference? rfl]
    _ = .leaf (.string "string") := Bundling.viewOf_sources htarget hschema

/-- The items of the schema `M` of the root are strings; in the bundled document they are numbers,
since the other `M` has taken its place. -/
theorem not_keepsRoot : ¬ ∀ files path r (b : Bundling files path r), b.KeepsRoot := by
  intro hkeep
  have hseen : ((ofFile twins "api.json").toOption.bind fun r =>
      (locate? r.document (schemaPlace "M")).bind fun y =>
        (view (within r.document) 1 () y ["items", "type"]).text?) = some "number" := by
    rw [Holds.ofFile_eq holds_twins canonical_twins rfl]
    decide +kernel
  obtain ⟨r, hr, hseen⟩ := Option.bind_eq_some_iff.1 hseen
  obtain ⟨y, hy, hseen⟩ := Option.bind_eq_some_iff.1 hseen
  obtain ⟨b⟩ := exists_bundling (eq_ok_of_toOption hr)
  obtain ⟨hroot, hdocument⟩ := b.eq_of_read canonical_twins (Holds.readFile holds_twins rfl)
  have hx : place? b.document (schemaPlace "M") = some twin := by
    rw [hdocument]
    rfl
  obtain ⟨y', hy', hagree⟩ :=
    hkeep twins "api.json" r b _ _ (Bundling.not_isContainer_schemaPlace "M") hx
  obtain rfl := Option.some.inj (hy.symm.trans hy')
  rw [← hagree 1 ["items", "type"], hroot, view_twins] at hseen
  exact absurd hseen (by decide)

end Twins

end Bundle
end OpenApiClient
