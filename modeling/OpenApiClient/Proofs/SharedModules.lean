/-
# Modules that files share

A setting names a module once, and every file that needs it imports it with the specifier that it makes of
it. Two files agree on a module if their specifiers lead to one place, each from the directory of its own file
and wherever the output root lies (`File.Agree`).

A module below the output root is imported by the way to it, and the ways of all files lead to one place. Only
what is written after them may differ, when an extension with a slash in it is left out because the way
happens to end with it (`agree_rooted_iff`). The specifier of a module above is the same in all files, so it
leads to one place only from directories that differ in no more names than it goes up (`walk_eq_iff`).
`executeAll_agree_iff` says this of the files of a run, and `not_executeAll_agree` is a run whose files disagree
on the module of their client.
-/

import OpenApiClient.Proofs.Frames
import OpenApiClient.Proofs.ImportStatements
import OpenApiClient.Proofs.RelativePaths

namespace OpenApiClient
namespace Module

open Text

section Walking

/-- A way that goes up by a number of levels and then down along names, with one name more. -/
def climb : Nat × List String → String → Nat × List String
  | (up, down), name =>
    if name = "" ∨ name = "." then (up, down)
    else if name = ".." then if down = [] then (up + 1, []) else (up, down.dropLast)
    else (up, down ++ [name])

/-- The number of levels that a path goes up, and the names along which it goes down from there. -/
def wayOf (path : String) : Nat × List String := (pieces (· == '/') path).foldl climb (0, [])

theorem follow_climb (directory : List String) (way : Nat × List String) (name : String) :
    follow (directory.take (directory.length - way.1) ++ way.2) name =
      directory.take (directory.length - (climb way name).1) ++ (climb way name).2 := by
  obtain ⟨up, down⟩ := way
  rw [follow, climb]
  by_cases hstay : name = "" ∨ name = "."
  · simp [hstay]
  by_cases hup : name = ".."
  · rw [if_neg hstay, if_neg hstay, if_pos hup, if_pos hup]
    by_cases hdown : down = []
    · rw [if_pos hdown, hdown, List.append_nil, List.append_nil, List.dropLast_eq_take, List.take_take,
        List.length_take]
      congr 1
      dsimp only
      omega
    · rw [if_neg hdown, List.dropLast_append_of_ne_nil hdown]
  · rw [if_neg hstay, if_neg hstay, if_neg hup, if_neg hup, List.append_assoc]

/-- **Walking a path** leaves out as many names of the directory as the path goes up. -/
theorem walk_eq (directory : List String) (path : String) :
    walk directory path = directory.take (directory.length - (wayOf path).1) ++ (wayOf path).2 := by
  have hfold : ∀ (names : List String) (way : Nat × List String),
      names.foldl follow (directory.take (directory.length - way.1) ++ way.2) =
        directory.take (directory.length - (names.foldl climb way).1) ++ (names.foldl climb way).2 := by
    intro names
    induction names with
    | nil => exact fun _ => rfl
    | cons n names ih => exact fun way => by rw [List.foldl_cons, follow_climb, ih, List.foldl_cons]
  have hstart := hfold (pieces (· == '/') path) (0, [])
  rwa [Nat.sub_zero, List.take_length, List.append_nil] at hstart

/-- **A path leads to one place from two directories**, wherever they lie, exactly if these are equally deep
and have the same names but for as many at the end as the path goes up. -/
theorem walk_eq_iff (a b : List String) (path : String) :
    (∀ root, walk (root ++ a) path = walk (root ++ b) path) ↔
      a.length = b.length ∧
        a.take (a.length - (wayOf path).1) = b.take (b.length - (wayOf path).1) := by
  generalize hup : (wayOf path).1 = up
  have hwalk : ∀ root directory : List String, walk (root ++ directory) path =
      root.take (root.length + directory.length - up) ++
        directory.take (directory.length - up) ++ (wayOf path).2 := fun root directory => by
    rw [walk_eq, hup, List.length_append, List.take_append]
    congr 3
    omega
  simp only [hwalk, List.append_cancel_right_eq]
  constructor
  · intro h
    -- A root that the path does not leave shows how deep the directories are.
    have hroot := h (List.replicate up "")
    have hlength := congrArg List.length hroot
    simp only [List.length_append, List.length_take, List.length_replicate] at hlength
    have hdepth : a.length = b.length := by omega
    rw [hdepth] at hroot ⊢
    exact ⟨rfl, List.append_cancel_left hroot⟩
  · rintro ⟨hlength, htake⟩ root
    rw [hlength] at htake ⊢
    rw [htake]

end Walking

namespace Site

variable {s t : Site} {module : String}

/-- The specifier of a module, without extension. -/
def bare (s : Site) (module : String) : String := specifier ⟨s.directory, ""⟩ module

/-- The extension is written after the specifier of the module, which does not end with it. -/
def Appends (s : Site) (module : String) : Prop := endsWith s.extension (s.bare module) = false

instance (s : Site) (module : String) : Decidable (s.Appends module) :=
  inferInstanceAs (Decidable (_ = false))

/-- The names of the directories and of the file of a module below the output root. -/
theorem exists_target (hroot : startsWith "./" module = true) :
    ∃ names last, (∀ n ∈ names, '/' ∉ n.toList) ∧
      ∀ s : Site, s.specifier module = s.extended ("/".intercalate (s.way names last)) := by
  obtain ⟨rest, hrest⟩ := List.isPrefixOf_iff_prefix.1 hroot
  have hdrop : dropStart? "./" module = some (.ofList rest) := dropStart?_of_append hrest
  refine ⟨(segmentsOf (· == '/') (.ofList rest)).dropLast,
    (segmentsOf (· == '/') (.ofList rest)).getLast?.getD "", fun n hn hslash => ?_, fun s => ?_⟩
  · simpa using (mem_segmentsOf (List.dropLast_subset _ hn)).2 '/' hslash
  · rw [specifier, hdrop]

theorem specifier_eq_bare (hroot : startsWith "./" module = true) (s : Site) :
    s.specifier module = s.bare module ++ if s.Appends module then s.extension else "" := by
  obtain ⟨names, last, -, hspecifier⟩ := exists_target hroot
  have hbare : s.bare module = "/".intercalate (s.way names last) := by
    rw [bare, hspecifier, extended_of_isEmpty rfl]
    rfl
  rw [hspecifier, extended_eq_append, ← hbare]
  by_cases hends : endsWith s.extension (s.bare module) = true <;> simp [Appends, hends]

/-- **Ways lead to one place**, and so does what is written after them. -/
theorem walk_bare (hs : ∀ n ∈ s.directory, IsPlain n) (ht : ∀ n ∈ t.directory, IsPlain n)
    (hroot : startsWith "./" module = true) (root : List String) (tail : String) :
    walk (root ++ s.directory) (s.bare module ++ tail) =
      walk (root ++ t.directory) (t.bare module ++ tail) := by
  obtain ⟨names, last, hslash, hspecifier⟩ := exists_target hroot
  have hwalk : ∀ u : Site, (∀ n ∈ u.directory, IsPlain n) →
      walk (root ++ u.directory) (u.bare module ++ tail) = walk (names.foldl follow root) (last ++ tail) := by
    intro u hu
    rw [bare, hspecifier, extended_of_isEmpty rfl]
    refine walk_way_from ⟨u.directory, ""⟩ hslash (fun n hn => hu n ?_) root last tail
    rw [← take_shared] at hn
    exact List.mem_of_mem_take hn
  rw [hwalk s hs, hwalk t ht]

/-- **Two files agree on a module below the output root** exactly if the extension is written in both or in
neither, or leads nowhere. -/
theorem agree_rooted_iff (hs : ∀ n ∈ s.directory, IsPlain n) (ht : ∀ n ∈ t.directory, IsPlain n)
    (hextension : s.extension = t.extension) (hroot : startsWith "./" module = true) :
    (∀ root, walk (root ++ s.directory) (s.specifier module) =
        walk (root ++ t.directory) (t.specifier module)) ↔
      (s.Appends module ↔ t.Appends module) ∨
        ∀ root, walk (root ++ s.directory) (s.bare module ++ s.extension) =
          walk (root ++ s.directory) (s.bare module) := by
  simp only [specifier_eq_bare hroot, ← hextension, ← walk_bare hs ht hroot]
  by_cases hsa : s.Appends module <;> by_cases hta : t.Appends module
  · simp [hsa, hta]
  · simp [hsa, hta]
  · simp only [hsa, hta, if_true, if_false, iff_true, false_or, String.append_empty]
    exact forall_congr' fun root => eq_comm
  · simp [hsa, hta]

/-- **An extension without a slash** is written in all files or in none. -/
theorem appends_iff (hslash : '/' ∉ s.extension.toList) (hextension : s.extension = t.extension)
    (hroot : startsWith "./" module = true) : s.Appends module ↔ t.Appends module := by
  obtain ⟨names, last, -, hspecifier⟩ := exists_target hroot
  have hlast : ∀ u : Site, endsWith s.extension (u.bare module) = endsWith s.extension last := by
    intro u
    obtain ⟨first, up, hway, -⟩ := exists_way_eq ⟨u.directory, ""⟩ names last
    rw [bare, hspecifier, extended_of_isEmpty rfl, hway,
      String.intercalate_append_of_ne_nil (by simp) (by simp), String.intercalate_singleton,
      endsWith_after_slash hslash]
  rw [Appends, Appends, ← hextension, hlast s, hlast t]

end Site

/-- The directory of a file below the output root. -/
def File.directory (f : File) : List String := (walk [] f.path).dropLast

/-- The specifiers by which the files import the module lead to one place, each from the directory of its file
and wherever the output root lies. -/
def File.Agree (f g : File) (module : String) : Prop :=
  ∀ root, walk (root ++ f.directory) (f.bindings.site.specifier module) =
    walk (root ++ g.directory) (g.bindings.site.specifier module)

theorem intercalate_snoc_append (names : List String) (last tail : String) :
    "/".intercalate (names ++ [last]) ++ tail = "/".intercalate (names ++ [last ++ tail]) := by
  induction names with
  | nil => simp
  | cons n names ih =>
    rw [List.cons_append, List.cons_append, String.intercalate_cons_of_ne_nil (by simp),
      String.intercalate_cons_of_ne_nil (by simp), String.append_assoc, ih]

/-- The path of the file of a qualified name: plain names without a dot, and one with a dot. -/
theorem exists_pieces_modelFile (name : String) : ∃ names last,
    pieces (· == '/') (Naming.modelFile name) = names ++ [last] ∧
      (∀ n ∈ names, IsPlain n ∧ '.' ∉ n.toList) ∧ IsPlain last ∧ '.' ∈ last.toList := by
  have hplain : ∀ n ∈ placeOf name, IsPlain n ∧ '.' ∉ n.toList := fun n hn =>
    ⟨isPlain_of_mem_placeOf hn, noDot_of_mem_placeOf hn⟩
  have hfile : Naming.modelFile name = "/".intercalate (placeOf name) ++ ".ts" := rfl
  rcases List.eq_nil_or_concat (placeOf name) with hnil | ⟨init, last, hlast⟩
  · rw [hfile, hnil]
    exact ⟨[], ".ts", by decide, nofun, ⟨by decide, by decide, by decide, by decide⟩, by decide⟩
  · rw [List.concat_eq_append] at hlast
    rw [hlast, List.forall_mem_append, List.forall_mem_singleton] at hplain
    obtain ⟨hinit, hname, -⟩ := hplain
    have hends : '/' ∉ (last ++ ".ts").toList := by simpa using hname.noSlash
    have hlong : ∀ s : String, s.toList.length < 3 → last ++ ".ts" ≠ s := fun s hs h => by
      rw [← h] at hs
      simp at hs
    have hslash : ∀ n ∈ init ++ [last ++ ".ts"], '/' ∉ n.toList :=
      List.forall_mem_append.2 ⟨fun n hn => (hinit n hn).1.noSlash, List.forall_mem_singleton.2 hends⟩
    refine ⟨init, last ++ ".ts", ?_, hinit, ⟨hends, hlong _ (by decide), hlong _ (by decide), hlong _ (by decide)⟩,
      by simp⟩
    rw [hfile, hlast, intercalate_snoc_append, pieces_intercalate hslash (by simp)]

theorem isPlain_of_mem_modelFile {name n : String} (h : n ∈ pieces (· == '/') (Naming.modelFile name)) :
    IsPlain n := by
  obtain ⟨names, last, hpieces, hnames, hlast, -⟩ := exists_pieces_modelFile name
  rw [hpieces] at h
  rcases List.mem_append.1 h with h | h
  · exact (hnames n h).1
  · exact List.mem_singleton.1 h ▸ hlast

/-- The path of the file of a qualified name has no step up. -/
theorem up_not_mem_modelFile (name : String) : ".." ∉ pieces (· == '/') (Naming.modelFile name) := fun h =>
  (isPlain_of_mem_modelFile h).ne_dots rfl

end Module

namespace Client

open OpenApi Text
open OpenApiClient.Module

/-- Each file has the path of a qualified name. -/
def Run.Placed (r : Run) : Prop := r.sources.Each fun path _ => ∃ name, path = Naming.modelFile name

section Placing

variable {j : Job} {r r' : Run} {f : File}

theorem Run.Placed.write (h : r.Placed) (hf : ∃ name, f.path = Naming.modelFile name)
    (hw : r.Writes f r') : r'.Placed := by
  obtain ⟨log, rfl⟩ := hw
  exact Sources.Each.put h hf fun _ _ _ hg => hg

/-- The step keeps the paths of files as they are to be. -/
abbrev KeepsPlaced {α : Type} (m : Action α) : Prop := Maintains Run.Placed (fun _ => True) m

theorem write_placed (hf : ∃ name, f.path = Naming.modelFile name) : KeepsPlaced (Action.write f) :=
  .modify fun r h => h.write hf ⟨r.log, rfl⟩

theorem note_placed (pass : Pass) (level : Level) (message : String) :
    KeepsPlaced (j.note pass level message) :=
  .modify fun _ h => h

theorem path_openFile (s : Sources) (path origin : String) : (s.openFile path origin).path = path :=
  Sources.openFile_cases origin (fun _ hf => Sources.path_of_at? hf) fun _ => rfl

theorem path_of_inFile {α : Type} {m : Mapping α} {g : File} {a : α} {names : List String}
    (h : m.inFile f = .ok (a, g, names)) : g.path = f.path := by
  unfold Mapping.inFile at h
  split at h
  · obtain ⟨-, hfile⟩ := Prod.mk.inj (Except.ok.inj h)
    obtain ⟨rfl, -⟩ := Prod.mk.inj hfile
    rfl
  · cases h

theorem declareAll_placed (name : String) (names : List String) :
    KeepsPlaced (declareAll (Naming.modelFile name) names) := by
  refine .get_bind fun r _ => ?_
  have hpath := path_openFile r.sources (Naming.modelFile name) Pass.backbone.path
  exact Maintains.bind (write_placed ⟨name, hpath⟩) fun _ _ => .pure trivial

theorem writeMethod_placed (name endpoint : String) (call : Call) (localName : String) :
    KeepsPlaced (writeMethod j endpoint (Naming.modelFile name) call localName) := by
  unfold writeMethod
  refine Maintains.bind (Q := fun _ => True) (.mapError fun _ _ => trivial) fun arguments _ => ?_
  refine Maintains.bind (Q := fun _ => True) (.mapError fun _ _ => trivial) fun response _ => ?_
  refine .get_bind fun r _ => ?_
  refine Maintains.bind (Q := fun p => p.2.1.path = Naming.modelFile name)
    (.mapError fun p h => (path_of_inFile h).trans (path_openFile ..)) fun (g, f, names) hf => ?_
  refine Maintains.bind (Q := fun _ => True) (.mapError fun _ _ => trivial) fun b _ => ?_
  have hpath : ({ f.push (.function g) with bindings := b } : File).path = Naming.modelFile name := hf
  refine Maintains.bind (write_placed ⟨name, hpath⟩) fun _ _ => ?_
  exact (note_placed _ _ _).bind fun _ _ => .pure trivial

theorem writeBackbone_placed : KeepsPlaced (writeBackbone j) :=
  writeBackbone_maintains (fun e _ => declareAll_placed e.1 _)
    (fun name call localName _ => writeMethod_placed name name call localName) fun _ _ _ h => h

theorem keptByModels_placed {I : Entries String → List String → Run → Prop} (hI : KeptByModels j I) :
    KeptByModels j fun cs ns r => I cs ns r ∧ r.Placed where
  model h hl hn ht hc hf hopen hadds hw :=
    ⟨hI.model h.1 hl hn ht hc hf hopen hadds hw,
      h.2.write ⟨_, hadds.place.1.trans (path_openFile ..)⟩ hw⟩

variable {T : List Route} (hv : j.document.Valid)
include hv

/-- **Every pass writes files of qualified names.** -/
theorem execute_placed (p : Pass) (hs : r.Sound j T) (h : r.Placed) :
    Ends (p.execute j) r (fun _ r' => r'.Placed) fun _ _ => True := by
  have hlate : p = .subtypes ∨ p = .push ∨ p = .signals →
      Ends (p.execute j) r (fun _ r' => r'.Placed) fun _ _ => True := fun hp =>
    (execute_keeps (I := Run.Placed) hv hp hs
      (fun ms r₁ r₂ _ _ _ h he => by
        obtain ⟨component, m, f, name, change, b, ns, -, hf, -, -, -, -, hw⟩ := he
        exact h.write (Sources.path_of_at? hf ▸ h _ f hf) hw)
      (fun b e m r₁ r₂ _ _ _ _ _ h hr => by
        obtain ⟨response, k, f, g, g', b', -, -, hf, -, -, -, -, -, -, hw⟩ := hr
        exact h.write (Sources.path_of_at? hf ▸ h _ f hf) hw)
      (fun _ _ h => h) h).mono (fun _ _ h => h.2.2) fun _ _ _ => trivial
  cases p with
  | transferTypes =>
    change Ends (registerTargets j) r _ _
    unfold registerTargets
    dsimp only
    cases j.settings.transferTypes.find? (·.2.name.isEmpty) with
    | some e => exact trivial
    | none => exact h
  | backbone => exact (writeBackbone_placed r h).imp fun _ _ h => h.1
  | model =>
    refine (writeModels_spec (keptByModels_placed (Run.Sound.keptByModels (j := j) T r)) hv
      (fun _ _ _ h => h.1.2.transfers) (fun _ _ => ⟨⟨hs, .refl r⟩, h⟩) hs.referenced).mono ?_
      fun _ _ _ => trivial
    rintro _ _ ⟨b, ms, r₁, log, ns, -, ⟨-, hplaced⟩, rfl, -⟩
    exact hplaced
  | subtypes => exact hlate (.inl rfl)
  | push => exact hlate (.inr (.inl rfl))
  | signals => exact hlate (.inr (.inr rfl))

/-- **The files of a run** are at sites below the output root, and their paths have no step up. -/
theorem executeAll_placed (passes : List Pass) (hs : r.Sound j T) (h : r.Placed) :
    Ends (executeAll j passes) r (fun _ (r' : Run) => (∃ T, r'.Sound j T) ∧ r'.Placed) fun _ _ => True := by
  refine ends_forM (fun _ (r' : Run) => (∃ T, r'.Sound j T) ∧ r'.Placed) ⟨⟨T, hs⟩, h⟩ ?_
  rintro done p rest r₁ - ⟨⟨T₁, hs₁⟩, h₁⟩
  have hstep : ∀ log, Ends (p.execute j) { r₁ with log }
      (fun _ (r' : Run) => (∃ T, r'.Sound j T) ∧ r'.Placed) fun _ _ => True := fun log => by
    have hsound := (execute_sound hv p (hs₁.log log)).mono (fun _ _ h => h) fun _ _ _ => trivial
    have hplaced := execute_placed hv p (hs₁.log log) h₁
    refine (hsound.and hplaced).mono ?_ fun _ _ _ => trivial
    rintro _ r₂ ⟨⟨⟨T₂, hs₂, -⟩, -⟩, h₂⟩
    exact ⟨⟨_, hs₂⟩, h₂⟩
  rw [ends_bind, ends_modify, ends_adapt]
  exact hstep _

end Placing

/-- The file stands in the directory that its specifiers start at, which has plain names. -/
theorem site_of_placed {j : Job} {T : List Route} {r : Run} (hs : r.Sound j T) (h : r.Placed) {path : String}
    {f : File} (hf : r.sources.at? path = some f) :
    f.bindings.site.directory = f.directory ∧
      f.bindings.site.extension = j.settings.conventions.extension ∧
        ∀ n ∈ f.bindings.site.directory, IsPlain n := by
  obtain ⟨hpath, hsite⟩ := hs.path path f hf
  obtain ⟨name, rfl⟩ := h path f hf
  obtain ⟨hdirectory, hplain⟩ :=
    Site.directory_ofFile r.sources.extension (up_not_mem_modelFile name)
  rw [hsite, File.directory, hpath]
  exact ⟨hdirectory, hs.extension, hplain⟩

/-- **Where files agree on a module.** In a run of any passes, two files agree on a module below the output
root, unless the extension has a slash in it and is written after the specifier in one of the files only, and
then leads somewhere. They agree on a module that starts with a step up exactly if their directories are
equally deep and differ in no more names, at their ends, than the specifier goes up: it is the same in all
files. -/
theorem executeAll_agree_iff {d : Document} (hd : d.validate = .ok ()) {settings : Settings}
    {passes : List Pass} {log : List LogLine} {r : Run}
    (hr : (executeAll ⟨d, settings⟩ passes).run.run { Run.start settings with log } = (.ok (), r))
    {path path' : String} {f g : File} (hf : r.sources.at? path = some f)
    (hg : r.sources.at? path' = some g) (module : String) :
    (startsWith "./" module = true →
      ('/' ∉ settings.conventions.extension.toList → f.Agree g module) ∧
      (f.Agree g module ↔
        (f.bindings.site.Appends module ↔ g.bindings.site.Appends module) ∨
          ∀ root, walk (root ++ f.directory)
              (f.bindings.site.bare module ++ settings.conventions.extension) =
            walk (root ++ f.directory) (f.bindings.site.bare module))) ∧
    (startsWith "../" module = true →
      let up := (wayOf (f.bindings.site.specifier module)).1
      (f.Agree g module ↔ f.directory.length = g.directory.length ∧
        f.directory.take (f.directory.length - up) = g.directory.take (g.directory.length - up))) := by
  obtain ⟨⟨T, hs⟩, hplaced⟩ := (executeAll_placed (j := ⟨d, settings⟩) (Document.valid_of_validate hd) passes
    (Run.Sound.start ⟨d, settings⟩ log) fun _ _ h => by cases h).result hr
  obtain ⟨hfdirectory, hfextension, hfplain⟩ := site_of_placed hs hplaced hf
  obtain ⟨hgdirectory, hgextension, hgplain⟩ := site_of_placed hs hplaced hg
  have hextension : f.bindings.site.extension = g.bindings.site.extension :=
    hfextension.trans hgextension.symm
  refine ⟨fun hroot => ?_, fun hup => ?_⟩
  · have hiff := Site.agree_rooted_iff hfplain hgplain hextension hroot
    rw [hfdirectory, hgdirectory, hfextension] at hiff
    refine ⟨fun hslash => ?_, hiff⟩
    exact hiff.2 (.inl (Site.appends_iff (hfextension ▸ hslash) hextension hroot))
  · have hnone : dropStart? "./" module = none := by
      obtain ⟨rest, hrest⟩ := List.isPrefixOf_iff_prefix.1 hup
      rw [dropStart?, ← hrest]
      simp [List.isPrefixOf?]
    have hsame : g.bindings.site.specifier module = f.bindings.site.specifier module := by
      simp only [Site.specifier, hnone, hup, if_true, Site.extended, hextension]
    unfold File.Agree
    rw [hsame]
    exact walk_eq_iff f.directory g.directory (f.bindings.site.specifier module)

/-- Settings whose client lies next to the output root. -/
def clientAbove : Settings := { conventions := { clientModule := "../client" } }

/-- An endpoint at the output root, and two in different directories below it. -/
def endpointsApart : Json :=
  let operation (tag : String) : Json := .object [("post", .object [("tags", .array [.string tag])])]
  .object [
    ("openapi", .string "3.0.1"),
    ("info", .object [("title", .string "t"), ("version", .string "1")]),
    ("paths", .object [
      ("/a", operation "com.example.A"), ("/b", operation "B"), ("/c", operation "com.other.C")])]

/-- A module below the output root is one for a file at the root and one two levels below; the client is one
for two files whose directories differ in the last name only. -/
theorem executeAll_agree_iff_siblings :
    ∃ d r f g h, Document.ofJson endpointsApart = .ok d ∧ d.validate = .ok () ∧
      (executeAll ⟨d, clientAbove⟩ Pass.usual).run.run (Run.start clientAbove) = (.ok (), r) ∧
      r.sources.at? "B.ts" = some f ∧ r.sources.at? "com/example/A.ts" = some g ∧
      r.sources.at? "com/other/C.ts" = some h ∧
      f.bindings.site.specifier "./com/Item" = "./com/Item.js" ∧
      g.bindings.site.specifier "./com/Item" = "../Item.js" ∧ f.Agree g "./com/Item" ∧
      g.directory = ["com", "example"] ∧ h.directory = ["com", "other"] ∧ g.Agree h "../client" := by
  have hrun := exists_of_runOf? endpointsApart clientAbove Pass.usual
    (fun _ r => (r.sources.at? "B.ts").any fun f => (r.sources.at? "com/example/A.ts").any fun g =>
      (r.sources.at? "com/other/C.ts").any fun h =>
        decide (f.bindings.site.specifier "./com/Item" = "./com/Item.js") &&
          decide (g.bindings.site.specifier "./com/Item" = "../Item.js") &&
          decide (g.bindings.site.specifier "../client" = "../client.js") &&
          decide (g.directory = ["com", "example"] ∧ h.directory = ["com", "other"]))
    (by decide +kernel)
  obtain ⟨d, r, hd, hvalid, hr, htest⟩ := hrun
  obtain ⟨f, hf, htest⟩ := (Option.any_eq_true ..).1 htest
  obtain ⟨g, hg, htest⟩ := (Option.any_eq_true ..).1 htest
  obtain ⟨h, hh, htest⟩ := (Option.any_eq_true ..).1 htest
  simp only [Bool.and_eq_true, decide_eq_true_eq] at htest
  obtain ⟨⟨⟨hfspecifier, hgspecifier⟩, hclient⟩, hgdirectory, hhdirectory⟩ := htest
  have hbelow := (executeAll_agree_iff hvalid hr hf hg "./com/Item").1 (by decide)
  have habove := (executeAll_agree_iff hvalid hr hg hh "../client").2 (by decide)
  have hup : (wayOf "../client.js").1 = 1 := by decide +kernel
  rw [hclient, hgdirectory, hhdirectory, hup] at habove
  exact ⟨d, r, f, g, h, hd, hvalid, hr, hf, hg, hh, hfspecifier, hgspecifier, hbelow.1 (by decide),
    hgdirectory, hhdirectory, habove.2 ⟨rfl, rfl⟩⟩

/-- **A client that is two modules**: the files import it with one specifier from different directories. -/
theorem not_executeAll_agree :
    let client : Subject × Binding := (.default "../client.js", ⟨"client", false⟩)
    ∃ d r f g, Document.ofJson endpointsApart = .ok d ∧ d.validate = .ok () ∧
      (executeAll ⟨d, clientAbove⟩ Pass.usual).run.run (Run.start clientAbove) = (.ok (), r) ∧
      r.sources.at? "B.ts" = some f ∧ r.sources.at? "com/example/A.ts" = some g ∧
      client ∈ (f.bindings.imports.statements f.used).flatMap ImportStatement.binds ∧
      client ∈ (g.bindings.imports.statements g.used).flatMap ImportStatement.binds ∧
      ¬ f.Agree g "../client" := by
  intro client
  have hrun := exists_of_runOf? endpointsApart clientAbove Pass.usual
    (fun _ r => (r.sources.at? "B.ts").any fun f => (r.sources.at? "com/example/A.ts").any fun g =>
      decide (client ∈ f.bindings.imports.bindings ∧ client.2.localName ∈ f.used) &&
        decide (client ∈ g.bindings.imports.bindings ∧ client.2.localName ∈ g.used) &&
        decide (walk f.directory (f.bindings.site.specifier "../client") = ["client.js"]) &&
        decide (walk g.directory (g.bindings.site.specifier "../client") = ["com", "client.js"]))
    (by decide +kernel)
  obtain ⟨d, r, hd, hvalid, hr, htest⟩ := hrun
  obtain ⟨f, hf, htest⟩ := (Option.any_eq_true ..).1 htest
  obtain ⟨g, hg, htest⟩ := (Option.any_eq_true ..).1 htest
  simp only [Bool.and_eq_true, decide_eq_true_eq] at htest
  obtain ⟨⟨⟨hfimport, hgimport⟩, hfwalk⟩, hgwalk⟩ := htest
  have hwritten : ∀ h : File, client ∈ h.bindings.imports.bindings ∧ client.2.localName ∈ h.used →
      client ∈ (h.bindings.imports.statements h.used).flatMap ImportStatement.binds := fun h himport =>
    (Imports.binds_statements _ _).mem_iff.2 (List.mem_filter.2 ⟨himport.1, decide_eq_true himport.2⟩)
  refine ⟨d, r, f, g, hd, hvalid, hr, hf, hg, hwritten f hfimport, hwritten g hgimport, fun hagree => ?_⟩
  have hsame := hagree []
  rw [List.nil_append, List.nil_append, hfwalk, hgwalk] at hsame
  exact absurd hsame (by decide)

end Client
end OpenApiClient
