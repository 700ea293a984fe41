/-
# Where files of a client are written

The path of a file of a client comes from a name in the document, whatever that is: its last name has a
dot, and the names before it are plain and have none. So no path is the way to another one, and none leads out
of the directory that the client is written to.

Written one after another, the files of a client therefore have places of their own below the directory,
and nothing else changes (`Wrote`). What may stop the writing is a path that the operating system refuses. In
a new directory that is a path that is too long, or has a name that is, or holds a null character
(`generate_written`). A tag can bring about each of these; for the null character this is shown
(`not_all_written`).
-/

import OpenApiClient.CommandLine.Report
import OpenApiClient.Proofs.SharedModules
import OpenApiClient.Proofs.Writing

namespace OpenApiClient
namespace CommandLine

open Text OpenApi Client
open OpenApiClient.Module (IsPlain Output)

/-- The names on the way to an output from the directory that it is written to. -/
def namesOf (o : Output) : List String := pieces (· == '/') o.path

/-- The path of the output is that of the file of a qualified name. -/
def IsPlaced (o : Output) : Prop := ∃ name, o.path = Naming.modelFile name

section Paths

variable {o o' : Output}

theorem pieces_inj {a b : String} (h : pieces (· == '/') a = pieces (· == '/') b) : a = b := by
  have hsplit : split (· == '/') a.toList = split (· == '/') b.toList := by
    simpa [pieces, Function.comp_def] using congrArg (List.map String.toList) h
  rw [← String.toList_inj, ← intercalate_split '/' a.toList, hsplit, intercalate_split]

theorem startsWith_slash_of_isPlain {path : String} (h : ∀ n ∈ pieces (· == '/') path, IsPlain n) :
    startsWith "/" path = false := by
  rw [Bool.eq_false_iff, Ne, Files.startsWith_slash]
  intro hhead
  obtain ⟨cs, hcs⟩ := List.head?_eq_some_iff.1 hhead
  have hempty : "" ∈ pieces (· == '/') path := by simp [pieces, hcs, split]
  exact (h "" hempty).ne_empty rfl

theorem IsPlaced.isPlain (h : IsPlaced o) : ∀ n ∈ namesOf o, IsPlain n := by
  obtain ⟨name, hname⟩ := h
  rw [namesOf, hname]
  exact fun n hn => Module.isPlain_of_mem_modelFile hn

theorem IsPlaced.exists_names (h : IsPlaced o) : ∃ names last, namesOf o = names ++ [last] ∧
    (∀ n ∈ names, IsPlain n ∧ '.' ∉ n.toList) ∧ '.' ∈ last.toList := by
  obtain ⟨name, hname⟩ := h
  obtain ⟨names, last, hpieces, hnames, -, hdot⟩ := Module.exists_pieces_modelFile name
  exact ⟨names, last, by rw [namesOf, hname, hpieces], hnames, hdot⟩

/-- **No output lies below another.** -/
theorem IsPlaced.eq_of_below (h : IsPlaced o) (h' : IsPlaced o') (hbelow : namesOf o' <+: namesOf o) :
    namesOf o' = namesOf o := by
  obtain ⟨names, last, heq, hnames, -⟩ := h.exists_names
  obtain ⟨names', last', heq', -, hdot'⟩ := h'.exists_names
  rw [heq, List.prefix_concat_iff] at hbelow
  rcases hbelow with hsame | hinside
  · rw [heq, hsame]
  · -- The last name of the other one would be that of a directory.
    have hlast : last' ∈ names := hinside.subset (by rw [heq']; simp)
    exact absurd hdot' (hnames last' hlast).2

end Paths

/-- The files are those before with the outputs written below the place `base`, each at a place of its own. -/
structure Wrote (base : Place) (outputs : List Output) (before after : Files) : Prop where
  /-- The working directory is the same. -/
  directory : after.base = before.base
  distinct : (outputs.map namesOf).Nodup
  written : ∀ o ∈ outputs, after.content? (base ++ namesOf o) = some o.content
  others : ∀ p, (∀ o ∈ outputs, p ≠ base ++ namesOf o) → after.content? p = before.content? p

/-- The writing stopped at an output that the operating system refuses, with all outputs before it written. In
a new directory it refuses a path that is too long or holds a null character, and a name that is too long. -/
def Stopped (target : String) (base : Place) (outputs : List Output) (before after : Files) : Prop :=
  ∃ done o rest, outputs = done ++ o :: rest ∧ Wrote base done before after ∧
    (∃ cause, after.write (Files.join target o.path) o.content = .error cause) ∧
    (before.hasDirectory base = false → ".." ∉ pieces (· == '/') target →
      Files.pathFault? (Files.join target o.path) ≠ none ∨ ∃ n ∈ namesOf o, isLongName n = true)

section Steps

variable {base : Place} {done : List Output} {o : Output} {f g : Files} {directory : String}

theorem Wrote.refl (base : Place) (f : Files) : Wrote base [] f f := ⟨rfl, .nil, nofun, fun _ _ => rfl⟩

theorem content?_putContent (f : Files) (p q : Place) (content : String) :
    { f with contents := Files.putContent p content f.contents : Files }.content? q =
      if q = p then some content else f.content? q :=
  Files.lookup_putContent ..

/-- **One more output is written** at a new place. -/
theorem Wrote.snoc (h : Wrote base done f g) (hnew : namesOf o ∉ done.map namesOf) :
    Wrote base (done ++ [o]) f
      { g with contents := Files.putContent (base ++ namesOf o) o.content g.contents } := by
  refine ⟨h.directory, ?_, ?_, fun p hp => ?_⟩
  · rw [List.map_append]
    exact nodup_snoc h.distinct hnew
  · rw [List.forall_mem_append, List.forall_mem_singleton]
    refine ⟨fun o' ho' => ?_, by rw [content?_putContent, if_pos rfl]⟩
    rw [content?_putContent, if_neg fun heq => hnew (List.mem_map.2 ⟨o', ho', List.append_cancel_left heq⟩)]
    exact h.written o' ho'
  · rw [List.forall_mem_append, List.forall_mem_singleton] at hp
    rw [content?_putContent, if_neg hp.2]
    exact h.others p hp.1

/-- The way to the directory is free as before: what was written lies below it. -/
theorem Wrote.make_directory (h : Wrote base done f g) (hdone : ∀ o' ∈ done, IsPlaced o')
    (hbase : f.makeDirectory directory = .ok base) (hup : ".." ∉ pieces (· == '/') directory) :
    g.make (g.startOf directory) (segmentsOf (· == '/') directory) = .ok base := by
  have hstart : g.startOf directory = f.startOf directory := by
    rw [Files.startOf, h.directory, Files.startOf]
  rw [hstart]
  refine Files.make_of_agree (fun hmem => hup ?_) (Files.makeDirectory_eq_ok.1 hbase).2 fun m hm hfree => ?_
  · rw [Module.segmentsOf_eq_filter] at hmem
    exact (List.mem_filter.1 hmem).1
  · rw [h.others m fun o' ho' heq => ?_, hfree]
    obtain ⟨names, last, hnames, -⟩ := (hdone o' ho').exists_names
    have hlength := hm.length_le
    simp [heq, hnames] at hlength

section Fresh

variable (h : Wrote base done f g) (hdone : ∀ o' ∈ done, IsPlaced o') (ho : IsPlaced o)
  (hnew : namesOf o ∉ done.map namesOf) (hfresh : f.hasDirectory base = false)
include h hdone ho hnew hfresh

/-- In a new directory there is no file on the way to a new output, and none below it. -/
theorem Wrote.content?_eq_none {names : List String} (hne : names ≠ [])
    (hway : names <+: namesOf o ∨ namesOf o <+: names) : g.content? (base ++ names) = none := by
  rw [h.others _ fun o' ho' heq => ?_]
  · by_contra hfile
    have hlength : base.length < (base ++ names).length := by simpa using List.length_pos_iff.2 hne
    rw [Files.hasDirectory_iff.2 (.inr ⟨_, hfile, List.prefix_append _ _, hlength⟩)] at hfresh
    cases hfresh
  · have hsame : namesOf o' = namesOf o := by
      rw [List.append_cancel_left heq] at hway
      exact hway.elim (ho.eq_of_below (hdone o' ho')) fun hbelow => ((hdone o' ho').eq_of_below ho hbelow).symm
    exact hnew (hsame ▸ List.mem_map_of_mem ho')

theorem Wrote.hasDirectory_eq_false : g.hasDirectory (base ++ namesOf o) = false := by
  rw [Bool.eq_false_iff, Ne, Files.hasDirectory_iff, h.directory]
  rintro (hbefore | ⟨_, hfile, ⟨tail, rfl⟩, -⟩)
  · rw [Files.hasDirectory_iff.2 (.inl ((List.prefix_append _ _).trans hbefore))] at hfresh
    cases hfresh
  · obtain ⟨names, last, hnames, -⟩ := ho.exists_names
    rw [List.append_assoc] at hfile
    exact hfile (h.content?_eq_none hdone ho hnew hfresh (by simp [hnames]) (.inr (List.prefix_append _ _)))

/-- **In a new directory an output can be written**, next to those that are written there already, if its
path and its names are not too long. -/
theorem Wrote.exists_write (hbase : f.makeDirectory directory = .ok base)
    (hup : ".." ∉ pieces (· == '/') directory)
    (hfault : Files.pathFault? (Files.join directory o.path) = none)
    (hlong : ∀ n ∈ namesOf o, isLongName n = false) :
    ∃ g', g.write (Files.join directory o.path) o.content = .ok g' := by
  obtain ⟨names, last, hnames, hplain, -⟩ := ho.exists_names
  have hsegments := h.make_directory hdone hbase hup
  have hleads : g.leadsTo directory = base := by
    rw [Files.leadsTo, ← Files.eq_of_make hsegments]
  have hmake : g.make base names = .ok (base ++ names) := by
    refine Files.make_of_isPlain (fun n hn => (hplain n hn).1) (fun n hn => hlong n (by simp [hnames, hn]))
      fun init hne hinit => h.content?_eq_none hdone ho hnew hfresh hne (.inl ?_)
    rw [hnames]
    exact hinit.trans (List.prefix_append _ _)
  have hfile := h.hasDirectory_eq_false hdone ho hnew hfresh
  rw [hnames, ← List.append_assoc] at hfile
  refine ⟨_, (Files.write_join_eq_ok (startsWith_slash_of_isPlain ho.isPlain) hnames
    fun n hn => (hplain n hn).1).2 ⟨hfault, ?_, hlong last (by simp [hnames]), ?_, rfl⟩⟩
  · rw [hleads]
    exact Files.make_append_eq_ok.2 ⟨base, hsegments, hmake⟩
  · rw [hleads]
    exact hfile

end Fresh
end Steps

section Runs

theorem ends_attempt {α : Type} {message : String} {x : Except FileCause α} {r : Report}
    {Q : α → Report → Prop} {E : Failure → Report → Prop} :
    Ends (Doing.attempt message x) r Q E ↔
      (∀ a, x = .ok a → Q a r) ∧ ∀ cause, x = .error cause → E ⟨message, [cause.message]⟩ r := by
  cases x with
  | ok a => simp [Doing.attempt]
  | error cause => simp [Doing.attempt]

/-- The step writes an output as a file, or the file is refused and nothing changes. -/
def WritesOne (target : String) (write : Output → Doing Unit) : Prop := ∀ (o : Output) (r : Report),
  (∃ u r', (write o).run.run r = (.ok u, r') ∧
    r.files.write (Files.join target o.path) o.content = .ok r'.files) ∨
  ∃ e r', (write o).run.run r = (.error e, r') ∧ r' = r ∧
    ∃ cause, r.files.write (Files.join target o.path) o.content = .error cause

theorem writesOne_writeOutput (target : String) : WritesOne target (writeOutput target) := by
  intro o r
  rw [← ends_iff_run, writeOutput, ends_bind, ends_get, ends_bind, ends_attempt]
  refine ⟨fun _ _ => ?_, fun cause h => ⟨rfl, Files.write_eq_error h⟩⟩
  rw [ends_bind, ends_get, ends_bind, ends_attempt]
  exact ⟨fun files h => h, fun cause h => ⟨rfl, cause, h⟩⟩

/-- **Outputs are written one after another.** -/
theorem WritesOne.forM_ends {target : String} {write : Output → Doing Unit} (hwrite : WritesOne target write)
    {outputs : List Output} (hplaced : ∀ o ∈ outputs, IsPlaced o) (hdistinct : (outputs.map namesOf).Nodup)
    {r : Report} {base : Place} (hbase : r.files.makeDirectory target = .ok base) :
    Ends (outputs.forM write) r (fun _ r' => Wrote base outputs r.files r'.files)
      (fun _ r' => Stopped target base outputs r.files r'.files) := by
  refine ends_forM (fun done (r' : Report) => Wrote base done r.files r'.files) (.refl base r.files) ?_
  intro done o rest r' hsplit hwrote
  have hmem : o ∈ outputs := by simp [← hsplit]
  have hdone : ∀ o' ∈ done, IsPlaced o' := fun o' ho' => hplaced o' (by simp [← hsplit, ho'])
  have hnew : namesOf o ∉ done.map namesOf := by
    rw [← hsplit, List.map_append, List.map_cons, List.nodup_append] at hdistinct
    exact fun hin => hdistinct.2.2 _ hin _ List.mem_cons_self rfl
  have hplain := (hplaced o hmem).isPlain
  have hleads : r'.files.leadsTo target = base := by
    rw [Files.eq_of_makeDirectory hbase, Files.leadsTo, Files.startOf, hwrote.directory, Files.leadsTo,
      Files.startOf]
  refine Ends.mono (ends_iff_run.2 (hwrite o r')) (fun _ r'' hwritten => ?_) ?_
  · rw [Files.eq_of_write_join (startsWith_slash_of_isPlain hplain) hplain hwritten, hleads]
    exact hwrote.snoc hnew
  · rintro _ _ ⟨rfl, cause, hrefused⟩
    refine ⟨done, o, rest, hsplit.symm, hwrote, ⟨cause, hrefused⟩, fun hfresh hup => ?_⟩
    by_contra hfine
    rw [not_or, not_not] at hfine
    obtain ⟨g', hg'⟩ := hwrote.exists_write hdone (hplaced o hmem) hnew hfresh hbase hup hfine.1
      fun n hn => Bool.eq_false_iff.2 fun hlong => hfine.2 ⟨n, hn, hlong⟩
    rw [hrefused] at hg'
    cases hg'

/-- **The files of a client stay in their directory.**  The paths of the files that a run of any passes makes
are relative, with plain names, and different from each other. Written to a directory one after another, the
files have places of their own below it, and all other files stay as they are. If that stops, it is at a file
that the operating system refuses; in a new directory, because its path is too long, or has a name that is, or
holds a null character. -/
theorem generate_written {settings : Settings} {directory : String} {origin : Origin} {outputs : List Output}
    (h : (generate settings directory origin).result = .ok outputs) :
    (∀ o ∈ outputs, startsWith "/" o.path = false ∧ ∀ n ∈ namesOf o, IsPlain n) ∧
    (outputs.map (·.path)).Nodup ∧
    ∀ (r : Report) (target : String) (base : Place), r.files.makeDirectory target = .ok base →
      Ends (outputs.forM (writeOutput target)) r (fun _ r' => Wrote base outputs r.files r'.files)
        (fun _ r' => Stopped target base outputs r.files r'.files) := by
  obtain ⟨passes, log, d, log', r, -, hload, hrun, rfl⟩ := generate_eq_ok h
  obtain ⟨⟨T, hs⟩, hplaced⟩ := (executeAll_placed (j := ⟨d, settings⟩) (valid_of_load hload) passes
    (Run.Sound.start ⟨d, settings⟩ log') fun _ _ h => by cases h).result hrun
  have hvalues : ∀ f ∈ emitted r.sources, f ∈ r.sources.files.values := fun f hf => (List.mem_filter.1 hf).1
  have houtputs : ∀ o ∈ (emitted r.sources).map fun f => (⟨f.path, f.text, f.origin⟩ : Output), IsPlaced o := by
    rw [List.forall_mem_map]
    exact fun f hf => hplaced f.path f (hs.mem_values (hvalues f hf))
  have hpaths : ((emitted r.sources).map (·.path)).Nodup := by
    have hkeys : r.sources.files.values.map (·.path) = r.sources.files.keys := by
      rw [Entries.values, List.map_map]
      exact List.map_congr_left r.sources.placed
    exact ((List.filter_sublist).map _).nodup (hkeys ▸ hs.keys)
  have hdistinct : (((emitted r.sources).map fun f => (⟨f.path, f.text, f.origin⟩ : Output)).map (·.path)).Nodup := by
    rwa [List.map_map]
  refine ⟨fun o ho => ?_, hdistinct, fun r' target base hbase => ?_⟩
  · have hplain := (houtputs o ho).isPlain
    exact ⟨startsWith_slash_of_isPlain hplain, hplain⟩
  · refine (writesOne_writeOutput target).forM_ends houtputs ?_ hbase
    have hinjective : Function.Injective fun path => pieces (· == '/') path := fun a b h => pieces_inj h
    simpa [List.map_map, Function.comp_def, namesOf] using hdistinct.map hinjective

end Runs

section Tags

/-- A document with operations at routes, each with a tag. -/
def taggedOperations (operations : List (String × String)) : Json := .object [
  ("openapi", .string "3.0.1"),
  ("info", .object [("title", .string "t"), ("version", .string "1")]),
  ("paths", .object (operations.map fun (route, tag) =>
    (route, .object [("post", .object [("tags", .array [.string tag])])])))]

/-- A document with one operation, which has a tag. -/
def taggedDocument (tag : String) : Json := taggedOperations [("/a", tag)]

/-- A working directory without files. -/
def emptyReport : Report := { files := ⟨["w"], []⟩ }

theorem exists_outputs (document : Json) (test : List Output → Bool)
    (h : (generate {} "out" (.value document)).result.toOption.any test = true) :
    ∃ outputs, (generate {} "out" (.value document)).result = .ok outputs ∧ test outputs = true := by
  obtain ⟨outputs, houtputs, htest⟩ := (Option.any_eq_true ..).1 h
  exact ⟨outputs, eq_ok_of_toOption houtputs, htest⟩

/-- Tags with dots are files in directories, one inside the other, which are written below the new output
directory. -/
theorem generate_written_nested :
    let document := taggedOperations [("/a", "com.example.A"), ("/b", "com.B")]
    ∃ outputs r, (generate {} "out" (.value document)).result = .ok outputs ∧
      outputs.map (·.path) = ["com/example/A.ts", "com/B.ts"] ∧
      (outputs.forM (writeOutput "out")).run.run emptyReport = (.ok (), r) ∧
      Wrote ["w", "out"] outputs emptyReport.files r.files := by
  intro document
  obtain ⟨outputs, houtputs, htest⟩ := exists_outputs document
    (fun outputs => decide (outputs.map (·.path) = ["com/example/A.ts", "com/B.ts"])) (by decide +kernel)
  have hpaths := of_decide_eq_true htest
  have hends := (generate_written houtputs).2.2 emptyReport "out" ["w", "out"] (by decide +kernel)
  rcases hr : (outputs.forM (writeOutput "out")).run.run emptyReport with ⟨e | ⟨⟩, r⟩
  · obtain ⟨done, o, rest, hsplit, -, -, hrefused⟩ := hends.failure hr
    have hpath : o.path ∈ ["com/example/A.ts", "com/B.ts"] :=
      hpaths ▸ List.mem_map_of_mem (by simp [hsplit])
    have hshort : ∀ p ∈ ["com/example/A.ts", "com/B.ts"], Files.pathFault? (Files.join "out" p) = none ∧
        ∀ n ∈ pieces (· == '/') p, isLongName n = false := by decide +kernel
    obtain ⟨hfault, hnames⟩ := hshort o.path hpath
    rcases hrefused (by decide +kernel) (by decide +kernel) with hrefused | ⟨n, hn, hlong⟩
    · exact absurd hfault hrefused
    · exact absurd hlong (by simp [hnames n hn])
  · exact ⟨outputs, r, houtputs, hpaths, hr, hends.result hr⟩

/-- **A client that is not written**: no file can have a name with the character of its only tag. -/
theorem not_all_written :
    ∃ outputs e r, (generate {} "out" (.value (taggedDocument "\x00"))).result = .ok outputs ∧
      outputs.map (·.path) = ["\x00.ts"] ∧
      (outputs.forM (writeOutput "out")).run.run emptyReport = (.error e, r) ∧ r.files.contents = [] := by
  obtain ⟨outputs, houtputs, htest⟩ := exists_outputs (taggedDocument "\x00")
    (fun outputs => decide (outputs.map (·.path) = ["\x00.ts"]) &&
      match (outputs.forM (writeOutput "out")).run.run emptyReport with
      | (.error _, r) => r.files.contents.isEmpty
      | (.ok _, _) => false) (by decide +kernel)
  obtain ⟨hpaths, htest⟩ := Bool.and_eq_true_iff.1 htest
  split at htest
  · next e r hr => exact ⟨outputs, e, r, houtputs, of_decide_eq_true hpaths, hr, List.isEmpty_iff.1 htest⟩
  · cases htest

end Tags

end CommandLine
end OpenApiClient
