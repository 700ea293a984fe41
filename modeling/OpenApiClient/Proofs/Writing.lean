/-
# Writing files

A path that starts in a directory leads on from the place to which the directory leads, and only
directories are made on the way (`eq_of_make`). Writing a file at a path below a directory therefore changes
the content of one place: the names of the path after the place of the directory (`write_join_eq_ok`).

Whether it can be written is told there as well. The names on the way must not be too long, or those of files,
and nothing may lie below the place.
-/

import OpenApiClient.Files
import OpenApiClient.Proofs.Specifiers

namespace OpenApiClient
namespace Files

open Text
open OpenApiClient.Module

section Contents

variable {f : Files} {p q : Place}

theorem lookup_cons_eq_ite (q : Place) (e : Place × String) (es : List (Place × String)) :
    (e :: es).lookup q = if q = e.1 then some e.2 else es.lookup q := by
  rw [List.lookup_cons]
  by_cases h : q = e.1
  · simp [h]
  · simp [h, beq_eq_false_iff_ne.2 h]

theorem lookup_ne_none {q : Place} {es : List (Place × String)} :
    es.lookup q ≠ none ↔ ∃ e ∈ es, e.1 = q := by
  induction es with
  | nil => simp
  | cons e es ih =>
    rw [lookup_cons_eq_ite]
    by_cases h : q = e.1
    · simp [h]
    · simp [h, ih, Ne.symm h]

/-- **Writing a file** changes its content alone. -/
theorem lookup_putContent (p q : Place) (content : String) (es : List (Place × String)) :
    (putContent p content es).lookup q = if q = p then some content else es.lookup q := by
  induction es with
  | nil => rw [putContent, lookup_cons_eq_ite]
  | cons e es ih =>
    rw [putContent]
    by_cases hplace : e.1 = p
    · rw [if_pos hplace, lookup_cons_eq_ite, lookup_cons_eq_ite, hplace]
      by_cases h : q = p <;> simp [h]
    · rw [if_neg hplace, lookup_cons_eq_ite, lookup_cons_eq_ite, ih]
      by_cases h : q = e.1
      · simp [h, hplace]
      · simp [h]

/-- There is a directory on the way to the working directory, and on the way to each file. -/
theorem hasDirectory_iff : f.hasDirectory p = true ↔
    p <+: f.base ∨ ∃ q, f.content? q ≠ none ∧ p <+: q ∧ p.length < q.length := by
  simp only [hasDirectory, content?, lookup_ne_none, Bool.or_eq_true, List.isPrefixOf_iff_prefix, List.any_eq_true,
    Bool.and_eq_true, decide_eq_true_eq]
  refine or_congr_right ⟨?_, ?_⟩
  · rintro ⟨e, he, hbelow⟩
    exact ⟨e.1, ⟨e, he, rfl⟩, hbelow⟩
  · rintro ⟨q, ⟨e, he, rfl⟩, hbelow⟩
    exact ⟨e, he, hbelow⟩

end Contents

section Making

variable {f g : Files} {p q : Place} {names : List String}

/-- A name does not stand in the way of a directory: it is one that leads to a directory that is there, or
not too long, and that of no file. -/
def Passes (f : Files) (p : Place) (name : String) : Prop :=
  name = "" ∨ name = "." ∨ name = ".." ∨ isLongName name = false ∧ f.content? (p ++ [name]) = none

theorem make_cons_eq_ok {name : String} {more : List String} :
    f.make p (name :: more) = .ok q ↔ f.Passes p name ∧ f.make (follow p name) more = .ok q := by
  rw [make]
  by_cases hstay : name = "" ∨ name = "."
  · simp only [hstay, if_true, follow, Passes]
    tauto
  by_cases hup : name = ".."
  · simp [hup, follow, Passes]
  obtain ⟨hempty, hdot⟩ := not_or.1 hstay
  rw [if_neg hstay, if_neg hup]
  simp only [follow, Passes, hempty, hdot, hup, or_self, false_or, if_false]
  cases hlong : isLongName name
  · cases hcontent : f.content? (p ++ [name]) <;> simp
  · simp

/-- **Directories are made where the names lead.** -/
theorem eq_of_make (h : f.make p names = .ok q) : q = names.foldl follow p := by
  induction names generalizing p with
  | nil => exact (Except.ok.inj h).symm
  | cons name more ih => exact ih (make_cons_eq_ok.1 h).2

theorem make_append_eq_ok {more : List String} :
    f.make p (names ++ more) = .ok q ↔ ∃ m, f.make p names = .ok m ∧ f.make m more = .ok q := by
  induction names generalizing p with
  | nil => simp [make]
  | cons name names ih =>
    rw [List.cons_append, make_cons_eq_ok, ih]
    simp only [make_cons_eq_ok]
    tauto

theorem make_filter_eq_ok : f.make p (names.filter (· ≠ "")) = .ok q ↔ f.make p names = .ok q := by
  induction names generalizing p with
  | nil => rfl
  | cons name more ih =>
    by_cases hname : name = ""
    · subst hname
      have hpasses : f.Passes p "" := .inl rfl
      rw [make_cons_eq_ok, List.filter_cons_of_neg (by simp), ih]
      simp [hpasses, follow]
    · rw [List.filter_cons_of_pos (by simpa using hname), make_cons_eq_ok, make_cons_eq_ok, ih]

/-- Names of new directories can be made, if they are not too long. -/
theorem make_of_isPlain (hplain : ∀ n ∈ names, IsPlain n) (hlong : ∀ n ∈ names, isLongName n = false)
    (hfree : ∀ init, init ≠ [] → init <+: names → f.content? (p ++ init) = none) :
    f.make p names = .ok (p ++ names) := by
  induction names generalizing p with
  | nil => simp [make]
  | cons name more ih =>
    rw [List.forall_mem_cons] at hplain hlong
    rw [make_cons_eq_ok, follow_of_isPlain hplain.1]
    refine ⟨.inr (.inr (.inr ⟨hlong.1, hfree [name] (by simp) (by simp)⟩)), ?_⟩
    rw [show p ++ name :: more = p ++ [name] ++ more by simp]
    refine ih hplain.2 hlong.2 fun init hne hinit => ?_
    rw [List.append_assoc]
    exact hfree ([name] ++ init) (by simp) (by simpa using hinit)

theorem prefix_foldl_follow (hup : ".." ∉ names) : p <+: names.foldl follow p := by
  induction names generalizing p with
  | nil => exact List.prefix_rfl
  | cons name more ih =>
    rw [List.mem_cons, not_or] at hup
    refine List.IsPrefix.trans ?_ (ih hup.2)
    rw [follow, if_neg (Ne.symm hup.1)]
    split
    · exact List.prefix_rfl
    · exact List.prefix_append _ _

/-- Without steps up, only files on the way to a directory are in its way. -/
theorem make_of_agree (hup : ".." ∉ names) (h : f.make p names = .ok q)
    (hagree : ∀ m, m <+: q → f.content? m = none → g.content? m = none) : g.make p names = .ok q := by
  induction names generalizing p with
  | nil => exact h
  | cons name more ih =>
    obtain ⟨hpasses, hmore⟩ := make_cons_eq_ok.1 h
    rw [List.mem_cons, not_or] at hup
    refine make_cons_eq_ok.2 ⟨?_, ih hup.2 hmore⟩
    by_cases hstay : name = "" ∨ name = "."
    · exact hstay.imp_right .inl
    · have hfollow : follow p name = p ++ [name] := by
        rw [follow, if_neg hstay, if_neg (Ne.symm hup.1)]
      have hprefix := prefix_foldl_follow (p := follow p name) hup.2
      rw [← eq_of_make hmore, hfollow] at hprefix
      unfold Passes at hpasses ⊢
      have := hagree _ hprefix
      tauto

theorem makeDirectory_eq_ok {path : String} : f.makeDirectory path = .ok q ↔
    pathFault? path = none ∧ f.make (f.startOf path) (segmentsOf (· == '/') path) = .ok q := by
  rw [segmentsOf_eq_filter, make_filter_eq_ok, makeDirectory]
  cases pathFault? path <;> simp

end Making

section Paths

theorem segments_append_cons {p : Char → Bool} {c : Char} (hc : p c = true) (a b : List Char) :
    segments p (a ++ c :: b) = segments p a ++ segments p b := by
  rw [segments, split_append_cons hc, List.filter_append]
  rfl

/-- Separators at the end end no more segments. -/
theorem segments_append_of_forall {p : Char → Bool} {separators : List Char}
    (h : ∀ c ∈ separators, p c = true) (cs : List Char) : segments p (cs ++ separators) = segments p cs := by
  induction separators generalizing cs with
  | nil => rw [List.append_nil]
  | cons c more ih =>
    rw [List.forall_mem_cons] at h
    rw [segments_append_cons h.1, ← List.nil_append more, ih h.2]
    exact List.append_nil _

theorem splitFirst?_eq_none {p : Char → Bool} {cs : List Char} (h : splitFirst? p cs = none) :
    ∀ c ∈ cs, p c = false := by
  induction cs with
  | nil => simp
  | cons c cs ih =>
    rw [splitFirst?] at h
    split at h
    · cases h
    · next hc =>
      rw [Option.map_eq_none_iff] at h
      exact List.forall_mem_cons.2 ⟨Bool.eq_false_iff.2 hc, ih h⟩

theorem startsWith_slash (s : String) : startsWith "/" s = true ↔ s.toList.head? = some '/' := by
  rw [startsWith, List.isPrefixOf_iff_prefix]
  cases s.toList <;> simp [List.cons_prefix_cons, eq_comm]

/-- Nothing is wrong with a part of a path with which nothing is wrong. -/
theorem pathFault?_of_sublist {cs ds : List Char} (h : cs.Sublist ds)
    (hfault : pathFault? (.ofList ds) = none) : pathFault? (.ofList cs) = none := by
  have hsize := String.utf8Len_le_of_sublist h
  have hnull : '\x00' ∈ cs → '\x00' ∈ ds := fun hmem => h.subset hmem
  unfold pathFault? at hfault ⊢
  simp only [String.toList_ofList, String.utf8ByteSize_ofList, List.contains_iff_mem] at hfault ⊢
  split_ifs at hfault ⊢ <;> first | rfl | omega | tauto

/-- **A path is cut at its last slash.** -/
theorem splitName_spec (s : String) : ∃ before,
    pieces (· == '/') s = before ++ [(splitName s).2] ∧
      before.filter (· ≠ "") = segmentsOf (· == '/') (splitName s).1 ∧
      startsWith "/" (splitName s).1 = startsWith "/" s ∧
      (pathFault? s = none → pathFault? (splitName s).1 = none) := by
  cases hs : splitFirst? (· == '/') s.toList.reverse with
  | none =>
    have hnone : '/' ∉ s.toList := fun hmem => by
      simpa using splitFirst?_eq_none hs '/' (List.mem_reverse.2 hmem)
    have hstart : startsWith "/" s = false := by
      rw [Bool.eq_false_iff, Ne, startsWith_slash]
      exact fun h => hnone (List.mem_of_mem_head? h)
    have hsplit : splitName s = ("", s) := by rw [splitName, hs]
    rw [hsplit]
    exact ⟨[], pieces_of_noSlash hnone, rfl, hstart.symm, fun _ => rfl⟩
  | some cut =>
    obtain ⟨last, rest⟩ := cut
    obtain ⟨c, hcut, hc, hlast⟩ := of_splitFirst?_eq_some hs
    obtain rfl : c = '/' := by simpa using hc
    have hchars : s.toList = rest.reverse ++ '/' :: last.reverse := by
      simpa using congrArg List.reverse hcut
    -- The slashes at the end of what is before the name are dropped.
    obtain ⟨slashes, kept, hrest, hslashes, hkept⟩ : ∃ slashes kept, rest = slashes ++ kept ∧
        (∀ c ∈ slashes, (c == '/') = true) ∧ rest.dropWhile (· == '/') = kept :=
      ⟨_, _, List.takeWhile_append_dropWhile.symm, List.all_eq_true.1 List.all_takeWhile, rfl⟩
    have hsplit : splitName s =
        (if kept.isEmpty then "/" else .ofList kept.reverse, .ofList last.reverse) := by
      rw [splitName, hs]
      simp only [hkept]
    have hpieces : pieces (· == '/') s = pieces (· == '/') (.ofList rest.reverse) ++ [.ofList last.reverse] := by
      have hname : split (· == '/') last.reverse = [last.reverse] :=
        split_eq_singleton fun c hc => hlast c (List.mem_reverse.1 hc)
      rw [pieces, hchars, split_append_cons rfl, hname, List.map_append, pieces, String.toList_ofList]
      rfl
    have hsegments : segments (· == '/') rest.reverse = segments (· == '/') kept.reverse := by
      rw [hrest, List.reverse_append]
      exact segments_append_of_forall (fun c hc => hslashes c (List.mem_reverse.1 hc)) _
    refine ⟨pieces (· == '/') (.ofList rest.reverse), by rw [hpieces, hsplit], ?_⟩
    rw [← segmentsOf_eq_filter, hsplit, segmentsOf, String.toList_ofList, hsegments]
    cases kept with
    | nil =>
      have hhead : s.toList.head? = some '/' := by
        rw [hchars, hrest, List.append_nil]
        cases hr : slashes.reverse with
        | nil => rfl
        | cons d ds =>
          have hd := hslashes d (by simpa using congrArg (d ∈ ·) hr)
          simp [beq_iff_eq.1 hd]
      simp only [List.isEmpty_nil, if_true]
      exact ⟨rfl, (show startsWith "/" "/" = true by decide).trans ((startsWith_slash s).2 hhead).symm,
        fun _ => by decide⟩
    | cons d ds =>
      have hprefix : (d :: ds).reverse <+: s.toList := by
        rw [hchars, hrest, List.reverse_append, List.append_assoc]
        exact List.prefix_append _ _
      refine ⟨by simp [segmentsOf], ?_, fun hfault => ?_⟩
      · rw [Bool.eq_iff_iff, startsWith_slash, startsWith_slash]
        obtain ⟨tail, htail⟩ := hprefix
        rw [← htail]
        simp [List.head?_append]
      · refine pathFault?_of_sublist hprefix.sublist ?_
        rwa [String.ofList_toList]

/-- **A path below a directory** is that of the directory with the names of the path. -/
theorem pieces_join (directory : String) {path : String} (h : startsWith "/" path = false) : ∃ before,
    pieces (· == '/') (join directory path) = before ++ pieces (· == '/') path ∧
      before.filter (· ≠ "") = segmentsOf (· == '/') directory ∧
      startsWith "/" (join directory path) = startsWith "/" directory := by
  rw [join, h, Bool.false_or]
  have hhead : ∀ {s t : String}, directory.toList ≠ [] → s.toList = directory.toList ++ t.toList →
      startsWith "/" s = startsWith "/" directory := fun {s t} hne hs => by
    obtain ⟨c, cs, hcs⟩ := List.exists_cons_of_ne_nil hne
    rw [Bool.eq_iff_iff, startsWith_slash, startsWith_slash, hs, hcs]
    rfl
  split
  · next hempty =>
    obtain rfl : directory = "" := by simpa using hempty
    exact ⟨[], rfl, rfl, h⟩
  · next hempty =>
    have hne : directory.toList ≠ [] := fun hnil => hempty (by simpa using hnil)
    split
    · next hslash =>
      obtain ⟨init, hinit⟩ := List.isSuffixOf_iff_suffix.1 hslash
      have hinit : directory.toList = init ++ '/' :: [] := hinit.symm
      refine ⟨pieces (· == '/') (.ofList init), ?_, ?_, hhead hne (String.toList_append ..)⟩
      · rw [pieces, String.toList_append, hinit, List.append_assoc]
        exact (congrArg _ (split_append_cons rfl _ _)).trans (by simp [pieces])
      · rw [← segmentsOf_eq_filter, segmentsOf, segmentsOf, hinit, segments_append_cons rfl, String.toList_ofList]
        exact congrArg _ (List.append_nil _).symm
    · refine ⟨pieces (· == '/') directory, ?_, (segmentsOf_eq_filter _ _).symm,
        hhead hne (t := "/" ++ path) (by simp)⟩
      rw [pieces, String.toList_append, String.toList_append, List.append_assoc]
      exact (congrArg _ (split_append_cons rfl _ _)).trans (by simp [pieces])

end Paths

section Writing

variable {f g : Files} {directory path content : String} {names : List String} {last : String}

/-- The place to which a path leads when missing directories are made. -/
def leadsTo (f : Files) (path : String) : Place := (segmentsOf (· == '/') path).foldl follow (f.startOf path)

theorem eq_of_makeDirectory {p : Place} (h : f.makeDirectory path = .ok p) : p = f.leadsTo path :=
  eq_of_make (makeDirectory_eq_ok.1 h).2

theorem write_eq_error {cause : FileCause} (h : f.makeDirectory (splitName path).1 = .error cause) :
    ∃ cause', f.write path content = .error cause' := by
  unfold write
  cases pathFault? path with
  | some fault => exact ⟨fault, rfl⟩
  | none => exact ⟨cause, by dsimp only; rw [h]; rfl⟩

variable (directory) in
/-- A path below a directory is cut into the directory with the names before the last one, and that one. -/
theorem splitName_join (hstart : startsWith "/" path = false) (hpath : pieces (· == '/') path = names ++ [last])
    (hnames : ∀ n ∈ names, IsPlain n) : ∃ parent, splitName (join directory path) = (parent, last) ∧
      startsWith "/" parent = startsWith "/" directory ∧
      segmentsOf (· == '/') parent = segmentsOf (· == '/') directory ++ names ∧
      (pathFault? (join directory path) = none → pathFault? parent = none) := by
  obtain ⟨before, hsplit, hparent, hroot, hfault⟩ := splitName_spec (join directory path)
  obtain ⟨before', hjoin, hdirectory, hroot'⟩ := pieces_join directory hstart
  rw [hjoin, hpath, ← List.append_assoc] at hsplit
  obtain ⟨hbefore, hlast⟩ := List.append_inj' hsplit rfl
  have hsegments : segmentsOf (· == '/') (splitName (join directory path)).1 =
      segmentsOf (· == '/') directory ++ names := by
    rw [← hparent, ← hbefore, List.filter_append, hdirectory]
    exact congrArg _ (List.filter_eq_self.2 fun n hn => by simpa using (hnames n hn).ne_empty)
  exact ⟨(splitName (join directory path)).1, Prod.ext rfl (List.singleton_inj.1 hlast).symm,
    hroot.trans hroot', hsegments, hfault⟩

/-- **When a file can be written** at a path below a directory. -/
theorem write_join_eq_ok (hstart : startsWith "/" path = false) (hpath : pieces (· == '/') path = names ++ [last])
    (hnames : ∀ n ∈ names, IsPlain n) : f.write (join directory path) content = .ok g ↔
      pathFault? (join directory path) = none ∧
        f.make (f.startOf directory) (segmentsOf (· == '/') directory ++ names) =
          .ok (f.leadsTo directory ++ names) ∧
        isLongName last = false ∧ f.hasDirectory (f.leadsTo directory ++ names ++ [last]) = false ∧
        g = { f with contents := putContent (f.leadsTo directory ++ names ++ [last]) content f.contents } := by
  obtain ⟨parent, hsplit, hroot, hsegments, hfault⟩ := splitName_join directory hstart hpath hnames
  have hmade : ∀ q, f.makeDirectory parent = .ok q ↔ pathFault? parent = none ∧
      f.make (f.startOf directory) (segmentsOf (· == '/') directory ++ names) = .ok q := fun q => by
    rw [makeDirectory_eq_ok, hsegments, startOf, hroot, startOf]
  have hplace : ∀ q, f.make (f.startOf directory) (segmentsOf (· == '/') directory ++ names) = .ok q →
      q = f.leadsTo directory ++ names := fun q hq => by
    rw [eq_of_make hq, List.foldl_append, foldl_follow hnames]
    rfl
  rw [write, hsplit]
  cases hjoined : pathFault? (join directory path) with
  | some fault => simp
  | none =>
    dsimp only
    cases hq : f.makeDirectory parent with
    | error cause =>
      have hfails : ∀ q, f.make (f.startOf directory) (segmentsOf (· == '/') directory ++ names) ≠ .ok q :=
        fun q h => by
          rw [(hmade q).2 ⟨hfault hjoined, h⟩] at hq
          cases hq
      simp [Except.bind, hfails]
    | ok q =>
      have hmake := ((hmade q).1 hq).2
      obtain rfl := hplace q hmake
      cases hlong : isLongName last
      · cases hbelow : f.hasDirectory (f.leadsTo directory ++ names ++ [last])
        · simp only [Except.bind, hbelow, hmake, Bool.false_eq_true, if_false, Except.ok.injEq, true_and]
          exact eq_comm
        · simp only [Except.bind, hbelow, Bool.false_eq_true, if_true, if_false, false_and, and_false, reduceCtorEq]
      · simp [Except.bind]

/-- **A file that is written** below a directory is at the names of its path. -/
theorem eq_of_write_join (hstart : startsWith "/" path = false) (hplain : ∀ n ∈ pieces (· == '/') path, IsPlain n)
    (h : f.write (join directory path) content = .ok g) :
    g = { f with contents := putContent (f.leadsTo directory ++ pieces (· == '/') path) content f.contents } := by
  rcases List.eq_nil_or_concat (pieces (· == '/') path) with hnil | ⟨names, last, hpath⟩
  · exact absurd (List.map_eq_nil_iff.1 hnil) (split_ne_nil _ _)
  · rw [List.concat_eq_append] at hpath
    rw [hpath] at hplain ⊢
    rw [← List.append_assoc]
    exact ((write_join_eq_ok hstart hpath fun n hn => hplain n (List.mem_append_left _ hn)).1 h).2.2.2.2

end Writing

end Files
end OpenApiClient
