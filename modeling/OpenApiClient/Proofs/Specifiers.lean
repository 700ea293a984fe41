/-
# Where specifiers lead

A path is walked name by name from a directory: a dot stays, two dots lead out. The specifier of the
module of a component is the way from a site to the component's file, so that walking it leads there
from wherever it is written (`walk_specifier`). What is written after the way is walked like any
text after a path; this is why nothing is assumed of the extension, but that it is written at all: a
way that ends with it already gets no other.
-/

import Mathlib
import OpenApiClient.Module.Specifier
import OpenApiClient.Naming

namespace OpenApiClient
namespace Module

open Text

section Walking

/-- The place to which one more name leads. -/
def follow (directory : List String) (name : String) : List String :=
  if name = "" ∨ name = "." then directory
  else if name = ".." then directory.dropLast
  else directory ++ [name]

/-- The place to which a path leads from a directory. -/
def walk (directory : List String) (path : String) : List String :=
  (pieces (· == '/') path).foldl follow directory

/-- The name is of a file or a directory, and no step up. -/
structure IsPlain (name : String) : Prop where
  noSlash : '/' ∉ name.toList
  ne_empty : name ≠ ""
  ne_dot : name ≠ "."
  ne_dots : name ≠ ".."

theorem pieces_of_noSlash {name : String} (h : '/' ∉ name.toList) :
    pieces (· == '/') name = [name] := by
  rw [pieces, split_eq_singleton fun c hc => ?_]
  · simp
  · have : c ≠ '/' := fun he => h (he ▸ hc)
    simp [this]

variable {directory : List String}

theorem walk_of_noSlash {name : String} (h : '/' ∉ name.toList) :
    walk directory name = follow directory name := by
  rw [walk, pieces_of_noSlash h, List.foldl_cons, List.foldl_nil]

/-- What follows a slash is walked from where the path before it leads. -/
theorem walk_slash (a b : String) : walk directory (a ++ "/" ++ b) = walk (walk directory a) b := by
  have : (a ++ "/" ++ b).toList = a.toList ++ '/' :: b.toList := by simp
  rw [walk, pieces, this, split_append_cons (by decide), List.map_append, List.foldl_append]
  rfl

/-- **Names joined by slashes** are followed one after another; what is written after the last one
belongs to it. -/
theorem walk_intercalate {names : List String} (h : ∀ n ∈ names, '/' ∉ n.toList)
    (last tail : String) :
    walk directory ("/".intercalate (names ++ [last]) ++ tail) =
      walk (names.foldl follow directory) (last ++ tail) := by
  induction names generalizing directory with
  | nil => simp
  | cons n names ih =>
    rw [List.cons_append, String.intercalate_cons_of_ne_nil (by simp), String.append_assoc,
      walk_slash, walk_of_noSlash (h n (by simp)), ih fun m hm => h m (by simp [hm])]
    rfl

theorem follow_of_isPlain {name : String} (h : IsPlain name) :
    follow directory name = directory ++ [name] := by
  simp [follow, h.ne_empty, h.ne_dot, h.ne_dots]

theorem foldl_follow {names : List String} (h : ∀ n ∈ names, IsPlain n) :
    names.foldl follow directory = directory ++ names := by
  induction names generalizing directory with
  | nil => simp
  | cons n names ih =>
    rw [List.foldl_cons, follow_of_isPlain (h n (by simp)), ih fun m hm => h m (by simp [hm])]
    simp

theorem foldl_follow_up (n : Nat) :
    (List.replicate n "..").foldl follow directory = directory.take (directory.length - n) := by
  induction n generalizing directory with
  | zero => simp
  | succ n ih =>
    have : follow directory ".." = directory.dropLast := by simp [follow]
    rw [List.replicate_succ, List.foldl_cons, ih, this, List.dropLast_eq_take, List.take_take,
      List.length_take]
    congr 1
    omega

end Walking

section Ways

theorem take_shared (as bs : List String) :
    as.take (Site.shared as bs) = bs.take (Site.shared as bs) := by
  induction as generalizing bs with
  | nil => simp [Site.shared]
  | cons a as ih =>
    cases bs with
    | nil => simp [Site.shared]
    | cons b bs =>
      rw [Site.shared]
      split
      · next h => simp [h, ih bs]
      · simp

theorem shared_le (as bs : List String) : Site.shared as bs ≤ as.length := by
  induction as generalizing bs with
  | nil => simp [Site.shared]
  | cons a as ih =>
    cases bs with
    | nil => simp [Site.shared]
    | cons b bs =>
      rw [Site.shared]
      split
      · simpa using ih bs
      · simp

theorem noSlash_of_dots {n : String} (h : n = "." ∨ n = "..") : '/' ∉ n.toList := by
  rcases h with rfl | rfl <;> decide

/-- The way to a file goes up to the directories that are shared, and from there on down. -/
theorem exists_way_eq (s : Site) (names : List String) (last : String) :
    ∃ first up, s.way names last =
        (first :: up ++ names.drop (Site.shared s.directory names)) ++ [last] ∧
      (∀ n ∈ first :: up, n = "." ∨ n = "..") ∧
      ∀ root, (first :: up).foldl follow (root ++ s.directory) =
        root ++ s.directory.take (Site.shared s.directory names) := by
  have hshared := shared_le s.directory names
  generalize hc : Site.shared s.directory names = common at hshared
  cases hups : s.directory.length - common with
  | zero =>
    refine ⟨".", [], by rw [Site.way, hc, hups]; rfl, by simp, fun root => ?_⟩
    rw [List.take_of_length_le (by omega)]
    simp [follow]
  | succ k =>
    refine ⟨"..", List.replicate k "..", by rw [Site.way, hc, hups]; rfl, fun n hn => ?_,
      fun root => ?_⟩
    · rw [← List.replicate_succ] at hn
      exact .inr (List.mem_replicate.1 hn).2
    · rw [← List.replicate_succ, foldl_follow_up, ← hups, List.length_append,
        List.take_append]
      congr 1
      · exact List.take_of_length_le (by omega)
      · congr 1
        omega

/-- **The way to a file** leads there from below any root, if the directories that are shared have plain
names; what is written after it belongs to the name of the file. -/
theorem walk_way_from (s : Site) {names : List String} (h : ∀ n ∈ names, '/' ∉ n.toList)
    (hshared : ∀ n ∈ names.take (Site.shared s.directory names), IsPlain n) (root : List String)
    (last tail : String) :
    walk (root ++ s.directory) ("/".intercalate (s.way names last) ++ tail) =
      walk (names.foldl follow root) (last ++ tail) := by
  obtain ⟨first, up, hway, hdots, hup⟩ := exists_way_eq s names last
  have hnoSlash : ∀ n ∈ first :: up ++ names.drop (Site.shared s.directory names),
      '/' ∉ n.toList := fun n hn =>
    (List.mem_append.1 hn).elim (fun hn => noSlash_of_dots (hdots n hn))
      fun hn => h n (List.mem_of_mem_drop hn)
  rw [hway, walk_intercalate hnoSlash, List.foldl_append, hup, take_shared, ← foldl_follow hshared,
    ← List.foldl_append, List.take_append_drop]

/-- The way to a directory leads there. -/
theorem walk_way (s : Site) {names : List String} (h : ∀ n ∈ names, IsPlain n) (last tail : String) :
    walk s.directory ("/".intercalate (s.way names last) ++ tail) = walk names (last ++ tail) := by
  have hwalk := walk_way_from s (fun n hn => (h n hn).noSlash)
    (fun n hn => h n (List.mem_of_mem_take hn)) [] last tail
  rwa [List.nil_append, foldl_follow h, List.nil_append] at hwalk

end Ways

section Components

/-- The names on the way to the file of a component. -/
def placeOf (component : String) : List String :=
  (segmentsOf Naming.isQualifier component).map (replaceCharIn '/' "_")

theorem mem_segmentsOf {p : Char → Bool} {s w : String} (h : w ∈ segmentsOf p s) :
    w ≠ "" ∧ ∀ c ∈ w.toList, p c = false := by
  obtain ⟨cs, hcs, rfl⟩ := List.mem_map.1 h
  obtain ⟨hcs, hne⟩ := List.mem_filter.1 hcs
  refine ⟨fun he => ?_, by simpa using not_of_mem_split hcs⟩
  have : cs = [] := by simpa using congrArg String.toList he
  simp [this] at hne

/-- The names on the way to the file of a component hold no dot. -/
theorem noDot_of_mem_placeOf {component n : String} (h : n ∈ placeOf component) : '.' ∉ n.toList := by
  obtain ⟨w, hw, rfl⟩ := List.mem_map.1 h
  rw [toList_replaceCharIn, List.mem_flatMap]
  rintro ⟨c, hc, he⟩
  split at he
  · simp at he
  · have := (mem_segmentsOf hw).2 c hc
    rw [← List.mem_singleton.1 he] at this
    revert this
    decide

/-- The names on the way to the file of a component are plain. -/
theorem isPlain_of_mem_placeOf {component n : String} (h : n ∈ placeOf component) : IsPlain n := by
  have hdot := noDot_of_mem_placeOf h
  obtain ⟨w, hw, rfl⟩ := List.mem_map.1 h
  have hslash : '/' ∉ (replaceCharIn '/' "_" w).toList := by
    rw [toList_replaceCharIn, List.mem_flatMap]
    rintro ⟨c, hc, he⟩
    split at he
    · simp at he
    · next h => exact h (List.mem_singleton.1 he).symm
  have hempty : replaceCharIn '/' "_" w ≠ "" := by
    intro he
    have hnil := congrArg String.toList he
    rw [toList_replaceCharIn] at hnil
    obtain ⟨c, cs, hcs⟩ :=
      List.exists_cons_of_ne_nil fun h => (mem_segmentsOf hw).1 (String.toList_inj.1 h)
    rw [hcs, List.flatMap_cons] at hnil
    split at hnil <;> simp at hnil
  exact ⟨hslash, hempty, fun h => hdot (by rw [h]; decide), fun h => hdot (by rw [h]; decide)⟩

theorem pieces_intercalate {names : List String} (h : ∀ n ∈ names, '/' ∉ n.toList)
    (hne : names ≠ []) : pieces (· == '/') ("/".intercalate names) = names := by
  induction names with
  | nil => exact absurd rfl hne
  | cons n names ih =>
    by_cases hn : names = []
    · simp [hn, pieces_of_noSlash (h n (by simp))]
    · have : (n ++ "/" ++ "/".intercalate names).toList =
          n.toList ++ '/' :: ("/".intercalate names).toList := by simp
      rw [String.intercalate_cons_of_ne_nil hn, pieces, this, split_append_cons (by decide),
        List.map_append]
      change pieces _ n ++ pieces _ ("/".intercalate names) = _
      rw [pieces_of_noSlash (h n (by simp)), ih (fun m hm => h m (by simp [hm])) hn]
      rfl

theorem segmentsOf_eq_filter (p : Char → Bool) (s : String) :
    segmentsOf p s = (pieces p s).filter (· ≠ "") := by
  rw [segmentsOf, segments, pieces, List.filter_map]
  refine congrArg _ (List.filter_congr fun cs _ => ?_)
  cases cs <;> simp

/-- The segments of the path of a component are the names on the way to its file. -/
theorem segmentsOf_qualifiedPath (component : String) :
    segmentsOf (· == '/') (Naming.qualifiedPath component) = placeOf component := by
  have hplain : ∀ n ∈ placeOf component, IsPlain n := fun n hn => isPlain_of_mem_placeOf hn
  change segmentsOf (· == '/') ("/".intercalate (placeOf component)) = placeOf component
  by_cases hne : placeOf component = []
  · rw [hne]
    decide
  · rw [segmentsOf_eq_filter, pieces_intercalate (fun n hn => (hplain n hn).noSlash) hne]
    exact List.filter_eq_self.2 fun n hn => by simpa using (hplain n hn).ne_empty

namespace Site

/-- The way to the file of a component, without an ending. -/
def wayTo (s : Site) (component : String) : String :=
  "/".intercalate (s.way (placeOf component).dropLast ((placeOf component).getLast?.getD ""))

/-- The way to the file of a component ends with the extension, which is not written again. -/
def Omits (s : Site) (component : String) : Prop :=
  s.extension ≠ "" ∧ endsWith s.extension (s.wayTo component) = true

theorem specifier_modelModule (s : Site) (component : String) :
    s.specifier (Naming.modelModule component) = s.extended (s.wayTo component) := by
  have hdrop : ∀ path, dropStart? "./" ("./" ++ path) = some path := fun path => by
    simp [dropStart?, List.isPrefixOf?]
  rw [specifier, Naming.modelModule, hdrop]
  simp only [segmentsOf_qualifiedPath]
  rfl

/-- The specifier of the module of a component is the way to its file and the extension. -/
theorem specifier_eq_append {s : Site} {component : String} (h : ¬ s.Omits component) :
    s.specifier (Naming.modelModule component) = s.wayTo component ++ s.extension := by
  rw [specifier_modelModule, extended]
  by_cases he : s.extension = ""
  · simp [he]
  · have hend : endsWith s.extension (s.wayTo component) = false := by simpa [Omits, he] using h
    have : s.extension.isEmpty = false := by simpa using he
    simp [hend, this]

/-- **The specifier of the module of a component leads to the component's file**, from wherever it is
written. -/
theorem walk_specifier {s : Site} {component : String} (h : ¬ s.Omits component) :
    walk s.directory (s.specifier (Naming.modelModule component)) =
      walk [] (Naming.qualifiedPath component ++ s.extension) := by
  have hplain : ∀ n ∈ placeOf component, IsPlain n := fun n hn => isPlain_of_mem_placeOf hn
  have hinit : ∀ n ∈ (placeOf component).dropLast, IsPlain n := fun n hn =>
    hplain n (List.dropLast_subset _ hn)
  rw [specifier_eq_append h, wayTo, walk_way s hinit]
  change _ = walk [] ("/".intercalate (placeOf component) ++ s.extension)
  rcases List.eq_nil_or_concat (placeOf component) with hnil | ⟨init, last, hlast⟩
  · simp [hnil]
  · rw [hlast] at hinit ⊢
    simp only [List.concat_eq_append, List.dropLast_concat, List.getLast?_append,
      List.getLast?_singleton, Option.some_or, Option.getD_some] at hinit ⊢
    rw [walk_intercalate fun n hn => (hinit n hn).noSlash, foldl_follow hinit, List.nil_append]

end Site

end Components

end Module
end OpenApiClient
