/-
# Specifiers are relative paths

A specifier of a module of the output starts at the directory of the importing file. Wherever the
output root lies, it leads from there to the place to which the module leads from the root, with the
extension in addition unless the specifier ended with it already (`specifier_leads`). Single dots and
steps up in the module make no difference; a step up in the path of the file would, since the way goes
up by the number of names in it.

From one file, the modules of components have different specifiers.
-/

import OpenApiClient.Proofs.Specifiers

namespace OpenApiClient
namespace Module

open Text

section Paths

variable {directory : List String}

/-- Names that lead nowhere may be left out. -/
theorem foldl_follow_filter (keep : String → Bool) {names : List String}
    (h : ∀ n ∈ names, keep n = false → n = "" ∨ n = ".") :
    (names.filter keep).foldl follow directory = names.foldl follow directory := by
  induction names generalizing directory with
  | nil => rfl
  | cons n names ih =>
    have ih : (names.filter keep).foldl follow (follow directory n) =
        names.foldl follow (follow directory n) := ih fun m hm => h m (List.mem_cons_of_mem _ hm)
    rw [List.foldl_cons, ← ih]
    cases hn : keep n with
    | true => rw [List.filter_cons_of_pos hn, List.foldl_cons]
    | false =>
      rw [List.filter_cons_of_neg (by simp [hn]), follow, if_pos (h n List.mem_cons_self hn)]

/-- Of a path the empty pieces may be left out. -/
theorem walk_eq_foldl (path : String) :
    walk directory path = (segmentsOf (· == '/') path).foldl follow directory := by
  rw [segmentsOf_eq_filter, foldl_follow_filter _ fun n _ hn => .inl (by simpa using hn), walk]

theorem noSlash_of_mem_pieces {path n : String} (h : n ∈ pieces (· == '/') path) : '/' ∉ n.toList := by
  obtain ⟨cs, hcs, rfl⟩ := List.mem_map.1 h
  rw [String.toList_ofList]
  exact fun hc => by simpa using not_of_mem_split hcs '/' hc

/-- What is written after a path belongs to its last name. -/
theorem walk_append {path last : String} {init : List String}
    (h : pieces (· == '/') path = init ++ [last]) (tail : String) :
    walk directory (path ++ tail) = walk (init.foldl follow directory) (last ++ tail) := by
  have hpath : path = "/".intercalate (init ++ [last]) := by
    rw [← String.toList_inj, String.toList_intercalate, ← h, pieces, List.map_map]
    simpa [Function.comp_def] using (intercalate_split '/' path.toList).symm
  rw [hpath]
  exact walk_intercalate (fun n hn => noSlash_of_mem_pieces (h ▸ List.mem_append_left _ hn)) last tail

end Paths

namespace Site

variable {path extension module : String}

/-- **The site of a file is its directory**, and has plain names, if no step of the path is up. -/
theorem directory_ofFile (extension : String) (h : ".." ∉ pieces (· == '/') path) :
    (ofFile path extension).directory = (walk [] path).dropLast ∧
      ∀ n ∈ (ofFile path extension).directory, IsPlain n := by
  have hplain : ∀ n ∈ (segmentsOf (· == '/') path).filter (· != "."), IsPlain n := fun n hn => by
    obtain ⟨hn, hdot⟩ := List.mem_filter.1 hn
    obtain ⟨hpiece, hempty⟩ := List.mem_filter.1 (segmentsOf_eq_filter .. ▸ hn)
    exact ⟨noSlash_of_mem_pieces hpiece, by simpa using hempty, by simpa using hdot,
      fun hup => h (hup ▸ hpiece)⟩
  refine ⟨?_, fun n hn => hplain n (List.dropLast_subset _ hn)⟩
  rw [walk_eq_foldl, ← foldl_follow_filter (· != ".") fun n _ hn => .inr (by simpa using hn),
    foldl_follow hplain, List.nil_append]
  rfl

/-- What is added to a specifier that is to end with the extension. -/
theorem extended_eq_append (s : Site) (specifier : String) :
    s.extended specifier = specifier ++ if endsWith s.extension specifier then "" else s.extension := by
  rw [extended]
  by_cases he : s.extension = ""
  · simp [he]
  · have : s.extension.isEmpty = false := by simpa using he
    cases endsWith s.extension specifier <;> simp [this]

theorem extended_of_isEmpty {s : Site} (h : s.extension = "") (specifier : String) :
    s.extended specifier = specifier := by
  rw [extended, h]
  rfl

/-- The way does not depend on the extension. -/
theorem way_ofFile (path extension extension' : String) :
    (ofFile path extension).way = (ofFile path extension').way := rfl

/-- The specifier of a module below the output root is the way to its last name, after the others. -/
theorem exists_way (hroot : startsWith "./" module = true)
    (hname : (pieces (· == '/') module).getLast? ≠ some "") :
    ∃ names last, pieces (· == '/') module = "." :: names ++ [last] ∧
      ∀ s : Site, s.specifier module =
        s.extended ("/".intercalate (s.way (names.filter (· ≠ "")) last)) := by
  obtain ⟨rest, hrest⟩ := List.isPrefixOf_iff_prefix.1 hroot
  have hpieces : pieces (· == '/') module = "." :: pieces (· == '/') (.ofList rest) := by
    have hsplit : split (· == '/') (['.'] ++ '/' :: rest) =
        split (· == '/') ['.'] ++ split (· == '/') rest := split_append_cons rfl ['.'] rest
    simp only [pieces, ← hrest, String.toList_ofList]
    exact congrArg (List.map String.ofList) hsplit
  have hdrop : dropStart? "./" module = some (.ofList rest) := dropStart?_of_append hrest
  rcases List.eq_nil_or_concat (pieces (· == '/') (.ofList rest)) with hnil | ⟨names, last, hlast⟩
  · rw [pieces, List.map_eq_nil_iff] at hnil
    exact absurd hnil (split_ne_nil _ _)
  rw [List.concat_eq_append] at hlast
  refine ⟨names, last, by rw [hpieces, hlast]; rfl, fun s => ?_⟩
  have hne : last ≠ "" := fun he => by
    rw [hpieces, hlast, he, ← List.cons_append] at hname
    exact hname List.getLast?_concat
  rw [specifier, hdrop]
  simp only
  rw [segmentsOf_eq_filter, hlast, List.filter_append, List.filter_singleton]
  simp [hne]

/-- A way starts at the importing file. -/
theorem isRelative_way (s : Site) (names : List String) (last tail : String) :
    isRelative ("/".intercalate (s.way names last) ++ tail) = true := by
  obtain ⟨first, up, hway, hdots, -⟩ := exists_way_eq s names last
  rw [hway, List.cons_append, List.cons_append, String.intercalate_cons_of_ne_nil (by simp)]
  rcases hdots first List.mem_cons_self with rfl | rfl <;> simp [isRelative, startsWith]

/-- **A specifier leads to its module**: where the module leads from the output root, with what was
added to the way. -/
theorem walk_specifier_of_pieces (hpath : ".." ∉ pieces (· == '/') path)
    (hroot : startsWith "./" module = true) (hname : (pieces (· == '/') module).getLast? ≠ some "")
    (root : List String) :
    walk (root ++ (walk [] path).dropLast) ((ofFile path extension).specifier module) =
      walk root (module ++
        if endsWith extension ((ofFile path "").specifier module) then "" else extension) := by
  obtain ⟨hdirectory, hplain⟩ := directory_ofFile extension hpath
  obtain ⟨names, last, hpieces, hspecifier⟩ := exists_way hroot hname
  have hnoSlash : ∀ n ∈ names.filter (· ≠ ""), '/' ∉ n.toList := fun n hn => by
    have hmem : n ∈ pieces (· == '/') module := by
      rw [hpieces]
      simp [List.mem_of_mem_filter hn]
    exact noSlash_of_mem_pieces hmem
  have hbare : (ofFile path "").specifier module =
      "/".intercalate ((ofFile path extension).way (names.filter (· ≠ "")) last) := by
    rw [hspecifier, extended_of_isEmpty rfl, way_ofFile path "" extension]
  rw [hbare, hspecifier, extended_eq_append, walk_append hpieces, ← hdirectory,
    walk_way_from _ hnoSlash fun n hn => hplain n ?_]
  · rw [foldl_follow_filter _ fun n _ hn => .inl (by simpa using hn)]
    rfl
  · rw [← take_shared] at hn
    exact List.mem_of_mem_take hn

/-- What stands after a slash decides whether a text ends with one that has none. -/
theorem endsWith_after_slash {ending : String} (h : '/' ∉ ending.toList) (start name : String) :
    endsWith ending (start ++ "/" ++ name) = endsWith ending name := by
  rw [Bool.eq_iff_iff, endsWith, endsWith, List.isSuffixOf_iff_suffix, List.isSuffixOf_iff_suffix]
  have htext : (start ++ "/" ++ name).toList = start.toList ++ '/' :: name.toList := by simp
  rw [htext]
  refine ⟨fun hends => ?_, fun hends => hends.trans ⟨start.toList ++ ['/'], by simp⟩⟩
  rcases List.suffix_or_suffix_of_suffix hends (List.suffix_append _ _) with hsuffix | hsuffix
  · rcases List.suffix_cons_iff.1 hsuffix with heq | hname
    · exact absurd (heq ▸ List.mem_cons_self) h
    · exact hname
  · exact absurd (hsuffix.subset List.mem_cons_self) h

/-- The way to the file of a component ends with no extension that starts with a dot. -/
theorem not_omits {s : Site} (hslash : '/' ∉ s.extension.toList)
    (hdot : startsWith "." s.extension = true) (component : String) : ¬ s.Omits component := by
  rintro ⟨-, hends⟩
  obtain ⟨rest, hrest⟩ := List.isPrefixOf_iff_prefix.1 hdot
  obtain ⟨first, up, hway, -⟩ := exists_way_eq s (placeOf component).dropLast
    ((placeOf component).getLast?.getD "")
  rw [wayTo, hway, String.intercalate_append_of_ne_nil (by simp) (by simp), String.intercalate_singleton,
    endsWith_after_slash hslash] at hends
  have hmem : '.' ∈ ((placeOf component).getLast?.getD "").toList :=
    (List.isSuffixOf_iff_suffix.1 hends).subset (hrest ▸ List.mem_cons_self)
  cases hlast : (placeOf component).getLast? with
  | none => simp [hlast] at hmem
  | some n => exact noDot_of_mem_placeOf (List.mem_of_getLast? hlast) (by simpa [hlast] using hmem)

/-- **The way to the file of a component** tells the names on it. -/
theorem walk_wayTo (s : Site) (component : String) :
    walk s.directory (s.wayTo component) = placeOf component := by
  have hbare : ¬ (⟨s.directory, ""⟩ : Site).Omits component := fun h => h.1 rfl
  have hplain : ∀ n ∈ placeOf component, IsPlain n := fun n hn => isPlain_of_mem_placeOf hn
  have hplace : walk [] (Naming.qualifiedPath component) = placeOf component := by
    rw [walk_eq_foldl, segmentsOf_qualifiedPath, foldl_follow hplain, List.nil_append]
  have hwalk := walk_specifier hbare
  rw [specifier_modelModule, String.append_empty, hplace] at hwalk
  exact hwalk

end Site

/-- **Specifiers point at their modules.**  From a file whose path has no step up, the specifier of a
module below the output root is a relative path; wherever the root lies, it leads to where the module
leads from the root, with the extension written after it unless the specifier without extension ends
with it already. If the extension starts with a dot, the modules of components have different
specifiers in one file. -/
theorem specifier_leads (path extension : String) :
    (".." ∉ pieces (· == '/') path → ∀ module, startsWith "./" module = true →
      (pieces (· == '/') module).getLast? ≠ some "" →
        isRelative ((Site.ofFile path extension).specifier module) = true ∧
        ∀ root, walk (root ++ (walk [] path).dropLast) ((Site.ofFile path extension).specifier module) =
          walk root (module ++
            if endsWith extension ((Site.ofFile path "").specifier module) then "" else extension)) ∧
      ('/' ∉ extension.toList → startsWith "." extension = true → ∀ c d,
        (Site.ofFile path extension).specifier (Naming.modelModule c) =
          (Site.ofFile path extension).specifier (Naming.modelModule d) →
            Naming.modelModule c = Naming.modelModule d) := by
  refine ⟨fun hpath module hroot hname => ⟨?_, Site.walk_specifier_of_pieces hpath hroot hname⟩,
    fun hslash hdot c d h => ?_⟩
  · obtain ⟨names, last, -, hspecifier⟩ := Site.exists_way hroot hname
    rw [hspecifier, Site.extended_eq_append]
    exact Site.isRelative_way ..
  · have hways : ∀ c, ¬ (Site.ofFile path extension).Omits c :=
      Site.not_omits (s := .ofFile path extension) hslash hdot
    rw [Site.specifier_eq_append (hways c), Site.specifier_eq_append (hways d)] at h
    have hway := (String.append_left_inj _).1 h
    have hplace : placeOf c = placeOf d := by
      rw [← Site.walk_wayTo (Site.ofFile path extension) c, hway, Site.walk_wayTo]
    exact congrArg (fun place => "./" ++ "/".intercalate place) hplace

/-- A file in a directory imports a module of another one, and two components with one module. -/
theorem specifier_leads_nested :
    let s := Site.ofFile "com/example/AccountEndpoint.ts" ".js"
    (".." ∉ pieces (· == '/') "com/example/AccountEndpoint.ts" ∧
        startsWith "./" "./com/other/Item" = true ∧
        (pieces (· == '/') "./com/other/Item").getLast? ≠ some "" ∧
        s.specifier "./com/other/Item" = "../other/Item.js" ∧ isRelative "../other/Item.js" = true ∧
        ∀ root, walk (root ++ ["com", "example"]) "../other/Item.js" = walk root "./com/other/Item.js") ∧
      ('/' ∉ ".js".toList ∧ startsWith "." ".js" = true ∧
        s.specifier (Naming.modelModule "com.other.Item$Key") =
          s.specifier (Naming.modelModule "com.other.Item.Key") ∧
        Naming.modelModule "com.other.Item$Key" = Naming.modelModule "com.other.Item.Key") := by
  intro s
  have hpath : ".." ∉ pieces (· == '/') "com/example/AccountEndpoint.ts" := by decide
  have hroot : startsWith "./" "./com/other/Item" = true := by decide
  have hname : (pieces (· == '/') "./com/other/Item").getLast? ≠ some "" := by decide
  have hspecifier : s.specifier "./com/other/Item" = "../other/Item.js" := by decide +kernel
  have hdirectory : (walk [] "com/example/AccountEndpoint.ts").dropLast = ["com", "example"] := by
    decide +kernel
  have hmodule : ("./com/other/Item" ++ if endsWith ".js"
      ((Site.ofFile "com/example/AccountEndpoint.ts" "").specifier "./com/other/Item") then ""
        else ".js") = "./com/other/Item.js" := by decide +kernel
  have hsame : s.specifier (Naming.modelModule "com.other.Item$Key") =
      s.specifier (Naming.modelModule "com.other.Item.Key") := by decide +kernel
  obtain ⟨hleads, hinj⟩ := specifier_leads "com/example/AccountEndpoint.ts" ".js"
  obtain ⟨hrelative, hwalk⟩ := hleads hpath "./com/other/Item" hroot hname
  rw [hdirectory, hmodule, hspecifier] at hwalk
  exact ⟨⟨hpath, hroot, hname, hspecifier, hspecifier ▸ hrelative, hwalk⟩, by decide, by decide, hsame,
    hinj (by decide) (by decide) _ _ hsame⟩

end Module
end OpenApiClient
