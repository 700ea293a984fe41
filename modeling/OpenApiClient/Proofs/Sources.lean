/-
# Files of a run

A file that is written takes the place of the one at its path, or is a new one. What holds of each file
is told by `Sources.Each`: it is kept when a file is written of which it holds.

With different names, the declarations of a file are found by them, and changing one leaves the others
alone (`adjustFirst_eq_map`).
-/

import OpenApiClient.Module.File
import OpenApiClient.Proofs.Entries

namespace OpenApiClient
namespace Module

open TypeScript

namespace Sources

variable {s : Sources} {f : File} {path : String} {P Q : String → File → Prop}

theorem at?_put (s : Sources) (f : File) (path : String) :
    (s.put f).at? path = if path = f.path then some f else s.at? path :=
  Entries.at?_put ..

/-- The file at a path has that path. -/
theorem path_of_at? (h : s.at? path = some f) : f.path = path := s.placed _ (Entries.mem_of_at? h)

theorem openFile_of_at? (origin : String) (h : s.at? path = some f) : s.openFile path origin = f := by
  rw [openFile, h, Option.getD_some]

/-- What holds of the file that is there, and of a new one, holds of the file that is opened. -/
theorem openFile_cases {P : File → Prop} (origin : String) (h : ∀ f, s.at? path = some f → P f)
    (hb : s.at? path = none → P (s.blank path origin)) : P (s.openFile path origin) := by
  unfold openFile
  cases hf : s.at? path with
  | none => exact hb hf
  | some f => exact h f hf

/-- It holds of each file and its path. -/
def Each (P : String → File → Prop) (s : Sources) : Prop := ∀ path f, s.at? path = some f → P path f

theorem Each.mono (h : s.Each P) (hP : ∀ path f, P path f → Q path f) : s.Each Q :=
  fun path f hf => hP path f (h path f hf)

/-- **A file is written**; the others stay as they were. -/
theorem Each.put (h : s.Each P) (hf : Q f.path f) (hP : ∀ path g, path ≠ f.path → P path g → Q path g) :
    (s.put f).Each Q := by
  intro path g hg
  rw [at?_put] at hg
  split at hg
  · next hp =>
    obtain rfl := Option.some.inj hg
    exact hp ▸ hf
  · next hp => exact hP path g hp (h path g hg)

end Sources

section Adjusting

variable {name : String} {change : Declaration → Declaration} {ds : List Declaration}

/-- A change keeps of all declarations what it keeps of those that it changes. -/
theorem map_adjustFirst {β : Type} {p : Declaration → β}
    (h : ∀ d ∈ ds, d.name = name → p (change d) = p d) :
    (File.adjustFirst name change ds).map p = ds.map p := by
  induction ds with
  | nil => rfl
  | cons d ds ih =>
    rw [File.adjustFirst]
    by_cases hd : d.name = name
    · simp [hd, h d (by simp) hd]
    · simp [hd, ih fun e he => h e (List.mem_cons_of_mem _ he)]

/-- A change that keeps the name of what it changes keeps all names. -/
theorem map_name_adjustFirst (h : ∀ d ∈ ds, d.name = name → (change d).name = name) :
    (File.adjustFirst name change ds).map (·.name) = ds.map (·.name) :=
  map_adjustFirst fun d hd hn => (h d hd hn).trans hn.symm

/-- What is there after a change was there before, or is what the change made of something. -/
theorem mem_adjustFirst {d : Declaration} (h : d ∈ File.adjustFirst name change ds) :
    d ∈ ds ∨ ∃ e ∈ ds, d = change e := by
  induction ds with
  | nil => cases h
  | cons e ds ih =>
    rw [File.adjustFirst] at h
    split at h
    · rcases List.mem_cons.1 h with rfl | h
      · exact .inr ⟨e, List.mem_cons_self, rfl⟩
      · exact .inl (List.mem_cons_of_mem _ h)
    · rcases List.mem_cons.1 h with rfl | h
      · exact .inl List.mem_cons_self
      · exact (ih h).imp (List.mem_cons_of_mem _) fun ⟨e', he', heq⟩ =>
          ⟨e', List.mem_cons_of_mem _ he', heq⟩

/-- With different names, changing the first declaration of a name changes all of them. -/
theorem adjustFirst_eq_map (hn : (ds.map (·.name)).Nodup) :
    File.adjustFirst name change ds = ds.map fun d => if d.name = name then change d else d := by
  induction ds with
  | nil => rfl
  | cons d ds ih =>
    simp only [List.map_cons, List.nodup_cons] at hn
    rw [File.adjustFirst, List.map_cons]
    by_cases hd : d.name = name
    · have hrest : ds.map (fun d => if d.name = name then change d else d) = ds := by
        refine (List.map_congr_left fun e he => ?_).trans (List.map_id ds)
        exact if_neg fun h => hn.1 (List.mem_map.2 ⟨e, he, h.trans hd.symm⟩)
      simp [hd, hrest]
    · simp [hd, ih hn.2]

/-- With different names, a declaration is found by its name. -/
theorem declaration?_of_mem {f : File} {d : Declaration} (hn : (f.declarations.map (·.name)).Nodup)
    (hd : d ∈ f.declarations) : f.declaration? d.name = some d := by
  unfold File.declaration?
  generalize f.declarations = ds at hn hd
  induction ds with
  | nil => simp at hd
  | cons e ds ih =>
    simp only [List.map_cons, List.nodup_cons] at hn
    rcases List.mem_cons.1 hd with rfl | hd
    · simp
    · have he : e.name ≠ d.name := fun h => hn.1 (h ▸ List.mem_map.2 ⟨d, hd, rfl⟩)
      simp [he, ih hn.2 hd]

end Adjusting

end Module
end OpenApiClient
