/-
# Files with known values

To say what bundling gives for some files at hand is to compute it, and most of that is reading: a text
is read again for each reference that leads into its file. So the values of the files are told first
(`Holds`), each from the characters of its text. Taking then looks them up (`takeFrom`), and gives what
`take` gives (`Holds.takeFrom_eq`).
-/

import OpenApiClient.Bundle

namespace OpenApiClient
namespace Bundle

/-- How the document of a file is bundled. -/
theorem ofFile_eq {files : Files} {path : String} {root : Place} {document : Json}
    (hcanonical : files.canonical path = .ok root) (hread : readFile files root = .ok document) :
    ofFile files path = ((relink (localForm? files (take files (referenceCount files + 1))
      root.dropLast none) document).run { taken := ownSchemas document }).bind fun run =>
        if run.2.added.isEmpty then .ok ⟨run.1, []⟩
        else (withSchemas run.1 run.2.added).map (⟨·, run.2.added.keys⟩) := by
  rw [ofFile, hcanonical]
  change (readFile files root).bind _ = _
  rw [hread]
  change ((relink (localForm? files (take files (referenceCount files + 1)) root.dropLast none)
    document).run { taken := ownSchemas document }).bind _ = _
  refine congrArg (Except.bind _) (funext fun run => ?_)
  dsimp only
  split
  · rfl
  · cases withSchemas run.1 run.2.added <;> rfl

/-- What a text is read as, from its characters. -/
theorem parse_of_toList {text : String} {cs : List Char} {j : Json} (hchars : text.toList = cs)
    (hvalue : ((Json.Reader.value? Json.depthLimit (2 * cs.length + 1) 0 cs).bind fun x =>
      if (Json.Reader.skipSpaces x.2).isEmpty then Tree.json? x.1 else none) = some j) :
    parse true text = .ok j := by
  subst hchars
  obtain ⟨⟨t, rest⟩, ht, hj⟩ := Option.bind_eq_some_iff.1 hvalue
  simp only at hj
  split at hj
  · next hrest => simp [parse, Json.readDocument?, Json.read?, ht, hrest, hj]
  · cases hj

/-- The documents are the values of the files, in their order. -/
inductive Holds : List (Place × String) → List (Place × Json) → Prop where
  | nil : Holds [] []
  | cons {place : Place} {text : String} {j : Json} {contents : List (Place × String)}
      {documents : List (Place × Json)} (value : parse (isJsonFile place) text = .ok j)
      (others : Holds contents documents) :
      Holds ((place, text) :: contents) ((place, j) :: documents)

section Known

variable {files : Files} {documents : List (Place × Json)}

/-- A file of JSON, named from the working directory, with the value of its text. -/
theorem Holds.entry {base name text : String} {place : Place} {j : Json}
    {contents : List (Place × String)} (hplace : Place.ofPath base ++ Place.ofPath name = place)
    (hjson : isJsonFile place = true) (hparse : parse true text = .ok j)
    (h : Holds contents documents) :
    Holds ((Place.ofPath base ++ Place.ofPath name, text) :: contents) ((place, j) :: documents) := by
  subst hplace
  exact .cons (hjson ▸ hparse) h

theorem Holds.exists_text {contents : List (Place × String)} {p : Place} {j : Json}
    (h : Holds contents documents) (hj : documents.lookup p = some j) :
    ∃ text, contents.lookup p = some text ∧ parse (isJsonFile p) text = .ok j := by
  induction h with
  | nil => cases hj
  | @cons place text j' contents documents hvalue _ ih =>
    rw [List.lookup_cons] at hj ⊢
    split at hj
    · next hp =>
      obtain rfl := Option.some.inj hj
      obtain rfl : p = place := eq_of_beq hp
      exact ⟨text, by simp, hvalue⟩
    · exact ih hj

theorem Holds.readFile {p : Place} {j : Json} (h : Holds files.contents documents)
    (hj : documents.lookup p = some j) : readFile files p = .ok j := by
  obtain ⟨text, htext, hparse⟩ := h.exists_text hj
  rw [Bundle.readFile, Files.read, Files.content?, htext]
  exact hparse

theorem Holds.schemaAt {a : Address} {j x : Json} (h : Holds files.contents documents)
    (hj : documents.lookup a.file = some j) (hx : pointee? j a.pointer = some x) :
    schemaAt files a = .ok x := by
  rw [Bundle.schemaAt, h.readFile hj, Except.bind, hx]

/-- The references of all texts are those of the documents. -/
theorem Holds.flatMap_referencesOf {contents : List (Place × String)} (h : Holds contents documents) :
    (contents.flatMap fun e => referencesOf (isJsonFile e.1) e.2) =
      documents.flatMap fun d => references d.2 := by
  induction h with
  | nil => rfl
  | cons hvalue _ ih => rw [List.flatMap_cons, List.flatMap_cons, ih, referencesOf, hvalue]

variable (files documents)

/-- The schema at an address, in the documents if they have the file. -/
def schemaFrom (a : Address) : Except LoadError Json :=
  match (documents.lookup a.file).bind (pointee? · a.pointer) with
  | some schema => .ok schema
  | none => Bundle.schemaAt files a

/-- Taking where schemas are looked up in the documents. -/
def takeFrom : (fuel : Nat) → Address → Taking String
  | 0, a => throw (.reference (.circular a.pointer))
  | fuel + 1, a => do
    match (← get).imported.lookup a with
    | some name => return name
    | none =>
      let schema ← schemaFrom files documents a
      let name := (← get).freeName (naturalName a) schema
      modify fun s => { s with
        imported := (a, name) :: s.imported, taken := s.taken.put name schema }
      let schema ← relink (localForm? files (takeFrom fuel) a.file.dropLast (some a.file)) schema
      modify fun s => { s with added := s.added ++ [(name, schema)] }
      return name

/-- The references of a document replaced, where schemas are looked up in the documents. -/
def linkFrom (root : Place) (document : Json) : Except LoadError (Json × State) :=
  (relink (localForm? files (takeFrom files documents
    ((documents.flatMap fun d => references d.2).length + 1)) root.dropLast none) document).run
      { taken := ownSchemas document }

variable {files documents}

theorem Holds.schemaFrom_eq (h : Holds files.contents documents) :
    schemaFrom files documents = Bundle.schemaAt files := by
  funext a
  rw [schemaFrom]
  split
  · next schema ha =>
    obtain ⟨j, hj, hx⟩ := Option.bind_eq_some_iff.1 ha
    exact (h.schemaAt hj hx).symm
  · rfl

/-- **Taking from the documents** is taking from the files. -/
theorem Holds.takeFrom_eq (h : Holds files.contents documents) (fuel : Nat) :
    takeFrom files documents fuel = take files fuel := by
  induction fuel with
  | zero => rfl
  | succ fuel ih =>
    funext a
    rw [takeFrom, ih, h.schemaFrom_eq]
    rfl

theorem Holds.linkFrom_eq (h : Holds files.contents documents) (root : Place) (document : Json) :
    linkFrom files documents root document =
      (relink (localForm? files (take files (Bundle.referenceCount files + 1)) root.dropLast none)
        document).run { taken := ownSchemas document } := by
  rw [linkFrom, h.takeFrom_eq, referenceCount, h.flatMap_referencesOf]

/-- The document of a file is bundled from the documents. -/
theorem Holds.ofFile_eq {path : String} {root : Place} {document : Json}
    (h : Holds files.contents documents) (hcanonical : files.canonical path = .ok root)
    (hroot : documents.lookup root = some document) :
    ofFile files path = (linkFrom files documents root document).bind fun run =>
      if run.2.added.isEmpty then .ok ⟨run.1, []⟩
      else (withSchemas run.1 run.2.added).map (⟨·, run.2.added.keys⟩) := by
  rw [Bundle.ofFile_eq hcanonical (h.readFile hroot), h.linkFrom_eq]

end Known

end Bundle
end OpenApiClient
