/-
# Files under construction

The files of a run, by their paths below the output root and in the order in which they were made.
A file is written as sections divided by empty lines: its imports, each of its declarations, its
exports. Only those imports are written that a declaration or an export refers to. A file without
declarations and exports is not written at all.
-/

import OpenApiClient.Module.Bindings
import OpenApiClient.TypeScript.Printer

namespace OpenApiClient
namespace Module

open TypeScript

/-- A file under construction. -/
structure File where
  path : String
  /-- The pass that made the file. -/
  origin : String
  bindings : Bindings
  declarations : List Declaration := []

namespace File

/-- The declaration of a name. -/
def declaration? (f : File) (name : String) : Option Declaration :=
  f.declarations.find? (·.name == name)

/-- Declarations with the first of a name changed. -/
def adjustFirst (name : String) (change : Declaration → Declaration) :
    List Declaration → List Declaration
  | [] => []
  | d :: ds => if d.name == name then change d :: ds else d :: adjustFirst name change ds

/-- The file with the declaration of a name changed. -/
def adjust (f : File) (name : String) (change : Declaration → Declaration) : File :=
  { f with declarations := adjustFirst name change f.declarations }

/-- The file with one more declaration. -/
def push (f : File) (d : Declaration) : File := { f with declarations := f.declarations ++ [d] }

/-- Whether there is nothing to write. -/
def isEmpty (f : File) : Bool := f.declarations.isEmpty && f.bindings.exports.isEmpty

/-- The bindings that declarations and exports refer to. -/
def used (f : File) : List String :=
  f.declarations.flatMap (·.identifiers) ++ f.bindings.exports.locals

/-- Lines as a section; none when there are no lines. -/
def section? (lines : List String) : Option String :=
  if lines.isEmpty then none else some ("\n".intercalate lines)

theorem toList_section? (lines : List String) :
    (section? lines).toList = if lines = [] then [] else ["\n".intercalate lines] := by
  cases lines <;> rfl

/-- The text of the file. -/
def text (f : File) : String :=
  "\n\n".intercalate
    ((section? (f.bindings.imports.lines f.used)).toList ++ f.declarations.map (·.text) ++
      (section? f.bindings.exports.lines).toList) ++ "\n"

end File

/-- A file as it is written. -/
structure Output where
  path : String
  content : String
  /-- The pass that made the file. -/
  origin : String
deriving DecidableEq, Repr

/-- The files of a run. -/
structure Sources where
  extension : String
  suffixing : Suffixing
  files : Entries File := []
  /-- Each file is at its path. -/
  placed : ∀ e ∈ files, e.2.path = e.1 := by simp

namespace Sources

/-- The file at a path. -/
def at? (s : Sources) (path : String) : Option File := s.files.at? path

/-- Whether there is a file at the path. -/
def contains (s : Sources) (path : String) : Bool := s.files.has path

/-- A file without content. -/
def blank (s : Sources) (path origin : String) : File :=
  { path, origin, bindings := .ofFile path s.extension s.suffixing }

/-- The file at a path, or a new one made by `origin`. -/
def openFile (s : Sources) (path origin : String) : File :=
  (s.at? path).getD (s.blank path origin)

/-- The files with one written at its path. -/
def put (s : Sources) (f : File) : Sources where
  extension := s.extension
  suffixing := s.suffixing
  files := s.files.put f.path f
  placed e he := by
    rcases Entries.mem_put he with rfl | he
    · rfl
    · exact s.placed e he

/-- The paths of the files that have nothing to write. -/
def skipped (s : Sources) : List String := (s.files.values.filter (·.isEmpty)).map (·.path)

/-- The files that have something to write. -/
def outputs (s : Sources) : List Output :=
  (s.files.values.filter (!·.isEmpty)).map fun f => ⟨f.path, f.text, f.origin⟩

end Sources

end Module
end OpenApiClient
