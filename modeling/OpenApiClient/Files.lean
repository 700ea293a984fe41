/-
# Files

A finite set of files, known by the names on the way to them from the root of the file system.
Directories are there as far as files lie in them, and those on the way to the working directory. A
path is followed name by name; every name but the last must be a directory, even if the next step
leads back out of it.

Writing a file makes the directories on the way to it.
-/

import OpenApiClient.Text.Split

namespace OpenApiClient

/-- Why a file cannot be read or written, or a directory be made. -/
inductive FileCause where
  | missing
  | present
  | notDirectory
  | isDirectory
  | tooLong
  /-- The path holds a null character. -/
  | null
deriving DecidableEq, Repr

/-- The words of the operating system. -/
def FileCause.message : FileCause → String
  | .missing => "No such file or directory (os error 2)"
  | .present => "File exists (os error 17)"
  | .notDirectory => "Not a directory (os error 20)"
  | .isDirectory => "Is a directory (os error 21)"
  | .tooLong => "File name too long (os error 36)"
  | .null => "file name contained an unexpected NUL byte"

/-- A file that cannot be read. -/
structure FileError where
  path : String
  cause : FileCause
deriving DecidableEq, Repr

/-- The text of the error. -/
def FileError.message (e : FileError) : String :=
  "failed to read " ++ e.path ++ ": " ++ e.cause.message

/-- The names on the way to a file or directory, from the root. -/
abbrev Place := List String

namespace Place

/-- The place that an absolute path names. -/
def ofPath (path : String) : Place := Text.segmentsOf (· == '/') path

/-- The absolute path of a place. -/
def path (p : Place) : String := "/" ++ "/".intercalate p

end Place

/-- The files that are there. -/
structure Files where
  /-- The working directory. -/
  base : Place
  /-- The files and their contents. -/
  contents : List (Place × String) := []
deriving Repr

/-- The greatest number of bytes of one name. -/
def nameLimit : Nat := 255

/-- The greatest number of bytes of a path. -/
def pathLimit : Nat := 4095

/-- Whether a name is too long. -/
def isLongName (name : String) : Bool := nameLimit < name.utf8ByteSize

namespace Files

/-- The files with the given paths below a working directory. -/
def ofEntries (base : String) (entries : List (String × String)) : Files :=
  let base := Place.ofPath base
  ⟨base, entries.map fun (path, content) => (base ++ Place.ofPath path, content)⟩

/-- The content of a file. -/
def content? (f : Files) (p : Place) : Option String := f.contents.lookup p

/-- Whether there is a directory. -/
def hasDirectory (f : Files) (p : Place) : Bool :=
  p.isPrefixOf f.base || f.contents.any fun e => p.isPrefixOf e.1 && p.length < e.1.length

/-- Where a path starts: at the root if it is absolute. -/
def startOf (f : Files) (path : String) : Place :=
  if Text.startsWith "/" path then [] else f.base

/-- The place to which one more name leads. -/
def step (f : Files) (p : Place) (name : String) : Except FileCause Place :=
  if !f.hasDirectory p then .error .notDirectory
  else if name = "" ∨ name = "." then .ok p
  else if name = ".." then .ok p.dropLast
  else if isLongName name then .error .tooLong
  else
    let next := p ++ [name]
    if (f.content? next).isSome || f.hasDirectory next then .ok next else .error .missing

/-- The place to which a path leads. -/
def locate (f : Files) (path : String) : Except FileCause Place :=
  if path.isEmpty then .error .missing
  else if path.toList.contains '\x00' then .error .null
  else (Text.pieces (· == '/') path).foldlM f.step (f.startOf path)

/-- The place to which a path leads, or the error with the path. -/
def canonical (f : Files) (path : String) : Except FileError Place :=
  match f.locate path with
  | .error cause => .error ⟨path, cause⟩
  | .ok p => .ok p

/-- The content of the file at a place. -/
def read (f : Files) (p : Place) : Except FileError String :=
  match f.content? p with
  | some text => .ok text
  | none => .error ⟨p.path, if f.hasDirectory p then .isDirectory else .missing⟩

/-- The place that some names lead to when missing directories are made. -/
def make (f : Files) (p : Place) : List String → Except FileCause Place
  | [] => .ok p
  | name :: more =>
    if name = "" ∨ name = "." then make f p more
    else if name = ".." then make f p.dropLast more
    else if isLongName name then .error .tooLong
    else
      let next := p ++ [name]
      if (f.content? next).isNone then make f next more
      else .error (if more.all (·.isEmpty) then .present else .notDirectory)

/-- What is wrong with a path, wherever it leads. -/
def pathFault? (path : String) : Option FileCause :=
  if path.toList.contains '\x00' then some .null
  else if pathLimit < path.utf8ByteSize then some .tooLong
  else none

/-- The directory at a path, which is made where it is missing. -/
def makeDirectory (f : Files) (path : String) : Except FileCause Place :=
  match pathFault? path with
  | some cause => .error cause
  | none => f.make (f.startOf path) (Text.pieces (· == '/') path)

/-- Contents with that of one file written. -/
def putContent (p : Place) (content : String) : List (Place × String) → List (Place × String)
  | [] => [(p, content)]
  | e :: es => if e.1 = p then (p, content) :: es else e :: putContent p content es

/-- The directory that a path lies in, and its name there. -/
def splitName (path : String) : String × String :=
  match Text.splitFirst? (· == '/') path.toList.reverse with
  | some (last, rest) =>
    let rest := rest.dropWhile (· == '/')
    (if rest.isEmpty then "/" else .ofList rest.reverse, .ofList last.reverse)
  | none => ("", path)

/-- The files with one written. -/
def write (f : Files) (path content : String) : Except FileCause Files :=
  match pathFault? path with
  | some cause => .error cause
  | none =>
    let (parent, name) := splitName path
    (f.makeDirectory parent).bind fun directory =>
      let p := directory ++ [name]
      if isLongName name then .error .tooLong
      else if f.hasDirectory p then .error .isDirectory
      else .ok { f with contents := putContent p content f.contents }

/-- The files of `new` that are not in `old`, or not with the same content. -/
def changes (old new : Files) : List (Place × String) :=
  new.contents.filter fun e => old.content? e.1 != some e.2

/-- The path of a place from the working directory, if it lies below it. -/
def pathBelow? (f : Files) (p : Place) : Option String :=
  if f.base.isPrefixOf p then some ("/".intercalate (p.drop f.base.length)) else none

/-- The path to which a path leads from a directory. -/
def join (directory path : String) : String :=
  if Text.startsWith "/" path || directory.isEmpty then path
  else if Text.endsWith "/" directory then directory ++ path
  else directory ++ "/" ++ path

end Files

/-- The name of a file before and after its last dot; a dot in front does not count. -/
def splitExtension (name : String) : String × Option String :=
  match Text.splitFirst? (· == '.') name.toList.reverse with
  | some (last, rest) =>
    if rest.isEmpty then (name, none)
    else (.ofList rest.reverse, some (.ofList last.reverse))
  | none => (name, none)

end OpenApiClient
