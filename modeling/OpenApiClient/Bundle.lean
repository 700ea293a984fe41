/-
# Bundling

A document may refer to schemas in other files, by a path and a pointer divided by a hash sign. To
bundle it is to take every such schema, and those it refers to in its own file or in others, into
the components of the document, and to make all these references local.

A schema is taken once for each file and pointer. It gets the last token of its pointer as its
name, or the name of its file; where another schema has that name, a suffix is added. A name in the
document that stands for an equal schema is shared, unless a schema was taken under it.

The values are sorted, so that schemas are taken in the order of the keys on the way to them.
-/

import OpenApiClient.Bundle.Pointer
import OpenApiClient.Files
import OpenApiClient.Json.Reader
import OpenApiClient.Module.Scope
import OpenApiClient.OpenApi.Document.Text

namespace OpenApiClient
namespace Bundle

open OpenApi

/-- Why a document cannot be loaded. -/
inductive LoadError where
  | file (error : FileError)
  | document (error : DocumentError)
  | reference (error : ReferenceError)
deriving DecidableEq, Repr

/-- The text of the error. -/
def LoadError.message : LoadError → String
  | .file e => e.message
  | .document e => e.message
  | .reference e => e.message

/-- Whether a file is JSON by its name. -/
def isJsonFile (p : Place) : Bool :=
  match (p.getLast?.map splitExtension).bind (·.2) with
  | some extension => extension.toList.map Char.toLower == "json".toList
  | none => false

/-- The value of a text. -/
def parse (isJson : Bool) (text : String) : Except LoadError Json :=
  if isJson then match (Json.readDocument? text).bind Tree.json? with
    | some j => .ok j
    | none => .error (.document .json)
  else match (Yaml.read? .whole text).bind Tree.json? with
    | some j => .ok j
    | none => .error (.document .yaml)

/-- The value of a file. -/
def readFile (files : Files) (p : Place) : Except LoadError Json :=
  match files.read p with
  | .ok text => parse (isJsonFile p) text
  | .error e => .error (.file e)

/-- Where a schema comes from. -/
structure Address where
  file : Place
  pointer : String
deriving DecidableEq, Repr

/-- What was taken so far. -/
structure State where
  /-- The names of schemas taken. -/
  imported : List (Address × String) := []
  /-- The names in use, and what they stand for. -/
  taken : Entries Json := []
  /-- The schemas taken, with their references made local. -/
  added : Entries Json := []

/-- A computation that takes schemas. -/
abbrev Taking := StateT State (Except LoadError)

section Relink

variable (follow : String → Taking (Option String))

mutual

/-- The value with references replaced as `follow` tells, in the order of keys; of one object its
own reference comes first. -/
def relink : Json → Taking Json
  | .array items => do return .array (← relinkItems items)
  | .object entries => do
    let own ← match Entries.at? entries "$ref" with
      | some (.string p) => follow p
      | _ => pure none
    return .object (← relinkEntries own entries)
  | j => return j

/-- The items with references replaced. -/
def relinkItems : List Json → Taking (List Json)
  | [] => return []
  | x :: xs => do return (← relink x) :: (← relinkItems xs)

/-- The entries with references replaced, the reference of the object itself by `own`. -/
def relinkEntries (own : Option String) : List (String × Json) → Taking (List (String × Json))
  | [] => return []
  | e :: es => do
    let v ←
      if e.1 = "$ref" then pure (match own with
        | some p => .string p
        | none => e.2)
      else relink e.2
    return (e.1, v) :: (← relinkEntries own es)

end

end Relink

/-- The name that a schema would have if all names were free. -/
def naturalName (a : Address) : String :=
  let token := ((Text.pieces (· == '/') a.pointer).getLast?).getD ""
  if token.isEmpty then (a.file.getLast?.map fun n => (splitExtension n).1).getD "External"
  else unescapeName token

/-- Whether a schema was taken under the name. -/
def State.isImported (s : State) (name : String) : Bool :=
  s.added.has name || s.imported.any (·.2 == name)

/-- The name for a schema. -/
def State.freeName (s : State) (natural : String) (schema : Json) : String :=
  match s.taken.at? natural with
  | none => natural
  | some existing =>
    if existing.same schema && !s.isImported natural then natural
    else Module.freeSuffix s.taken.keys natural 1 s.taken.length

/-- What a reference found in a file refers to; `current` is that file unless it is the root, whose
local references stay. -/
def target? (files : Files) (directory : Place) (current : Option Place) (ref : String) :
    Except FileError (Option Address) :=
  let (file, pointer) := (Text.cutFirst? '#' ref).getD (ref, "")
  if file.isEmpty && ref ≠ "" then .ok (current.map (⟨·, pointer⟩))
  else (files.canonical (Files.join directory.path file)).map (some ⟨·, pointer⟩)

/-- The schema at an address. -/
def schemaAt (files : Files) (a : Address) : Except LoadError Json :=
  (readFile files a.file).bind fun document =>
    match pointee? document a.pointer with
    | some schema => .ok schema
    | none => .error (.reference (.missing (a.file.path ++ "#" ++ a.pointer)))

/-- The local form of a reference found in a file, where `take` gives the names of schemas. -/
def localForm? (files : Files) (take : Address → Taking String) (directory : Place)
    (current : Option Place) (ref : String) : Taking (Option String) := do
  match target? files directory current ref with
  | .error e => throw (.file e)
  | .ok none => return none
  | .ok (some a) => return some (pointerTo .schemas (← take a))

/-- The name of the schema at an address, which is taken unless it was before. Each schema taken
needs a reference in one of the files, so the fuel bounds those. -/
def take (files : Files) : (fuel : Nat) → Address → Taking String
  | 0, a => throw (.reference (.circular a.pointer))
  | fuel + 1, a => do
    match (← get).imported.lookup a with
    | some name => return name
    | none =>
      let schema ← schemaAt files a
      let name := (← get).freeName (naturalName a) schema
      modify fun s => { s with
        imported := (a, name) :: s.imported, taken := s.taken.put name schema }
      let schema ← relink (localForm? files (take files fuel) a.file.dropLast (some a.file)) schema
      modify fun s => { s with added := s.added ++ [(name, schema)] }
      return name

/-- An object with an entry changed; where it is missing, it starts as an empty object. -/
def adjustObject (key : String) (change : Json → Option Json) : Json → Option Json
  | .object es => (change ((Entries.at? es key).getD (.object []))).map fun v =>
      .object (Json.putSorted key v es)
  | _ => none

/-- A document with schemas written into its components. -/
def withSchemas (document : Json) (schemas : Entries Json) : Except LoadError Json :=
  let write : Json → Option Json
    | .object es => some (.object (schemas.foldl (fun m e => Json.putSorted e.1 e.2 m) es))
    | _ => none
  match adjustObject "components" (adjustObject "schemas" write) document with
  | some j => .ok j
  | none => .error (.document (.missingField "components.schemas"))

/-- The schemas that a document defines. -/
def ownSchemas (document : Json) : Entries Json :=
  ((pointee? document "/components/schemas").bind Json.entries?).getD []

mutual

/-- The references in a value. -/
def references : Json → List String
  | .array items => referencesOfItems items
  | .object entries =>
    (match Entries.at? entries "$ref" with
      | some (.string p) => [p]
      | _ => []) ++ referencesOfEntries entries
  | _ => []

/-- The references in all items. -/
def referencesOfItems : List Json → List String
  | [] => []
  | x :: xs => references x ++ referencesOfItems xs

/-- The references in the values of all entries. -/
def referencesOfEntries : List (String × Json) → List String
  | [] => []
  | e :: es => references e.2 ++ referencesOfEntries es

end

/-- The references in a text, if it has a value. -/
def referencesOf (isJson : Bool) (text : String) : List String :=
  match parse isJson text with
  | .ok j => references j
  | .error _ => []

/-- The number of references in all files. -/
def referenceCount (files : Files) : Nat :=
  (files.contents.flatMap fun e => referencesOf (isJsonFile e.1) e.2).length

/-- A bundled document and the names of the schemas taken into it. -/
structure Result where
  document : Json
  added : List String

/-- The document of a file bundled with the schemas that it refers to. -/
def ofFile (files : Files) (path : String) : Except LoadError Result := do
  let root ← match files.canonical path with
    | .ok p => pure p
    | .error e => throw (.file e)
  let document ← readFile files root
  let take := take files (referenceCount files + 1)
  let (document, s) ← (relink (localForm? files take root.dropLast none) document).run
    { taken := ownSchemas document }
  if s.added.isEmpty then return ⟨document, []⟩
  else return ⟨← withSchemas document s.added, s.added.keys⟩

/-- The value of the file that a path leads to, with its references as they are. -/
def valueOf (files : Files) (path : String) : Except LoadError Json :=
  match files.canonical path with
  | .error e => .error (.file e)
  | .ok p => match files.content? p with
    | some text => parse (isJsonFile p) text
    | none => .error (.file ⟨path, .isDirectory⟩)

end Bundle
end OpenApiClient
