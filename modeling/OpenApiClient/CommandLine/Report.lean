/-
# What the program does

A command reads files, prints, and writes files. What it does is told by a report, so that commands
are functions of their arguments and of the files that are there.

A failure is printed with its causes, from the outermost to the innermost, which are numbered if
there are several.
-/

import OpenApiClient.Client.Generation
import OpenApiClient.Client.Inspection
import OpenApiClient.Client.Settings.File
import OpenApiClient.CommandLine.Arguments
import OpenApiClient.Yaml.Printer

namespace OpenApiClient
namespace CommandLine

open OpenApi Client

/-- What the program does. -/
structure Report where
  /-- The files afterwards. -/
  files : Files
  /-- The status that it ends with. -/
  code : Nat := 0
  stdout : String := ""
  stderr : String := ""
  /-- The paths of files that were looked for and are not there. -/
  missing : List String := []

/-- Why a command fails. -/
structure Failure where
  message : String
  causes : List String := []
deriving DecidableEq, Repr

/-- A cause as it is printed. -/
def causeText (number : Option Nat) (cause : String) : String :=
  match number with
  | none => "    " ++ "\n    ".intercalate (Text.pieces (· == '\n') cause)
  | some n =>
    let digits := (toString n).toList
    String.ofList (List.replicate (5 - digits.length) ' ' ++ digits) ++ ": " ++
      "\n       ".intercalate (Text.pieces (· == '\n') cause)

/-- A failure as it is printed. -/
def Failure.text (f : Failure) : String :=
  let causes := match f.causes with
    | [] => ""
    | [c] => "\n\nCaused by:\n" ++ causeText none c
    | cs => "\n\nCaused by:\n" ++ "\n".intercalate (cs.mapIdx fun n c => causeText (some n) c)
  "Error: " ++ f.message ++ causes ++ "\n"

/-- A step of a command. -/
abbrev Doing := ExceptT Failure (StateM Report)

namespace Doing

/-- A line is printed for the user to read. -/
def say (line : String) : Doing Unit :=
  modify fun r => { r with stderr := r.stderr ++ line ++ "\n" }

/-- A result is printed. -/
def print (text : String) : Doing Unit := modify fun r => { r with stdout := r.stdout ++ text }

/-- A file was looked for in vain. -/
def miss (path : String) : Doing Unit := modify fun r => { r with missing := r.missing ++ [path] }

/-- A file operation that fails with a message. -/
def attempt {α : Type} (message : String) : Except FileCause α → Doing α
  | .ok a => return a
  | .error cause => throw ⟨message, [cause.message]⟩

end Doing

/-- The messages of an error in loading a document. -/
def loadCauses : Bundle.LoadError → List String
  | .file e => [e.message, e.cause.message]
  | e => [e.message]

/-- The messages of an error in generating a client. -/
def generationCauses : GenerationError → List String
  | .load e => loadCauses e
  | .pass p e => [(GenerationError.pass p e).message, e.message]
  | e => [e.message]

/-- The messages of an error in reading settings. -/
def settingsCauses : SettingsError → List String
  | .file path cause => [(SettingsError.file path cause).message, cause.message]
  | e => [e.message]

/-- A file that loading did not find is noted. -/
def missLoaded : Bundle.LoadError → Doing Unit
  | .file e => if e.cause = .missing then Doing.miss e.path else return
  | _ => return

/-- The settings of the working directory. -/
def settings : Doing Settings := do
  match Settings.ofFile (← get).files settingsFile with
  | .ok (some s) => return s
  | .ok none =>
    Doing.miss settingsFile
    return {}
  | .error e => throw ⟨"invalid " ++ settingsFile, settingsCauses e⟩

/-- The document at a path. -/
def document (path : String) : Doing Document := do
  match (load (.path (← get).files path)).2 with
  | .ok d => return d
  | .error e =>
    missLoaded e
    throw ⟨"failed to load " ++ path, loadCauses e⟩

/-- A generated file is written below a directory. -/
def writeOutput (directory : String) (o : Module.Output) : Doing Unit := do
  let path := Files.join directory o.path
  let (parent, _) := Files.splitName path
  let _ ← Doing.attempt ("failed to create directory " ++ parent)
    ((← get).files.makeDirectory parent)
  let files ← Doing.attempt ("failed to write " ++ path)
    ((← get).files.write path o.content)
  modify fun r => { r with files }
  Doing.say ("  wrote " ++ path)

/-- A client is generated. -/
def generateClient (input output : Option String) : Doing Unit := do
  let s ← settings
  let input := input.getD s.input
  let output := output.getD s.output
  if let .error e := Pass.ofNames s.passes then throw ⟨e.message, []⟩
  Doing.say ("Generating " ++ input ++ " → " ++ output)
  match (generate s output (.path (← get).files input)).result with
  | .error e =>
    if let .load e := e then missLoaded e
    throw ⟨"failed to generate from " ++ input, generationCauses e⟩
  | .ok outputs =>
    let _ ← Doing.attempt ("failed to create output directory " ++ output)
      ((← get).files.makeDirectory output)
    outputs.forM (writeOutput output)
    Doing.say ("Generated " ++ toString outputs.length ++ " files in " ++ output)

/-- A document is checked. -/
def validateDocument (input : String) : Doing Unit := do
  let d ← document input
  Doing.say ("Valid OpenAPI " ++ d.openapi ++ " document: " ++ d.info.title)
  Doing.say ("  Version: " ++ d.info.version)
  Doing.say ("  Paths: " ++ toString d.paths.length)
  Doing.say ("  Operations: " ++ toString d.operations.length)
  if let some c := d.components then Doing.say ("  Schemas: " ++ toString c.schemas.length)
  Doing.say "Validation successful."

/-- What a document holds is printed. -/
def inspectDocument (input : String) (format : Format) : Doing Unit := do
  let summary := inspect (← document input)
  Doing.print (match format with
    | .yaml => Yaml.text summary
    | .json => summary.pretty ++ "\n")

/-- A settings file is written, unless there is one that must not be replaced. -/
def initialise (force : Bool) : Doing Unit := do
  let files := (← get).files
  if !(files.locate settingsFile).isOk then Doing.miss settingsFile
  else if !force then
    throw ⟨settingsFile ++ " already exists. Use --force to overwrite.", []⟩
  let files ← Doing.attempt ("failed to write " ++ settingsFile)
    (files.write settingsFile usualSettingsText)
  modify fun r => { r with files }
  Doing.say ("Created " ++ settingsFile)

/-- How the program is used. -/
def usage : String := "\n".intercalate [
  "OpenAPI 3.x to TypeScript client generator",
  "",
  "Usage: tsgen <COMMAND>",
  "",
  "Commands:",
  "  generate  Generate the TypeScript client",
  "  validate  Validate an OpenAPI document and its references",
  "  inspect   List the endpoints, methods and reachable schemas of a document",
  "  init      Write a default .tsgen.yaml",
  ""]

/-- What a command does. -/
def Command.execute : Command → Doing Unit
  | .generate input output => generateClient input output
  | .validate input => validateDocument input
  | .inspect input format => inspectDocument input format
  | .init force => initialise force
  | .version => Doing.print "tsgen 0.4.0\n"
  | .help => Doing.print usage

/-- What the program does when it is run with arguments where files are. -/
def run (files : Files) (arguments : List String) : Report :=
  match Command.ofArguments? arguments with
  | none => { files, code := 2, stderr := usage }
  | some c => match c.execute.run.run { files } with
    | (.ok _, r) => r
    | (.error f, r) => { r with code := 1, stderr := r.stderr ++ f.text }

end CommandLine
end OpenApiClient
