/-
# Arguments

The arguments of the program name a command and its options. An option is given by its long name or
by a letter, its value as the next argument, after an equals sign, or right after the letter. Each
option comes at most once, and there are no other arguments.

Asking for help, or for the version, is answered where it stands, whatever follows. The command
`completions`, which prints a script for a shell, is left out.
-/

import OpenApiClient.Entries
import OpenApiClient.Text.Split

namespace OpenApiClient
namespace CommandLine

/-- How an inspection is printed. -/
inductive Format where
  | yaml
  | json
deriving DecidableEq, Repr

/-- What the program is asked to do. -/
inductive Command where
  /-- Generates a client. -/
  | generate (input output : Option String)
  /-- Checks a document. -/
  | validate (input : String)
  /-- Tells what a document holds. -/
  | inspect (input : String) (format : Format)
  /-- Writes a settings file. -/
  | init (force : Bool)
  | version
  | help
deriving DecidableEq, Repr

/-- An option of a command. -/
structure Switch where
  long : String
  letter : Option Char := none
  hasValue : Bool := true
deriving DecidableEq, Repr

/-- What an argument is. -/
inductive Word where
  | help
  /-- An option, and the value in the same argument. -/
  | switch (s : Switch) (value : Option String)
  /-- The end of the options. -/
  | separator
  | other
deriving DecidableEq, Repr

/-- An option by its long name, which may be followed by an equals sign and a value. -/
def Word.ofLong (switches : List Switch) (body : String) : Word :=
  let (name, value) := match Text.cutFirst? '=' body with
    | some (name, value) => (name, some value)
    | none => (body, none)
  if name = "help" then if value.isNone then .help else .other
  else match switches.find? (·.long == name) with
    | some s => .switch s value
    | none => .other

/-- An option by its letter, which may be followed by a value, with an equals sign or without. -/
def Word.ofLetter (switches : List Switch) (letter : Char) (value : List Char) : Word :=
  if letter = 'h' then .help
  else match switches.find? (·.letter == some letter) with
    | some s => .switch s (match value with
      | [] => none
      | '=' :: cs => some (.ofList cs)
      | cs => some (.ofList cs))
    | none => .other

/-- What an argument of a command with the options is. -/
def Word.of (switches : List Switch) (argument : String) : Word :=
  match argument.toList with
  | ['-', '-'] => .separator
  | '-' :: '-' :: body => .ofLong switches (.ofList body)
  | '-' :: letter :: value => .ofLetter switches letter value
  | _ => .other

/-- The values of options by their long names; those without a value have the empty one. -/
abbrev Values := Entries String

/-- The options with one more, unless it is there or has no value where it needs one. -/
def Values.add? (vs : Values) (s : Switch) (value : String) : Option Values :=
  if vs.has s.long || (s.hasValue && value.isEmpty) then none else some (vs ++ [(s.long, value)])

/-- Whether an argument can be the value of the option before it. -/
def isValue (argument : String) : Bool := argument = "-" || !Text.startsWith "-" argument

/-- The options that arguments give, after those before them; `none` as options asks for help. -/
def options? (switches : List Switch) (vs : Values) : List String → Option (Option Values)
  | [] => some (some vs)
  | a :: rest => match Word.of switches a with
    | .help => some none
    | .separator => if rest.isEmpty then some (some vs) else none
    | .other => none
    | .switch s (some value) =>
      if s.hasValue then (vs.add? s value).bind fun vs => options? switches vs rest else none
    | .switch s none =>
      if s.hasValue then match rest with
        | value :: rest =>
          if isValue value then (vs.add? s value).bind fun vs => options? switches vs rest else none
        | [] => none
      else (vs.add? s "").bind fun vs => options? switches vs rest

/-- The option for the document. -/
def inputSwitch : Switch := ⟨"input", some 'i', true⟩

/-- The option for the output directory. -/
def outputSwitch : Switch := ⟨"output", some 'o', true⟩

/-- The format of a name. -/
def Format.ofName? (name : String) : Option Format :=
  if name = "yaml" then some .yaml else if name = "json" then some .json else none

/-- The command that is made of options, or the one for help. -/
def withOptions? (switches : List Switch) (arguments : List String)
    (command : Values → Option Command) : Option Command :=
  match options? switches [] arguments with
  | some (some vs) => command vs
  | some none => some .help
  | none => none

/-- The names of the commands with options. -/
def commandNames : List String := ["generate", "validate", "inspect", "init"]

/-- The command of a name. -/
def Command.ofName? (name : String) (arguments : List String) : Option Command :=
  match name with
  | "generate" => withOptions? [inputSwitch, outputSwitch] arguments fun vs =>
      some (.generate (vs.at? "input") (vs.at? "output"))
  | "validate" => withOptions? [inputSwitch] arguments fun vs => (vs.at? "input").map .validate
  | "inspect" => withOptions? [inputSwitch, { long := "format" }] arguments fun vs => do
      return .inspect (← vs.at? "input") (← Format.ofName? ((vs.at? "format").getD "yaml"))
  | "init" => withOptions? [{ long := "force", hasValue := false }] arguments fun vs =>
      some (.init (vs.has "force"))
  | "help" => match arguments with
    | [] => some .help
    | [command] => if command ∈ commandNames then some .help else none
    | _ => none
  | _ => none

/-- The command that arguments ask for; none if they are in error. -/
def Command.ofArguments? : List String → Option Command
  | [] => none
  | a :: rest =>
    if a = "--version" || Text.startsWith "-V" a then some .version
    else if a = "--help" || Text.startsWith "-h" a then some .help
    else Command.ofName? a rest

end CommandLine
end OpenApiClient
