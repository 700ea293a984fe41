/-
# The settings file

Settings are kept in a file of YAML. That the file is missing is no error; one that is there must be
readable and have the shape of settings.
-/

import OpenApiClient.Client.Settings
import OpenApiClient.Files
import OpenApiClient.Yaml.Reader

namespace OpenApiClient
namespace Client

/-- Why a settings file cannot be read. -/
inductive SettingsError where
  /-- The file cannot be read. -/
  | file (path : String) (cause : FileCause)
  /-- The text has no settings. -/
  | text (path : String)
deriving DecidableEq, Repr

/-- The usual name of the settings file. -/
def settingsFile : String := ".tsgen.yaml"

/-- The text of the error, where the reason why a text has no settings is left out. -/
def SettingsError.message : SettingsError → String
  | .file path cause => "failed to read config " ++ path ++ ": " ++ cause.message
  | .text path => "failed to parse config " ++ path

/-- The settings that a text gives. -/
def Settings.ofText? (text : String) : Option Settings :=
  (Yaml.read? Settings.extent text).bind Settings.read?

/-- The settings of the file at a path; none when it is missing. -/
def Settings.ofFile (files : Files) (path : String) : Except SettingsError (Option Settings) :=
  match files.locate path with
  | .error _ => .ok none
  | .ok place => match files.read place with
    | .error e => .error (.file path e.cause)
    | .ok text => match Settings.ofText? text with
      | some s => .ok (some s)
      | none => .error (.text path)

end Client
end OpenApiClient
