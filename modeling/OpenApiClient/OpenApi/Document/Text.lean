/-
# Documents from text

A text whose first character is an opening brace, leading blanks apart, is JSON; any other is YAML.
A document that can be read must be of version 3.
-/

import OpenApiClient.Json.Reader
import OpenApiClient.OpenApi.Document.Reader
import OpenApiClient.Text.Blank
import OpenApiClient.Text.Split
import OpenApiClient.Yaml.Reader

namespace OpenApiClient
namespace OpenApi

/-- Why there is no document. -/
inductive DocumentError where
  /-- The JSON text or value is none of a document. -/
  | json
  /-- The YAML text is none of a document. -/
  | yaml
  | unsupportedVersion (version : String)
  | missingField (name : String)
deriving DecidableEq, Repr

/-- The text of an error. -/
def DocumentError.message : DocumentError → String
  | .json => "failed to parse JSON"
  | .yaml => "failed to parse YAML"
  | .unsupportedVersion v => "unsupported OpenAPI version: " ++ v
  | .missingField name => "missing required field: " ++ name

namespace Document

/-- A document that was read, if its version is supported. -/
def supported (d : Document) : Except DocumentError Document :=
  if Text.startsWith "3." d.openapi then .ok d else .error (.unsupportedVersion d.openapi)

/-- The document of a tree; `error` tells that it holds none. -/
def ofTree {α : Type} [Leaf α] (error : DocumentError) (t : Option (Tree α)) :
    Except DocumentError Document :=
  match t.bind read? with
  | some d => d.supported
  | none => .error error

/-- The document of a JSON text. -/
def ofJsonText (text : String) : Except DocumentError Document :=
  ofTree .json (Json.readDocument? text)

/-- The document of a YAML text. -/
def ofYamlText (text : String) : Except DocumentError Document :=
  ofTree .yaml (Yaml.read? extent text)

/-- Whether a text is taken for JSON. -/
def looksLikeJson (text : String) : Bool := (Text.trimStart text.toList).head? == some '\x7b'

/-- The document of a text. -/
def ofText (text : String) : Except DocumentError Document :=
  if looksLikeJson text then ofJsonText text else ofYamlText text

/-- The document of a JSON value. -/
def ofJson (j : Json) : Except DocumentError Document := ofTree .json (some j.toDatum)

end Document

end OpenApi
end OpenApiClient
