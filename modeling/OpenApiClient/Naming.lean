/-
# Names taken from the document

Components have qualified names such as `com.example.Outer$Inner`; both the dot and the dollar
sign end a segment. The segments decide the file of a generated module, the last one its name.

Operations that carry no name of their own are named for what they do: `GET /users` is `listUsers`,
`DELETE /users/{id}` is `deleteUser`.
-/

import OpenApiClient.TypeScript.Identifier

namespace OpenApiClient
namespace Naming

open Text TypeScript

/-- Whether the character ends a segment of a qualified name. -/
def isQualifier (c : Char) : Bool := c == '.' || c == '$'

/-- The path of a qualified name: its non-empty segments, in which a slash becomes an underscore. -/
def qualifiedPath (name : String) : String :=
  "/".intercalate ((segmentsOf isQualifier name).map (replaceCharIn '/' "_"))

/-- The last non-empty segment of a qualified name, as an identifier. -/
def simpleName (name : String) : String :=
  sanitize ((segmentsOf isQualifier name).getLast?.getD name)

/-- The output file of a component. -/
def modelFile (component : String) : String := qualifiedPath component ++ ".ts"

/-- The module of a component, as seen from the output root. -/
def modelModule (component : String) : String := "./" ++ qualifiedPath component

/-- The non-empty segments of a route. -/
def routeSegments (path : String) : List String := segmentsOf (· == '/') path

/-- Whether a segment stands for a parameter. -/
def isPlaceholder (segment : String) : Bool :=
  startsWith "\x7b" segment && endsWith "\x7d" segment

/-- A word without the sibilant ending of its plural. -/
def withoutSibilant (word : String) : String :=
  if endsWith "ses" word || endsWith "xes" word || endsWith "zes" word then
    (dropEnd? "es" word).getD word
  else if endsWith "s" word && !endsWith "ss" word && word != "s" then
    (dropEnd? "s" word).getD word
  else word

/-- A word without the ending of its plural, as far as the ending tells. -/
def singular (word : String) : String :=
  match dropEnd? "ies" word with
  | some stem => if stem.isEmpty then withoutSibilant word else stem ++ "y"
  | none => withoutSibilant word

/-- The word that a route's name starts with: what the verb does to the resource. -/
def verbWord (verb : String) (onItem : Bool) : String :=
  if verb == "GET" then (if onItem then "get" else "list")
  else if verb == "POST" then "create"
  else if verb == "PUT" then "update"
  else if verb == "DELETE" then "delete"
  else if verb == "PATCH" then "patch"
  else if verb == "OPTIONS" then "options"
  else if verb == "HEAD" then "head"
  else if verb == "TRACE" then "trace"
  else verb

/-- A word as one part of a name in camel case. -/
def namePart (word : String) : String := .ofList (pascal (sanitizeChars word.toList))

/-- The name of an operation told by its verb and route. -/
def routeName (verb path : String) : String :=
  let segments := routeSegments path
  let onItem := segments.getLast?.any isPlaceholder
  let resources := segments.filter (!isPlaceholder ·)
  let named := match resources.getLast? with
    | some last => if onItem then resources.dropLast ++ [singular last] else resources
    | none => []
  verbWord (.ofList (capitalAll verb.toList)) onItem ++ String.join (named.map namePart)

/-- The endpoint of an operation without tags: the first literal segment of its route. -/
def routeEndpoint (path : String) : String :=
  match (routeSegments path).find? (!startsWith "\x7b" ·) with
  | some segment => namePart segment
  | none => "Endpoint"

end Naming
end OpenApiClient
