/-
# Tags of YAML

A tag is a row of bytes: its escapes can spell bytes that are no text. A null byte ends it.

The tags of the core types start alike. A tag that starts with an exclamation mark is local to the
text that it stands in, and what follows the mark is its name. One whose name is no text says
nothing.
-/

namespace OpenApiClient
namespace Yaml

/-- A tag. -/
abbrev Tag := List UInt8

namespace Tag

/-- The tag that a text spells. -/
def ofText (s : String) : Tag := s.toUTF8.data.toList

/-- The tag that bytes spell. -/
def ofBytes (bytes : List UInt8) : Tag := bytes.takeWhile (· != 0)

/-- The tag of a core type. -/
def core (type : String) : Tag := ofText ("tag:yaml.org,2002:" ++ type)

/-- The mark that local tags start with, which is also a tag. -/
def mark : Tag := ofText "!"

/-- Whether the tag is local. -/
def isLocal (t : Tag) : Bool := mark.isPrefixOf t

/-- The name of a local tag, if it is text. -/
def name? (t : Tag) : Option String :=
  if t.isLocal then String.fromUTF8? (t.drop mark.length).toByteArray else none

end Tag

end Yaml
end OpenApiClient
