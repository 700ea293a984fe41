/-
# Tokens of YAML

A text is a row of tokens. Blocks, which indentation shows, have tokens for their start and end;
the key of a mapping is told by a token in front of it.
-/

import OpenApiClient.Yaml.Atom

namespace OpenApiClient
namespace Yaml

/-- A token. -/
inductive Token where
  | version (major minor : Nat)
  /-- A short form for what tags start with. -/
  | handle (name : String) (start : Tag)
  | documentStart
  | documentEnd
  | blockSequenceStart
  | blockMappingStart
  | blockEnd
  | flowSequenceStart
  | flowSequenceEnd
  | flowMappingStart
  | flowMappingEnd
  | blockEntry
  | flowEntry
  | key
  | value
  | anchor (name : String)
  | alias (name : String)
  | tag (handle : String) (rest : Tag)
  | scalar (text : String) (style : Style)
deriving DecidableEq, Repr

end Yaml
end OpenApiClient
