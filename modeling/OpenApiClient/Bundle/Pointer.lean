/-
# Pointers into values

A pointer is empty, or a row of tokens each after a slash: names of entries, or positions of items
without needless zeros. In a token a slash is written `~1` and a tilde `~0`.
-/

import OpenApiClient.Json.Value
import OpenApiClient.OpenApi.Reference

namespace OpenApiClient
namespace Bundle

/-- The position that a token stands for. -/
def position? (token : String) : Option Nat :=
  let cs := token.toList
  if cs.isEmpty || !cs.all Char.isDigit || (cs.head? == some '0' && cs.length > 1) then none
  else some (cs.foldl (fun m c => m * 10 + (c.toNat - '0'.toNat)) 0)

/-- The value that a token points at. -/
def child? (j : Json) (token : String) : Option Json :=
  match j with
  | .object es => Entries.at? es (OpenApi.unescapeName token)
  | .array xs => (position? (OpenApi.unescapeName token)).bind fun i => xs[i]?
  | _ => none

/-- The value that a pointer points at. -/
def pointee? (j : Json) (pointer : String) : Option Json :=
  if pointer.isEmpty then some j
  else (Text.dropStart? "/" pointer).bind fun tokens =>
    (Text.pieces (· == '/') tokens).foldlM child? j

end Bundle
end OpenApiClient
