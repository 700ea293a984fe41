/-
# Parts of a tree

A structure is read from the fields that it knows; what stands under other keys is skipped. The
extent of a structure tells which parts of a tree are read, so that a source need not make the
others.
-/

import OpenApiClient.Source.Record

namespace OpenApiClient

/-- Which parts of a tree are read. -/
inductive Extent where
  | whole
  /-- All keys of a mapping, and parts of the values of some. -/
  | fields (known : List (String × Extent))
  /-- All keys of a mapping, and the same parts of every value. -/
  | values (each : Extent)

namespace Extent

/-- The extent of a structure: its fields, whole but for those with an extent of their own. -/
def ofFields (fields : List Field) (inner : List (String × Extent)) : Extent :=
  .fields (fields.map fun f => (f.name, (inner.lookup f.name).getD .whole))

/-- Which parts of the value of a key are read, if any. -/
def under? : Extent → (key : Option String) → Option Extent
  | .whole, _ => some .whole
  | .fields known, key => key.bind fun k => Entries.at? known k
  | .values each, _ => some each

end Extent

end OpenApiClient
