/-
# Runs of code points

A property of characters is a table of runs. A run `(first, last, stride)` holds the code
points `first`, `first + stride`, … up to `last`: stride 1 is an interval, stride 2 the
alternation of capital and small letters that the Latin and Cyrillic blocks are laid out in.

A case mapping is a table of runs with the image of their first code point: inside a run the
image moves with its argument.
-/

namespace OpenApiClient
namespace Text

/-- The code points `first`, `first + stride`, … up to `last`. -/
structure Run where
  first : Nat
  last : Nat
  stride : Nat
deriving DecidableEq, Repr

/-- Whether the run holds `n`. -/
def Run.holds (r : Run) (n : Nat) : Bool :=
  r.first ≤ n && n ≤ r.last && (n - r.first) % r.stride == 0

/-- A property of characters, as the runs of the code points that have it. -/
abbrev Runs := List Run

namespace Runs

/-- Intervals `(first, last)` as runs. -/
def ofIntervals (xs : List (Nat × Nat)) : Runs := xs.map fun (a, b) => ⟨a, b, 1⟩

/-- Triples `(first, last, stride)` as runs. -/
def ofTriples (xs : List (Nat × Nat × Nat)) : Runs := xs.map fun (a, b, s) => ⟨a, b, s⟩

/-- Whether some run holds the character's code point. -/
def holds (rs : Runs) (c : Char) : Bool := rs.any (·.holds c.toNat)

@[simp] theorem holds_nil (c : Char) : holds [] c = false := rfl

@[simp] theorem holds_cons (r : Run) (rs : Runs) (c : Char) :
    holds (r :: rs) c = (r.holds c.toNat || holds rs c) := rfl

end Runs

/-- A run together with the image of its first code point. -/
structure CaseRun where
  run : Run
  image : Nat
deriving DecidableEq, Repr

namespace CaseRun

/-- Quadruples `(first, last, stride, image)` as runs with an image. -/
def ofList (xs : List (Nat × Nat × Nat × Nat)) : List CaseRun :=
  xs.map fun (a, b, s, i) => ⟨⟨a, b, s⟩, i⟩

/-- The image of `n` in the first run that holds it. -/
def image? (rs : List CaseRun) (n : Nat) : Option Nat :=
  (rs.find? (·.run.holds n)).map fun r => r.image + (n - r.run.first)

end CaseRun

end Text
end OpenApiClient
