/-
# The order of names in a listing

Names are listed without regard to case. Names that differ in case only are told apart at the
first character in which they differ: a small letter comes before a capital one, other characters
by code point. What is left are names of which one continues the other, ordered by their length
in bytes.
-/

import OpenApiClient.Text.Letter

namespace OpenApiClient
namespace Text

/-- The first pair of different characters at one position of both lists. -/
def firstDifference : List Char → List Char → Option (Char × Char)
  | a :: as, b :: bs => if a = b then firstDifference as bs else some (a, b)
  | _, _ => none

/-- The order of two different characters: small letters before others, else by code point. -/
def compareLetters (a b : Char) : Ordering :=
  match isSmall a, isSmall b with
  | true, false => .lt
  | false, true => .gt
  | _, _ => compare a b

/-- The order of two names that agree up to case. -/
def compareSpelling (a b : String) : Ordering :=
  match firstDifference a.toList b.toList with
  | some (x, y) => compareLetters x y
  | none => compare a.utf8ByteSize b.utf8ByteSize

/-- The order of two names in a listing. -/
def collate (a b : String) : Ordering :=
  (compare (smallAll a.toList) (smallAll b.toList)).then (compareSpelling a b)

/-- The names in listing order; equal names keep their places. -/
def sortNames (names : List String) : List String :=
  names.mergeSort fun a b => collate a b != .gt

end Text
end OpenApiClient
