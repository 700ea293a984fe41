/-
# Letters, digits and their case

The classes and case forms of single characters, over the tables of the modules it imports. The
ASCII range is answered by core's predicates, which agree with the tables there and cost nothing
to evaluate.

A case form is a list of characters, because a capital may take several: `capital 'ß' = ['S', 'S']`.
-/

import OpenApiClient.Text.Alphabetic
import OpenApiClient.Text.CaseMap
import OpenApiClient.Text.Cased
import OpenApiClient.Text.Numeric

namespace OpenApiClient
namespace Text

/-- Whether the character lies in the ASCII range. -/
def isAscii (c : Char) : Bool := c.toNat < 128

/-- Whether the character has the property `Alphabetic`. -/
def isAlphabetic (c : Char) : Bool :=
  if isAscii c then c.isAlpha else alphabetic.holds c

/-- Whether the character is a number of any kind. -/
def isNumeric (c : Char) : Bool :=
  if isAscii c then c.isDigit else numeric.holds c

/-- Whether the character is alphabetic or a number. -/
def isAlphanumeric (c : Char) : Bool := isAlphabetic c || isNumeric c

/-- Whether the character has the property `Lowercase`. -/
def isSmall (c : Char) : Bool :=
  if isAscii c then c.isLower else lowercase.holds c

/-- Whether the character has the property `Uppercase`. -/
def isCapital (c : Char) : Bool :=
  if isAscii c then c.isUpper else uppercase.holds c

/-- The case form of a character: its entry among the sequences, else among the runs, else
itself. -/
def caseForm (sequences : List (Nat × List Nat)) (runs : List CaseRun) (c : Char) : List Char :=
  match sequences.lookup c.toNat with
  | some ns => ns.map Char.ofNat
  | none => [Char.ofNat ((CaseRun.image? runs c.toNat).getD c.toNat)]

/-- The small form of a character. -/
def small (c : Char) : List Char :=
  if isAscii c then [c.toLower] else caseForm smallSequences smallRuns c

/-- The capital form of a character. -/
def capital (c : Char) : List Char :=
  if isAscii c then [c.toUpper] else caseForm capitalSequences capitalRuns c

/-- The small forms of all characters of a text. -/
def smallAll (cs : List Char) : List Char := cs.flatMap small

/-- The capital forms of all characters of a text. -/
def capitalAll (cs : List Char) : List Char := cs.flatMap capital

@[simp] theorem isAlphanumeric_of_isAlphabetic {c : Char} (h : isAlphabetic c = true) :
    isAlphanumeric c = true := by simp [isAlphanumeric, h]

end Text
end OpenApiClient
