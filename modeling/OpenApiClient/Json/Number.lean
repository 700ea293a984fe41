/-
# Numbers in JSON text

A number is read in two steps. `Numeral.read?` takes the longest text of the grammar

    -? (0 | [1-9] [0-9]*) (. [0-9]+)? ([eE] [+-]? [0-9]+)?

and `Numeral.value?` says which number it stands for. A numeral without point and exponent that
fits 64 bits is an integer. Any other is a floating point number, built from a significand of at
most 64 bits and a power of ten: digits of the integer part that no longer fit count as places,
and from the first digit after the point that does not fit the digits are dropped. The significand
is rounded, then scaled by powers of ten up to `10 ^ 308`, each step rounding once. A numeral whose
number would be infinite has no value.
-/

import OpenApiClient.Json.Value

namespace OpenApiClient
namespace Json

/-- The parts of a number in JSON text. -/
structure Numeral where
  negative : Bool
  integer : List Char
  fraction : Option (List Char)
  exponent : Option (Bool × List Char)
deriving DecidableEq, Repr

/-- The value of a digit. -/
def digitValue (c : Char) : Nat := c.toNat - '0'.toNat

namespace Numeral

/-- The digits at the start of a text, at least one, and what follows them. -/
def digits? (cs : List Char) : Option (List Char × List Char) :=
  let (ds, rest) := cs.span Char.isDigit
  if ds.isEmpty then none else some (ds, rest)

/-- The part after the point, if a point follows. -/
def fraction? : List Char → Option (Option (List Char) × List Char)
  | '.' :: cs => (digits? cs).map fun (ds, rest) => (some ds, rest)
  | cs => some (none, cs)

/-- The exponent, if the mark of one follows; `true` marks a negative one. -/
def exponent? : List Char → Option (Option (Bool × List Char) × List Char)
  | c :: cs =>
    if c = 'e' ∨ c = 'E' then
      let (negative, cs) := match cs with
        | '+' :: r => (false, r)
        | '-' :: r => (true, r)
        | r => (false, r)
      (digits? cs).map fun (ds, rest) => (some (negative, ds), rest)
    else some (none, c :: cs)
  | [] => some (none, [])

/-- The numeral at the start of a text and what follows it. -/
def read? (cs : List Char) : Option (Numeral × List Char) := do
  let (negative, cs) := match cs with
    | '-' :: r => (true, r)
    | r => (false, r)
  let (integer, cs) ← match cs with
    | '0' :: '0' :: _ => none
    | '0' :: r => if (r.head?.map Char.isDigit).getD false then none else some (['0'], r)
    | r => digits? r
  let (fraction, cs) ← fraction? cs
  let (exponent, cs) ← exponent? cs
  return (⟨negative, integer, fraction, exponent⟩, cs)

/-- The greatest number of 64 bits. -/
def maxWord : Nat := Decimal.twoPow 64 - 1

/-- The significand and the places of the integer part: digits that do not fit count as places. -/
def integerParts : List Char → (full : Bool) → (significand : Nat) → (places : Int) → Nat × Int
  | [], _, m, k => (m, k)
  | d :: ds, full, m, k =>
    let next := m * 10 + digitValue d
    if full || next > maxWord then integerParts ds true m (k + 1)
    else integerParts ds false next k

/-- The significand and the places with the digits after the point, as far as they fit. -/
def fractionParts : List Char → (significand : Nat) → (places : Int) → Nat × Int
  | [], m, k => (m, k)
  | d :: ds, m, k =>
    let next := m * 10 + digitValue d
    if next > maxWord then (m, k) else fractionParts ds next (k - 1)

/-- The number scaled by a power of ten, in steps of at most `10 ^ 308`. -/
def scaled? (x : Decimal.Double) (k : Int) : (fuel : Nat) → Option Decimal.Double
  | 0 => some x
  | fuel + 1 =>
    if k.natAbs ≤ 308 then
      let y := x.scale (0 ≤ k) k.natAbs
      if y.isFinite then some y else none
    else if x.same (.zero false) then some x
    else if 0 ≤ k then none
    else scaled? (x.scale false 308) (k + 308) fuel

/-- The floating point number of a significand and a power of ten, if it is finite. -/
def double? (negative : Bool) (significand : Nat) (k : Int) : Option Decimal.Double :=
  (scaled? (.ofNat significand) k 8).map fun x => if negative then x.negate else x

/-- The integer of a numeral without point and exponent, if it fits 64 bits. -/
def int? (n : Numeral) : Option Int :=
  let m := n.integer.foldl (fun m d => m * 10 + digitValue d) 0
  if !n.negative then (if m ≤ maxWord then some m else none)
  else if m = 0 ∨ m > Decimal.twoPow 63 then none
  else some (-(m : Int))

/-- The power of ten that an exponent asks for, cut at 31 bits; `none` beyond. -/
def power? (ds : List Char) : Option Int :=
  let m := ds.foldl (fun m d => m * 10 + digitValue d) 0
  if m < Decimal.twoPow 31 then some m else none

/-- The floating point number of a numeral, if it is finite. -/
def float? (n : Numeral) : Option Decimal.Double :=
  let (m, k) := integerParts n.integer false 0 0
  let (m, k) := fractionParts (n.fraction.getD []) m k
  match n.exponent with
  | none => double? n.negative m k
  | some (negative, ds) => match power? ds with
    | some e => double? n.negative m (if negative then k - e else k + e)
    | none => if m ≠ 0 ∧ negative = false then none else some (.zero n.negative)

/-- The number that a numeral stands for. -/
def value? (n : Numeral) : Option Number :=
  if n.fraction.isNone && n.exponent.isNone then
    match n.int? with
    | some i => some (.int i)
    | none => n.float?.map .float
  else n.float?.map .float

end Numeral

end Json
end OpenApiClient
