/-
# The shortest decimal of a number

The reals that round to a finite number form an interval around it, ends included iff its
significand is even. `shortest` looks for a decimal with 1, 2, … 17 digits in it: the first count
of digits with a hit wins, of two hits the nearer, and of two equally near ones the one that `Tie`
says. A decimal with a given count of digits lies in the interval only if one of the number's two
neighbours on that decimal grid does, so no shorter one is missed.

Two writings of the digits: `positional` never uses an exponent and writes no `.0`; of two equally
near decimals it takes the greater. `scientific` writes `1000.0`, `1e+16` and `1e-6` and is
positional between `1e-5` and `1e+16`; of two equally near decimals it takes the even one.
-/

import OpenApiClient.Decimal.Double

namespace OpenApiClient
namespace Decimal

/-- A decimal `digits · 10 ^ exponent`. -/
structure Digits where
  digits : Nat
  exponent : Int
deriving DecidableEq, Repr

/-- The count of decimal digits. -/
def digitCount (n : Nat) : Nat := (Nat.toDigits 10 n).length

/-- The interval of the reals that round to `significand · 2 ^ exponent`: its lower end, the number
and its upper end over a common denominator. -/
def roundingInterval (significand : Nat) (exponent : Int) : Nat × Nat × Nat × Nat :=
  let below := if significand = twoPow 52 ∧ exponent > Double.minExponent then 1 else 2
  let unit := if 0 ≤ exponent then twoPow exponent.toNat else 1
  let den := 4 * (if 0 ≤ exponent then 1 else twoPow (-exponent).toNat)
  ((4 * significand - below) * unit, 4 * significand * unit, (4 * significand + 2) * unit, den)

/-- The exponent `p` with `10 ^ p ≤ num / den < 10 ^ (p + 1)`. -/
def decimalExponent (num den : Nat) : Int :=
  if den ≤ num then (digitCount (num / den) : Int) - 1
  else
    let j := digitCount (den / num) - 1
    if den ≤ num * tenPow j then -(j : Int) else -(j + 1 : Int)

/-- Which of two equally near decimals is taken. -/
inductive Tie where
  | greater
  /-- The one whose last digit is even. -/
  | even
deriving DecidableEq, Repr

/-- The nearer of `n` and `n + 1`, which are so far to the left and to the right. -/
def Tie.nearer (tie : Tie) (n left right : Nat) : Nat :=
  if left < right then n
  else if right < left then n + 1
  else match tie with
    | .greater => n + 1
    | .even => if n % 2 = 0 then n else n + 1

/-- The better of the two neighbours on the grid of `10 ^ k` that round to the number, if any. -/
def neighbour? (tie : Tie) (low mid high den : Nat) (closed : Bool) (k : Int) : Option Nat :=
  let up := if 0 ≤ k then tenPow k.toNat else 1
  let down := if 0 ≤ k then 1 else tenPow (-k).toNat
  -- a grid point `n` is `n · up / down`, compared with `x / den`
  let hits (n : Nat) : Bool :=
    let x := n * up * den
    if closed then low * down ≤ x && x ≤ high * down else low * down < x && x < high * down
  let n := (mid * down) / (den * up)
  let left := mid * down - n * up * den
  let right := (n + 1) * up * den - mid * down
  match hits n, hits (n + 1) with
  | true, true => some (tie.nearer n left right)
  | true, false => some n
  | false, true => some (n + 1)
  | false, false => none

/-- The digits of the first grid with a hit, from grids with `count`, `count + 1`, … digits. -/
def firstHit (tie : Tie) (low mid high den : Nat) (closed : Bool) (p : Int) :
    (fuel count : Nat) → Digits
  | 0, _ => ⟨mid / den, 0⟩
  | fuel + 1, count =>
    let k := p - count + 1
    match neighbour? tie low mid high den closed k with
    | some n => ⟨n, k⟩
    | none => firstHit tie low mid high den closed p fuel (count + 1)

/-- The digits without trailing zeros. -/
def Digits.strip (d : Digits) : (fuel : Nat) → Digits
  | 0 => d
  | fuel + 1 =>
    if d.digits % 10 = 0 ∧ d.digits ≠ 0 then Digits.strip ⟨d.digits / 10, d.exponent + 1⟩ fuel
    else d

/-- The shortest decimal that rounds to a finite number. -/
def shortest (tie : Tie) (significand : Nat) (exponent : Int) : Digits :=
  if significand = 0 then ⟨0, 0⟩
  else
    let (low, mid, high, den) := roundingInterval significand exponent
    let p := decimalExponent mid den
    (firstHit tie low mid high den (significand % 2 == 0) p 17 1).strip 17

/-- Zeros. -/
def zeros (n : Nat) : String := .ofList (List.replicate n '0')

/-- A decimal in positional notation without a trailing point. -/
def Digits.positional (d : Digits) : String :=
  let ds := Nat.toDigits 10 d.digits
  if 0 ≤ d.exponent then .ofList ds ++ zeros d.exponent.toNat
  else
    let places := (-d.exponent).toNat
    if ds.length ≤ places then "0." ++ zeros (places - ds.length) ++ .ofList ds
    else .ofList (ds.take (ds.length - places)) ++ "." ++ .ofList (ds.drop (ds.length - places))

/-- A decimal with a point always, and an exponent where the number is below `1e-5` or not below
`1e+16`. -/
def Digits.scientific (d : Digits) : String :=
  let ds := Nat.toDigits 10 d.digits
  let point : Int := ds.length + d.exponent
  if d.digits = 0 then "0.0"
  else if 0 ≤ d.exponent ∧ point ≤ 16 then d.positional ++ ".0"
  else if -5 < point ∧ point ≤ 16 then d.positional
  else
    let mantissa : String := match ds with
      | [] => ""
      | [c] => .ofList [c]
      | c :: cs => .ofList (c :: '.' :: cs)
    mantissa ++ (if 0 < point then "e+" else "e") ++ toString (point - 1)

namespace Double

/-- The number in positional notation. -/
def positional : Double → String
  | .finite s m e => (if s then "-" else "") ++ (shortest .greater m e).positional
  | .infinite s => if s then "-inf" else "inf"
  | .notANumber => "NaN"

/-- The number with a point or an exponent. -/
def scientific : Double → String
  | .finite s m e => (if s then "-" else "") ++ (shortest .even m e).scientific
  | .infinite s => if s then "-inf" else "inf"
  | .notANumber => "NaN"

example : (ofDecimal false 1 21).positional = "1000000000000000000000" := by decide +kernel
example : (ofDecimal true 0 0).positional = "-0" := by decide +kernel
example : (ofDecimal false 112589990684262425 (-2)).positional = "1125899906842624.3" := by
  decide +kernel
example : (ofDecimal false 112589990684262425 (-2)).scientific = "1125899906842624.2" := by
  decide +kernel
example : (ofDecimal false 1 16).scientific = "1e+16" := by decide +kernel
example : (ofDecimal false 1000 0).scientific = "1000.0" := by decide +kernel
example : (ofDecimal false 5 (-324)).scientific = "5e-324" := by decide +kernel

end Double

end Decimal
end OpenApiClient
