/-
# Binary floating point numbers

A number of the binary64 format is a sign, a significand below `2 ^ 53` and an exponent of two not
below `-1074`; significands below `2 ^ 52` occur with the least exponent only. All arithmetic here
is exact arithmetic on naturals followed by one rounding, `ofRatio`, to the nearest number, of two
to the one with an even significand.

| function | what it rounds |
| --- | --- |
| `ofNat n` | `n` |
| `ofDecimal d k` | `d · 10 ^ k` |
| `scale x k` | the product or quotient of `x` and the rounded `10 ^ |k|` |
-/

import OpenApiClient.Decimal.Power

namespace OpenApiClient
namespace Decimal

/-- A number of the binary64 format. -/
inductive Double where
  | finite (negative : Bool) (significand : Nat) (exponent : Int)
  | infinite (negative : Bool)
  | notANumber
deriving DecidableEq, Repr

namespace Double

/-- The least exponent. -/
def minExponent : Int := -1074

/-- The greatest exponent. -/
def maxExponent : Int := 971

/-- Zero with a sign. -/
def zero (negative : Bool) : Double := .finite negative 0 minExponent

/-- Whether the number is finite. -/
def isFinite : Double → Bool
  | .finite .. => true
  | _ => false

/-- Whether two numbers have one value: the zeros have, `notANumber` has none. -/
def same : Double → Double → Bool
  | .finite s m e, .finite s' m' e' => (m == 0 && m' == 0) || (s == s' && m == m' && e == e')
  | .infinite s, .infinite s' => s == s'
  | _, _ => false

/-- The number with the other sign. -/
def negate : Double → Double
  | .finite s m e => .finite (!s) m e
  | .infinite s => .infinite (!s)
  | .notANumber => .notANumber

/-- The quotient rounded to the nearest natural, a half to the even one. -/
def roundQuotient (num den : Nat) : Nat :=
  let q := num / den
  let r := num % den
  if 2 * r < den then q else if 2 * r > den then q + 1 else if q % 2 = 0 then q else q + 1

/-- `num / den · 2 ^ (-e)` as a quotient of naturals. -/
def shifted (num den : Nat) (e : Int) : Nat × Nat :=
  if 0 ≤ e then (num, den * twoPow e.toNat) else (num * twoPow (-e).toNat, den)

/-- The exponent for a significand of 53 bits, or the least exponent where that is greater. -/
def exponentFor (num den : Nat) : Int :=
  let guess : Int := (Nat.log2 num : Int) - (Nat.log2 den : Int) - 52
  let (n, d) := shifted num den guess
  let exact := if n / d < twoPow 52 then guess - 1 else guess
  max exact minExponent

/-- The number nearest to a quotient of naturals. -/
def ofRatio (negative : Bool) (num den : Nat) : Double :=
  if num = 0 then zero negative
  else
    let e := exponentFor num den
    let (n, d) := shifted num den e
    let m := roundQuotient n d
    let (m, e) := if m = twoPow 53 then (twoPow 52, e + 1) else (m, e)
    if e > maxExponent then .infinite negative else .finite negative m e

/-- The number nearest to a natural. -/
def ofNat (n : Nat) : Double := ofRatio false n 1

/-- The number nearest to `digits · 10 ^ k`. The exponent is cut where the answer is decided. -/
def ofDecimal (negative : Bool) (digits : Nat) (k : Int) : Double :=
  if digits = 0 then zero negative
  else
    let size := (Nat.toDigits 10 digits).length
    if k + size > 400 then .infinite negative
    else if k + size < -400 then zero negative
    else if 0 ≤ k then ofRatio negative (digits * tenPow k.toNat) 1
    else ofRatio negative digits (tenPow (-k).toNat)

/-- The value of a finite number without its sign, as a quotient of naturals. -/
def magnitude (significand : Nat) (exponent : Int) : Nat × Nat :=
  if 0 ≤ exponent then (significand * twoPow exponent.toNat, 1)
  else (significand, twoPow (-exponent).toNat)

/-- The product with (`up`) or the quotient by the rounded power `10 ^ k`, rounded. -/
def scale (up : Bool) (k : Nat) : Double → Double
  | .finite s m e =>
    match ofNat (tenPow k) with
    | .finite _ pm pe =>
      let (n, d) := magnitude m e
      let (pn, pd) := magnitude pm pe
      if up then ofRatio s (n * pn) (d * pd) else ofRatio s (n * pd) (d * pn)
    | other => other
  | x => x

example : ofDecimal false 1 (-1) = .finite false 7205759403792794 (-56) := by decide +kernel
example : ofDecimal false 5 (-324) = .finite false 1 (-1074) := by decide +kernel
example : ofDecimal true 0 5 = .finite true 0 (-1074) := by decide +kernel
example : ofDecimal false 1 309 = .infinite false := by decide +kernel

end Double

end Decimal
end OpenApiClient
