/-
# Scalars of YAML

A scalar keeps its text, the style that it was written in, and its tag. What it is by itself is
told by the tag, or else, if it is plain, by its text, by these rules:

| text | value |
| --- | --- |
| nothing, `~`, `null`, `Null`, `NULL` | null |
| `true`, `True`, `TRUE`, `false`, `False`, `FALSE` | a truth value |
| digits, after `0x`, `0o` or `0b` in another base, after a sign or not | an integer |
| a decimal with a point or an exponent, `.inf`, `.nan` | a floating point number |
| anything else, and decimal digits after a needless zero | a string |

Integers of more than 64 bits are no values as long as 128 bits hold them; beyond that they are
read as floating point numbers.
-/

import OpenApiClient.Json.Number
import OpenApiClient.Source.Tree
import OpenApiClient.Yaml.Tag

namespace OpenApiClient
namespace Yaml

/-- How a scalar is written, as far as it matters to its meaning. -/
inductive Style where
  | plain
  | literal
  | other
deriving DecidableEq, Repr

/-- A scalar as it stands in a text. -/
structure Atom where
  text : String
  style : Style := .plain
  tag : Option Tag := none
deriving DecidableEq, Repr

/-- Whether the text is a spelling of null. -/
def isNullText (s : String) : Bool := s ∈ ["null", "Null", "NULL", "~"]

/-- The truth value that the text spells. -/
def truth? (s : String) : Option Bool :=
  if s ∈ ["true", "True", "TRUE"] then some true
  else if s ∈ ["false", "False", "FALSE"] then some false
  else none

/-- The value of a digit in a base of at most sixteen. -/
def digit? (base : Nat) (c : Char) : Option Nat :=
  let n :=
    if c.isDigit then some (c.toNat - '0'.toNat)
    else if 'a' ≤ c ∧ c ≤ 'f' then some (c.toNat - 'a'.toNat + 10)
    else if 'A' ≤ c ∧ c ≤ 'F' then some (c.toNat - 'A'.toNat + 10)
    else none
  n.filter (· < base)

/-- The value of digits in a base. -/
def digits? (base : Nat) (cs : List Char) : Option Nat :=
  if cs.isEmpty then none else cs.foldlM (fun m c => (digit? base c).map (m * base + ·)) 0

/-- Whether there is more than one decimal digit and a zero in front. -/
def hasNeedlessZero : List Char → Bool
  | '0' :: c :: cs => (c :: cs).all Char.isDigit
  | _ => false

/-- A number without its sign. -/
def unsigned : List Char → List Char
  | '+' :: cs => cs
  | '-' :: cs => cs
  | cs => cs

/-- The value of an integer without a sign. -/
def magnitude? : List Char → Option Nat
  | '0' :: 'x' :: cs => digits? 16 cs
  | '0' :: 'o' :: cs => digits? 8 cs
  | '0' :: 'b' :: cs => digits? 2 cs
  | cs => if hasNeedlessZero cs then none else digits? 10 cs

/-- Whether an integer is negative, and its magnitude. -/
def integer? : List Char → Option (Bool × Nat)
  | '-' :: cs => (magnitude? cs).map (true, ·)
  | '+' :: cs => (magnitude? cs).map (false, ·)
  | cs => (magnitude? cs).map (false, ·)

/-- The exponent of a decimal, if it is all that is left. -/
def exponent? : List Char → Option Int
  | [] => some 0
  | c :: cs =>
    if c = 'e' ∨ c = 'E' then match cs with
      | '-' :: ds => (digits? 10 ds).map fun n => -(n : Int)
      | '+' :: ds => (digits? 10 ds).map fun n => (n : Int)
      | ds => (digits? 10 ds).map fun n => (n : Int)
    else none

/-- The number that a decimal without sign stands for, if it is finite. -/
def decimal? (negative : Bool) (cs : List Char) : Option Decimal.Double := do
  let (whole, rest) := cs.span Char.isDigit
  let (places, rest) := match rest with
    | '.' :: r => r.span Char.isDigit
    | r => ([], r)
  let digits ← digits? 10 (whole ++ places)
  let e ← exponent? rest
  let x := Decimal.Double.ofDecimal negative digits (e - places.length)
  if x.isFinite then some x else none

/-- The floating point number that a text spells. -/
def float? (cs : List Char) : Option Decimal.Double :=
  let s := String.ofList (match cs with | '+' :: r => r | r => r)
  if s ∈ [".inf", ".Inf", ".INF"] then some (.infinite false)
  else if String.ofList cs ∈ ["-.inf", "-.Inf", "-.INF"] then some (.infinite true)
  else if String.ofList cs ∈ [".nan", ".NaN", ".NAN"] then some .notANumber
  else match cs with
    | '-' :: r => decimal? true r
    | '+' :: r => decimal? false r
    | r => decimal? false r

/-- An integer as a scalar, if there is a value for it; `none` where it is none. -/
def integerScalar? (negative : Bool) (n : Nat) : Option (Option Scalar) :=
  let fits (bits : Nat) : Bool :=
    if negative then n ≤ Decimal.twoPow (bits - 1) else n < Decimal.twoPow bits
  if fits 64 then
    if negative then some (some (if n = 0 then .minusZero else .number (.int (-n))))
    else some (some (.number (.int n)))
  else if fits 128 then some none
  else none

/-- An integer that the text spells, as `integerScalar?` tells. -/
def integerText? (s : String) : Option (Option Scalar) :=
  (integer? s.toList).bind fun (negative, n) => integerScalar? negative n

/-- The scalar that a plain text is by itself. -/
def plainScalar? (s : String) : Option Scalar :=
  if s.isEmpty || isNullText s then some .null
  else match truth? s with
    | some b => some (.bool b)
    | none => match integerText? s with
      | some n => n
      | none =>
        if hasNeedlessZero (unsigned s.toList) then some (.string s)
        else match float? s.toList with
          | some x => some (.number (.float x))
          | none => some (.string s)

namespace Atom

/-- The name of its tag, if that is a local one. -/
def tagName? (a : Atom) : Option String := a.tag.bind (·.name?)

/-- The scalar that it is by itself. -/
def scalar? (a : Atom) : Option Scalar :=
  match a.tag with
  | none => if a.style = .plain then plainScalar? a.text else some (.string a.text)
  | some tag =>
    if a.tagName?.isSome then none
    else if tag = .core "bool" then (truth? a.text).map .bool
    else if tag = .core "int" then (integerText? a.text).join
    else if tag = .core "float" then (float? a.text.toList).map (.number ∘ .float)
    else if tag = .core "null" then if isNullText a.text then some .null else none
    else if tag.isLocal && a.style = .plain then plainScalar? a.text
    else some (.string a.text)

/-- Whether it stands for an absent value. -/
def absent? (a : Atom) : Option Bool :=
  if a.style ≠ .plain then some false
  else match a.tag with
    | none => some (a.text.isEmpty || isNullText a.text)
    | some tag =>
      if tag = .core "null" then if isNullText a.text then some true else none else some false

/-- The truth value that it stands for. -/
def flag? (a : Atom) : Option Bool :=
  if a.style = .plain || (a.style = .literal && a.tag == some (.core "bool")) then truth? a.text
  else none

/-- The choice that it names: by its text, or by a local tag on nothing. -/
def choice? (a : Atom) : Option String :=
  match a.tagName? with
  | none => some a.text
  | some name =>
    if a.style = .plain && (a.text.isEmpty || isNullText a.text) then some name else none

end Atom

/-- Any scalar is a string where one is expected. -/
instance : Leaf Atom where
  scalar? := Atom.scalar?
  text? a := some a.text
  flag? := Atom.flag?
  absent? := Atom.absent?
  isVoid a := a.style = .plain && a.text.isEmpty
  choice? := Atom.choice?
  fieldKey? a := some (.name a.text)
  isLoose := false

end Yaml
end OpenApiClient
