/-
# The text of scalars

In plain and quoted scalars lines are folded: a line break between words is a blank, and of
several breaks all but the first count. Blanks around breaks are dropped. `Gap` collects what lies
between two words.

Block scalars keep their lines; in the folded style a break between two lines that do not start
with a blank is a blank. A block scalar starts with indicators for its indentation and for the line
breaks at its end.
-/

import OpenApiClient.Yaml.Input

namespace OpenApiClient
namespace Yaml

/-- What lies between two words of a scalar, last first. -/
inductive Gap where
  | blanks (cs : List Char)
  /-- Line breaks; the first one is missing if it was escaped. -/
  | breaks (first : Option Char) (more : List Char)
deriving DecidableEq, Repr

namespace Gap

/-- No gap. -/
def none : Gap := .blanks []

/-- Whether there is no gap. -/
def isNone : Gap → Bool
  | .blanks cs => cs.isEmpty
  | .breaks .. => false

/-- Whether the gap breaks the line. -/
def isBroken : Gap → Bool
  | .blanks _ => false
  | .breaks .. => true

/-- The gap with one more blank or line break. -/
def add (c : Char) : Gap → Gap
  | .blanks cs => if isBreak c then .breaks (some c) [] else .blanks (c :: cs)
  | .breaks f cs => if isBreak c then .breaks f (c :: cs) else .breaks f cs

/-- The text that a gap stands for, last character first. -/
def text : Gap → List Char
  | .blanks cs => cs
  | .breaks (some '\n') [] => [' ']
  | .breaks (some '\n') cs => cs
  | .breaks (some c) cs => cs ++ [c]
  | .breaks .none cs => cs

end Gap

/-- Whether a plain scalar ends before the next character. -/
def endsPlain (flow : Bool) (indent : Int) (gap : Gap) (i : Input) : Bool :=
  let c := i.head
  c == endChar || (gap.isBroken && !flow && (i.column : Int) < indent) || i.isDocumentMark ||
    (!gap.isNone && c == '#') || (c == ':' && isWordEnd (i.charAt 1)) ||
    (flow && isFlowIndicator c)

/-- Whether a colon stands where it can neither be text nor end a key. -/
def isStrayColon (flow : Bool) (i : Input) : Bool :=
  flow && i.head == ':' && (isFlowIndicator (i.charAt 1) || i.charAt 1 == '?')

/-- A plain scalar, given its text so far, last character first: its text, whether a line break
follows it, and the rest. -/
def plainText (flow : Bool) (indent : Int) (gap : Gap) (text : List Char) :
    Input → Option (List Char × Bool × Input)
  | [] => none
  | g :: rest =>
    if isBlank g.char || isBreak g.char then
      if g.char == '\t' && gap.isBroken && (g.column : Int) < indent then none
      else plainText flow indent (gap.add g.char) text rest
    else if isStrayColon flow (g :: rest) then none
    else if endsPlain flow indent gap (g :: rest) then
      some (text.reverse, gap.isBroken, g :: rest)
    else plainText flow indent .none (g.char :: gap.text ++ text) rest

/-- A scalar in single quotes after the first one, given its text so far. -/
def singleQuoted (gap : Gap) (text : List Char) : Input → Option (List Char × Input)
  | g :: h :: rest =>
    if isBlank g.char || isBreak g.char then singleQuoted (gap.add g.char) text (h :: rest)
    else if Input.isDocumentMark (g :: h :: rest) then none
    else if g.char == '\'' then
      if h.char == '\'' then singleQuoted .none ('\'' :: gap.text ++ text) rest
      else some ((gap.text ++ text).reverse, h :: rest)
    else singleQuoted .none (g.char :: gap.text ++ text) (h :: rest)
  | _ => none

/-- The character of an escape by one letter. -/
def shortEscape? : Char → Option Char
  | '0' => some '\x00'
  | 'a' => some '\x07'
  | 'b' => some '\x08'
  | 't' => some '\t'
  | '\t' => some '\t'
  | 'n' => some '\n'
  | 'v' => some '\x0b'
  | 'f' => some '\x0c'
  | 'r' => some '\r'
  | 'e' => some '\x1b'
  | ' ' => some ' '
  | '"' => some '"'
  | '/' => some '/'
  | '\\' => some '\\'
  | 'N' => some '\x85'
  | '_' => some '\xa0'
  | 'L' => some '\u2028'
  | 'P' => some '\u2029'
  | _ => none

/-- The number of digits of an escape by code. -/
def codeLength? : Char → Option Nat
  | 'x' => some 2
  | 'u' => some 4
  | 'U' => some 8
  | _ => none

/-- The character of a code. -/
def charOfCode? (n : Nat) : Option Char :=
  if (0xD800 ≤ n ∧ n ≤ 0xDFFF) ∨ n > 0x10FFFF then none else some (.ofNat n)

/-- The value of a digit of base sixteen. -/
def hexDigit? (c : Char) : Option Nat :=
  if c.isDigit then some (c.toNat - '0'.toNat)
  else if 'a' ≤ c ∧ c ≤ 'f' then some (c.toNat - 'a'.toNat + 10)
  else if 'A' ≤ c ∧ c ≤ 'F' then some (c.toNat - 'A'.toNat + 10)
  else none

/-- A scalar in double quotes after the first one, given its text so far; `code` holds the number
of digits that an escape still needs, less one, and its value so far. -/
def doubleQuoted (code : Option (Nat × Nat)) (gap : Gap) (text : List Char) :
    Input → Option (List Char × Input)
  | g :: h :: rest => match code with
    | some (n, v) => match hexDigit? g.char with
      | none => none
      | some d =>
        let v := v * 16 + d
        match n with
        | n + 1 => doubleQuoted (some (n, v)) .none text (h :: rest)
        | 0 => match charOfCode? v with
          | none => none
          | some c => doubleQuoted none .none (c :: text) (h :: rest)
    | none =>
      if isBlank g.char || isBreak g.char then doubleQuoted none (gap.add g.char) text (h :: rest)
      else if Input.isDocumentMark (g :: h :: rest) then none
      else
        let text := gap.text ++ text
        if g.char == '"' then some (text.reverse, h :: rest)
        else if g.char == '\\' then
          if isBreak h.char then doubleQuoted none (.breaks none []) text rest
          else match shortEscape? h.char, codeLength? h.char with
            | some c, _ => doubleQuoted none .none (c :: text) rest
            | none, some n => doubleQuoted (some (n - 1, 0)) .none text rest
            | none, none => none
        else doubleQuoted none .none (g.char :: text) (h :: rest)
  | _ => none

/-- What becomes of the line breaks at the end of a block scalar. -/
inductive Chomping where
  | strip
  | clip
  | keep
deriving DecidableEq, Repr

/-- An indicator of chomping, if one follows. -/
def chomping? (i : Input) : Option Chomping × Input :=
  if i.head == '+' then (some .keep, i.after 1)
  else if i.head == '-' then (some .strip, i.after 1)
  else (none, i)

/-- An indicator of indentation, if one follows; zero is none. -/
def increment? (i : Input) : Option (Option Nat × Input) :=
  if i.head == '0' then none
  else if i.head.isDigit then some (some (i.head.toNat - '0'.toNat), i.after 1)
  else some (none, i)

/-- The indicators of a block scalar in any order, and what follows their line. -/
def blockHeader? (i : Input) : Option (Chomping × Option Nat × Input) := do
  let (before, i) := chomping? i
  let (increment, i) ← increment? i
  let (after, i) := if before.isNone && increment.isSome then chomping? i else (none, i)
  return ((before.or after).getD .clip, increment, ← i.endLine?)

/-- The empty lines at the start, given the indentation of the text or zero when it is not known
yet: the greatest column reached, the line breaks, last first, and the rest. -/
def emptyLines (indent greatest : Nat) (breaks : List Char) :
    Input → Option (Nat × List Char × Input)
  | [] => none
  | g :: rest =>
    let inside := indent == 0 || decide (g.column < indent)
    if inside && g.char == ' ' then emptyLines indent greatest breaks rest
    else if inside && g.char == '\t' then none
    else
      let greatest := max greatest g.column
      if isBreak g.char then emptyLines indent greatest (g.char :: breaks) rest
      else some (greatest, breaks, g :: rest)

/-- What is known between two lines of a block scalar. -/
structure BlockState where
  /-- The text so far, last character first. -/
  text : List Char := []
  /-- The line break after the last line. -/
  ending : Option Char := none
  /-- The breaks of the empty lines after it, last first. -/
  breaks : List Char := []
  /-- Whether the last line started with a blank. -/
  wasBlank : Bool := false
deriving DecidableEq, Repr

/-- The text with the breaks before the next line. -/
def BlockState.joined (s : BlockState) (literal startsBlank : Bool) : List Char :=
  let folds := !literal && s.ending == some '\n' && !s.wasBlank && !startsBlank
  s.breaks ++ if folds then (if s.breaks.isEmpty then ' ' :: s.text else s.text)
    else s.ending.toList ++ s.text

/-- The lines of a block scalar. The fuel bounds their number. -/
def blockLines (literal : Bool) (indent : Nat) :
    (fuel : Nat) → BlockState → Input → Option (BlockState × Input)
  | 0, _, _ => none
  | fuel + 1, s, i =>
    if i.column == indent && i.head != endChar then
      let startsBlank := isBlank i.head
      let (line, rest) := i.spanChars (!isLineEnd ·)
      let text := line.reverse ++ s.joined literal startsBlank
      let (ending, rest) :=
        if isBreak rest.head then (some rest.head, rest.after 1) else (none, rest)
      match emptyLines indent 0 [] rest with
      | none => none
      | some (_, breaks, rest) =>
        blockLines literal indent fuel ⟨text, ending, breaks, startsBlank⟩ rest
    else some (s, i)

/-- The text of a block scalar with its end chomped, last character first. -/
def BlockState.chomped (s : BlockState) : Chomping → List Char
  | .strip => s.text
  | .clip => s.ending.toList ++ s.text
  | .keep => s.breaks ++ (s.ending.toList ++ s.text)

/-- A block scalar after its first indicator, inside blocks with the given indentation. -/
def blockText (literal : Bool) (parent : Int) (i : Input) : Option (List Char × Input) := do
  let (chomping, increment, i) ← blockHeader? i
  let given := match increment with
    | some n => if 0 ≤ parent then parent.toNat + n else n
    | none => 0
  let (greatest, breaks, i) ← emptyLines given 0 [] i
  let indent := if given = 0 then max (max greatest (parent + 1).toNat) 1 else given
  let (s, i) ← blockLines literal indent (i.length + 1) { breaks } i
  return ((s.chomped chomping).reverse, i)

end Yaml
end OpenApiClient
