/-
# String literals are exact

A reader of string literals between double quotes, as the language has them in modules. A string is a row
of code units, of which a character beyond the first 65536 takes two.

| escape sequence | stands for |
| --- | --- |
| `\b` `\t` `\n` `\v` `\f` `\r` | a control character |
| `\0` before no digit | the unit 0; no other digit may be escaped |
| `\x` and two digits of base 16 | one unit |
| `\u` and four digits of base 16 | one unit |
| `\u` and digits of base 16 in braces | the units of a code point |
| `\` and an end of line | nothing |
| `\` and any other character | the character |

A line feed or a carriage return ends no literal, and no literal holds one. `literal?_quote` says that the
reader takes a text that was quoted for what it is, whatever comes after it: it stops behind the closing
quote. For no quote inside is bare (`isEscaped_of_quote`), and the closing one is not escaped
(`isInside_quoted`). The value tells the text (`stringValue_inj`).

The reader and the printer share nothing but the characters.
-/

import OpenApiClient.Json.Reader
import OpenApiClient.Proofs.UniqueReading

namespace OpenApiClient
namespace TypeScript

section Reader

/-- The code units of a code point. -/
def unitsOfCode (n : Nat) : List Nat :=
  if n < 0x10000 then [n] else [0xD800 + (n - 0x10000) / 0x400, 0xDC00 + (n - 0x10000) % 0x400]

/-- The code units of a character. -/
def codeUnits (c : Char) : List Nat := unitsOfCode c.toNat

/-- A text as the value of a string. -/
def stringValue (s : String) : List Nat := s.toList.flatMap codeUnits

/-- The value of so many digits of base sixteen after `n`, and what follows them. -/
def hexDigits? : (count n : Nat) → List Char → Option (Nat × List Char)
  | 0, n, r => some (n, r)
  | _ + 1, _, [] => none
  | count + 1, n, c :: r => (Json.Reader.hexValue? c).bind fun d => hexDigits? count (n * 16 + d) r

/-- The code point of the digits of base sixteen up to a closing brace, and what follows it; `n` is the
value of the digits before, if there are any. -/
def codePoint? (n : Option Nat) : List Char → Option (Nat × List Char)
  | [] => none
  | c :: r =>
    if c = '\x7d' then (n.filter (· ≤ 0x10FFFF)).map (·, r)
    else (Json.Reader.hexValue? c).bind fun d => codePoint? (some (n.getD 0 * 16 + d)) r

/-- The units of the control characters with a letter of their own. -/
def controls : List (Char × Nat) := [('b', 8), ('t', 9), ('n', 10), ('v', 11), ('f', 12), ('r', 13)]

/-- The characters that end a line. -/
def isLineEnd (c : Char) : Bool := c == '\n' || c == '\r' || c == '\u2028' || c == '\u2029'

/-- The units that an escape sequence stands for, and what follows it; the text starts behind the
backslash. -/
def escape? : List Char → Option (List Nat × List Char)
  | [] => none
  | c :: r =>
    if c = 'x' then (hexDigits? 2 0 r).map fun (n, rest) => ([n], rest)
    else if c = 'u' then
      if r.head? = some '\x7b' then (codePoint? none r.tail).map fun (n, rest) => (unitsOfCode n, rest)
      else (hexDigits? 4 0 r).map fun (n, rest) => ([n], rest)
    else if c = '\r' ∧ r.head? = some '\n' then some ([], r.tail)
    else if isLineEnd c then some ([], r)
    else if c.isDigit then
      if c = '0' ∧ r.head?.any Char.isDigit = false then some ([0], r) else none
    else some (((controls.lookup c).map ([·])).getD (codeUnits c), r)

theorem length_le_of_hexDigits? {count n m : Nat} {cs rest : List Char}
    (h : hexDigits? count n cs = some (m, rest)) : rest.length ≤ cs.length := by
  fun_induction hexDigits? count n cs with
  | case1 n r => exact Nat.le_of_eq (congrArg List.length (Prod.mk.inj (Option.some.inj h)).2).symm
  | case2 => cases h
  | case3 count n c r ih =>
    obtain ⟨d, -, hd⟩ := Option.bind_eq_some_iff.1 h
    exact Nat.le_succ_of_le (ih d hd)

theorem length_le_of_codePoint? {n : Option Nat} {m : Nat} {cs rest : List Char}
    (h : codePoint? n cs = some (m, rest)) : rest.length ≤ cs.length := by
  fun_induction codePoint? n cs with
  | case1 => cases h
  | case2 n r =>
    obtain ⟨_, -, heq⟩ := Option.map_eq_some_iff.1 h
    exact (Prod.mk.inj heq).2 ▸ Nat.le_succ _
  | case3 n c r _ ih =>
    obtain ⟨d, -, hd⟩ := Option.bind_eq_some_iff.1 h
    exact Nat.le_succ_of_le (ih d hd)

/-- An escape sequence is not empty. -/
theorem length_lt_of_escape? {cs rest : List Char} {units : List Nat}
    (h : escape? cs = some (units, rest)) : rest.length < cs.length := by
  cases cs with
  | nil => cases h
  | cons c r =>
    have htail : r.tail.length ≤ r.length := by simp
    suffices rest.length ≤ r.length from Nat.lt_succ_of_le this
    rw [escape?] at h
    split_ifs at h
    · obtain ⟨⟨n, r'⟩, hhex, heq⟩ := Option.map_eq_some_iff.1 h
      exact (Prod.mk.inj heq).2 ▸ length_le_of_hexDigits? hhex
    · obtain ⟨⟨n, r'⟩, hcode, heq⟩ := Option.map_eq_some_iff.1 h
      exact (Prod.mk.inj heq).2 ▸ Nat.le_trans (length_le_of_codePoint? hcode) htail
    · obtain ⟨⟨n, r'⟩, hhex, heq⟩ := Option.map_eq_some_iff.1 h
      exact (Prod.mk.inj heq).2 ▸ length_le_of_hexDigits? hhex
    all_goals
      obtain ⟨-, rfl⟩ := Prod.mk.inj (Option.some.inj h)
      first | exact htail | exact Nat.le_refl _

/-- The value of a literal from behind its opening quote, and what follows the closing one. -/
def inside? (cs : List Char) : Option (List Nat × List Char) :=
  match cs with
  | [] => none
  | c :: r =>
    if c = '"' then some ([], r)
    else if c = '\\' then
      match _h : escape? r with
      | none => none
      | some (units, rest) => (inside? rest).map fun (value, rest) => (units ++ value, rest)
    else if c = '\n' ∨ c = '\r' then none
    else (inside? r).map fun (value, rest) => (codeUnits c ++ value, rest)
termination_by cs.length
decreasing_by
  · exact Nat.lt_succ_of_lt (length_lt_of_escape? _h)
  · exact Nat.lt_succ_self _

theorem length_lt_of_inside? {cs rest : List Char} {value : List Nat}
    (h : inside? cs = some (value, rest)) : rest.length < cs.length := by
  fun_induction inside? cs generalizing value with
  | case1 => cases h
  | case2 r => exact (Prod.mk.inj (Option.some.inj h)).2 ▸ Nat.lt_succ_self _
  | case3 => cases h
  | case4 r units rest' hescape _ ih =>
    obtain ⟨⟨v, rest⟩, hinside, heq⟩ := Option.map_eq_some_iff.1 h
    obtain ⟨-, rfl⟩ := Prod.mk.inj heq
    exact Nat.lt_succ_of_lt (Nat.lt_trans (ih hinside) (length_lt_of_escape? hescape))
  | case5 => cases h
  | case6 c r _ _ _ ih =>
    obtain ⟨⟨v, rest⟩, hinside, heq⟩ := Option.map_eq_some_iff.1 h
    obtain ⟨-, rfl⟩ := Prod.mk.inj heq
    exact Nat.lt_succ_of_lt (ih hinside)

/-- The value of the string literal at the start of a text, and what follows it. -/
def literal? : List Char → Option (List Nat × List Char)
  | '"' :: r => inside? r
  | _ => none

/-- The name that the key of a property at the start of a text stands for, and what follows it: a string
literal, or the longest word if that is an identifier. -/
def key? (cs : List Char) : Option (List Nat × List Char) :=
  if cs.head? = some '"' then literal? cs
  else if identifierChars (cs.takeWhile isPart) then
    some ((cs.takeWhile isPart).flatMap codeUnits, cs.dropWhile isPart)
  else none

end Reader

section Quote

/-- Whether what follows the characters is escaped: the last of them is a backslash that is not escaped
itself. -/
def isEscaped (before : List Char) : Bool := before.foldl (fun escaped c => !escaped && c == '\\') false

theorem inside?_backslash {r rest : List Char} {units : List Nat}
    (h : escape? r = some (units, rest)) : inside? ('\\' :: r) =
      (inside? rest).map fun (value, rest) => (units ++ value, rest) := by
  rw [inside?, if_neg (by decide), if_pos rfl]
  split
  · next hnone => cases h.symm.trans hnone
  · next units' rest' hsome =>
    obtain ⟨rfl, rfl⟩ := Prod.mk.inj (Option.some.inj (h.symm.trans hsome))
    rfl

/-- **A quoted character is read as it is**, whatever follows. -/
theorem inside?_quoteChar (c : Char) (rest : List Char) : inside? (quoteChar c ++ rest) =
    (inside? rest).map fun (value, rest) => (codeUnits c ++ value, rest) := by
  have hescapes : ∀ p ∈ escapes, escape? (p.2 :: rest) = some (codeUnits p.1, rest) := by
    simp only [escapes, List.forall_mem_cons]
    exact ⟨rfl, rfl, rfl, rfl, rfl, List.forall_mem_nil _⟩
  obtain ⟨e, he, hc⟩ | ⟨hc', hc⟩ := quoteChar_cases c <;> rw [hc]
  · exact inside?_backslash (hescapes _ he)
  · have hne : ∀ e ∈ escapes.map Prod.fst, c ≠ e := fun e he => (ne_of_mem_of_not_mem he hc').symm
    rw [List.singleton_append, inside?, if_neg (hne _ (by decide)), if_neg (hne _ (by decide)),
      if_neg (not_or.2 ⟨hne _ (by decide), hne _ (by decide)⟩)]

theorem inside?_quoteChars (cs rest : List Char) :
    inside? (cs.flatMap quoteChar ++ '"' :: rest) = some (cs.flatMap codeUnits, rest) := by
  induction cs with
  | nil => rw [List.flatMap_nil, List.nil_append, inside?, if_pos rfl, List.flatMap_nil]
  | cons c cs ih =>
    rw [List.flatMap_cons, List.append_assoc, inside?_quoteChar, ih, Option.map_some,
      List.flatMap_cons]

/-- **A quoted text is read as it is**, and reading stops behind the closing quote. -/
theorem literal?_quote (s : String) (rest : List Char) :
    literal? ((quote s).toList ++ rest) = some (stringValue s, rest) := by
  rw [quote, String.toList_ofList, quoteChars, List.cons_append, List.append_assoc]
  exact inside?_quoteChars s.toList rest

/-- What may stand between the quotes of one literal: no bare quote and no end of a line, and nothing
that would escape the closing quote. -/
structure IsInside (cs : List Char) : Prop where
  quotes : ∀ before after, cs = before ++ '"' :: after → isEscaped before = true
  feeds : '\n' ∉ cs
  returns : '\r' ∉ cs
  closed : isEscaped cs = false

theorem isEscaped_concat (before : List Char) (c : Char) :
    isEscaped (before ++ [c]) = (!isEscaped before && c == '\\') := by
  rw [isEscaped, List.foldl_append]
  rfl

/-- Behind a quoted character nothing is escaped. -/
theorem isEscaped_quoteChar {before : List Char} (h : isEscaped before = false) (c : Char) :
    isEscaped (before ++ quoteChar c) = false := by
  obtain ⟨e, -, hc⟩ | ⟨hc', hc⟩ := quoteChar_cases c <;> rw [hc]
  · rw [List.append_cons, isEscaped_concat, isEscaped_concat, h]
    rfl
  · have hne : c ≠ '\\' := (ne_of_mem_of_not_mem (by decide) hc').symm
    rw [isEscaped_concat, beq_eq_false_iff_ne.2 hne, Bool.and_false]

theorem isEscaped_quoted {before : List Char} (h : isEscaped before = false) (cs : List Char) :
    isEscaped (before ++ cs.flatMap quoteChar) = false := by
  induction cs generalizing before with
  | nil => rwa [List.flatMap_nil, List.append_nil]
  | cons c cs ih =>
    rw [List.flatMap_cons, ← List.append_assoc]
    exact ih (isEscaped_quoteChar h c)

/-- A quote in a quoted character stands behind a backslash. -/
theorem eq_of_quoteChar_eq {c : Char} {before after : List Char}
    (h : quoteChar c = before ++ '"' :: after) : before = ['\\'] := by
  match before with
  | [] => exact absurd (h.trans (List.nil_append _)) (by simpa using quoteChar_ne_quote c [] after)
  | a :: before =>
    obtain ⟨e, -, hc⟩ | ⟨-, hc⟩ := quoteChar_cases c <;>
      obtain ⟨rfl, hrest⟩ := List.cons.inj (hc.symm.trans h)
    · obtain ⟨rfl, -⟩ | ⟨-, hnil⟩ := List.singleton_eq_append_iff.1 hrest
      · rfl
      · cases hnil
    · simp at hrest

theorem ne_of_mem_quoteChar {c d : Char} (h : d ∈ quoteChar c) : d ≠ '\n' ∧ d ≠ '\r' := by
  have hescapes : ∀ p ∈ escapes, p.2 ≠ '\n' ∧ p.2 ≠ '\r' := by decide
  obtain ⟨e, he, hc⟩ | ⟨hc', hc⟩ := quoteChar_cases c <;> rw [hc] at h
  · obtain rfl | h := List.mem_cons.1 h
    · decide
    · exact List.mem_singleton.1 h ▸ hescapes _ he
  · obtain rfl := List.mem_singleton.1 h
    exact ⟨(ne_of_mem_of_not_mem (by decide) hc').symm, (ne_of_mem_of_not_mem (by decide) hc').symm⟩

/-- **Every quote inside is escaped.** -/
theorem isEscaped_of_quote {start before after cs : List Char} (hstart : isEscaped start = false)
    (h : cs.flatMap quoteChar = before ++ '"' :: after) : isEscaped (start ++ before) = true := by
  induction cs generalizing start before with
  | nil => simp at h
  | cons c cs ih =>
    rw [List.flatMap_cons] at h
    have hnext := isEscaped_quoteChar hstart c
    -- The quote comes behind what is written for `c`, or it is in it.
    rcases List.append_eq_append_iff.1 h with ⟨before', rfl, hrest⟩ | ⟨rest, hc, hrest⟩
    · rw [← List.append_assoc]
      exact ih hnext hrest
    · cases rest with
      | nil =>
        rw [List.append_nil] at hc
        have hempty := @ih _ [] hnext hrest.symm
        rwa [List.append_nil, hc] at hempty
      | cons d rest =>
        obtain ⟨rfl, -⟩ := List.cons.inj hrest
        rw [eq_of_quoteChar_eq hc, isEscaped_concat, hstart]
        rfl

theorem isInside_quoted (cs : List Char) : IsInside (cs.flatMap quoteChar) where
  quotes before after h := @isEscaped_of_quote [] before after cs rfl h
  feeds h := by
    obtain ⟨c, -, hc⟩ := List.mem_flatMap.1 h
    exact (ne_of_mem_quoteChar hc).1 rfl
  returns h := by
    obtain ⟨c, -, hc⟩ := List.mem_flatMap.1 h
    exact (ne_of_mem_quoteChar hc).2 rfl
  closed := @isEscaped_quoted [] rfl cs

/-- **Code units tell the character that they start with.** -/
theorem codeUnits_inj {c d : Char} {r s : List Nat} (h : codeUnits c ++ r = codeUnits d ++ s) :
    c = d ∧ r = s := by
  have hc : c.toNat.isValidChar := c.valid
  have hd : d.toNat.isValidChar := d.valid
  simp only [Nat.isValidChar] at hc hd
  unfold codeUnits unitsOfCode at h
  split_ifs at h <;> simp only [List.cons_append, List.nil_append, List.cons.injEq] at h
  · exact ⟨Char.toNat_inj.1 h.1, h.2⟩
  · omega
  · omega
  · exact ⟨Char.toNat_inj.1 (by omega), h.2.2⟩

theorem codeUnits_ne_nil (c : Char) : codeUnits c ≠ [] := by
  unfold codeUnits unitsOfCode
  split_ifs <;> simp

theorem eq_of_flatMap_codeUnits {cs ds : List Char} (h : cs.flatMap codeUnits = ds.flatMap codeUnits) : cs = ds := by
  induction cs generalizing ds with
  | nil =>
    cases ds with
    | nil => rfl
    | cons d ds => exact absurd (List.append_eq_nil_iff.1 h.symm).1 (codeUnits_ne_nil d)
  | cons c cs ih =>
    cases ds with
    | nil => exact absurd (List.append_eq_nil_iff.1 h).1 (codeUnits_ne_nil c)
    | cons d ds =>
      obtain ⟨rfl, hrest⟩ := codeUnits_inj h
      rw [ih hrest]

/-- **The value of a string tells its text.** -/
theorem stringValue_inj {s t : String} (h : stringValue s = stringValue t) : s = t :=
  String.toList_inj.1 (eq_of_flatMap_codeUnits h)

/-- **The key of a property is read as its name**, if what follows is no part of an identifier. -/
theorem key?_propertyKey (name : String) {rest : List Char} (hrest : ∀ c ∈ rest.head?, isPart c = false) :
    key? ((propertyKey name).toList ++ rest) = some (stringValue name, rest) := by
  rw [propertyKey]
  split
  · next hname =>
    obtain ⟨⟨c, hc, hstart⟩, -⟩ := identifierChars_iff.1 hname
    have hbare : (name.toList ++ rest).head? ≠ some '"' := by
      rw [List.head?_append, hc]
      rintro ⟨⟩
      exact absurd hstart (by decide)
    have hstop : rest.takeWhile isPart = [] ∧ rest.dropWhile isPart = rest := by
      cases rest with
      | nil => exact ⟨rfl, rfl⟩
      | cons d rest => simp [hrest d rfl]
    have hpart := isPart_of_isIdentifier hname
    rw [key?, if_neg hbare, List.takeWhile_append_of_pos hpart, List.dropWhile_append_of_pos hpart, hstop.1,
      hstop.2, List.append_nil]
    exact if_pos hname
  · rw [key?, if_pos (by simp [quote, quoteChars])]
    exact literal?_quote name rest

end Quote

end TypeScript
end OpenApiClient
