/-
# Types can be read off their texts

Two different types have different texts (`Ty.text_eq_text_iff`), if they are written as they would be read: with
names of references that are no other type, no union directly in a union, no intersection directly in an
intersection, neither of less than two members, and no comments, which the text of a type leaves out
(`Ty.Canonical`).

The texts need no brackets around them for that. A text is *determined* by what it starts with, up to what
may follow it (`Determines`): nothing that follows an operand of an intersection begins with a letter or an
angle bracket, nothing that follows a member of a union begins with ` & `, and nothing that follows a type
begins with ` | ` either. What a list of texts with a separator needs of its items and of what follows is said
once (`determines_joined`); it serves type arguments, members of object types, unions and intersections.
-/

import OpenApiClient.Proofs.GivenNames
import OpenApiClient.TypeScript.Printer
import Mathlib.Data.List.Basic

namespace OpenApiClient
namespace TypeScript

section Determining

variable {α : Type} {text : α → List Char} {May : List Char → Prop} {P : α → Prop}

/-- The text of `a`, with something after it that may follow, starts with the text of nothing else, if what
remains may follow too. -/
def Determines (text : α → List Char) (May : List Char → Prop) (P : α → Prop) (a : α) : Prop :=
  ∀ b, P b → ∀ r s, May r → May s → text a ++ r = text b ++ s → a = b ∧ r = s

/-- Items that are each written behind a separator. -/
def trailing (text : α → List Char) (separator : List Char) (as : List α) : List Char :=
  as.flatMap fun a => separator ++ text a

theorem intercalate_eq (separator : List Char) (a : α) (as : List α) :
    separator.intercalate ((a :: as).map text) = text a ++ trailing text separator as := by
  induction as generalizing a with
  | nil => simp [trailing]
  | cons b as ih => simpa [trailing, List.intercalate_cons_cons] using ih b

variable {separator : List Char} (hseparator : ∀ r, May (separator ++ r))
include hseparator

theorem may_trailing {r : List Char} (hr : May r) (as : List α) : May (trailing text separator as ++ r) := by
  cases as with
  | nil => exact hr
  | cons a as =>
    rw [trailing, List.flatMap_cons, List.append_assoc, List.append_assoc]
    exact hseparator _

theorem determines_trailing {as : List α} (has : ∀ a ∈ as, Determines text May P a) :
    Determines (trailing text separator) (fun r => May r ∧ ¬ separator <+: r) (fun bs => ∀ b ∈ bs, P b) as := by
  intro bs hbs r s hr hs h
  induction as generalizing bs with
  | nil =>
    cases bs with
    | nil => exact ⟨rfl, h⟩
    | cons b bs =>
      have hstarts : r = separator ++ (text b ++ (trailing text separator bs ++ s)) := by
        simpa [trailing] using h
      exact absurd ⟨_, hstarts.symm⟩ hr.2
  | cons a as ih =>
    cases bs with
    | nil =>
      have hstarts : separator ++ (text a ++ (trailing text separator as ++ r)) = s := by
        simpa [trailing] using h
      exact absurd ⟨_, hstarts⟩ hs.2
    | cons b bs =>
      rw [List.forall_mem_cons] at has hbs
      have hcut : text a ++ (trailing text separator as ++ r) = text b ++ (trailing text separator bs ++ s) := by
        simpa [trailing] using h
      obtain ⟨rfl, hrest⟩ := has.1 b hbs.1 _ _ (may_trailing hseparator hr.1 as)
        (may_trailing hseparator hs.1 bs) hcut
      obtain ⟨rfl, rfl⟩ := ih has.2 bs hbs.2 hrest
      exact ⟨rfl, rfl⟩

/-- **Texts with a separator between them determine the items**, if each text determines its item, and what
follows does not begin with the separator. -/
theorem determines_joined {as : List α} (has : ∀ a ∈ as, Determines text May P a) (hne : as ≠ []) :
    Determines (fun as => separator.intercalate (as.map text)) (fun r => May r ∧ ¬ separator <+: r)
      (fun bs => bs ≠ [] ∧ ∀ b ∈ bs, P b) as := by
  intro bs ⟨hbs, hP⟩ r s hr hs h
  obtain ⟨a, as, rfl⟩ := List.exists_cons_of_ne_nil hne
  obtain ⟨b, bs, rfl⟩ := List.exists_cons_of_ne_nil hbs
  dsimp only at h
  rw [intercalate_eq, intercalate_eq, List.append_assoc, List.append_assoc] at h
  rw [List.forall_mem_cons] at has hP
  obtain ⟨rfl, hrest⟩ := has.1 b hP.1 _ _ (may_trailing hseparator hr.1 as) (may_trailing hseparator hs.1 bs) h
  obtain ⟨rfl, rfl⟩ := determines_trailing hseparator has.2 bs hP.2 r s hr hs hrest
  exact ⟨rfl, rfl⟩

end Determining

section Leaves

/-- A word ends before the first character that it may not hold. -/
theorem word_inj {p : Char → Bool} {w v r s : List Char} (hw : ∀ c ∈ w, p c = true) (hv : ∀ c ∈ v, p c = true)
    (hr : ∀ c ∈ r.head?, p c = false) (hs : ∀ c ∈ s.head?, p c = false) (h : w ++ r = v ++ s) :
    w = v ∧ r = s := by
  induction w generalizing v with
  | nil =>
    cases v with
    | nil => exact ⟨rfl, h⟩
    | cons d v =>
      have hd := hr d (by simp [show r = d :: (v ++ s) from h])
      exact absurd (hv d List.mem_cons_self) (by simp [hd])
  | cons c w ih =>
    cases v with
    | nil =>
      have hc := hs c (by simp [show s = c :: (w ++ r) from h.symm])
      exact absurd (hw c List.mem_cons_self) (by simp [hc])
    | cons d v =>
      obtain ⟨rfl, hrest⟩ := List.cons.inj h
      rw [List.forall_mem_cons] at hw hv
      obtain ⟨rfl, rfl⟩ := ih hw.2 hv.2 hrest
      exact ⟨rfl, rfl⟩

/-- The characters that are escaped in a literal, each with the one that stands for it behind a
backslash. -/
def escapes : List (Char × Char) :=
  [('"', '"'), ('\\', '\\'), ('\n', 'n'), ('\r', 'r'), ('\t', 't')]

/-- **A quoted character** is escaped or stays. -/
theorem quoteChar_cases (c : Char) : (∃ e, (c, e) ∈ escapes ∧ quoteChar c = ['\\', e]) ∨
    c ∉ escapes.map Prod.fst ∧ quoteChar c = [c] := by
  unfold quoteChar
  split_ifs with hquote hbackslash hfeed hreturn htab
  · exact .inl ⟨'"', by simp [escapes, hquote], rfl⟩
  · exact .inl ⟨'\\', by simp [escapes, hbackslash], rfl⟩
  · exact .inl ⟨'n', by simp [escapes, hfeed], rfl⟩
  · exact .inl ⟨'r', by simp [escapes, hreturn], rfl⟩
  · exact .inl ⟨'t', by simp [escapes, htab], rfl⟩
  · exact .inr ⟨by simp [escapes, hquote, hbackslash, hfeed, hreturn, htab], rfl⟩

theorem quoteChar_inj {c d : Char} {r s : List Char} (h : quoteChar c ++ r = quoteChar d ++ s) :
    c = d ∧ r = s := by
  have hinj : ∀ p ∈ escapes, ∀ q ∈ escapes, p.2 = q.2 → p.1 = q.1 := by decide
  obtain ⟨e, he, hc⟩ | ⟨hc', hc⟩ := quoteChar_cases c <;>
    obtain ⟨e', he', hd⟩ | ⟨hd', hd⟩ := quoteChar_cases d <;> rw [hc, hd] at h
  · obtain ⟨heq, hrest⟩ := List.cons.inj (List.cons.inj h).2
    exact ⟨hinj _ he _ he' heq, hrest⟩
  · exact absurd (List.cons.inj h).1 (ne_of_mem_of_not_mem (by decide) hd')
  · exact absurd (List.cons.inj h).1.symm (ne_of_mem_of_not_mem (by decide) hc')
  · exact List.cons.inj h

theorem quoteChar_ne_quote (c : Char) (r s : List Char) : quoteChar c ++ r ≠ '"' :: s := by
  intro h
  obtain ⟨e, -, hc⟩ | ⟨hc', hc⟩ := quoteChar_cases c <;> rw [hc] at h
  · exact absurd (List.cons.inj h).1 (by decide)
  · exact absurd (List.cons.inj h).1.symm (ne_of_mem_of_not_mem (by decide) hc')

/-- **A string literal ends at its closing quote.** -/
theorem quoteChars_inj {cs ds r s : List Char} (h : quoteChars cs ++ r = quoteChars ds ++ s) :
    cs = ds ∧ r = s := by
  have hinside : cs.flatMap quoteChar ++ '"' :: r = ds.flatMap quoteChar ++ '"' :: s := by
    simpa [quoteChars] using h
  clear h
  induction cs generalizing ds with
  | nil =>
    cases ds with
    | nil => exact ⟨rfl, (List.cons.inj hinside).2⟩
    | cons d ds =>
      rw [List.flatMap_cons, List.append_assoc] at hinside
      exact absurd hinside.symm (quoteChar_ne_quote d _ _)
  | cons c cs ih =>
    cases ds with
    | nil =>
      rw [List.flatMap_cons, List.append_assoc] at hinside
      exact absurd hinside (quoteChar_ne_quote c _ _)
    | cons d ds =>
      rw [List.flatMap_cons, List.flatMap_cons, List.append_assoc, List.append_assoc] at hinside
      obtain ⟨rfl, hrest⟩ := quoteChar_inj hinside
      obtain ⟨rfl, rfl⟩ := ih hrest
      exact ⟨rfl, rfl⟩

theorem quote_inj {a b : String} {r s : List Char} (h : (quote a).toList ++ r = (quote b).toList ++ s) :
    a = b ∧ r = s := by
  rw [quote, quote, String.toList_ofList, String.toList_ofList] at h
  obtain ⟨hcs, hrest⟩ := quoteChars_inj h
  exact ⟨String.toList_inj.1 hcs, hrest⟩

theorem isPart_of_isIdentifier {name : String} (h : isIdentifier name = true) :
    ∀ c ∈ name.toList, isPart c = true :=
  List.all_eq_true.1 (identifierChars_iff.1 h).2

/-- **The key of a property ends before a colon or a question mark**, and tells its name. -/
theorem propertyKey_inj {a b : String} {r s : List Char} (hr : ∀ c ∈ r.head?, isPart c = false)
    (hs : ∀ c ∈ s.head?, isPart c = false)
    (h : (propertyKey a).toList ++ r = (propertyKey b).toList ++ s) : a = b ∧ r = s := by
  -- A bare key does not begin with a quote.
  have hapart : ∀ {a b : String} {r s : List Char}, isIdentifier a = true →
      a.toList ++ r ≠ (quote b).toList ++ s := fun {a b r s} ha h => by
    obtain ⟨⟨c, hc, hstart⟩, -⟩ := identifierChars_iff.1 ha
    have hquote : some c = some '"' := by
      simpa [quote, quoteChars, List.head?_append, hc] using congrArg List.head? h
    rw [Option.some.inj hquote] at hstart
    revert hstart
    decide
  unfold propertyKey at h
  split at h <;> split at h
  · next ha hb =>
    obtain ⟨hab, hrest⟩ := word_inj (isPart_of_isIdentifier ha) (isPart_of_isIdentifier hb) hr hs h
    exact ⟨String.toList_inj.1 hab, hrest⟩
  · next ha hb => exact absurd h (hapart ha)
  · next ha hb => exact absurd h.symm (hapart hb)
  · exact quote_inj h

end Leaves

namespace Ty

/-- Whether the type is an intersection. -/
def isIntersection : Ty → Bool
  | .intersection _ => true
  | _ => false

/-- The name is of a reference: identifiers with dots between them, and no name that other types have. -/
structure IsReferenceName (name : String) : Prop where
  identifiers : ∀ s ∈ Text.pieces (· == '.') name, isIdentifier s = true
  ne_keyword : ∀ k : Basic, name ≠ k.text
  ne_array : name ≠ "Array"
  ne_record : name ≠ "Record"

/-- The type is written as it would be read. -/
inductive Canonical : Ty → Prop where
  | basic (k : Basic) : Canonical (.basic k)
  | named {name : String} {args : List Ty} : IsReferenceName name → (∀ t ∈ args, Canonical t) →
      Canonical (.named name args)
  | array {t : Ty} : Canonical t → Canonical (.array t)
  | record {k v : Ty} : Canonical k → Canonical v → Canonical (.record k v)
  | union {ts : List Ty} : 2 ≤ ts.length → (∀ t ∈ ts, t.isUnion = false) → (∀ t ∈ ts, Canonical t) →
      Canonical (.union ts)
  | intersection {ts : List Ty} : 2 ≤ ts.length → (∀ t ∈ ts, t.isIntersection = false) →
      (∀ t ∈ ts, Canonical t) → Canonical (.intersection ts)
  | literal (value : String) : Canonical (.literal value)
  | object {ps : List Property} : (∀ p ∈ ps, p.doc = none) → (∀ p ∈ ps, Canonical p.type) →
      Canonical (.object ps)

section Texts

/-- The characters of the text of a type. -/
def chars (t : Ty) : List Char := t.text.toList

/-- The characters of the text of a type as an operand of an intersection. -/
def operandChars (t : Ty) : List Char := if t.isUnion then '(' :: (t.chars ++ [')']) else t.chars

/-- The characters of the text of a member of an object type. -/
def memberChars (p : Property) : List Char :=
  (if p.isReadonly then "readonly ".toList else []) ++ ((propertyKey p.name).toList ++
    ((if p.isOptional then ['?'] else []) ++ (':' :: ' ' :: p.type.chars)))

/-- The characters of type arguments. -/
def argumentChars (args : List Ty) : List Char :=
  if args.isEmpty then [] else '<' :: (", ".toList.intercalate (args.map chars) ++ ['>'])

theorem texts_eq (ts : List Ty) : texts ts = ts.map text := by
  induction ts with
  | nil => rfl
  | cons t ts ih => rw [texts, ih, List.map_cons]

theorem operands_eq (ts : List Ty) : (operands ts).map String.toList = ts.map operandChars := by
  induction ts with
  | nil => rfl
  | cons t ts ih =>
    rw [operands, List.map_cons, ih, List.map_cons, operandChars]
    split <;> simp [chars]

theorem toList_inAngles (ts : List Ty) : (inAngles (texts ts)).toList = argumentChars ts := by
  cases ts with
  | nil => rfl
  | cons t ts =>
    simp only [inAngles, argumentChars, texts_eq, List.map_cons, List.isEmpty_cons, Bool.false_eq_true, if_false,
      String.toList_append, String.toList_intercalate, List.map_map]
    rfl

/-- The word that the text of a type starts with and the arguments after it; none if it starts with another
character. -/
def spelling? : Ty → Option (String × List Ty)
  | .basic k => some (k.text, [])
  | .named name args => some (name, args)
  | .array t => some ("Array", [t])
  | .record k v => some ("Record", [k, v])
  | .union _ => none
  | .intersection _ => none
  | .literal _ => none
  | .object _ => none

theorem chars_of_spelling {t : Ty} {word : String} {args : List Ty} (h : t.spelling? = some (word, args)) :
    t.chars = word.toList ++ argumentChars args := by
  cases t with
  | basic k =>
    obtain ⟨rfl, rfl⟩ := Prod.mk.inj (Option.some.inj h)
    simp [chars, text, argumentChars]
  | named name ts =>
    obtain ⟨rfl, rfl⟩ := Prod.mk.inj (Option.some.inj h)
    simp [chars, text, toList_inAngles]
  | array t =>
    obtain ⟨rfl, rfl⟩ := Prod.mk.inj (Option.some.inj h)
    simp [chars, text, argumentChars]
  | record k v =>
    obtain ⟨rfl, rfl⟩ := Prod.mk.inj (Option.some.inj h)
    simp [chars, text, argumentChars, List.intercalate_cons_cons]
  | _ => cases h

theorem chars_union (ts : List Ty) : (Ty.union ts).chars = " | ".toList.intercalate (ts.map chars) := by
  change (" | ".intercalate (texts ts)).toList = _
  rw [String.toList_intercalate, texts_eq, List.map_map]
  rfl

theorem chars_intersection (ts : List Ty) :
    (Ty.intersection ts).chars = " & ".toList.intercalate (ts.map operandChars) := by
  change (" & ".intercalate (operands ts)).toList = _
  rw [String.toList_intercalate, operands_eq]

theorem chars_literal (value : String) : (Ty.literal value).chars = (quote value).toList :=
  rfl

/-- A name, possibly qualified, holds the character. -/
def isWord (c : Char) : Bool := isPart c || c == '.'

/-- The characters do not end with a semicolon. -/
def Unclosed (cs : List Char) : Prop := ∃ init c, cs = init ++ [c] ∧ c ≠ ';'

theorem Unclosed.append {cs : List Char} (h : Unclosed cs) (start : List Char) : Unclosed (start ++ cs) := by
  obtain ⟨init, c, rfl, hc⟩ := h
  exact ⟨start ++ init, c, by simp, hc⟩

theorem Unclosed.intercalate {separator : List Char} {texts : List (List Char)} (hne : texts ≠ [])
    (h : ∀ cs ∈ texts, Unclosed cs) : Unclosed (separator.intercalate texts) := by
  induction texts with
  | nil => exact absurd rfl hne
  | cons cs texts ih =>
    cases texts with
    | nil => simpa using h cs List.mem_cons_self
    | cons ds texts =>
      rw [List.intercalate_cons_cons]
      exact (ih (List.cons_ne_nil _ _) fun es hes => h es (List.mem_cons_of_mem _ hes)).append _

theorem IsReferenceName.word {name : String} (h : IsReferenceName name) :
    name.toList ≠ [] ∧ ∀ c ∈ name.toList, isWord c = true := by
  refine ⟨fun hnil => ?_, fun c hc => ?_⟩
  · have hempty := h.identifiers "" (by rw [String.toList_eq_nil_iff.1 hnil]; decide)
    revert hempty
    decide
  · rcases Text.mem_split_of_mem (· == '.') hc with hdot | ⟨w, hw, hcw⟩
    · simp [isWord, beq_iff_eq.1 hdot]
    · have hpart := isPart_of_isIdentifier (h.identifiers (.ofList w) (List.mem_map_of_mem hw)) c
        (by rwa [String.toList_ofList])
      simp [isWord, hpart]

/-- What the text of a type starts with as a word is one. -/
theorem Canonical.word {t : Ty} (h : t.Canonical) {word : String} {args : List Ty}
    (hs : t.spelling? = some (word, args)) : word.toList ≠ [] ∧ ∀ c ∈ word.toList, isWord c = true := by
  cases h with
  | basic k =>
    obtain ⟨rfl, -⟩ := Prod.mk.inj (Option.some.inj hs)
    cases k <;> exact ⟨by decide, List.all_eq_true.1 (by decide)⟩
  | named hname _ =>
    obtain ⟨rfl, -⟩ := Prod.mk.inj (Option.some.inj hs)
    exact hname.word
  | array _ =>
    obtain ⟨rfl, -⟩ := Prod.mk.inj (Option.some.inj hs)
    exact ⟨by decide, List.all_eq_true.1 (by decide)⟩
  | record _ _ =>
    obtain ⟨rfl, -⟩ := Prod.mk.inj (Option.some.inj hs)
    exact ⟨by decide, List.all_eq_true.1 (by decide)⟩
  | _ => cases hs

theorem Canonical.unclosed_of_spelling {t : Ty} (h : t.Canonical) {word : String} {args : List Ty}
    (hs : t.spelling? = some (word, args)) : Unclosed t.chars := by
  obtain ⟨hne, hword⟩ := h.word hs
  rw [chars_of_spelling hs]
  cases args with
  | nil =>
    refine ⟨_, _, (List.append_nil _).trans (List.dropLast_append_getLast hne).symm, fun hc => ?_⟩
    have hsemicolon := hword _ (List.getLast_mem hne)
    rw [hc] at hsemicolon
    revert hsemicolon
    decide
  | cons t ts => exact .append ⟨'<' :: ", ".toList.intercalate ((t :: ts).map chars), '>', rfl, by decide⟩ _

/-- **No type ends with a semicolon.** -/
theorem Canonical.unclosed {t : Ty} (h : t.Canonical) : Unclosed t.chars := by
  induction h with
  | basic k => exact (Canonical.basic k).unclosed_of_spelling rfl
  | named hname hargs => exact (Canonical.named hname hargs).unclosed_of_spelling rfl
  | array ht => exact (Canonical.array ht).unclosed_of_spelling rfl
  | record hk hv => exact (Canonical.record hk hv).unclosed_of_spelling rfl
  | @union ts hlength _ _ ih =>
    rw [chars_union]
    refine .intercalate (fun hnil => ?_) (List.forall_mem_map.2 ih)
    simp [List.map_eq_nil_iff.1 hnil] at hlength
  | @intersection ts hlength _ _ ih =>
    rw [chars_intersection]
    refine .intercalate (fun hnil => ?_) (List.forall_mem_map.2 fun t ht => ?_)
    · simp [List.map_eq_nil_iff.1 hnil] at hlength
    · rw [operandChars]
      split
      · exact ⟨'(' :: t.chars, ')', rfl, by decide⟩
      · exact ih t ht
  | literal value =>
    rw [chars_literal, quote, String.toList_ofList]
    exact ⟨'"' :: value.toList.flatMap quoteChar, '"', rfl, by decide⟩
  | @object ps _ _ _ =>
    change Unclosed (inBraces "; " (memberTexts ps)).toList
    rw [inBraces]
    split
    · exact ⟨['\x7b'], '\x7d', rfl, by decide⟩
    · rw [String.toList_append]
      exact .append ⟨[' '], '\x7d', rfl, by decide⟩ _

theorem toList_dropSemicolons {s : String} (h : Unclosed s.toList) :
    (dropSemicolons (s ++ ";")).toList = s.toList := by
  obtain ⟨init, c, hs, hc⟩ := h
  simp [dropSemicolons, hs, hc]

theorem memberTexts_eq {ps : List Property} (h : ∀ p ∈ ps, Unclosed p.type.chars) :
    (memberTexts ps).map String.toList = ps.map memberChars := by
  induction ps with
  | nil => rfl
  | cons p ps ih =>
    obtain ⟨hp, hps⟩ := List.forall_mem_cons.1 h
    have hline : (dropSemicolons (p.line (text p.type))).toList = memberChars p := by
      rw [PropertyOf.line, toList_dropSemicolons]
      · simp only [memberChars, String.toList_append, List.append_assoc, apply_ite String.toList]
        rfl
      · rw [String.toList_append]
        exact hp.append _
    rw [memberTexts, List.map_cons, hline, ih hps, List.map_cons]

theorem chars_object {p : Property} {ps : List Property} (h : ∀ q ∈ p :: ps, Unclosed q.type.chars) :
    (Ty.object (p :: ps)).chars =
      '\x7b' :: ' ' :: ("; ".toList.intercalate ((p :: ps).map memberChars) ++ [' ', '\x7d']) := by
  change (inBraces "; " (memberTexts (p :: ps))).toList = _
  rw [← memberTexts_eq h]
  simp [memberTexts, inBraces]

end Texts

section Reading

/-- What may follow an operand of an intersection: nothing, or what does not go on with its word. -/
def AfterOperand (r : List Char) : Prop := ∀ c ∈ r.head?, c ∈ [' ', ',', '>', ';', ')']

/-- What may follow a member of a union does not go on with an intersection either. -/
def AfterTerm (r : List Char) : Prop := AfterOperand r ∧ ¬ " & ".toList <+: r

/-- What may follow a type does not go on with a union either. -/
def AfterType (r : List Char) : Prop := AfterTerm r ∧ ¬ " | ".toList <+: r

/-- A type that can be an operand of an intersection. -/
def IsOperand (t : Ty) : Prop := t.Canonical ∧ t.isIntersection = false

/-- A type that can be a member of a union. -/
def IsTerm (t : Ty) : Prop := t.Canonical ∧ t.isUnion = false

/-- The operands of an intersection; any other type is its own only operand. -/
def factors : Ty → List Ty
  | .intersection ts => ts
  | t => [t]

/-- The text of a type is determined at each of the three levels at which it can stand. -/
structure Readable (t : Ty) : Prop where
  operand : t.isIntersection = false → Determines operandChars AfterOperand IsOperand t
  term : t.isUnion = false → Determines chars AfterTerm IsTerm t
  type : Determines chars AfterType Canonical t

theorem factors_of_not {t : Ty} (h : t.isIntersection = false) : t.factors = [t] := by
  cases t <;> first | rfl | cases h

theorem unionMembers_of_not {t : Ty} (h : t.isUnion = false) : t.unionMembers = [t] := by
  cases t <;> first | rfl | cases h

/-- Parts of which a type is made: it is its own only part, or what is made of at least two. -/
def IsMadeOf (make : List Ty → Ty) (parts : List Ty) (t : Ty) : Prop :=
  parts = [t] ∨ t = make parts ∧ 2 ≤ parts.length

theorem IsMadeOf.ne_nil {make : List Ty → Ty} {parts : List Ty} {t : Ty} (h : IsMadeOf make parts t) :
    parts ≠ [] := by
  rintro rfl
  rcases h with h | ⟨-, h⟩ <;> simp at h

/-- Nothing else is made of the same parts. -/
theorem IsMadeOf.unique {make : List Ty → Ty} {parts : List Ty} {a b : Ty} (ha : IsMadeOf make parts a)
    (hb : IsMadeOf make parts b) : a = b := by
  rcases ha with ha | ⟨rfl, ha⟩ <;> rcases hb with hb | ⟨rfl, hb⟩
  · exact List.singleton_inj.1 (ha.symm.trans hb)
  · rw [ha] at hb
    exact absurd hb (Nat.lt_irrefl 1)
  · rw [hb] at ha
    exact absurd ha (Nat.lt_irrefl 1)
  · rfl

theorem Canonical.factors {t : Ty} (h : t.Canonical) :
    IsMadeOf .intersection t.factors t ∧ ∀ f ∈ t.factors, IsOperand f := by
  cases hi : t.isIntersection with
  | false =>
    rw [factors_of_not hi]
    exact ⟨.inl rfl, List.forall_mem_singleton.2 ⟨h, hi⟩⟩
  | true =>
    cases h with
    | intersection hlength hnot hall => exact ⟨.inr ⟨rfl, hlength⟩, fun f hf => ⟨hall f hf, hnot f hf⟩⟩
    | _ => cases hi

theorem Canonical.unionMembers {t : Ty} (h : t.Canonical) :
    IsMadeOf .union t.unionMembers t ∧ ∀ m ∈ t.unionMembers, IsTerm m := by
  cases hu : t.isUnion with
  | false =>
    rw [unionMembers_of_not hu]
    exact ⟨.inl rfl, List.forall_mem_singleton.2 ⟨h, hu⟩⟩
  | true =>
    cases h with
    | union hlength hnot hall => exact ⟨.inr ⟨rfl, hlength⟩, fun m hm => ⟨hall m hm, hnot m hm⟩⟩
    | _ => cases hu

theorem chars_eq_factors {t : Ty} (h : t.isUnion = false) :
    t.chars = " & ".toList.intercalate (t.factors.map operandChars) := by
  cases hi : t.isIntersection with
  | false => simp [factors_of_not hi, operandChars, h]
  | true =>
    cases t with
    | intersection ts => exact chars_intersection ts
    | _ => cases hi

theorem chars_eq_unionMembers (t : Ty) : t.chars = " | ".toList.intercalate (t.unionMembers.map chars) := by
  cases hu : t.isUnion with
  | false => simp [unionMembers_of_not hu]
  | true =>
    cases t with
    | union ts => exact chars_union ts
    | _ => cases hu

theorem afterOperand_cons {c : Char} (h : c ∈ [' ', ',', '>', ';', ')']) (r : List Char) :
    AfterOperand (c :: r) := fun d hd => by
  rw [← Option.some.inj hd]
  exact h

/-- A character that ends a type goes on with no operator. -/
theorem afterType_cons {c : Char} (h : c ∈ [',', '>', ';', ')']) (r : List Char) : AfterType (c :: r) := by
  have hblank : c ≠ ' ' := by
    rintro rfl
    revert h
    decide
  exact ⟨⟨afterOperand_cons (List.mem_cons_of_mem _ h) r, by simp [List.cons_prefix_cons, hblank.symm]⟩,
    by simp [List.cons_prefix_cons, hblank.symm]⟩

/-- **Operands with ` & ` between them.** -/
theorem determines_term {t : Ty} (h : IsTerm t)
    (hfactors : ∀ f ∈ t.factors, Determines operandChars AfterOperand IsOperand f) :
    Determines chars AfterTerm IsTerm t := by
  intro b hb r s hr hs heq
  rw [chars_eq_factors h.2, chars_eq_factors hb.2] at heq
  obtain ⟨hsame, hrest⟩ := determines_joined (fun r => afterOperand_cons (by decide) _) hfactors
    h.1.factors.1.ne_nil b.factors ⟨hb.1.factors.1.ne_nil, hb.1.factors.2⟩ r s hr hs heq
  exact ⟨h.1.factors.1.unique (hsame ▸ hb.1.factors.1), hrest⟩

/-- **Terms with ` | ` between them.** -/
theorem determines_type {t : Ty} (h : t.Canonical)
    (hmembers : ∀ m ∈ t.unionMembers, Determines chars AfterTerm IsTerm m) :
    Determines chars AfterType Canonical t := by
  intro b hb r s hr hs heq
  rw [chars_eq_unionMembers t, chars_eq_unionMembers b] at heq
  obtain ⟨hsame, hrest⟩ := determines_joined
    (fun r => ⟨afterOperand_cons (by decide) _, by simp [List.cons_prefix_cons]⟩) hmembers
    h.unionMembers.1.ne_nil b.unionMembers ⟨hb.unionMembers.1.ne_nil, hb.unionMembers.2⟩ r s hr hs heq
  exact ⟨h.unionMembers.1.unique (hsame ▸ hb.unionMembers.1), hrest⟩

/-- The character that the text of an operand starts with, unless it starts with a word. -/
def opening? : Ty → Option Char
  | .union _ => some '('
  | .literal _ => some '"'
  | .object _ => some '\x7b'
  | _ => none

theorem isWord_of_opening {t : Ty} {c : Char} (h : t.opening? = some c) : isWord c = false := by
  cases t <;> first | (obtain rfl := Option.some.inj h; decide) | cases h

theorem IsOperand.exists_spelling {t : Ty} (h : IsOperand t) (ho : t.opening? = none) :
    ∃ word args, t.spelling? = some (word, args) := by
  cases t with
  | intersection ts => exact (Bool.false_ne_true h.2.symm).elim
  | union _ | literal _ | object _ => cases ho
  | _ => exact ⟨_, _, rfl⟩

theorem operandChars_of_not {t : Ty} (h : t.isUnion = false) : t.operandChars = t.chars := by
  simp [operandChars, h]

theorem operandChars_of_spelling {t : Ty} {word : String} {args : List Ty}
    (h : t.spelling? = some (word, args)) : t.operandChars = word.toList ++ argumentChars args := by
  rw [← chars_of_spelling h]
  cases t <;> first | rfl | cases h

theorem head?_chars_object {ps : List Property} : (Ty.object ps).chars.head? = some '\x7b' := by
  rw [chars, text, inBraces]
  split
  · rfl
  · rw [String.toList_append, String.toList_append]
    rfl

theorem IsOperand.head? {t : Ty} (h : IsOperand t) :
    ∃ c, t.operandChars.head? = some c ∧ (t.opening? = some c ∨ t.opening? = none ∧ isWord c = true) := by
  cases ho : t.opening? with
  | none =>
    obtain ⟨word, args, hs⟩ := h.exists_spelling ho
    obtain ⟨hne, hword⟩ := h.1.word hs
    obtain ⟨c, cs, hcs⟩ := List.exists_cons_of_ne_nil hne
    refine ⟨c, by rw [operandChars_of_spelling hs, hcs]; rfl, .inr ⟨rfl, hword c ?_⟩⟩
    rw [hcs]
    exact List.mem_cons_self
  | some c =>
    refine ⟨c, ?_, .inl rfl⟩
    cases t with
    | union ts => exact ho
    | literal value =>
      rw [← ho, operandChars_of_not rfl, chars_literal, quote, String.toList_ofList]
      rfl
    | object ps =>
      rw [← ho, operandChars_of_not rfl, head?_chars_object]
      rfl
    | _ => cases ho

/-- **The first character tells what kind of operand it is.** -/
theorem opening?_eq {a b : Ty} (ha : IsOperand a) (hb : IsOperand b) {r s : List Char}
    (h : a.operandChars ++ r = b.operandChars ++ s) : a.opening? = b.opening? := by
  obtain ⟨c, hc, hac⟩ := ha.head?
  obtain ⟨d, hd, hbd⟩ := hb.head?
  obtain rfl : c = d := by
    simpa [List.head?_append, hc, hd] using congrArg List.head? h
  rcases hac with hac | ⟨hac, hword⟩ <;> rcases hbd with hbd | ⟨hbd, hword'⟩
  · rw [hac, hbd]
  · exact absurd hword' (by simp [isWord_of_opening hac])
  · exact absurd hword (by simp [isWord_of_opening hbd])
  · rw [hac, hbd]

theorem isWord_of_after {r : List Char} (h : AfterOperand r) : ∀ c ∈ r.head?, isWord c = false := fun c hc => by
  have hall : [' ', ',', '>', ';', ')'].all (fun c => !isWord c) = true := by decide
  simpa using List.all_eq_true.1 hall c (h c hc)

theorem determines_arguments {args : List Ty} (hargs : ∀ t ∈ args, Determines chars AfterType Canonical t) :
    Determines argumentChars AfterOperand (fun args => ∀ t ∈ args, t.Canonical) args := by
  have hopen : ∀ {t : Ty} {ts : List Ty} {r s : List Char}, AfterOperand r → argumentChars (t :: ts) ++ s ≠ r :=
    fun hr h => by
      have hmem := hr '<' (by rw [← h]; rfl)
      revert hmem
      decide
  intro args' hcanonical r s hr hs h
  cases args with
  | nil =>
    cases args' with
    | nil => exact ⟨rfl, h⟩
    | cons t' ts' => exact absurd h.symm (hopen hr)
  | cons t ts =>
    cases args' with
    | nil => exact absurd h (hopen hs)
    | cons t' ts' =>
      have hcut : ", ".toList.intercalate ((t :: ts).map chars) ++ ('>' :: r) =
          ", ".toList.intercalate ((t' :: ts').map chars) ++ ('>' :: s) := by
        simpa [argumentChars] using h
      have hafter : ∀ r : List Char, AfterType ('>' :: r) ∧ ¬ ", ".toList <+: '>' :: r := fun r =>
        ⟨afterType_cons (by decide) r, by simp [List.cons_prefix_cons]⟩
      obtain ⟨hsame, hrest⟩ := determines_joined (fun r => afterType_cons (by decide) _) hargs
        (List.cons_ne_nil _ _) (t' :: ts') ⟨List.cons_ne_nil _ _, hcanonical⟩ _ _ (hafter r) (hafter s) hcut
      exact ⟨hsame, (List.cons.inj hrest).2⟩

theorem Canonical.of_spelling {t : Ty} (h : t.Canonical) {word : String} {args : List Ty}
    (hs : t.spelling? = some (word, args)) : ∀ a ∈ args, a.Canonical := by
  cases h with
  | basic k => cases hs; simp
  | named hname hargs => cases hs; exact hargs
  | array ht => cases hs; simpa using ht
  | record hk hv => cases hs; simpa using ⟨hk, hv⟩
  | _ => cases hs

theorem Basic.text_inj {k l : Basic} (h : k.text = l.text) : k = l := by
  cases k <;> cases l <;> first | rfl | (revert h; decide)

/-- **A word with its arguments is of one type.** -/
theorem spelling?_inj {a b : Ty} (ha : a.Canonical) (hb : b.Canonical) {spelling : String × List Ty}
    (has : a.spelling? = some spelling) (hbs : b.spelling? = some spelling) : a = b := by
  have hkeyword : ∀ k : Basic, k.text ≠ "Array" ∧ k.text ≠ "Record" := fun k => by cases k <;> decide
  have hname : ∀ {name : String}, IsReferenceName name →
      (∀ k : Basic, name ≠ k.text) ∧ name ≠ "Array" ∧ name ≠ "Record" := fun h =>
    ⟨h.ne_keyword, h.ne_array, h.ne_record⟩
  rw [← hbs] at has
  cases ha <;> cases hb <;> simp only [spelling?, Option.some.injEq, Prod.mk.injEq, reduceCtorEq] at has hbs <;>
    grind [Basic.text_inj]

/-- **A word with its arguments**, as an operand. -/
theorem determines_of_spelling {t : Ty} (h : IsOperand t) {word : String} {args : List Ty}
    (hs : t.spelling? = some (word, args)) (hargs : ∀ a ∈ args, Determines chars AfterType Canonical a) :
    Determines operandChars AfterOperand IsOperand t := by
  intro b hb r s hr hs' heq
  have hopening : b.opening? = none := by
    rw [← opening?_eq h hb heq]
    cases t <;> first | rfl | cases hs
  obtain ⟨word', args', hbs⟩ := hb.exists_spelling hopening
  rw [operandChars_of_spelling hs, operandChars_of_spelling hbs, List.append_assoc, List.append_assoc] at heq
  -- Neither an angle bracket nor what follows an operand goes on with the word.
  have hafter : ∀ (args : List Ty) {r : List Char}, AfterOperand r →
      ∀ c ∈ (argumentChars args ++ r).head?, isWord c = false := fun args r hr c hc => by
    cases args with
    | nil => exact isWord_of_after hr c hc
    | cons a as =>
      rw [← show '<' = c from Option.some.inj hc]
      decide
  obtain ⟨hword, hbehind⟩ := word_inj (h.1.word hs).2 (hb.1.word hbs).2 (hafter args hr) (hafter args' hs') heq
  obtain ⟨rfl, hrest⟩ := determines_arguments hargs args' (hb.1.of_spelling hbs) r s hr hs' hbehind
  rw [← String.toList_inj.1 hword] at hbs
  exact ⟨spelling?_inj h.1 hb.1 hs hbs, hrest⟩

/-- **A string literal**, as an operand. -/
theorem determines_literal (value : String) :
    Determines operandChars AfterOperand IsOperand (.literal value) := by
  intro b hb r s _ _ heq
  have hopening := opening?_eq ⟨.literal value, rfl⟩ hb heq
  cases b with
  | literal value' =>
    rw [operandChars_of_not rfl, operandChars_of_not rfl, chars_literal, chars_literal] at heq
    obtain ⟨rfl, hrest⟩ := quote_inj heq
    exact ⟨rfl, hrest⟩
  | _ => cases hopening

/-- What is behind the key of a member. -/
def memberTail (p : Property) : List Char :=
  (if p.isOptional then ['?'] else []) ++ (':' :: ' ' :: p.type.chars)

theorem memberChars_eq (p : Property) (r : List Char) : memberChars p ++ r =
    (if p.isReadonly then "readonly ".toList else []) ++ ((propertyKey p.name).toList ++ (memberTail p ++ r)) := by
  rw [memberChars, memberTail]
  simp only [List.append_assoc]

theorem head?_memberTail (p : Property) (r : List Char) :
    ∀ c ∈ (memberTail p ++ r).head?, c = '?' ∨ c = ':' := by
  intro c hc
  unfold memberTail at hc
  split at hc
  · exact .inl (Option.some.inj hc).symm
  · exact .inr (Option.some.inj hc).symm

theorem isPart_of_head?_memberTail (p : Property) (r : List Char) :
    ∀ c ∈ (memberTail p ++ r).head?, isPart c = false := fun c hc => by
  rcases head?_memberTail p r c hc with rfl | rfl <;> decide

/-- The key of a member is not the word that marks it as one to be read only. -/
theorem key_ne_readonly (p : Property) (r s : List Char) :
    (propertyKey p.name).toList ++ (memberTail p ++ r) ≠ "readonly ".toList ++ s := by
  intro h
  have hkey : propertyKey "readonly" = "readonly" := by decide
  have hafter : ∀ c ∈ (' ' :: s).head?, isPart c = false := fun c hc => by
    rw [← Option.some.inj hc]
    decide
  obtain ⟨-, hrest⟩ := propertyKey_inj (b := "readonly") (isPart_of_head?_memberTail p r) hafter
    (h.trans (by rw [hkey]; rfl))
  rcases head?_memberTail p r ' ' (by rw [hrest]; rfl) with h | h <;> revert h <;> decide

theorem PropertyOf.ext_of_eq {p q : Property} (hdoc : p.doc = q.doc) (hname : p.name = q.name)
    (hoptional : p.isOptional = q.isOptional) (hreadonly : p.isReadonly = q.isReadonly) (htype : p.type = q.type) :
    p = q := by
  cases p
  cases q
  simp_all

/-- **A member of an object type.** -/
theorem determines_member {p : Property} (hdoc : p.doc = none)
    (htype : Determines chars AfterType Canonical p.type) :
    Determines memberChars AfterType (fun p => p.doc = none ∧ p.type.Canonical) p := by
  intro q ⟨hdoc', hcanonical⟩ r s hr hs heq
  rw [memberChars_eq, memberChars_eq] at heq
  have hreadonly : p.isReadonly = q.isReadonly ∧
      (propertyKey p.name).toList ++ (memberTail p ++ r) = (propertyKey q.name).toList ++ (memberTail q ++ s) := by
    cases hp : p.isReadonly <;> cases hq : q.isReadonly <;>
      simp only [hp, hq, if_true, if_false, Bool.false_eq_true, List.nil_append] at heq
    · exact ⟨rfl, heq⟩
    · exact absurd heq (key_ne_readonly p r _)
    · exact absurd heq.symm (key_ne_readonly q s _)
    · exact ⟨rfl, List.append_cancel_left heq⟩
  obtain ⟨hname, htail⟩ := propertyKey_inj (isPart_of_head?_memberTail p r) (isPart_of_head?_memberTail q s)
    hreadonly.2
  have hoptional : p.isOptional = q.isOptional ∧ p.type.chars ++ r = q.type.chars ++ s := by
    unfold memberTail at htail
    cases hp : p.isOptional <;> cases hq : q.isOptional <;>
      simp only [hp, hq, if_true, if_false, Bool.false_eq_true, List.nil_append, List.cons_append] at htail
    · exact ⟨rfl, (List.cons.inj (List.cons.inj htail).2).2⟩
    · exact absurd (List.cons.inj htail).1 (by decide)
    · exact absurd (List.cons.inj htail).1 (by decide)
    · exact ⟨rfl, (List.cons.inj (List.cons.inj (List.cons.inj htail).2).2).2⟩
  obtain ⟨htypes, hrest⟩ := htype q.type hcanonical r s hr hs hoptional.2
  exact ⟨PropertyOf.ext_of_eq (hdoc.trans hdoc'.symm) hname hoptional.1 hreadonly.1 htypes, hrest⟩

/-- **Members between braces**, as an operand. -/
theorem determines_object {ps : List Property} (h : (Ty.object ps).Canonical)
    (hmembers : ∀ p ∈ ps, Determines memberChars AfterType (fun p => p.doc = none ∧ p.type.Canonical) p) :
    Determines operandChars AfterOperand IsOperand (.object ps) := by
  intro b hb r s _ _ heq
  have hopening := opening?_eq ⟨h, rfl⟩ hb heq
  cases b with
  | object qs =>
    rw [operandChars_of_not rfl, operandChars_of_not rfl] at heq
    have hcanonical : ∀ {ps : List Property}, (Ty.object ps).Canonical → ∀ p ∈ ps, p.doc = none ∧ p.type.Canonical :=
      fun h => by cases h with | object hdoc htype => exact fun p hp => ⟨hdoc p hp, htype p hp⟩
    have hunclosed : ∀ {ps : List Property}, (Ty.object ps).Canonical → ∀ p ∈ ps, Unclosed p.type.chars :=
      fun h p hp => (hcanonical h p hp).2.unclosed
    have hblank : ∀ (p : Property) (ps : List Property) (r s : List Char),
        (Ty.object []).chars ++ r ≠ '\x7b' :: ' ' :: s := fun p ps r s h =>
      absurd (List.cons.inj (List.cons.inj h).2).1 (by decide)
    cases ps with
    | nil =>
      cases qs with
      | nil => exact ⟨rfl, List.append_cancel_left heq⟩
      | cons q qs =>
        rw [chars_object (hunclosed hb.1)] at heq
        exact absurd heq (hblank q qs r _)
    | cons p ps =>
      cases qs with
      | nil =>
        rw [chars_object (hunclosed h)] at heq
        exact absurd heq.symm (hblank p ps s _)
      | cons q qs =>
        rw [chars_object (hunclosed h), chars_object (hunclosed hb.1)] at heq
        have hcut : "; ".toList.intercalate ((p :: ps).map memberChars) ++ (' ' :: '\x7d' :: r) =
            "; ".toList.intercalate ((q :: qs).map memberChars) ++ (' ' :: '\x7d' :: s) := by
          simpa using heq
        have hafter : ∀ r : List Char, AfterType (' ' :: '\x7d' :: r) ∧ ¬ "; ".toList <+: ' ' :: '\x7d' :: r :=
          fun r => ⟨⟨⟨afterOperand_cons (by decide) _, by simp [List.cons_prefix_cons]⟩,
            by simp [List.cons_prefix_cons]⟩, by simp [List.cons_prefix_cons]⟩
        obtain ⟨hsame, hrest⟩ := determines_joined (fun r => afterType_cons (by decide) _) hmembers
          (List.cons_ne_nil _ _) (q :: qs) ⟨List.cons_ne_nil _ _, hcanonical hb.1⟩ _ _ (hafter r) (hafter s) hcut
        exact ⟨congrArg _ hsame, (List.cons.inj (List.cons.inj hrest).2).2⟩
  | _ => cases hopening

/-- **A union in parentheses**, as an operand. -/
theorem determines_union {ts : List Ty} (h : (Ty.union ts).Canonical)
    (htype : Determines chars AfterType Canonical (.union ts)) :
    Determines operandChars AfterOperand IsOperand (.union ts) := by
  intro b hb r s _ _ heq
  have hopening := opening?_eq ⟨h, rfl⟩ hb heq
  cases b with
  | union us =>
    have hcut : (Ty.union ts).chars ++ (')' :: r) = (Ty.union us).chars ++ (')' :: s) := by
      simpa [operandChars, isUnion] using heq
    obtain ⟨hsame, hrest⟩ := htype _ hb.1 _ _ (afterType_cons (by decide) r) (afterType_cons (by decide) s) hcut
    exact ⟨hsame, (List.cons.inj hrest).2⟩
  | _ => cases hopening

/-- What is neither a union nor an intersection can be read everywhere if it can be read as an operand. -/
theorem Readable.of_operand {t : Ty} (h : t.Canonical) (hu : t.isUnion = false) (hi : t.isIntersection = false)
    (hoperand : Determines operandChars AfterOperand IsOperand t) : Readable t :=
  have hterm := determines_term ⟨h, hu⟩ (by simpa [factors_of_not hi] using hoperand)
  ⟨fun _ => hoperand, fun _ => hterm, determines_type h (by simpa [unionMembers_of_not hu] using hterm)⟩

/-- **Every canonical type can be read wherever it stands.** -/
theorem Canonical.readable {t : Ty} (h : t.Canonical) : Readable t := by
  induction h with
  | basic k =>
    exact .of_operand (.basic k) rfl rfl (determines_of_spelling ⟨.basic k, rfl⟩ rfl (by simp))
  | named hname hargs ih =>
    have h := Canonical.named hname hargs
    exact .of_operand h rfl rfl (determines_of_spelling ⟨h, rfl⟩ rfl fun a ha => (ih a ha).type)
  | array ht ih =>
    have h := Canonical.array ht
    exact .of_operand h rfl rfl (determines_of_spelling ⟨h, rfl⟩ rfl (by simpa using ih.type))
  | record hk hv ihk ihv =>
    have h := Canonical.record hk hv
    exact .of_operand h rfl rfl (determines_of_spelling ⟨h, rfl⟩ rfl (by simpa using ⟨ihk.type, ihv.type⟩))
  | union hlength hnot hall ih =>
    have h := Canonical.union hlength hnot hall
    have htype := determines_type h fun m hm => (ih m hm).term (hnot m hm)
    exact ⟨fun _ => determines_union h htype, fun hu => (Bool.false_ne_true hu.symm).elim, htype⟩
  | intersection hlength hnot hall ih =>
    have h := Canonical.intersection hlength hnot hall
    have hterm := determines_term ⟨h, rfl⟩ fun f hf => (ih f hf).operand (hnot f hf)
    exact ⟨fun hi => (Bool.false_ne_true hi.symm).elim, fun _ => hterm,
      determines_type h (List.forall_mem_singleton.2 hterm)⟩
  | literal value => exact .of_operand (.literal value) rfl rfl (determines_literal value)
  | object hdoc htype ih =>
    have h := Canonical.object hdoc htype
    exact .of_operand h rfl rfl (determines_object h fun p hp => determines_member (hdoc p hp) (ih p hp).type)

/-- **Different types have different texts**, if they are written as they would be read. -/
theorem text_eq_text_iff {a b : Ty} (ha : a.Canonical) (hb : b.Canonical) : a.text = b.text ↔ a = b := by
  refine ⟨fun h => ?_, congrArg text⟩
  have hnone : AfterType [] := ⟨⟨nofun, by decide⟩, by decide⟩
  exact (ha.readable.type b hb [] [] hnone hnone (congrArg (·.toList ++ []) h)).1

theorem isReferenceName_letters {name : String} (h : name ∈ ["A", "B", "C"]) : IsReferenceName name := by
  simp only [List.mem_cons, List.not_mem_nil, or_false] at h
  rcases h with rfl | rfl | rfl <;> exact ⟨by decide, fun k => by cases k <;> decide, by decide, by decide⟩

/-- It is seen in the text whether a union is in an intersection or an intersection in a union. -/
theorem text_ne_text_of_grouping :
    let a : Ty := .ref "A"
    let b : Ty := .ref "B"
    let c : Ty := .ref "C"
    (Ty.intersection [.union [a, b], c]).Canonical ∧ (Ty.union [a, .intersection [b, c]]).Canonical ∧
      (Ty.intersection [.union [a, b], c]).text ≠ (Ty.union [a, .intersection [b, c]]).text := by
  intro a b c
  have hletter : ∀ name ∈ ["A", "B", "C"], (Ty.ref name).Canonical := fun name h =>
    .named (isReferenceName_letters h) (by simp)
  have ha : a.Canonical := hletter "A" (by decide)
  have hb : b.Canonical := hletter "B" (by decide)
  have hc : c.Canonical := hletter "C" (by decide)
  have hab : (Ty.union [a, b]).Canonical := .union (Nat.le_refl 2) (by simp [a, b, ref, isUnion]) (by simp [ha, hb])
  have hbc : (Ty.intersection [b, c]).Canonical :=
    .intersection (Nat.le_refl 2) (by simp [b, c, ref, isIntersection]) (by simp [hb, hc])
  have hleft : (Ty.intersection [.union [a, b], c]).Canonical :=
    .intersection (Nat.le_refl 2) (by simp [c, ref, isIntersection]) (by simp [hab, hc])
  have hright : (Ty.union [a, .intersection [b, c]]).Canonical :=
    .union (Nat.le_refl 2) (by simp [a, ref, isUnion]) (by simp [ha, hbc])
  exact ⟨hleft, hright, fun h => Ty.noConfusion ((text_eq_text_iff hleft hright).1 h)⟩

end Reading

end Ty

end TypeScript
end OpenApiClient
