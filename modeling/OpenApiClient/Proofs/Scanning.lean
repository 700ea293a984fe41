/-
# The literals of a file

`literals?` goes through a text and reads its string literals one after another. It passes over comments, and
gives up at other quotes and at a slash that starts no comment.

What a file is written of are words and strings, its lexemes. Words stand as they are, strings are quoted. If
the words hold no mark that would start a literal or a comment, then the literals of the file are its strings
(`literals_exact`), whatever the strings are.

Two texts that are read one behind the other are read as one text, since nothing is open where they meet
(`Reads.append`). Object types are written without the semicolons at the end of a member, those of its type
included. So nothing may be open in front of them either (`IsWritten`).
-/

import OpenApiClient.Module.File
import OpenApiClient.Proofs.Comments
import OpenApiClient.Proofs.ImportStatements
import OpenApiClient.Proofs.Quoting

namespace OpenApiClient

namespace TypeScript

section Scanner

/-- What follows the comment that the text starts inside of. -/
def afterComment? : List Char → Option (List Char)
  | [] => none
  | c :: r => if c = '*' ∧ r.head? = some '/' then some r.tail else afterComment? r

theorem length_le_of_afterComment? {cs rest : List Char} (h : afterComment? cs = some rest) :
    rest.length ≤ cs.length := by
  induction cs with
  | nil => cases h
  | cons c cs ih =>
    rw [afterComment?] at h
    split at h
    · rw [← Option.some.inj h, List.length_tail, List.length_cons]
      omega
    · exact Nat.le_succ_of_le (ih h)

/-- The characters that start a literal or a comment. -/
def marks : List Char := ['"', '\x27', '\x60', '/']

/-- Whether the character starts a literal or a comment. -/
def isMark (c : Char) : Bool := marks.contains c

/-- Whether the text holds no mark that would start a literal or a comment. -/
def isPlain (s : String) : Bool := s.toList.all (!isMark ·)

/-- The values of the string literals in a text. -/
def literals? (cs : List Char) : Option (List (List Nat)) :=
  match cs with
  | [] => some []
  | c :: r =>
    if c = '"' then
      match _h : inside? r with
      | none => none
      | some (value, rest) => (literals? rest).map (value :: ·)
    else if c = '/' ∧ r.head? = some '*' then
      match _h : afterComment? r.tail with
      | none => none
      | some rest => literals? rest
    else if isMark c then none
    else literals? r
termination_by cs.length
decreasing_by
  · exact Nat.lt_succ_of_lt (length_lt_of_inside? _h)
  · have := length_le_of_afterComment? _h
    rw [List.length_tail] at this
    rw [List.length_cons]
    omega
  · exact Nat.lt_succ_self _

theorem literals?_cons {c : Char} (hc : isMark c = false) (rest : List Char) :
    literals? (c :: rest) = literals? rest := by
  have hquote : c ≠ '"' := by rintro rfl; revert hc; decide
  have hslash : c ≠ '/' := by rintro rfl; revert hc; decide
  rw [literals?, if_neg hquote, if_neg fun h => hslash h.1, hc, if_neg Bool.false_ne_true]

theorem literals?_quote (s : String) (rest : List Char) :
    literals? ((quote s).toList ++ rest) = (literals? rest).map (stringValue s :: ·) := by
  have hread := inside?_quoteChars s.toList rest
  rw [quote, String.toList_ofList, quoteChars, List.cons_append, List.append_assoc, literals?, if_pos rfl]
  split
  · next hnone => cases hnone.symm.trans hread
  · next hsome =>
    obtain ⟨rfl, rfl⟩ := Prod.mk.inj (Option.some.inj (hsome.symm.trans hread))
    rfl

theorem literals?_comment {cs rest : List Char} (h : afterComment? cs = some rest) :
    literals? ('/' :: '*' :: cs) = literals? rest := by
  rw [literals?, if_neg (by decide), if_pos ⟨rfl, rfl⟩]
  split
  · next hnone => cases h.symm.trans hnone
  · next hsome => rw [Option.some.inj (h.symm.trans hsome)]

/-- **A comment ends where it is closed first.** -/
theorem afterComment?_of_closed {cs rest : List Char}
    (h : ∀ before after, cs ++ ['*', '/', '\n'] = before ++ '*' :: '/' :: after → after = ['\n']) :
    afterComment? (cs ++ '*' :: '/' :: rest) = some rest := by
  induction cs with
  | nil => rfl
  | cons c cs ih =>
    rw [List.cons_append, afterComment?, if_neg, ih]
    · exact fun before after heq => h (c :: before) after (congrArg (c :: ·) heq)
    · -- Else the comment would be closed too early, with its end still to come.
      rintro ⟨rfl, hslash⟩
      cases cs with
      | nil => cases hslash
      | cons d cs =>
        obtain rfl := Option.some.inj hslash
        simpa using congrArg List.length (h [] _ rfl)

end Scanner

section Reading

/-- The text is read as the literals of the values, and nothing is open at its end. -/
def Reads (cs : List Char) (values : List String) : Prop :=
  ∀ rest, literals? (cs ++ rest) = (literals? rest).map (values.map stringValue ++ ·)

theorem Reads.append {cs ds : List Char} {values others : List String} (hcs : Reads cs values)
    (hds : Reads ds others) : Reads (cs ++ ds) (values ++ others) := by
  intro rest
  rw [List.append_assoc, hcs, hds, Option.map_map, List.map_append]
  exact congrArg (Option.map · _) (funext fun _ => (List.append_assoc _ _ _).symm)

theorem Reads.plain {cs : List Char} (h : ∀ c ∈ cs, isMark c = false) : Reads cs [] := by
  intro rest
  induction cs with
  | nil => simp
  | cons c cs ih =>
    rw [List.forall_mem_cons] at h
    rw [List.cons_append, literals?_cons h.1, ih h.2]

theorem Reads.eq_nil {values : List String} (h : Reads [] values) : values = [] := by
  simpa [literals?] using h []

/-- A word that stands as it is, or a string that is quoted. -/
inductive Lexeme where
  | word (name : String)
  | string (value : String)
deriving DecidableEq, Repr

/-- A word, if the lexeme is one, holds no mark. -/
def Lexeme.isBare : Lexeme → Bool
  | .word name => isPlain name
  | .string _ => true

/-- The string, if it is one. -/
def Lexeme.string? : Lexeme → Option String
  | .word _ => none
  | .string value => some value

/-- The strings among lexemes. -/
def strings (ls : List Lexeme) : List String := ls.filterMap Lexeme.string?

/-- The text is written of the lexemes: if their words are bare, it is read as their strings, with nothing open at
its end, nor before the semicolons at its end. -/
def IsWritten (s : String) (ls : List Lexeme) : Prop :=
  (∀ l ∈ ls, l.isBare = true) →
    Reads s.toList (strings ls) ∧ Reads (dropSemicolons s).toList (strings ls)

/-- Texts that are written of lexemes, one after another. -/
inductive AreWritten : List String → List Lexeme → Prop where
  | nil : AreWritten [] []
  | cons {s : String} {ss : List String} {ls ms : List Lexeme} : IsWritten s ls → AreWritten ss ms →
      AreWritten (s :: ss) (ls ++ ms)

theorem toList_dropSemicolons_append (s t : String) : (dropSemicolons (s ++ t)).toList =
    if (dropSemicolons t).toList = [] then (dropSemicolons s).toList
    else s.toList ++ (dropSemicolons t).toList := by
  simp only [dropSemicolons, String.toList_ofList, String.toList_append, List.reverse_append,
    List.dropWhile_append, List.isEmpty_iff, List.reverse_eq_nil_iff]
  split <;> simp

namespace IsWritten

variable {s t : String} {ls ms : List Lexeme}

theorem append (hs : IsWritten s ls) (ht : IsWritten t ms) : IsWritten (s ++ t) (ls ++ ms) := by
  intro hbare
  rw [List.forall_mem_append] at hbare
  obtain ⟨hswhole, hsopen⟩ := hs hbare.1
  obtain ⟨htwhole, htopen⟩ := ht hbare.2
  rw [String.toList_append, toList_dropSemicolons_append, strings, List.filterMap_append]
  refine ⟨hswhole.append htwhole, ?_⟩
  -- Of semicolons alone nothing is read, and the end is that of the text in front of them.
  split
  · next hnil =>
    rw [hnil] at htopen
    rw [show ms.filterMap Lexeme.string? = [] from htopen.eq_nil, List.append_nil]
    exact hsopen
  · exact hswhole.append htopen

theorem plain (h : isPlain s = true) : IsWritten s [] := by
  have hmark : ∀ c ∈ s.toList, isMark c = false := by simpa [isPlain] using h
  refine fun _ => ⟨.plain hmark, .plain fun c hc => hmark c ?_⟩
  rw [dropSemicolons, String.toList_ofList, List.mem_reverse] at hc
  exact List.mem_reverse.1 ((List.dropWhile_sublist _).subset hc)

theorem of_forall (p : Char → Bool) (hp : marks.any p = false) (h : ∀ c ∈ s.toList, p c = true) :
    IsWritten s [] := by
  refine plain (List.all_eq_true.2 fun c hc => ?_)
  have hmark : c ∉ marks := fun hmark =>
    Bool.false_ne_true (hp.symm.trans (List.any_eq_true.2 ⟨c, hmark, h c hc⟩))
  simpa [isMark] using hmark

theorem word (name : String) : IsWritten name [.word name] := fun hbare =>
  plain (hbare _ List.mem_cons_self) (by simp)

/-- **A quoted string is written of the string.** -/
theorem quoted (value : String) : IsWritten (quote value) [.string value] := by
  have hopen : dropSemicolons (quote value) = quote value := by
    simp [dropSemicolons, quote, quoteChars]
  rw [IsWritten, hopen]
  exact fun _ => ⟨literals?_quote value, literals?_quote value⟩

theorem ite {p : Prop} [Decidable p] (hs : IsWritten s ls) (ht : IsWritten t ls) :
    IsWritten (if p then s else t) ls := by
  split
  · exact hs
  · exact ht

theorem either {p : Prop} [Decidable p] (hs : isPlain s = true) (ht : isPlain t = true) :
    IsWritten (if p then s else t) [] := ite (plain hs) (plain ht)

/-- A text that stands only where there are lexemes. -/
theorem ite_plain {p : Prop} [Decidable p] (hp : p → ls = []) (hs : isPlain s = true) (ht : IsWritten t ls) :
    IsWritten (if p then s else t) ls := by
  split
  · next h => exact hp h ▸ plain hs
  · exact ht

theorem of_eq (hs : IsWritten s ls) (h : ls = ms) : IsWritten s ms := h ▸ hs

/-- A comment is written of no lexemes: it is passed over, whatever it shows. -/
theorem comment (doc : Option String) {indent : String} (hindent : ∀ c ∈ indent.toList, c = ' ') :
    IsWritten (comment doc indent) [] := by
  have hcomment := isCommentOn_comment hindent doc
  by_cases hnil : commentChars doc indent.toList = []
  · rw [TypeScript.comment, hnil]
    exact plain rfl
  obtain ⟨inside, hblock⟩ := hcomment.framed hnil
  have hreads : Reads (TypeScript.comment doc indent).toList [] := fun rest => by
    have hafter : afterComment? ('*' :: inside ++ '*' :: '/' :: '\n' :: rest) = some ('\n' :: rest) := by
      refine afterComment?_of_closed fun before after heq => ?_
      refine hcomment.closed (indent.toList ++ '/' :: '*' :: before) after ?_
      rw [hblock]
      simpa using heq
    have hblank : Reads indent.toList [] := .plain fun c hc => by rw [hindent c hc]; decide
    rw [TypeScript.comment, String.toList_ofList, hblock, List.append_assoc, hblank]
    simpa [literals?_cons (show isMark '\n' = false by decide)] using literals?_comment hafter
  have hopen : dropSemicolons (TypeScript.comment doc indent) = TypeScript.comment doc indent := by
    simp [dropSemicolons, TypeScript.comment, hblock]
  rw [IsWritten, hopen]
  exact fun _ => ⟨hreads, hreads⟩

end IsWritten

namespace AreWritten

variable {ss ts : List String} {ls ms : List Lexeme}

theorem append (hs : AreWritten ss ls) (ht : AreWritten ts ms) : AreWritten (ss ++ ts) (ls ++ ms) := by
  induction hs with
  | nil => exact ht
  | cons hs _ ih =>
    rw [List.append_assoc]
    exact .cons hs ih

theorem map {α : Type} {text : α → String} {lexemes : α → List Lexeme} {as : List α}
    (h : ∀ a ∈ as, IsWritten (text a) (lexemes a)) : AreWritten (as.map text) (as.flatMap lexemes) := by
  induction as with
  | nil => exact .nil
  | cons a as ih =>
    rw [List.forall_mem_cons] at h
    exact .cons h.1 (ih h.2)

theorem single {s : String} (h : IsWritten s ls) : AreWritten [s] ls := by simpa using cons h nil

theorem words (names : List String) : AreWritten names (names.map .word) := by
  simpa [List.map_eq_flatMap] using map fun name (_ : name ∈ names) => IsWritten.word name

theorem join (h : AreWritten ss ls) : IsWritten (String.join ss) ls := by
  induction h with
  | nil => exact .plain rfl
  | cons hs _ ih =>
    rw [String.join_cons]
    exact hs.append ih

/-- **Texts with a separator between them are written of their lexemes.** -/
theorem intercalate {separator : String} (hseparator : isPlain separator = true)
    (h : AreWritten ss ls) : IsWritten (separator.intercalate ss) ls := by
  induction h with
  | nil => exact .plain (by rw [String.intercalate_nil]; rfl)
  | @cons s ss ls ms hs hss ih =>
    cases ss with
    | nil => simpa using hs.append ih
    | cons t ss =>
      rw [String.intercalate_cons_cons]
      exact .of_eq ((hs.append (.plain hseparator)).append ih) (by simp)

theorem eq_nil (h : AreWritten ss ls) (hempty : ss.isEmpty = true) : ls = [] := by
  cases h with
  | nil => rfl
  | cons => cases hempty

theorem inAngles (h : AreWritten ss ls) : IsWritten (inAngles ss) ls :=
  .ite_plain h.eq_nil rfl (.of_eq (((IsWritten.plain rfl).append (h.intercalate rfl)).append (.plain rfl)) (by simp))

theorem inBraces {separator : String} (hseparator : isPlain separator = true) (h : AreWritten ss ls) :
    IsWritten (inBraces separator ss) ls :=
  .ite_plain h.eq_nil rfl
    (.of_eq (((IsWritten.plain rfl).append (h.intercalate hseparator)).append (.plain rfl)) (by simp))

end AreWritten

end Reading

section Types

/-- The lexemes of the key of a property. An identifier stands bare, and is no mark. -/
def keyLexemes (name : String) : List Lexeme := if isIdentifier name then [] else [.string name]

theorem isWritten_propertyKey (name : String) : IsWritten (propertyKey name) (keyLexemes name) := by
  rw [propertyKey, keyLexemes]
  split
  · next hname => exact .of_forall isPart rfl (isPart_of_isIdentifier hname)
  · exact .quoted name

/-- **What closes a member is left out**, with the semicolons in front of it. -/
theorem IsWritten.dropSemicolons {s : String} {ls : List Lexeme} (h : IsWritten s ls) :
    IsWritten (dropSemicolons s) ls := by
  have hidem : TypeScript.dropSemicolons (TypeScript.dropSemicolons s) = TypeScript.dropSemicolons s := by
    simp [TypeScript.dropSemicolons, List.dropWhile_idempotent]
  rw [IsWritten, hidem]
  exact fun hbare => ⟨(h hbare).2, (h hbare).2⟩

theorem isWritten_line {τ : Type} (p : PropertyOf τ) {type : String} {ls : List Lexeme} (h : IsWritten type ls) :
    IsWritten (p.line type) (keyLexemes p.name ++ ls) := by
  rw [PropertyOf.line]
  exact .of_eq ((((((IsWritten.either rfl rfl).append (isWritten_propertyKey p.name)).append (.either rfl rfl)).append
    (.plain rfl)).append h).append (.plain rfl)) (by simp)

namespace Ty

mutual

/-- The lexemes of a type. -/
def lexemes : Ty → List Lexeme
  | .basic _ => []
  | .named name args => .word name :: lexemesOfAll args
  | .array t => lexemes t
  | .record k v => lexemes k ++ lexemes v
  | .union ts => lexemesOfAll ts
  | .intersection ts => lexemesOfAll ts
  | .literal value => [.string value]
  | .object ps => lexemesOfMembers ps

/-- The lexemes of types. -/
def lexemesOfAll : List Ty → List Lexeme
  | [] => []
  | t :: ts => lexemes t ++ lexemesOfAll ts

/-- The lexemes of members. -/
def lexemesOfMembers : List Property → List Lexeme
  | [] => []
  | p :: ps => (keyLexemes p.name ++ lexemes p.type) ++ lexemesOfMembers ps

end

mutual

/-- **A type is written of its lexemes.** -/
theorem isWritten_text : ∀ t : Ty, IsWritten t.text t.lexemes
  | .basic k => .plain (by cases k <;> rfl)
  | .named name args => (IsWritten.word name).append (areWritten_texts args).inAngles
  | .array t =>
    .of_eq (((IsWritten.plain rfl).append (isWritten_text t)).append (.plain rfl)) (by simp [lexemes])
  | .record k v =>
    .of_eq (((((IsWritten.plain rfl).append (isWritten_text k)).append (.plain rfl)).append
      (isWritten_text v)).append (.plain rfl)) (by simp [lexemes])
  | .union ts => (areWritten_texts ts).intercalate rfl
  | .intersection ts => (areWritten_operands ts).intercalate rfl
  | .literal value => .quoted value
  | .object ps => (areWritten_memberTexts ps).inBraces rfl

theorem areWritten_texts : ∀ ts : List Ty, AreWritten (texts ts) (lexemesOfAll ts)
  | [] => .nil
  | t :: ts => .cons (isWritten_text t) (areWritten_texts ts)

theorem areWritten_operands : ∀ ts : List Ty, AreWritten (operands ts) (lexemesOfAll ts)
  | [] => .nil
  | t :: ts => by
    have ht := isWritten_text t
    have hbraced : IsWritten ("(" ++ text t ++ ")") (lexemes t) :=
      .of_eq (((IsWritten.plain rfl).append ht).append (.plain rfl)) (by simp)
    exact .cons (.ite hbraced ht) (areWritten_operands ts)

theorem areWritten_memberTexts : ∀ ps : List Property, AreWritten (memberTexts ps) (lexemesOfMembers ps)
  | [] => .nil
  | p :: ps => .cons (isWritten_line p (isWritten_text p.type)).dropSemicolons (areWritten_memberTexts ps)

end

end Ty

end Types

section Declarations

theorem isWritten_digits {cs : List Char} (h : ∀ c ∈ cs, c.isDigit = true) : IsWritten (.ofList cs) [] :=
  .of_forall Char.isDigit rfl (by rwa [String.toList_ofList])

/-- A number is written without marks. -/
theorem isWritten_positional (x : Decimal.Double) : IsWritten x.positional [] := by
  cases x with
  | finite s m e =>
    have hdigit : ∀ c ∈ Nat.toDigits 10 (Decimal.shortest .greater m e).digits, c.isDigit = true := fun c hc =>
      Nat.isDigit_of_mem_toDigits (by decide) (by decide) hc
    have hzeros : ∀ n, IsWritten (Decimal.zeros n) [] := fun n =>
      isWritten_digits fun c hc => by rw [List.eq_of_mem_replicate hc]; rfl
    rw [Decimal.Double.positional, Decimal.Digits.positional]
    refine (IsWritten.either rfl rfl).append ?_
    split
    · exact (isWritten_digits hdigit).append (hzeros _)
    · refine .ite ?_ ?_
      · exact (IsWritten.append (.plain rfl) (hzeros _)).append (isWritten_digits hdigit)
      · exact ((isWritten_digits fun c hc => hdigit c (List.mem_of_mem_take hc)).append (.plain rfl)).append
          (isWritten_digits fun c hc => hdigit c (List.mem_of_mem_drop hc))
  | infinite s => cases s <;> exact .plain rfl
  | notANumber => exact .plain rfl

namespace Expr

mutual

/-- The lexemes of an expression. -/
def lexemes : Expr → List Lexeme
  | .ident name => [.word name]
  | .string value => [.string value]
  | .number _ => []
  | .bool _ => []
  | .undefined => []
  | .call f ts xs => lexemes f ++ (Ty.lexemesOfAll ts ++ lexemesOfAll xs)
  | .construct f ts xs => lexemes f ++ (Ty.lexemesOfAll ts ++ lexemesOfAll xs)
  | .member x property => lexemes x ++ [.word property]
  | .object es => lexemesOfEntries es
  | .array xs => lexemesOfAll xs

/-- The lexemes of expressions. -/
def lexemesOfAll : List Expr → List Lexeme
  | [] => []
  | x :: xs => lexemes x ++ lexemesOfAll xs

/-- The lexemes of the entries of an object literal. -/
def lexemesOfEntries : List ObjectEntry → List Lexeme
  | [] => []
  | .shorthand key :: es => [.word key] ++ lexemesOfEntries es
  | .entry key x :: es => (keyLexemes key ++ lexemes x) ++ lexemesOfEntries es

end

theorem isWritten_application {f : String} {ts xs : List String} {ls ms ns : List Lexeme} (hf : IsWritten f ls)
    (hts : AreWritten ts ms) (hxs : AreWritten xs ns) :
    IsWritten (f ++ inAngles ts ++ "(" ++ ", ".intercalate xs ++ ")") (ls ++ (ms ++ ns)) :=
  .of_eq ((((hf.append hts.inAngles).append (.plain rfl)).append (hxs.intercalate rfl)).append (.plain rfl))
    (by simp)

mutual

/-- **An expression is written of its lexemes.** -/
theorem isWritten_text : ∀ x : Expr, IsWritten x.text x.lexemes
  | .ident name => .word name
  | .string value => .quoted value
  | .number x => isWritten_positional x
  | .bool b => by cases b <;> exact .plain rfl
  | .undefined => .plain rfl
  | .call f ts xs => isWritten_application (isWritten_text f) (Ty.areWritten_texts ts) (areWritten_texts xs)
  | .construct f ts xs =>
    isWritten_application ((IsWritten.plain rfl).append (isWritten_text f)) (Ty.areWritten_texts ts)
      (areWritten_texts xs)
  | .member x property => .of_eq (((isWritten_text x).append (.plain rfl)).append (.word property)) (by simp [lexemes])
  | .object es => (areWritten_entryTexts es).inBraces rfl
  | .array xs =>
    .of_eq (((IsWritten.plain rfl).append ((areWritten_texts xs).intercalate rfl)).append (.plain rfl))
      (by simp [lexemes])

theorem areWritten_texts : ∀ xs : List Expr, AreWritten (texts xs) (lexemesOfAll xs)
  | [] => .nil
  | x :: xs => .cons (isWritten_text x) (areWritten_texts xs)

theorem areWritten_entryTexts : ∀ es : List ObjectEntry, AreWritten (entryTexts es) (lexemesOfEntries es)
  | [] => .nil
  | .shorthand key :: es => .cons (.word key) (areWritten_entryTexts es)
  | .entry key x :: es =>
    .cons (.of_eq (((isWritten_propertyKey key).append (.plain rfl)).append (isWritten_text x)) (by simp))
      (areWritten_entryTexts es)

end

end Expr

/-- The lexemes of a parameter. -/
def Parameter.lexemes (p : Parameter) : List Lexeme := .word p.name :: p.type.lexemes

/-- The lexemes of a member of an interface. -/
def PropertyOf.lexemes (p : Property) : List Lexeme := keyLexemes p.name ++ p.type.lexemes

/-- The lexemes of a member of an enumeration. -/
def enumerationLexemes (member : String × String) : List Lexeme := keyLexemes member.1 ++ [.string member.2]

/-- The lexemes of a function. -/
def Function.lexemes (f : Function) : List Lexeme :=
  .word f.name :: (f.typeParameters.map .word ++ (f.parameters.flatMap (·.lexemes) ++
    (f.result.lexemes ++ f.body.flatMap (·.lexemes))))

/-- The lexemes of an interface. -/
def Interface.lexemes (i : Interface) : List Lexeme :=
  .word i.name :: (i.typeParameters.map .word ++ (Ty.lexemesOfAll i.parents ++ i.members.flatMap (·.lexemes)))

/-- The lexemes of a type alias. -/
def Alias.lexemes (a : Alias) : List Lexeme :=
  .word a.name :: (a.typeParameters.map .word ++ a.type.lexemes)

/-- The lexemes of an enumeration. -/
def Enumeration.lexemes (e : Enumeration) : List Lexeme :=
  .word e.name :: e.members.flatMap enumerationLexemes

/-- The lexemes of a declaration. What its comments show is none. -/
def Declaration.lexemes : Declaration → List Lexeme
  | .function f => f.lexemes
  | .interface i => i.lexemes
  | .alias a => a.lexemes
  | .enumeration e => e.lexemes

theorem isWritten_parameter (p : Parameter) : IsWritten p.text p.lexemes := by
  rw [Parameter.text]
  exact .of_eq ((((IsWritten.word p.name).append (.either rfl rfl)).append (.plain rfl)).append
    p.type.isWritten_text) (by simp [Parameter.lexemes])

theorem isWritten_declared (p : Property) : IsWritten p.declared p.lexemes := by
  rw [PropertyOf.declared]
  have hcomment : IsWritten (comment p.doc indentation) [] := .comment p.doc (by simp [indentation])
  exact .of_eq (((hcomment.append (.plain rfl)).append (isWritten_line p p.type.isWritten_text)).append (.plain rfl))
    (by simp [PropertyOf.lexemes])

theorem isWritten_enumerationLine (member : String × String) :
    IsWritten (enumerationLine member) (enumerationLexemes member) := by
  rw [enumerationLine]
  exact .of_eq ((((IsWritten.plain rfl).append (isWritten_propertyKey member.1)).append (.plain rfl)).append
    (.quoted member.2)) (by simp [enumerationLexemes])

theorem isWritten_return (x : Expr) : IsWritten (indentation ++ "return " ++ x.text ++ ";\n") x.lexemes :=
  .of_eq ((((IsWritten.plain rfl).append (.plain rfl)).append x.isWritten_text).append (.plain rfl)) (by simp)

theorem isWritten_comment (doc : Option String) : IsWritten (comment doc "") [] := .comment doc (by simp)

/-- What a declaration starts with, up to its type parameters. -/
theorem isWritten_start {before : String} (h : IsWritten before []) (name : String) (typeParameters : List String) :
    IsWritten (before ++ name ++ inAngles typeParameters) (.word name :: typeParameters.map .word) :=
  (h.append (.word name)).append (AreWritten.words typeParameters).inAngles

theorem isWritten_function (f : Function) : IsWritten f.text f.lexemes := by
  have hparameters : IsWritten (", ".intercalate (f.parameters.map (·.text))) (f.parameters.flatMap (·.lexemes)) :=
    AreWritten.intercalate rfl (.map fun p _ => isWritten_parameter p)
  have hbody := AreWritten.join (.map fun x (_ : x ∈ f.body) => isWritten_return x)
  rw [Function.text]
  exact .of_eq ((((((((isWritten_start (((isWritten_comment f.doc).append (.either rfl rfl)).append (.plain rfl)) f.name
    f.typeParameters).append (.plain rfl)).append hparameters).append (.plain rfl)).append
    f.result.isWritten_text).append (.plain rfl)).append hbody).append (.plain rfl)) (by simp [Function.lexemes])

theorem isWritten_interface (i : Interface) : IsWritten i.text i.lexemes := by
  have hparents : IsWritten (if i.parents.isEmpty then "" else " extends " ++ ", ".intercalate (Ty.texts i.parents))
      (Ty.lexemesOfAll i.parents) :=
    .ite_plain (fun h => by rw [List.isEmpty_iff.1 h, Ty.lexemesOfAll]) rfl
      ((IsWritten.plain rfl).append ((Ty.areWritten_texts i.parents).intercalate rfl))
  have hmembers := AreWritten.join (.map fun p (_ : p ∈ i.members) => isWritten_declared p)
  rw [Interface.text]
  exact .of_eq (((((isWritten_start ((isWritten_comment i.doc).append (.plain rfl)) i.name i.typeParameters).append
    hparents).append (.plain rfl)).append hmembers).append (.plain rfl)) (by simp [Interface.lexemes])

theorem isWritten_alias (a : Alias) : IsWritten a.text a.lexemes := by
  rw [Alias.text]
  exact .of_eq ((((isWritten_start ((isWritten_comment a.doc).append (.plain rfl)) a.name a.typeParameters).append
    (.plain rfl)).append a.type.isWritten_text).append (.plain rfl)) (by simp [Alias.lexemes])

theorem isWritten_enumeration (e : Enumeration) : IsWritten e.text e.lexemes := by
  have hmembers : IsWritten
      (if e.members.isEmpty then "" else ",\n".intercalate (e.members.map enumerationLine) ++ "\n")
      (e.members.flatMap enumerationLexemes) :=
    .ite_plain (fun h => by rw [List.isEmpty_iff.1 h, List.flatMap_nil]) rfl
      (.of_eq ((AreWritten.intercalate rfl (.map fun m _ => isWritten_enumerationLine m)).append (.plain rfl))
        (by simp))
  rw [Enumeration.text]
  exact .of_eq ((((((isWritten_comment e.doc).append (.plain rfl)).append (.word e.name)).append (.plain rfl)).append
    hmembers).append (.plain rfl)) (by simp [Enumeration.lexemes])

/-- **A declaration is written of its lexemes**, whatever its comments show. -/
theorem isWritten_declaration : ∀ d : Declaration, IsWritten d.text d.lexemes
  | .function f => isWritten_function f
  | .interface i => isWritten_interface i
  | .alias a => isWritten_alias a
  | .enumeration e => isWritten_enumeration e

end Declarations

end TypeScript

namespace Module

open TypeScript

/-- The lexemes of a binding under another name, or its own. -/
def renamedLexemes (name other : String) : List Lexeme :=
  if name = other then [.word name] else [.word name, .word other]

theorem isWritten_renamed (name other : String) :
    IsWritten (if name = other then name else name ++ " as " ++ other) (renamedLexemes name other) := by
  rw [renamedLexemes]
  split
  · exact .word name
  · exact ((IsWritten.word name).append (.plain rfl)).append (.word other)

/-- The lexemes of an import statement. -/
def ImportStatement.lexemes : ImportStatement → List Lexeme
  | .default _ localName source => [.word localName, .string source]
  | .named _ items source => items.flatMap (fun i => renamedLexemes i.imported i.localName) ++ [.string source]

theorem isWritten_importItem (i : ImportItem) : IsWritten i.text (renamedLexemes i.imported i.localName) :=
  (IsWritten.either rfl rfl).append (isWritten_renamed i.imported i.localName)

/-- **An import statement is written of its lexemes.** -/
theorem isWritten_importStatement : ∀ s : ImportStatement, IsWritten s.text s.lexemes
  | .default typesOnly localName source =>
    ((((IsWritten.either rfl rfl).append (.word localName)).append (.plain rfl)).append (.quoted source)).append
      (.plain rfl)
  | .named typesOnly items source => by
    have hitems := AreWritten.map fun i (_ : i ∈ items) => isWritten_importItem i
    exact .of_eq ((((((IsWritten.either rfl rfl).append (.plain rfl)).append (hitems.intercalate rfl)).append
      (.plain rfl)).append (.quoted source)).append (.plain rfl)) (by simp [ImportStatement.lexemes])

/-- The lexemes of the statements of the exports. -/
def Exports.lexemes (e : Exports) : List Lexeme :=
  e.named.flatMap (fun i => renamedLexemes i.1 i.2) ++ e.default.toList.map .word

theorem areWritten_exports (e : Exports) : AreWritten e.lines e.lexemes := by
  have hitems := AreWritten.map fun i (_ : i ∈ e.named) => isWritten_renamed i.1 i.2
  refine .append ?_ ?_
  · split
    · next h => rw [List.isEmpty_iff.1 h]; exact .nil
    · exact .single (.of_eq (((IsWritten.plain rfl).append (hitems.intercalate rfl)).append (.plain rfl)) (by simp))
  · cases e.default with
    | none => exact .nil
    | some name => exact .single (((IsWritten.plain rfl).append (.word name)).append (.plain rfl))

namespace File

theorem areWritten_section {lines : List String} {ls : List Lexeme} (h : AreWritten lines ls) :
    AreWritten (section? lines).toList ls := by
  rw [section?]
  split
  · next hempty => exact h.eq_nil hempty ▸ .nil
  · exact .single (h.intercalate rfl)

/-- The lexemes of the file. -/
def lexemes (f : File) : List Lexeme :=
  (f.bindings.imports.statements f.used).flatMap (·.lexemes) ++ f.declarations.flatMap (·.lexemes) ++
    f.bindings.exports.lexemes

/-- **A file is written of its lexemes.** -/
theorem isWritten_text (f : File) : IsWritten f.text f.lexemes := by
  have himports : AreWritten (f.bindings.imports.lines f.used)
      ((f.bindings.imports.statements f.used).flatMap (·.lexemes)) := by
    rw [Imports.lines_eq]
    exact .map fun s _ => isWritten_importStatement s
  have hdeclarations := AreWritten.map fun d (_ : d ∈ f.declarations) => isWritten_declaration d
  have hsections := ((areWritten_section himports).append hdeclarations).append
    (areWritten_section (areWritten_exports f.bindings.exports))
  exact .of_eq ((hsections.intercalate rfl).append (.plain rfl)) (by rw [List.append_nil, lexemes])

/-- The strings that the file is written of. -/
def strings (f : File) : List String := TypeScript.strings f.lexemes

theorem literals?_text {f : File} (h : ∀ l ∈ f.lexemes, l.isBare = true) :
    literals? f.text.toList = some (f.strings.map stringValue) := by
  have hread := (f.isWritten_text h).1 []
  rwa [List.append_nil, literals?, Option.map_some, List.append_nil] at hread

/-- **String literals are exact.** A quoted text is read as the text, up to its closing quote, whatever stands
behind it: between the quotes there is no bare quote and no end of a line. Texts of the same value are the same
text. The key of a property is read as its name, before anything that is no part of an identifier.

So a file holds just the literals that were meant: the modules that it imports, the keys that are no
identifiers, the values of literal types and of enumerations, and the strings that are passed on, such as the
names of endpoints and methods. Files that are written alike hold the same strings. The words in the file, which
are written as they are, must hold no mark of a literal or a comment. -/
theorem literals_exact :
    (∀ s rest, literal? ((quote s).toList ++ rest) = some (stringValue s, rest)) ∧
    (∀ s, ∃ inside, (quote s).toList = '"' :: (inside ++ ['"']) ∧ IsInside inside) ∧
    (∀ s t, stringValue s = stringValue t → s = t) ∧
    (∀ name rest, (∀ c ∈ rest.head?, isPart c = false) →
      key? ((propertyKey name).toList ++ rest) = some (stringValue name, rest)) ∧
    ∀ f : File, (∀ l ∈ f.lexemes, l.isBare = true) →
      literals? f.text.toList = some (f.strings.map stringValue) ∧
      ∀ g : File, (∀ l ∈ g.lexemes, l.isBare = true) → f.text = g.text → f.strings = g.strings := by
  refine ⟨literal?_quote, fun s => ⟨_, ?_, isInside_quoted s.toList⟩, fun _ _ => stringValue_inj,
    fun name _ => key?_propertyKey name, fun f hf => ⟨literals?_text hf, fun g hg htext => ?_⟩⟩
  · rw [quote, String.toList_ofList, quoteChars]
  · have hvalues := literals?_text hf
    rw [htext, literals?_text hg] at hvalues
    exact (List.map_injective_iff.2 fun _ _ => stringValue_inj) (Option.some.inj hvalues.symm)

/-- Quotes, backslashes at the end, line feeds and semicolons, in every place where a string may stand. The name
that a default export was asked for is not written. -/
theorem literals_exact_adversarial :
    let importAs : String → Imports := fun id => ⟨[("./a\"b\\", { default := some (id, ⟨"C", false⟩) })]⟩
    let f : File := {
      path := "m.ts"
      origin := "methods"
      bindings := { Bindings.ofFile "m.ts" ".ts" .whenTaken with imports := importAs "C" }
      declarations := [
        .enumeration { name := "E", members := [("x-\"y", "\\n\n"), ("z", "\\")] },
        .function {
          doc := some "\"*/"
          name := "f"
          result := .object [{ name := "1;", type := .literal "a;\\\";" }]
          body := [.call (.ident "C") [] [.string "end\"point\\", .string "m\r\n"]] }] }
    let g : File := { f with bindings := { f.bindings with imports := importAs "D" } }
    (∀ c ∈ ": string".toList.head?, isPart c = false) ∧
    key? ((propertyKey "\\\"").toList ++ ": string".toList) = some (stringValue "\\\"", ": string".toList) ∧
    (∀ l ∈ f.lexemes, l.isBare = true) ∧ (∀ l ∈ g.lexemes, l.isBare = true) ∧ f.text = g.text ∧
    f.strings = g.strings ∧ literals? f.text.toList = some (["./a\"b\\", "x-\"y", "\\n\n", "\\", "1;", "a;\\\";",
      "end\"point\\", "m\r\n"].map stringValue) := by
  intro importAs f g
  have hrest : ∀ c ∈ ": string".toList.head?, isPart c = false := fun c hc => by
    obtain rfl : ':' = c := Option.some.inj hc
    decide
  have hf : ∀ l ∈ f.lexemes, l.isBare = true := by decide +kernel
  have hg : ∀ l ∈ g.lexemes, l.isBare = true := by decide +kernel
  have htext : f.text = g.text := by decide +kernel
  have hstrings : f.strings = ["./a\"b\\", "x-\"y", "\\n\n", "\\", "1;", "a;\\\";",
      "end\"point\\", "m\r\n"] := by decide +kernel
  obtain ⟨-, -, -, hkey, hfile⟩ := literals_exact
  obtain ⟨hread, halike⟩ := hfile f hf
  exact ⟨hrest, hkey _ _ hrest, hf, hg, htext, halike g hg htext, hstrings ▸ hread⟩

end File

end Module

end OpenApiClient
