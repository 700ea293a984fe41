/-
# Documentation stays in its comment

A declaration with documentation is written as a comment and then the declaration as it is without, and so is
a member of an interface. What the comment is to show is said line by line (`IsCommentOn`): the lines of the
trimmed text stand in it one below the other, each behind a star, without the blanks at its end, and with a
backslash in front of each slash that stands behind a star (`guarded`).

`replacePair` goes from left to right and leaves pairs out that overlap. Here none do, so that it guards every
slash (`replacePair_eq_guarded`), and no slash stands behind a star in what it makes of a line
(`keepsOpen_guarded`). Nor does one where lines meet, since a line starts with a blank. The only slash behind a
star is therefore that of the last line, which closes the comment (`isCommentOn_comment`).
-/

import OpenApiClient.TypeScript.Printer
import Mathlib.Data.List.Chain
import Mathlib.Data.List.DropRight

namespace OpenApiClient

namespace Text

/-- Trimming the end drops the blanks on the right. -/
theorem trimEnd_eq (cs : List Char) : trimEnd cs = cs.rdropWhile isBlank := rfl

/-- Nothing is left of a text exactly if it is blank. -/
theorem trim_eq_nil_iff {cs : List Char} : trim cs = [] ↔ ∀ c ∈ cs, isBlank c = true := by
  rw [trim, trimEnd_eq, List.rdropWhile_eq_nil_iff, trimStart]
  constructor
  · intro h
    by_contra hno
    have hne : cs.dropWhile isBlank ≠ [] := fun hnil => hno (List.dropWhile_eq_nil_iff.1 hnil)
    have hhead := List.head_dropWhile_not isBlank hne
    rw [h _ (List.head_mem hne)] at hhead
    cases hhead
  · exact fun h c hc => h c ((List.dropWhile_sublist _).subset hc)

/-- A text that is trimmed ends with no blank. -/
theorem exists_trim_eq {cs : List Char} (h : trim cs ≠ []) :
    ∃ init last, trim cs = init ++ [last] ∧ isBlank last = false :=
  ⟨_, _, (List.dropLast_concat_getLast h).symm, eq_false_of_ne_true (List.rdropWhile_last_not isBlank _ h)⟩

theorem trimEnd_subset (cs : List Char) : trimEnd cs ⊆ cs := (List.rdropWhile_prefix isBlank cs).subset

/-- A carriage return at the end of a line is trimmed with it. -/
theorem trimEnd_dropReturn (cs : List Char) : trimEnd (dropReturn cs) = trimEnd cs := by
  unfold dropReturn
  split
  · next hlast =>
    obtain ⟨init, rfl⟩ := List.getLast?_eq_some_iff.1 hlast
    rw [List.dropLast_concat, trimEnd_eq, trimEnd_eq, List.rdropWhile_concat_pos _ _ _ (by decide)]
  · rfl

/-- The last piece of a text ends as the text does. -/
theorem exists_split_concat {α : Type} {p : α → Bool} {c : α} (hc : p c = false) (cs : List α) :
    ∃ ws w, split p (cs ++ [c]) = ws ++ [w ++ [c]] := by
  induction cs with
  | nil => exact ⟨[], [], by simp [split, hc]⟩
  | cons d cs ih =>
    obtain ⟨ws, w, h⟩ := ih
    rw [List.cons_append, split, h]
    split
    · exact ⟨[] :: ws, w, rfl⟩
    · cases ws with
      | nil => exact ⟨[], d :: w, rfl⟩
      | cons v vs => exact ⟨(d :: v) :: vs, w, rfl⟩

/-- Lines that are each ended, as pieces between the ends. -/
theorem split_flatMap_concat {α β : Type} {p : α → Bool} {s : α} (hs : p s = true) {f : β → List α} (bs : List β)
    (hf : ∀ b ∈ bs, ∀ c ∈ f b, p c = false) (rest : List α) :
    split p (bs.flatMap (f · ++ [s]) ++ rest) = bs.map f ++ split p rest := by
  induction bs with
  | nil => rfl
  | cons b bs ih =>
    have hb : split p (f b) = [f b] := split_eq_singleton (hf b List.mem_cons_self)
    rw [List.flatMap_cons, List.append_assoc, List.append_assoc, List.singleton_append, split_append_cons hs, hb,
      ih fun b' hb' => hf b' (List.mem_cons_of_mem _ hb')]
    rfl

end Text

namespace TypeScript

open Text

/-- A text with a backslash in front of each slash that stands behind a star, where the text itself stands
behind `previous`. -/
def guarded (previous : Char) : List Char → List Char
  | [] => []
  | c :: cs => (if previous = '*' ∧ c = '/' then ['\\', c] else [c]) ++ guarded c cs

/-- **Replacing from left to right guards every slash** that stands behind a star. -/
theorem replacePair_eq_guarded (previous : Char) (cs : List Char) (h : ¬ (previous = '*' ∧ cs.head? = some '/')) :
    replacePair '*' '/' ['*', '\\', '/'] cs = guarded previous cs := by
  fun_induction replacePair '*' '/' ['*', '\\', '/'] cs generalizing previous with
  | case1 => rfl
  | case2 x =>
    have hx : ¬ (previous = '*' ∧ x = '/') := by simpa using h
    simp [guarded, hx]
  | case3 x y r hxy ih =>
    obtain ⟨rfl, rfl⟩ := hxy
    rw [ih '/' (by simp)]
    simp [guarded]
  | case4 x y r hxy ih =>
    have hx : ¬ (previous = '*' ∧ x = '/') := by simpa using h
    rw [ih x (by simpa using hxy), guarded.eq_2 previous, if_neg hx]
    rfl

theorem mem_guarded {previous c : Char} {cs : List Char} (h : c ∈ guarded previous cs) : c ∈ cs ∨ c = '\\' := by
  induction cs generalizing previous with
  | nil => cases h
  | cons d cs ih =>
    rcases List.mem_append.1 h with h | h
    · split at h
      · rcases List.mem_cons.1 h with rfl | h
        · exact .inr rfl
        · exact .inl (List.mem_singleton.1 h ▸ List.mem_cons_self)
      · exact .inl (List.mem_singleton.1 h ▸ List.mem_cons_self)
    · exact (ih h).imp_left (List.mem_cons_of_mem _)

theorem guarded_eq_nil_iff {previous : Char} {cs : List Char} : guarded previous cs = [] ↔ cs = [] := by
  cases cs with
  | nil => simp [guarded]
  | cons c cs =>
    rw [guarded]
    split <;> simp

/-- No slash stands behind a star. -/
def KeepsOpen (cs : List Char) : Prop := cs.IsChain fun a b => ¬ (a = '*' ∧ b = '/')

/-- Behind a text without a star anything may follow. -/
theorem KeepsOpen.prepend {as bs : List Char} (hb : KeepsOpen bs) (ha : '*' ∉ as) : KeepsOpen (as ++ bs) := by
  have hopen : KeepsOpen as :=
    List.Pairwise.isChain (List.pairwise_of_forall_mem_list fun _ hc _ _ hcd => ha (hcd.1 ▸ hc))
  refine List.isChain_append.2 ⟨hopen, hb, ?_⟩
  rintro _ hlast _ _ ⟨rfl, -⟩
  exact ha (List.mem_of_getLast? hlast)

theorem KeepsOpen.feed {cs : List Char} (h : KeepsOpen cs) : KeepsOpen ('\n' :: cs) :=
  h.prepend (by decide : '*' ∉ ['\n'])

/-- Before a text that does not start with a slash any open text may stand. -/
theorem KeepsOpen.append {as bs : List Char} (ha : KeepsOpen as) (hb : KeepsOpen bs)
    (hhead : bs.head? ≠ some '/') : KeepsOpen (as ++ bs) := by
  refine List.isChain_append.2 ⟨ha, hb, ?_⟩
  rintro _ _ _ hslash ⟨-, rfl⟩
  exact hhead hslash

theorem KeepsOpen.lines {α : Type} {f : α → List Char} {xs : List α} {rest : List Char}
    (h : ∀ x ∈ xs, KeepsOpen (f x)) (hrest : KeepsOpen rest) : KeepsOpen (xs.flatMap (f · ++ ['\n']) ++ rest) := by
  induction xs with
  | nil => exact hrest
  | cons x xs ih =>
    have htail := ih fun y hy => h y (List.mem_cons_of_mem _ hy)
    simpa using (h x List.mem_cons_self).append htail.feed (by simp)

/-- **Guarding keeps the comment open**, also towards what the text stands behind. -/
theorem keepsOpen_guarded (previous : Char) (cs : List Char) : KeepsOpen (previous :: guarded previous cs) := by
  induction cs generalizing previous with
  | nil => exact .singleton _
  | cons c cs ih =>
    rw [guarded]
    split
    · next h =>
      obtain ⟨rfl, rfl⟩ := h
      exact .cons_cons (by decide) (.cons_cons (by decide) (ih '/'))
    · next h => exact .cons_cons h (ih c)

/-- A slash behind an open text closes the comment if anything does. -/
theorem KeepsOpen.closed {cs before after : List Char} (h : KeepsOpen cs)
    (heq : cs ++ ['/', '\n'] = before ++ '*' :: '/' :: after) : after = ['\n'] := by
  rcases List.append_eq_append_iff.1 heq with ⟨rest, -, hrest⟩ | ⟨rest, hbefore, hrest⟩
  · have hlength := congrArg List.length hrest
    match rest with
    | [] => cases hrest
    | c :: rest =>
      simp only [List.length_append, List.length_cons, List.length_nil] at hlength
      omega
  · match rest with
    | [] => cases hrest
    | ['*'] => exact (List.cons.inj (List.cons.inj hrest).2).2
    | c :: d :: rest =>
      obtain ⟨rfl, htail⟩ := List.cons.inj hrest
      obtain ⟨rfl, -⟩ := List.cons.inj htail
      rw [hbefore] at h
      exact absurd ⟨rfl, rfl⟩ (List.isChain_append_cons_cons.1 h).2.1

/-- A line of the documentation as it is to stand in the comment, without the line feed. -/
def shownLine (indent line : List Char) : List Char :=
  indent ++ (" *".toList ++ if trimEnd line = [] then [] else ' ' :: guarded ' ' (trimEnd line))

/-- The text is a comment, indented, that shows the documentation and nothing else. -/
structure IsCommentOn (doc : Option String) (indent block : List Char) : Prop where
  /-- It is empty exactly if there is no documentation, or only blanks. -/
  silent : block = [] ↔ ∀ d, doc = some d → ∀ c ∈ d.toList, isBlank c = true
  framed : block ≠ [] → ∃ inside, block = indent ++ ("/**".toList ++ (inside ++ "*/\n".toList))
  /-- It is closed by its last line, and not before. -/
  closed : ∀ before after, block = before ++ '*' :: '/' :: after → after = ['\n']
  /-- Its lines between the first and the last are those of the trimmed documentation. -/
  lines : block ≠ [] → ∀ d, doc = some d → split (· == '\n') block =
    (indent ++ "/**".toList) :: ((split (· == '\n') (trim d.toList)).map (shownLine indent) ++
      [indent ++ " */".toList, []])

section Comment

variable {indent : List Char} (hindent : ∀ c ∈ indent, c = ' ')

theorem starredLine_eq (indent line : List Char) : starredLine indent line = shownLine indent line ++ ['\n'] := by
  have htext : commentLine line = guarded ' ' (trimEnd line) :=
    replacePair_eq_guarded ' ' _ (by simp)
  simp [starredLine, shownLine, htext, guarded_eq_nil_iff]

/-- **The lines of a comment** are made of the pieces of the trimmed text between line feeds: a carriage
return in front of a line feed is trimmed with the line, and the last line is not empty. -/
theorem flatMap_starredLine {cs : List Char} (h : trim cs ≠ []) :
    (Text.lines (trim cs)).flatMap (starredLine indent) =
      (split (· == '\n') (trim cs)).flatMap (shownLine indent · ++ ['\n']) := by
  obtain ⟨init, last, heq, hlast⟩ := exists_trim_eq h
  have hfeed : (last == '\n') = false := beq_eq_false_iff_ne.2 fun hfeed => by
    rw [hfeed] at hlast
    exact absurd hlast (by decide)
  obtain ⟨ws, w, hsplit⟩ := exists_split_concat (p := (· == '\n')) hfeed init
  have hreturn : ∀ l, starredLine indent (dropReturn l) = starredLine indent l := fun l => by
    rw [starredLine_eq, starredLine_eq, shownLine, shownLine, trimEnd_dropReturn]
  have hlines : Text.lines (trim cs) = ws.map dropReturn ++ [w ++ [last]] := by
    rw [Text.lines, heq, hsplit]
    simp
  rw [hlines, heq, hsplit, List.flatMap_append, List.flatMap_append, List.flatMap_map]
  simp only [hreturn, starredLine_eq, List.flatMap_singleton]

theorem commentChars_eq {d : String} (h : trim d.toList ≠ []) : commentChars (some d) indent =
    indent ++ "/**".toList ++ '\n' :: ((split (· == '\n') (trim d.toList)).flatMap (shownLine indent · ++ ['\n']) ++
      (indent ++ " */\n".toList)) := by
  rw [commentChars, ← flatMap_starredLine h]
  simp [h]

include hindent

theorem star_not_mem_indent : '*' ∉ indent := fun h => absurd (hindent _ h) (by decide)

theorem keepsOpen_shownLine (line : List Char) : KeepsOpen (shownLine indent line) := by
  have hstar : KeepsOpen [' ', '*'] := .cons_cons (by decide) (.singleton _)
  refine (hstar.append ?_ ?_).prepend (star_not_mem_indent hindent) <;> split
  · exact .nil
  · exact keepsOpen_guarded ' ' _
  · simp
  · simp

theorem not_feed_of_mem_shownLine {cs line : List Char} (hline : line ∈ split (· == '\n') cs) :
    ∀ c ∈ shownLine indent line, (c == '\n') = false := by
  intro c hc
  rcases List.mem_append.1 hc with hc | hc
  · rw [hindent c hc]
    decide
  rcases List.mem_append.1 hc with hc | hc
  · rcases List.mem_cons.1 hc with rfl | hc
    · decide
    · rw [List.mem_singleton.1 hc]
      decide
  split at hc
  · cases hc
  rcases List.mem_cons.1 hc with rfl | hc
  · decide
  rcases mem_guarded hc with hc | rfl
  · exact not_of_mem_split hline c (trimEnd_subset line hc)
  · decide

/-- A comment is open up to its last slash. -/
theorem keepsOpen_comment (lines : List (List Char)) : KeepsOpen (indent ++ "/**".toList ++
    '\n' :: (lines.flatMap (shownLine indent · ++ ['\n']) ++ (indent ++ " *".toList))) := by
  have hindented := star_not_mem_indent hindent
  have hlast : KeepsOpen [' ', '*'] := .cons_cons (by decide) (.singleton _)
  have hlines := KeepsOpen.lines (fun line (_ : line ∈ lines) => keepsOpen_shownLine hindent line)
    (hlast.prepend hindented)
  have hmark : KeepsOpen ('/' :: '*' :: '*' :: '\n' :: _) :=
    .cons_cons (by decide) (.cons_cons (by decide) (.cons_cons (by decide) hlines.feed))
  rw [List.append_assoc]
  exact hmark.prepend hindented

/-- **A comment shows its documentation**, and is closed by its last line only. -/
theorem isCommentOn_comment (doc : Option String) : IsCommentOn doc indent (commentChars doc indent) := by
  cases doc with
  | none => exact ⟨by simp [commentChars], fun h => absurd rfl h, by simp [commentChars], fun h => absurd rfl h⟩
  | some d =>
    by_cases hnil : trim d.toList = []
    · have hnone : commentChars (some d) indent = [] := by simp [commentChars, hnil]
      rw [hnone]
      exact ⟨by simpa using trim_eq_nil_iff.1 hnil, fun h => absurd rfl h, by simp, fun h => absurd rfl h⟩
    have hpiece : ∀ mark : List Char, '\n' ∉ mark → split (· == '\n') (indent ++ mark) = [indent ++ mark] :=
      fun mark hmark => split_eq_singleton fun c hc => by
        rcases List.mem_append.1 hc with hc | hc
        · rw [hindent c hc]
          decide
        · exact beq_eq_false_iff_ne.2 fun h => hmark (h ▸ hc)
    rw [commentChars_eq hnil]
    refine ⟨?_, fun _ => ⟨'\n' :: ((split (· == '\n') (trim d.toList)).flatMap (shownLine indent · ++ ['\n']) ++
      (indent ++ " ".toList)), by simp⟩, fun before after h => ?_, ?_⟩
    · simpa using mt trim_eq_nil_iff.2 hnil
    · have hopen := keepsOpen_comment hindent (split (· == '\n') (trim d.toList))
      exact KeepsOpen.closed hopen (by simpa using h)
    · rintro - _ ⟨⟩
      have hclose : indent ++ " */\n".toList = (indent ++ " */".toList) ++ '\n' :: [] := by simp
      rw [split_append_cons rfl, hpiece _ (by decide), split_flatMap_concat rfl _
        fun line hline => not_feed_of_mem_shownLine hindent hline, hclose, split_append_cons rfl, hpiece _ (by decide)]
      rfl

end Comment

/-- The documentation of a declaration. -/
def Declaration.doc : Declaration → Option String
  | .function f => f.doc
  | .interface i => i.doc
  | .alias a => a.doc
  | .enumeration e => e.doc

/-- The declaration without its documentation. -/
def Declaration.bare : Declaration → Declaration
  | .function f => .function { f with doc := none }
  | .interface i => .interface { i with doc := none }
  | .alias a => .alias { a with doc := none }
  | .enumeration e => .enumeration { e with doc := none }

/-- **Documentation does not leave its comment.** Every declaration, and every member of an interface, is
written as a comment on its documentation and then as it is written without. The comment is empty if there is
nothing to say; else it is one block from `/**` to the `*/` of its last line, which is the only one, and the lines
between show those of the trimmed documentation in their order. -/
theorem text_commented :
    (∀ d : Declaration, d.text = comment d.doc "" ++ d.bare.text ∧ IsCommentOn d.doc [] (comment d.doc "").toList) ∧
    ∀ p : Property, p.declared = comment p.doc indentation ++ { p with doc := none : Property }.declared ∧
      IsCommentOn p.doc indentation.toList (comment p.doc indentation).toList := by
  have hcomment : ∀ (doc : Option String) {indent : String}, (∀ c ∈ indent.toList, c = ' ') →
      IsCommentOn doc indent.toList (comment doc indent).toList := fun doc indent hindent => by
    rw [comment, String.toList_ofList]
    exact isCommentOn_comment hindent doc
  have hnone : ∀ indent : String, comment none indent = "" := fun _ => rfl
  have hplain : ∀ doc, IsCommentOn doc "".toList (comment doc "").toList := fun doc => hcomment doc (by simp)
  refine ⟨fun d => ⟨?_, hplain d.doc⟩, fun p => ⟨?_, hcomment p.doc (by simp [indentation])⟩⟩
  · cases d <;> simp [Declaration.text, Declaration.doc, Declaration.bare, Function.text, Interface.text, Alias.text,
      Enumeration.text, hnone, String.append_assoc]
  · simp [PropertyOf.declared, hnone, String.append_assoc, PropertyOf.line]

end TypeScript
end OpenApiClient
