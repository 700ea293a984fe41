/-
# Splitting and replacing

Text is cut at the characters with a property, or at its first one; a pair of characters is
replaced from left to right without overlap. The functions work on lists; the wrappers at the end
take and give strings.

`intercalate_split` says that nothing is lost: the pieces joined by the separator are the text.
-/

namespace OpenApiClient
namespace Text

/-- The pieces between the elements with property `p`; always at least one. -/
def split {α : Type} (p : α → Bool) : List α → List (List α)
  | [] => [[]]
  | c :: cs =>
    if p c then [] :: split p cs
    else match split p cs with
      | [] => [[c]]
      | w :: ws => (c :: w) :: ws

/-- The non-empty pieces between the elements with property `p`. -/
def segments {α : Type} (p : α → Bool) (cs : List α) : List (List α) :=
  (split p cs).filter (!·.isEmpty)

/-- The parts before and after the first element with property `p`. -/
def splitFirst? {α : Type} (p : α → Bool) : List α → Option (List α × List α)
  | [] => none
  | c :: cs => if p c then some ([], cs) else (splitFirst? p cs).map fun (a, b) => (c :: a, b)

/-- Every occurrence of `a` followed by `b` replaced, from left to right. -/
def replacePair {α : Type} [DecidableEq α] (a b : α) (by' : List α) : List α → List α
  | [] => []
  | [x] => [x]
  | x :: y :: r =>
    if x = a ∧ y = b then by' ++ replacePair a b by' r else x :: replacePair a b by' (y :: r)

theorem split_ne_nil {α : Type} (p : α → Bool) (cs : List α) : split p cs ≠ [] := by
  cases cs with
  | nil => simp [split]
  | cons c cs =>
    rw [split]
    split
    · simp
    · split <;> simp

/-- Nothing is lost: the pieces joined by the separator are the text. -/
theorem intercalate_split [DecidableEq α] (s : α) (cs : List α) :
    List.intercalate [s] (split (· == s) cs) = cs := by
  induction cs with
  | nil => rfl
  | cons c cs ih =>
    rw [split]
    have hne := split_ne_nil (· == s) cs
    generalize split (· == s) cs = ws at ih hne ⊢
    cases ws with
    | nil => exact absurd rfl hne
    | cons w ws =>
      by_cases hc : c = s
      · subst hc; simp [List.intercalate] at ih ⊢
        exact ih
      · cases ws with
        | nil => simp [hc, List.intercalate, List.intersperse] at ih ⊢; exact ih
        | cons v vs => simp [hc, List.intercalate, List.intersperse] at ih ⊢; exact ih

/-- No piece holds a separator. -/
theorem not_of_mem_split {α : Type} {p : α → Bool} {cs w : List α} (hw : w ∈ split p cs) :
    ∀ c ∈ w, p c = false := by
  induction cs generalizing w with
  | nil => simp [split] at hw; simp [hw]
  | cons c cs ih =>
    rw [split] at hw
    split at hw
    · rcases List.mem_cons.1 hw with rfl | hw
      · simp
      · exact ih hw
    · rename_i hc
      split at hw
      · next h => exact absurd h (split_ne_nil p cs)
      · next v vs h =>
        rcases List.mem_cons.1 hw with rfl | hw
        · intro d hd
          rcases List.mem_cons.1 hd with rfl | hd
          · simpa using hc
          · exact ih (by rw [h]; exact List.mem_cons_self) d hd
        · exact ih (by rw [h]; exact List.mem_cons_of_mem _ hw)

/-- Each element that is no separator is in a piece. -/
theorem mem_split_of_mem {α : Type} (p : α → Bool) {c : α} {cs : List α} (h : c ∈ cs) :
    p c = true ∨ ∃ w ∈ split p cs, c ∈ w := by
  induction cs with
  | nil => cases h
  | cons d cs ih =>
    rw [split]
    split
    · next hd =>
      rcases List.mem_cons.1 h with rfl | h
      · exact .inl hd
      · exact (ih h).imp_right fun ⟨w, hw, hc⟩ => ⟨w, List.mem_cons_of_mem _ hw, hc⟩
    · split
      · next hs => exact absurd hs (split_ne_nil p cs)
      · next w ws hs =>
        rcases List.mem_cons.1 h with rfl | h
        · exact .inr ⟨_, List.mem_cons_self, List.mem_cons_self⟩
        · refine (ih h).imp_right fun ⟨v, hv, hc⟩ => ?_
          rw [hs] at hv
          rcases List.mem_cons.1 hv with rfl | hv
          · exact ⟨_, List.mem_cons_self, List.mem_cons_of_mem _ hc⟩
          · exact ⟨v, List.mem_cons_of_mem _ hv, hc⟩

theorem split_append_cons {α : Type} {p : α → Bool} {c : α} (hc : p c = true) (a b : List α) :
    split p (a ++ c :: b) = split p a ++ split p b := by
  induction a with
  | nil => simp [split, hc]
  | cons d a ih =>
    rw [List.cons_append, split, split, ih]
    cases hs : split p a with
    | nil => exact absurd hs (split_ne_nil p a)
    | cons w ws => split <;> rfl

theorem split_eq_singleton {α : Type} {p : α → Bool} {cs : List α} (h : ∀ c ∈ cs, p c = false) :
    split p cs = [cs] := by
  induction cs with
  | nil => rfl
  | cons c cs ih => simp [split, h c, ih fun d hd => h d (List.mem_cons_of_mem _ hd)]

theorem splitFirst?_append_cons {α : Type} {f : α → Bool} {as bs : List α} {b : α}
    (has : ∀ a ∈ as, f a = false) (hb : f b = true) :
    splitFirst? f (as ++ b :: bs) = some (as, bs) := by
  induction as with
  | nil => rw [List.nil_append, splitFirst?, if_pos hb]
  | cons a as ih =>
    have ha := has a List.mem_cons_self
    rw [List.cons_append, splitFirst?, ha, ih fun x hx => has x (List.mem_cons_of_mem _ hx)]
    rfl

/-- What a text is cut into at its first separator. -/
theorem of_splitFirst?_eq_some {α : Type} {f : α → Bool} {cs as bs : List α}
    (h : splitFirst? f cs = some (as, bs)) :
    ∃ b, cs = as ++ b :: bs ∧ f b = true ∧ ∀ a ∈ as, f a = false := by
  induction cs generalizing as with
  | nil => cases h
  | cons c cs ih =>
    rw [splitFirst?] at h
    split at h
    · next hc =>
      obtain ⟨rfl, rfl⟩ := Prod.mk.inj (Option.some.inj h)
      exact ⟨c, rfl, hc, nofun⟩
    · next hc =>
      obtain ⟨⟨as', bs'⟩, hsplit, heq⟩ := Option.map_eq_some_iff.1 h
      obtain ⟨rfl, rfl⟩ := Prod.mk.inj heq
      obtain ⟨b, rfl, hb, has⟩ := ih hsplit
      exact ⟨b, rfl, hb, List.forall_mem_cons.2 ⟨by simpa using hc, has⟩⟩

section Replace

variable {α : Type} [DecidableEq α] {a b x y : α} {w xs : List α}

theorem replacePair_pair : replacePair a b w (a :: b :: xs) = w ++ replacePair a b w xs := by
  rw [replacePair, if_pos ⟨rfl, rfl⟩]

theorem replacePair_cons_cons_of_ne (h : y ≠ b) :
    replacePair a b w (x :: y :: xs) = x :: replacePair a b w (y :: xs) := by
  rw [replacePair, if_neg fun hxy => h hxy.2]

theorem replacePair_cons_of_ne (h : x ≠ a) :
    replacePair a b w (x :: xs) = x :: replacePair a b w xs := by
  cases xs with
  | nil => rfl
  | cons y ys => rw [replacePair, if_neg fun hxy => h hxy.1]

end Replace

/-- The pieces of a string between the characters with property `p`. -/
def pieces (p : Char → Bool) (s : String) : List String := (split p s.toList).map String.ofList

/-- The non-empty pieces of a string between the characters with property `p`. -/
def segmentsOf (p : Char → Bool) (s : String) : List String :=
  (segments p s.toList).map String.ofList

/-- The parts of a string before and after its first `c`. -/
def cutFirst? (c : Char) (s : String) : Option (String × String) :=
  (splitFirst? (· == c) s.toList).map fun (a, b) => (.ofList a, .ofList b)

/-- What follows `start` in a string that starts with it. -/
def dropStart? (start s : String) : Option String :=
  (start.toList.isPrefixOf? s.toList).map String.ofList

theorem dropStart?_of_append {start s : String} {rest : List Char} (h : start.toList ++ rest = s.toList) :
    dropStart? start s = some (.ofList rest) := by
  have happend : ∀ cs : List Char, cs.isPrefixOf? (cs ++ rest) = some rest := fun cs => by
    induction cs with
    | nil => rfl
    | cons c cs ih =>
      change (if c == c then cs.isPrefixOf? (cs ++ rest) else none) = some rest
      rw [beq_self_eq_true, if_pos rfl, ih]
  rw [dropStart?, ← h, happend, Option.map_some]

/-- What precedes `tail` in a string that ends with it. -/
def dropEnd? (tail s : String) : Option String :=
  (tail.toList.isSuffixOf? s.toList).map String.ofList

/-- Whether a string starts with `start`. -/
def startsWith (start s : String) : Bool := start.toList.isPrefixOf s.toList

/-- Whether a string ends with `tail`. -/
def endsWith (tail s : String) : Bool := tail.toList.isSuffixOf s.toList

/-- A string with every occurrence of the two characters replaced. -/
def replacePairIn (a b : Char) (by' s : String) : String :=
  .ofList (replacePair a b by'.toList s.toList)

/-- A string with every occurrence of the character replaced. -/
def replaceCharIn (a : Char) (by' s : String) : String :=
  .ofList (s.toList.flatMap fun c => if c = a then by'.toList else [c])

theorem toList_replaceCharIn (a : Char) (by' s : String) :
    (replaceCharIn a by' s).toList = s.toList.flatMap fun c => if c = a then by'.toList else [c] := by
  rw [replaceCharIn, String.toList_ofList]

end Text
end OpenApiClient
