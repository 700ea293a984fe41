/-
# Case forms in identifiers

To write a word in small letters, or with a capital first letter, does not only exchange letters: a case
form may take several characters, and no identifier holds a combining mark. The tables say where there
is one. The images of the case runs lie in intervals of letters (`givesLetters_smallRuns`), so that only
the sequences are left, and of these the ones of `markedWhenSmall` and `markedWhenCapital` (`all_caseForm`).

Words in camel case have therefore only characters of identifiers exactly if no such letter stands where
its case is changed (`all_camel`).
-/

import OpenApiClient.Proofs.GivenNames

namespace OpenApiClient
namespace Text

open TypeScript

section Tables

theorem toNat_ofNat {n : Nat} (h : n.isValidChar) : (Char.ofNat n).toNat = n := by
  rw [Char.ofNat, dif_pos h]
  rfl

/-- **A table of intervals holds a character** exactly if one of them does. -/
theorem holds_ofIntervals_iff {intervals : List (Nat × Nat)} {n : Nat} (h : n.isValidChar) :
    (Runs.ofIntervals intervals).holds (Char.ofNat n) = true ↔ ∃ i ∈ intervals, i.1 ≤ n ∧ n ≤ i.2 := by
  simp [Runs.holds, Runs.ofIntervals, Run.holds, toNat_ofNat h, Nat.mod_one]

/-- Whether all code points of an interval are letters, by one of the intervals that letters lie in. -/
def areLetters (first last : Nat) : Bool :=
  alphabeticIntervals.any fun i => i.1.ble first && last.ble i.2

/-- **The code points of an interval of letters are letters.** -/
theorem isAlphabetic_of_areLetters {first last n : Nat} (h : areLetters first last = true)
    (hfirst : first ≤ n) (hlast : n ≤ last) : isAlphabetic (Char.ofNat n) = true := by
  have hvalid : ∀ i ∈ alphabeticIntervals, i.2 < 0xD800 ∨ 0xDFFF < i.1 ∧ i.2 < 0x110000 := by
    decide +kernel
  have hascii : ∀ i ∈ alphabeticIntervals, i = (0x41, 0x5A) ∨ i = (0x61, 0x7A) ∨ 128 ≤ i.1 := by
    decide +kernel
  have halpha : ∀ n < 128, (0x41 ≤ n ∧ n ≤ 0x5A) ∨ (0x61 ≤ n ∧ n ≤ 0x7A) →
      (Char.ofNat n).isAlpha = true := by decide +kernel
  obtain ⟨i, hi, hbounds⟩ := List.any_eq_true.1 h
  simp only [Bool.and_eq_true, Nat.ble_eq] at hbounds
  have hn : n.isValidChar := (hvalid i hi).imp (fun h => by omega) fun h => by omega
  unfold isAlphabetic isAscii
  rw [toNat_ofNat hn]
  split
  · next hsmall =>
    have hsmall : n < 128 := of_decide_eq_true hsmall
    rcases hascii i hi with rfl | rfl | hi
    · exact halpha n hsmall (.inl (by omega))
    · exact halpha n hsmall (.inr (by omega))
    · omega
  · exact (holds_ofIntervals_iff hn).2 ⟨i, hi, by omega⟩

theorem isPart_of_isAlphabetic {c : Char} (h : isAlphabetic c = true) : isPart c = true := by
  simp [isPart, isAlphanumeric_of_isAlphabetic h]

/-- Whether a code point lies among the combining marks that case forms are written with. -/
def IsMark (n : Nat) : Prop := 0x300 ≤ n ∧ n ≤ 0x344

instance : DecidablePred IsMark := fun n => inferInstanceAs (Decidable (0x300 ≤ n ∧ n ≤ 0x344))

/-- **No identifier holds a combining mark.** -/
theorem isPart_of_isMark {n : Nat} (h : IsMark n) : isPart (Char.ofNat n) = false := by
  obtain ⟨hfirst, hlast⟩ := h
  have hn : n.isValidChar := .inl (by omega)
  have hgap : ∀ i ∈ alphabeticIntervals ++ numericIntervals, i.2 < 0x300 ∨ 0x344 < i.1 := by
    decide +kernel
  have hletter : ¬ alphabetic.holds (Char.ofNat n) = true := fun hholds => by
    obtain ⟨i, hi, hbounds⟩ := (holds_ofIntervals_iff hn).1 hholds
    have := hgap i (List.mem_append_left _ hi)
    omega
  have hnumber : ¬ numeric.holds (Char.ofNat n) = true := fun hholds => by
    obtain ⟨i, hi, hbounds⟩ := (holds_ofIntervals_iff hn).1 hholds
    have := hgap i (List.mem_append_right _ hi)
    omega
  have hascii : isAscii (Char.ofNat n) = false := by
    rw [isAscii, toNat_ofNat hn, decide_eq_false_iff_not]
    omega
  have hne : ∀ d : Char, d.toNat < 128 → Char.ofNat n ≠ d := fun d hd he => by
    rw [← he, toNat_ofNat hn] at hd
    omega
  simp [isPart, isAlphanumeric, isAlphabetic, isNumeric, hascii, hletter, hnumber, hne '_', hne '$']

/-- The images of a case run are letters. -/
def CaseRun.GivesLetters (r : CaseRun) : Prop :=
  ∀ n, r.run.holds n = true → isAlphabetic (Char.ofNat (r.image + (n - r.run.first))) = true

theorem CaseRun.givesLetters_of_areLetters {r : CaseRun}
    (h : areLetters r.image (r.image + (r.run.last - r.run.first)) = true) : r.GivesLetters := by
  intro n hn
  simp only [Run.holds, Bool.and_eq_true, decide_eq_true_eq] at hn
  exact isAlphabetic_of_areLetters h (by omega) (by omega)

theorem givesLetters_smallRuns : ∀ r ∈ smallRuns, r.GivesLetters := by
  have hletters : ∀ r ∈ smallRuns,
      areLetters r.image (r.image + (r.run.last - r.run.first)) = true := by decide +kernel
  exact fun r hr => CaseRun.givesLetters_of_areLetters (hletters r hr)

/-- Between the capitals of one run there are code points that are not assigned. -/
theorem givesLetters_capitalRuns : ∀ r ∈ capitalRuns, r.GivesLetters := by
  have hletters : ∀ r ∈ capitalRuns,
      areLetters r.image (r.image + (r.run.last - r.run.first)) = true ∨
        r = ⟨⟨0x1F51, 0x1F57, 2⟩, 0x1F59⟩ := by decide +kernel
  intro r hr
  rcases hletters r hr with h | rfl
  · exact CaseRun.givesLetters_of_areLetters h
  · intro n hn
    have heach : ∀ n ∈ [0x1F51, 0x1F53, 0x1F55, 0x1F57],
        areLetters (0x1F59 + (n - 0x1F51)) (0x1F59 + (n - 0x1F51)) = true := by decide +kernel
    simp only [Run.holds, Bool.and_eq_true, decide_eq_true_eq, beq_iff_eq] at hn
    exact isAlphabetic_of_areLetters (heach n (by simp; omega)) (Nat.le_refl _) (Nat.le_refl _)

end Tables

section Forms

/-- The letters whose small form has a combining mark: only `İ`. -/
def markedWhenSmall : List Nat := [0x130]

/-- The letters whose capital form has a combining mark, such as `ǰ`. -/
def markedWhenCapital : List Nat := [
  0x1F0, 0x390, 0x3B0, 0x1E96, 0x1E97, 0x1E98, 0x1E99, 0x1F50, 0x1F52, 0x1F54, 0x1F56, 0x1FB6, 0x1FB7,
  0x1FC6, 0x1FC7, 0x1FD2, 0x1FD3, 0x1FD6, 0x1FD7, 0x1FE2, 0x1FE3, 0x1FE4, 0x1FE6, 0x1FE7, 0x1FF6, 0x1FF7]

/-- The sequences of a table have a combining mark for these letters, and for all others only letters. -/
structure Marks (marked : List Nat) (sequences : List (Nat × List Nat)) : Prop where
  found : ∀ n ∈ marked, (sequences.lookup n).isSome = true
  mark : ∀ e ∈ sequences, e.1 ∈ marked → ∃ n ∈ e.2, IsMark n
  letters : ∀ e ∈ sequences, e.1 ∈ marked ∨ ∀ n ∈ e.2, areLetters n n = true

theorem marks_small : Marks markedWhenSmall smallSequences :=
  ⟨by decide +kernel, by decide +kernel, by decide +kernel⟩

theorem marks_capital : Marks markedWhenCapital capitalSequences :=
  ⟨by decide +kernel, by decide +kernel, by decide +kernel⟩

/-- **A case form has only characters of identifiers** exactly if it is written without a mark. -/
theorem all_caseForm {marked : List Nat} {sequences : List (Nat × List Nat)} {runs : List CaseRun}
    (hmarks : Marks marked sequences) (hruns : ∀ r ∈ runs, r.GivesLetters) {c : Char}
    (hc : isPart c = true) :
    (caseForm sequences runs c).all isPart = true ↔ c.toNat ∉ marked := by
  rw [caseForm]
  cases hlookup : sequences.lookup c.toNat with
  | some ns =>
    obtain ⟨l₁, l₂, heq, -⟩ := List.lookup_eq_some_iff.1 hlookup
    have hmem : (c.toNat, ns) ∈ sequences := by simp [heq]
    simp only [List.all_map, List.all_eq_true, Function.comp_apply]
    constructor
    · intro hall hmarked
      obtain ⟨n, hn, hmark⟩ := hmarks.mark _ hmem hmarked
      exact Bool.false_ne_true ((isPart_of_isMark hmark).symm.trans (hall n hn))
    · intro hmarked n hn
      have hletter := (hmarks.letters _ hmem).resolve_left hmarked n hn
      exact isPart_of_isAlphabetic
        (isAlphabetic_of_areLetters hletter (Nat.le_refl n) (Nat.le_refl n))
  | none =>
    have hunmarked : c.toNat ∉ marked := fun hmarked => by
      simpa [hlookup] using hmarks.found _ hmarked
    simp only [List.all_cons, List.all_nil, Bool.and_true, hunmarked, not_false_eq_true, iff_true]
    cases himage : CaseRun.image? runs c.toNat with
    | none => rwa [Option.getD_none, Char.ofNat_toNat]
    | some m =>
      obtain ⟨r, hfind, rfl⟩ := Option.map_eq_some_iff.1 himage
      have hholds : r.run.holds c.toNat = true := by simpa using List.find?_some hfind
      exact isPart_of_isAlphabetic (hruns r (List.mem_of_find?_eq_some hfind) _ hholds)

/-- In the ASCII range, the case forms are single letters. -/
theorem isPart_toLower_toUpper {c : Char} (hascii : isAscii c = true) (hc : isPart c = true) :
    isPart c.toLower = true ∧ isPart c.toUpper = true := by
  have hall : ∀ n < 128, isPart (Char.ofNat n) = true →
      isPart (Char.ofNat n).toLower = true ∧ isPart (Char.ofNat n).toUpper = true := by decide +kernel
  have h := hall c.toNat (of_decide_eq_true hascii)
  rw [Char.ofNat_toNat] at h
  exact h hc

theorem not_mem_of_isAscii (marked : List Nat) (hmarked : ∀ n ∈ marked, 128 ≤ n) {c : Char}
    (hc : isAscii c = true) : c.toNat ∉ marked := fun hmem =>
  absurd (of_decide_eq_true hc) (Nat.not_lt.2 (hmarked _ hmem))

theorem all_small {c : Char} (hc : isPart c = true) :
    (small c).all isPart = true ↔ c.toNat ∉ markedWhenSmall := by
  unfold small
  split
  · next hascii =>
    have hunmarked := not_mem_of_isAscii markedWhenSmall (by decide) hascii
    simp [(isPart_toLower_toUpper hascii hc).1, hunmarked]
  · exact all_caseForm marks_small givesLetters_smallRuns hc

theorem all_capital {c : Char} (hc : isPart c = true) :
    (capital c).all isPart = true ↔ c.toNat ∉ markedWhenCapital := by
  unfold capital
  split
  · next hascii =>
    have hunmarked := not_mem_of_isAscii markedWhenCapital (by decide) hascii
    simp [(isPart_toLower_toUpper hascii hc).2, hunmarked]
  · exact all_caseForm marks_capital givesLetters_capitalRuns hc

end Forms

section Camel

/-- No letter gets a mark when the word is written in small letters. -/
def UnmarkedSmall (word : List Char) : Prop := ∀ c ∈ word, c.toNat ∉ markedWhenSmall

/-- No letter gets a mark when the word is written with a capital first letter. -/
def UnmarkedTitle : List Char → Prop
  | [] => True
  | c :: cs => c.toNat ∉ markedWhenCapital ∧ UnmarkedSmall cs

/-- No letter gets a mark when the words are written in camel case. -/
def UnmarkedCamel : List (List Char) → Prop
  | [] => True
  | w :: ws => UnmarkedSmall w ∧ ∀ v ∈ ws, UnmarkedTitle v

theorem all_smallWord {word : List Char} (h : word.all isPart = true) :
    (smallWord word).all isPart = true ↔ UnmarkedSmall word := by
  fun_induction smallWord word with
  | case1 => simp [UnmarkedSmall]
  | case2 =>
    have hfinal : isPart 'ς' = true := by decide +kernel
    simp [UnmarkedSmall, hfinal, markedWhenSmall]
  | case3 c cs _ ih =>
    rw [List.all_cons, Bool.and_eq_true] at h
    rw [List.all_append, Bool.and_eq_true, all_small h.1, ih h.2]
    simp [UnmarkedSmall]

theorem all_titleWord {word : List Char} (h : word.all isPart = true) :
    (titleWord word).all isPart = true ↔ UnmarkedTitle word := by
  cases word with
  | nil => simp [titleWord, UnmarkedTitle]
  | cons c cs =>
    rw [List.all_cons, Bool.and_eq_true] at h
    rw [titleWord, List.all_append, Bool.and_eq_true, all_capital h.1, all_smallWord h.2,
      UnmarkedTitle]

/-- Cutting a piece does not change its characters. -/
theorem mem_of_mem_cut {k : Casing} {word cs w : List Char} (hw : w ∈ cut k word cs) {c : Char}
    (hc : c ∈ w) : c ∈ word ∨ c ∈ cs := by
  fun_induction cut k word cs with
  | case1 => cases hw
  | case2 k word d =>
    obtain rfl := List.mem_singleton.1 hw
    simpa [or_comm] using hc
  | case3 k word d e rest _ ih =>
    rcases List.mem_cons.1 hw with rfl | hw
    · simp only [List.mem_reverse, List.mem_cons] at hc ⊢
      rcases hc with h | h <;> simp [h]
    · exact .inr (List.mem_cons_of_mem d ((ih hw).resolve_left List.not_mem_nil))
  | case4 k word d e rest _ _ ih =>
    rcases List.mem_cons.1 hw with rfl | hw
    · exact .inl (List.mem_reverse.1 hc)
    · rcases ih hw with h | h
      · exact .inr (List.mem_cons.2 (.inl (List.mem_singleton.1 h)))
      · exact .inr (List.mem_cons_of_mem d h)
  | case5 k word d e rest _ _ ih =>
    rcases ih hw with h | h
    · rcases List.mem_cons.1 h with rfl | h
      · exact .inr List.mem_cons_self
      · exact .inl h
    · exact .inr (List.mem_cons_of_mem d h)

/-- Words have only characters of identifiers. -/
theorem all_of_mem_words {cs word : List Char} (h : word ∈ words cs) : word.all isPart = true := by
  obtain ⟨piece, hpiece, hword⟩ := List.mem_flatMap.1 h
  refine List.all_eq_true.2 fun c hc => ?_
  have hmem : c ∈ piece := (mem_of_mem_cut hword hc).resolve_left List.not_mem_nil
  have halpha : isAlphanumeric c = true := by simpa using not_of_mem_split hpiece c hmem
  simp [isPart, halpha]

/-- **Camel case has only characters of identifiers** exactly if no letter of the words gets a mark. -/
theorem all_camel (cs : List Char) : (camel cs).all isPart = true ↔ UnmarkedCamel (words cs) := by
  have hwords : ∀ w ∈ words cs, w.all isPart = true := fun w => all_of_mem_words
  rw [camel]
  generalize words cs = ws at hwords
  cases ws with
  | nil => simp [UnmarkedCamel]
  | cons w ws =>
    obtain ⟨hw, hws⟩ := List.forall_mem_cons.1 hwords
    have htitles : (ws.flatMap titleWord).all isPart = true ↔ ∀ v ∈ ws, UnmarkedTitle v := by
      rw [List.all_flatMap, List.all_eq_true]
      exact forall₂_congr fun v hv => all_titleWord (hws v hv)
    rw [List.all_append, Bool.and_eq_true, all_smallWord hw, htitles, UnmarkedCamel]

end Camel

end Text
end OpenApiClient
