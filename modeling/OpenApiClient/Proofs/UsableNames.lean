/-
# Usable names

What makes identifiers of texts should always make one, and leave identifiers alone. It does leave them
alone. What `sanitize` and `simpleName` make of other texts is never empty and has only characters of
identifiers, so that only its first character can be wrong: a digit that does not stand first in the text,
or a numeric character outside of the ASCII range (`sanitize_simpleName_usable`).

The name of a parameter never has a wrong first character, but camel case may bring a combining mark into
it. Which letters get one is decided by the words of the text, whatever divides them
(`unmarkedCamel_sanitize`), so that `parameterName_usable` says of which texts an identifier is made.
-/

import OpenApiClient.Proofs.CaseForms
import OpenApiClient.Proofs.Enumerations
import OpenApiClient.Proofs.WrittenNames

namespace OpenApiClient

namespace Text

/-- Cutting at some separators first, and then at all, is cutting at all. -/
theorem split_eq_flatMap_split {α : Type} {p q : α → Bool} (hpq : ∀ c, q c = true → p c = true)
    (cs : List α) : split p cs = (split q cs).flatMap (split p) := by
  induction cs with
  | nil => rfl
  | cons c cs ih =>
    obtain ⟨piece, rest, hsplit⟩ := List.exists_cons_of_ne_nil (split_ne_nil q cs)
    obtain ⟨first, others, hfirst⟩ := List.exists_cons_of_ne_nil (split_ne_nil p piece)
    rw [hsplit, List.flatMap_cons, hfirst] at ih
    rw [split, ih, split, hsplit]
    cases hq : q c with
    | true => simp [hpq c hq, hfirst, split]
    | false => cases hp : p c <;> simp [split, hp, hfirst]

/-- An underscore is in no word. -/
theorem words_append_underscore (a b : List Char) : words (a ++ '_' :: b) = words a ++ words b := by
  have hsep : isAlphanumeric '_' = false := by decide
  rw [words, split_append_cons (by simp [hsep]), List.flatMap_append]
  rfl

end Text

namespace TypeScript

open Text

/-- **The words of a text** are those of its parts. -/
theorem words_eq_flatMap_parts (cs : List Char) : words cs = (parts cs).flatMap words := by
  have hfiner : ∀ c, (!isPart c) = true → (!isAlphanumeric c) = true := fun c hc => by
    simp_all [isPart]
  have hempty : ∀ pieces : List (List Char),
      (pieces.filter (!·.isEmpty)).flatMap words = pieces.flatMap words := fun pieces => by
    induction pieces with
    | nil => rfl
    | cons piece pieces ih => cases piece <;> simp [ih, words, split, cut]
  rw [parts, segments, hempty, words, split_eq_flatMap_split hfiner, List.flatMap_assoc]
  rfl

theorem words_intercalate (pieces : List (List Char)) :
    words (['_'].intercalate pieces) = pieces.flatMap words := by
  cases pieces with
  | nil => rfl
  | cons piece pieces =>
    rw [intercalate_cons, List.flatMap_cons]
    induction pieces generalizing piece with
    | nil => simp
    | cons next pieces ih =>
      rw [List.flatMap_cons, List.singleton_append, List.cons_append, words_append_underscore, ih,
        List.flatMap_cons]

/-- **Making an identifier of a text changes no mark**: it keeps the words, and gives one to a text
without any. -/
theorem unmarkedCamel_sanitize (text : String) :
    UnmarkedCamel (words (sanitize text).toList) ↔ UnmarkedCamel (words text.toList) := by
  rw [toList_sanitize, spelled, words_eq_flatMap_parts text.toList]
  split
  · next hparts =>
    have hunnamed : (camel "unnamed".toList).all isPart = true := by decide
    have hkept : UnmarkedCamel (words "unnamed".toList) := (all_camel _).1 hunnamed
    rw [hparts]
    exact iff_of_true hkept trivial
  · rw [← words_intercalate]
    split
    · rw [List.singleton_append, ← List.nil_append ('_' :: _), words_append_underscore]
      rfl
    · rw [List.nil_append]

/-- **The name of a parameter** is the text itself if that is an identifier. It is an identifier exactly
if the text is one, or if no letter gets a combining mark in camel case. -/
theorem parameterName_usable (text : String) :
    (isIdentifier text = true → parameterName text = text) ∧
      (isIdentifier (parameterName text) = true ↔
        isIdentifier text = true ∨ UnmarkedCamel (words text.toList)) := by
  refine ⟨fun h => by rw [parameterName, if_pos h], ?_⟩
  rw [isIdentifier_parameterName, NamesParameter, all_camel, ← unmarkedCamel_sanitize text, sanitize,
    String.toList_ofList]

/-- **A text of which no name of a parameter is made**: the small form of its first letter has a
combining mark, and an underscore in front does not help. -/
theorem not_parameterName_usable :
    ¬ ∀ text : String, isIdentifier (parameterName text) = true ∧
      (isIdentifier text = true → parameterName text = text) := fun h =>
  absurd (h "İlçe kodu").1 (by decide +kernel)

/-- A name made of a text: there is one, and it has only characters of identifiers, so that it is an
identifier exactly if it starts as one. -/
structure IsMadeFrom (text name : String) : Prop where
  ne_empty : name ≠ ""
  parts : name.toList.all isPart = true
  identifier : isIdentifier name = true ↔ StartsName text

theorem isMadeFrom_sanitize (text : String) : IsMadeFrom text (sanitize text) := by
  have hchars : (sanitize text).toList ≠ [] ∧ (sanitize text).toList.all isPart = true := by
    rw [toList_sanitize, spelled]
    split
    · decide
    · next hparts =>
      have hbody : joinParts false false text.toList ≠ [] := fun h =>
        hparts ((parts_eq_nil_iff _).2 h)
      rw [← joinParts_eq _ false, List.all_append, all_joinParts, Bool.and_true]
      constructor
      · simp [hbody]
      · split <;> simp [isPart_underscore]
  refine ⟨fun hempty => hchars.1 ?_, hchars.2, isIdentifier_sanitize text⟩
  rw [hempty]
  rfl

theorem sanitize_of_isIdentifier {text : String} (h : isIdentifier text = true) :
    sanitize text = text := by
  rw [← String.toList_inj, toList_sanitize, spelled_of_isIdentifier h]

end TypeScript

namespace Naming

open Text TypeScript

/-- An identifier without a dollar sign is one segment. -/
theorem lastSegment_of_isIdentifier {text : String} (h : isIdentifier text = true)
    (hdollar : '$' ∉ text.toList) : lastSegment text = text := by
  obtain ⟨⟨c, hhead, -⟩, hall⟩ := identifierChars_iff.1 h
  have hdot : isPart '.' = false := by decide
  have hplain : ∀ c ∈ text.toList, isQualifier c = false := fun c hc => by
    have hpart : isPart c = true := List.all_eq_true.1 hall c hc
    have hdot : c ≠ '.' := fun he => Bool.false_ne_true (hdot.symm.trans (he ▸ hpart))
    have hdollar : c ≠ '$' := fun he => hdollar (he ▸ hc)
    simp [isQualifier, hdot, hdollar]
  have hne : text.toList ≠ [] := fun hnil => by simp [hnil] at hhead
  simp [lastSegment, segmentsOf, segments, split_eq_singleton hplain, hne]

/-- **What is made of a text**, and of the last segment of a qualified name, has only characters of
identifiers, and is an identifier exactly if that of which it is made starts as one. What is an identifier
already stays as it is, if there is no segment to cut off. -/
theorem sanitize_simpleName_usable (text : String) :
    (IsMadeFrom text (sanitize text) ∧ (isIdentifier text = true → sanitize text = text)) ∧
      IsMadeFrom (lastSegment text) (simpleName text) ∧
        (isIdentifier text = true → '$' ∉ text.toList → simpleName text = text) := by
  refine ⟨⟨isMadeFrom_sanitize text, sanitize_of_isIdentifier⟩, isMadeFrom_sanitize _, ?_⟩
  intro h hdollar
  have hsegment := lastSegment_of_isIdentifier h hdollar
  rw [lastSegment] at hsegment
  rw [simpleName, hsegment, sanitize_of_isIdentifier h]

/-- **A text of which no identifier is made**: the digit stands after a separator. -/
theorem not_sanitize_simpleName_usable :
    ¬ ∀ text : String,
      (isIdentifier (sanitize text) = true ∧ (isIdentifier text = true → sanitize text = text)) ∧
        isIdentifier (simpleName text) = true ∧
          (isIdentifier text = true → '$' ∉ text.toList → simpleName text = text) := fun h =>
  absurd (h "-1abc").1.1 (by decide +kernel)

end Naming
end OpenApiClient
