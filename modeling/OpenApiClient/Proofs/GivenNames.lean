/-
# Names that are given

A scope gives the name that it is asked for, or that name with a suffix (`Given`), so that what is
known of the names asked for tells much of the names in a file. An identifier with a suffix is an
identifier (`isIdentifier_of_given`).

What makes identifiers of arbitrary texts nearly always does. `sanitize` misses a text whose first
character that an identifier may hold cannot start one, unless that character is an ASCII digit and
nothing stands before it (`isIdentifier_sanitize`); `parameterName` misses one whose camel case has a
character that no identifier holds (`isIdentifier_parameterName`).
-/

import OpenApiClient.Proofs.FreshName

namespace OpenApiClient

namespace TypeScript

theorem isPart_underscore : isPart '_' = true := by decide

theorem isAscii_of_isDigit {c : Char} (h : c.isDigit = true) : Text.isAscii c = true := by
  simp only [Char.isDigit, Bool.and_eq_true, decide_eq_true_eq] at h
  have hle : c.toNat ≤ 57 := h.2
  simp only [Text.isAscii, decide_eq_true_eq]
  omega

theorem isPart_of_isDigit {c : Char} (h : c.isDigit = true) : isPart c = true := by
  simp [isPart, Text.isAlphanumeric, Text.isNumeric, isAscii_of_isDigit h, h]

/-- An identifier holds nothing but its characters, and starts with one that may. -/
theorem identifierChars_iff {cs : List Char} :
    identifierChars cs = true ↔ (∃ c, cs.head? = some c ∧ isStart c = true) ∧ cs.all isPart = true := by
  cases cs with
  | nil => simp [identifierChars]
  | cons c cs =>
    simp only [identifierChars, Bool.and_eq_true, List.head?_cons, Option.some.injEq,
      exists_eq_left', List.all_cons]
    constructor
    · exact fun h => ⟨h.1, isPart_of_isStart h.1, h.2⟩
    · exact fun h => ⟨h.1, h.2.2⟩

section Sanitize

theorem all_joinParts (pending started : Bool) (cs : List Char) :
    (joinParts pending started cs).all isPart = true := by
  induction cs generalizing pending started with
  | nil => rfl
  | cons c cs ih =>
    rw [joinParts]
    split
    · next hc =>
      rw [List.all_append, ih, Bool.and_true]
      split
      · simp [isPart_underscore, hc]
      · simp [hc]
    · exact ih true started

theorem head?_joinParts (pending : Bool) (cs : List Char) :
    (joinParts pending false cs).head? = cs.find? isPart := by
  induction cs generalizing pending with
  | nil => rfl
  | cons c cs ih =>
    rw [joinParts, List.find?_cons]
    cases hc : isPart c with
    | true => simp
    | false =>
      simp only [Bool.false_eq_true, if_false]
      exact ih true

/-- **What is kept of a text is an identifier** exactly if its first character may start one, or is an
ASCII digit that the text itself starts with. -/
theorem identifierChars_sanitizeChars (cs : List Char) :
    identifierChars (sanitizeChars cs) = true ↔
      ∀ c, cs.find? isPart = some c → isStart c = true ∨ cs.head?.any Char.isDigit = true := by
  have hall : (joinParts false false cs).all isPart = true := all_joinParts false false cs
  have hhead : (joinParts false false cs).head? = cs.find? isPart := head?_joinParts false cs
  unfold sanitizeChars
  simp only
  split
  · next hempty =>
    rw [List.isEmpty_iff.1 hempty] at hhead
    constructor
    · intro _ c hc
      rw [← hhead] at hc
      cases hc
    · exact fun _ => by decide
  · next hempty =>
    obtain ⟨c, hc⟩ : ∃ c, cs.find? isPart = some c := by
      rw [← hhead]
      cases hbody : joinParts false false cs with
      | nil => simp [hbody] at hempty
      | cons c body => exact ⟨c, rfl⟩
    cases cs with
    | nil => cases hc
    | cons d cs =>
      simp only [List.head?_cons, Option.any_some]
      split
      · next hd =>
        constructor
        · exact fun _ _ _ => .inr hd
        · intro _
          rw [identifierChars, hall]
          decide
      · next hd =>
        rw [identifierChars_iff, hhead, hc]
        simp [hall, hd]

/-- What is kept of the text starts as an identifier may, or the text starts with an ASCII digit, which
gets an underscore in front. -/
def StartsName (text : String) : Prop :=
  ∀ c, text.toList.find? isPart = some c → isStart c = true ∨ text.toList.head?.any Char.isDigit = true

/-- **A text is made an identifier** exactly if what is kept of it starts as one. -/
theorem isIdentifier_sanitize (name : String) :
    isIdentifier (sanitize name) = true ↔ StartsName name := by
  rw [isIdentifier, sanitize, String.toList_ofList]
  exact identifierChars_sanitizeChars name.toList

/-- The text is an identifier, or its words in camel case have only characters that identifiers hold. -/
def NamesParameter (text : String) : Prop :=
  isIdentifier text = true ∨ (Text.camel (sanitizeChars text.toList)).all isPart = true

/-- **The name of a parameter is an identifier** exactly if the text is one, or if camel case leaves
nothing in it that no identifier holds. -/
theorem isIdentifier_parameterName (name : String) :
    isIdentifier (parameterName name) = true ↔ NamesParameter name := by
  unfold parameterName NamesParameter
  by_cases hname : isIdentifier name = true
  · simp [hname]
  · simp only [hname, if_false, false_or, Bool.false_eq_true]
    split
    · next hcamel =>
      rw [isIdentifier, String.toList_ofList]
      simp [hcamel, (identifierChars_iff.1 hcamel).2]
    · rw [isIdentifier, String.toList_ofList, identifierChars]
      have hstart : isStart '_' = true := by decide
      rw [hstart, Bool.true_and]

end Sanitize

end TypeScript

namespace Module

open TypeScript

/-- The names that asking for a name may give. -/
inductive Given (asked : String) : String → Prop
  | bare : Given asked asked
  | suffixed (n : Nat) : Given asked (suffixed asked n)

/-- A name without an underscore was asked for as it is. -/
theorem eq_of_given {asked name : String} (h : Given asked name) (hname : '_' ∉ name.toList) :
    name = asked := by
  cases h with
  | bare => rfl
  | suffixed n => exact absurd (by simp [Module.suffixed]) hname

/-- **An identifier with a suffix is an identifier.** -/
theorem isIdentifier_of_given {asked name : String} (h : Given asked name)
    (hasked : isIdentifier asked = true) : isIdentifier name = true := by
  cases h with
  | bare => exact hasked
  | suffixed n =>
    obtain ⟨⟨c, hc, hstart⟩, hall⟩ := identifierChars_iff.1 hasked
    have hdigits : ∀ d ∈ (toString n).toList, isPart d = true := fun d hd => by
      rw [show toString n = n.repr from rfl, Nat.toList_repr] at hd
      exact isPart_of_isDigit (Nat.isDigit_of_mem_toDigits (by decide) (by decide) hd)
    refine identifierChars_iff.2 ⟨⟨c, ?_, hstart⟩, ?_⟩
    · rw [Module.suffixed, String.toList_append, String.toList_append, List.append_assoc,
        List.head?_append, hc]
      rfl
    · rw [Module.suffixed, String.toList_append, String.toList_append, List.all_append,
        List.all_append, hall, List.all_eq_true.2 hdigits]
      simp [isPart_underscore]

namespace Scope

variable (s : Scope)

/-- **A scope gives what it is asked for, or that with a suffix.** -/
theorem given_bind (name : String) (force : Bool) : Given name (s.bind name force).1 := by
  change Given name (s.available name force)
  unfold available
  split
  · exact .bare
  · obtain ⟨n, hn⟩ := exists_freeSuffix_eq s.taken name 1 s.taken.length
    rw [hn]
    exact .suffixed n

theorem given_bindAll {names : List String} {n : String} (hn : n ∈ (s.bindAll names).1) :
    ∃ a ∈ names, Given a n := by
  induction names generalizing s with
  | nil => cases hn
  | cons name names ih =>
    rw [bindAll_cons] at hn
    rcases List.mem_cons.1 hn with rfl | hn
    · exact ⟨name, List.mem_cons_self, s.given_bind name false⟩
    · obtain ⟨a, ha, hgiven⟩ := ih (s.bind name false).2 hn
      exact ⟨a, List.mem_cons_of_mem _ ha, hgiven⟩

end Scope

end Module
end OpenApiClient
