/-
# Members of enumerations

An enumeration has a member for each of its values, in their order. A member is named by its value where
that is an identifier, and else by what `sanitize` makes of it. As `sanitize` leaves identifiers alone
(`spelled_of_isIdentifier`), all names are spelled in one way: the parts of the value, which are its longest
pieces that an identifier may hold, joined by underscores (`toList_sanitize`).

Nothing keeps the names apart. `declarationOf_enumeration` says that they are different exactly if the values
are spelled differently, and identifiers exactly if what each is spelled with first may start one.
-/

import OpenApiClient.Proofs.Declarations
import OpenApiClient.Proofs.GivenNames
import OpenApiClient.Proofs.Records

namespace OpenApiClient

namespace TypeScript

open Text

/-- The parts of a text: its longest pieces that an identifier may hold. -/
def parts (cs : List Char) : List (List Char) := segments (!isPart ·) cs

/-- How a text is spelled as an identifier: its parts joined by underscores, one more underscore in front
where the text starts with an ASCII digit, and `unnamed` where there is no part. -/
def spelled (text : String) : List Char :=
  if parts text.toList = [] then "unnamed".toList
  else (if text.toList.head?.any Char.isDigit then ['_'] else []) ++
    ['_'].intercalate (parts text.toList)

/-- What follows the first of some parts that are joined. -/
theorem intercalate_cons (separator first : List Char) (rest : List (List Char)) :
    separator.intercalate (first :: rest) = first ++ rest.flatMap (separator ++ ·) := by
  induction rest generalizing first with
  | nil => simp [List.intercalate]
  | cons next rest ih =>
    rw [List.flatMap_cons, List.append_assoc, ← ih next]
    simp [List.intercalate]

section Parts

variable (c : Char) (cs : List Char)

/-- Inside of a part, what is left of it is written, and each other part after an underscore. -/
theorem joinParts_inside : ∃ part rest, split (!isPart ·) cs = part :: rest ∧
    joinParts false true cs = part ++ (rest.filter (!·.isEmpty)).flatMap (['_'] ++ ·) ∧
    joinParts true true cs = (parts cs).flatMap (['_'] ++ ·) := by
  induction cs with
  | nil => exact ⟨[], [], rfl, rfl, rfl⟩
  | cons c cs ih =>
    obtain ⟨part, rest, hsplit, hinside, hbetween⟩ := ih
    rw [parts, segments] at hbetween ⊢
    rw [split, hsplit, joinParts, joinParts]
    rw [hsplit] at hbetween
    cases hc : isPart c with
    | true => exact ⟨c :: part, rest, rfl, by simp [hinside], by simp [hinside]⟩
    | false => exact ⟨[], part :: rest, rfl, by simp [hbetween], by simp [hbetween]⟩

/-- **What is kept of a text** is its parts, joined by underscores. -/
theorem joinParts_eq (pending : Bool) :
    joinParts pending false cs = ['_'].intercalate (parts cs) := by
  induction cs generalizing pending with
  | nil => rfl
  | cons c cs ih =>
    rw [parts, segments, joinParts, split]
    obtain ⟨part, rest, hsplit, hinside, -⟩ := joinParts_inside cs
    cases hc : isPart c with
    | true => simp [hsplit, hinside, intercalate_cons]
    | false =>
      have hparts := ih true
      rw [parts, segments] at hparts
      simpa using hparts

theorem parts_eq_nil_iff : parts cs = [] ↔ joinParts false false cs = [] := by
  rw [joinParts_eq]
  cases hp : parts cs with
  | nil => simp [List.intercalate]
  | cons part rest =>
    have hpart : part ∈ parts cs := hp ▸ List.mem_cons_self
    have hne := (List.mem_filter.1 hpart).2
    rw [intercalate_cons]
    cases part <;> simp_all

/-- The parts of a text that is one part. -/
theorem parts_of_all (h : (c :: cs).all isPart = true) : parts (c :: cs) = [c :: cs] := by
  have hsplit : split (!isPart ·) (c :: cs) = [c :: cs] := split_eq_singleton fun d hd => by
    simp [List.all_eq_true.1 h d hd]
  rw [parts, segments, hsplit]
  rfl

end Parts

/-- **A text is made an identifier** of its parts. -/
theorem toList_sanitize (text : String) : (sanitize text).toList = spelled text := by
  rw [sanitize, String.toList_ofList, spelled]
  unfold sanitizeChars
  simp only [parts_eq_nil_iff, List.isEmpty_iff]
  split
  · rfl
  · rw [joinParts_eq]
    cases text.toList with
    | nil => rfl
    | cons c cs =>
      cases hc : c.isDigit <;> simp [hc]

/-- No identifier starts with an ASCII digit. -/
theorem isDigit_of_isStart {c : Char} (h : isStart c = true) : c.isDigit = false := by
  rw [Bool.eq_false_iff]
  intro hdigit
  have hle : c.toNat ≤ 57 := by
    simp only [Char.isDigit, Bool.and_eq_true, decide_eq_true_eq] at hdigit
    exact hdigit.2
  have halpha : c.isAlpha = false := by
    rw [Bool.eq_false_iff]
    intro ha
    have hge : 65 ≤ c.toNat := by
      rcases Bool.or_eq_true_iff.1 (show (c.isUpper || c.isLower) = true from ha) with h | h
      · exact (of_decide_eq_true h).1
      · exact Nat.le_trans (by decide) (of_decide_eq_true (Bool.and_eq_true_iff.1 h).1 : 97 ≤ c.toNat)
    omega
  simp only [isStart, Text.isAlphabetic, isAscii_of_isDigit hdigit, if_true, halpha, Bool.false_or,
    Bool.or_eq_true, beq_iff_eq] at h
  rcases h with rfl | rfl <;> cases hdigit

/-- **An identifier is spelled as it is.** -/
theorem spelled_of_isIdentifier {name : String} (h : isIdentifier name = true) :
    spelled name = name.toList := by
  rw [isIdentifier] at h
  rw [spelled]
  generalize name.toList = cs at h ⊢
  cases cs with
  | nil => cases h
  | cons c cs =>
    obtain ⟨⟨d, hd, hstart⟩, hall⟩ := identifierChars_iff.1 h
    obtain rfl := Option.some.inj hd
    rw [parts_of_all c cs hall]
    simp [List.intercalate, isDigit_of_isStart hstart]

end TypeScript

namespace Client

open OpenApi TypeScript

/-- A member is named by the spelling of its value. -/
theorem enumerationMember_eq (value : String) :
    enumerationMember value = (String.ofList (spelled value), value) := by
  unfold enumerationMember
  split
  · next h => rw [spelled_of_isIdentifier h, String.ofList_toList]
  · rw [← toList_sanitize, String.ofList_toList]

instance : DecidablePred StartsName := fun text => decidable_of_iff _ (isIdentifier_sanitize text)

theorem isIdentifier_spelled (value : String) :
    isIdentifier (String.ofList (spelled value)) = true ↔ StartsName value := by
  rw [← toList_sanitize, String.ofList_toList, isIdentifier_sanitize]

/-- The values of an enumeration of strings are these strings. -/
theorem enumerationValues?_of_strings {s : SchemaObject} {values : List String} (hne : values ≠ [])
    (hvalues : s.enumeration = values.map .string) : enumerationValues? s = some values := by
  have hsome : (values.map Json.string).mapM Json.string? = some values :=
    mapM_map_of_forall fun _ _ => rfl
  rw [enumerationValues?, hvalues, hsome]
  simp [hne]

/-- A component that is one of some strings is declared by an enumeration of them. -/
theorem run_declarationOf (c : TypeContext) {component : String} {s : SchemaObject}
    {values : List String} (hs : c.components.schemas.at? component = some (.inline s))
    (hne : values ≠ []) (hvalues : s.enumeration = values.map .string) (identifier : String)
    (st : TypeState) :
    (c.declarationOf component identifier).run.run st = (.ok (.enumeration {
      doc := s.description, name := identifier, members := values.map enumerationMember }), st) := by
  have hschema : c.components.schema component = .ok s := by
    simp [Components.schema, Components.follow, hs]
  have hlift : (liftM (.ok s : Except ReferenceError SchemaObject) : Mapping SchemaObject) = pure s := rfl
  unfold TypeContext.declarationOf
  simp only [hs, hschema, hlift, pure_bind]
  rw [enumerationValues?_of_strings hne hvalues]
  rfl

/-- **The enumeration of a component** has a member for each of its values, in their order, and with the
value. The members have different names exactly if the values are spelled differently, and all names are
identifiers exactly if each value starts as one may. A value that is an identifier is its own name. -/
theorem declarationOf_enumeration (c : TypeContext) {component : String} {s : SchemaObject}
    {values : List String} (hs : c.components.schemas.at? component = some (.inline s))
    (hne : values ≠ []) (hvalues : s.enumeration = values.map .string) (identifier : String)
    (st : TypeState) :
    ∃ members : List (String × String),
      (c.declarationOf component identifier).run.run st =
        (.ok (.enumeration { doc := s.description, name := identifier, members }), st) ∧
      members.map (·.2) = values ∧
      (∀ m ∈ members, m.1.toList = spelled m.2 ∧ (isIdentifier m.2 = true → m.1 = m.2)) ∧
      ((members.map (·.1)).Nodup ↔ values.Pairwise fun v w => spelled v ≠ spelled w) ∧
      ((∀ m ∈ members, isIdentifier m.1 = true) ↔ ∀ v ∈ values, StartsName v) := by
  have hnames : (values.map enumerationMember).map (·.1) = values.map (String.ofList ∘ spelled) := by
    simp [Function.comp_def, enumerationMember_eq]
  refine ⟨values.map enumerationMember, run_declarationOf c hs hne hvalues identifier st, ?_, ?_, ?_, ?_⟩
  · simp [Function.comp_def, enumerationMember_eq]
  · refine List.forall_mem_map.2 fun v _ => ?_
    rw [enumerationMember_eq]
    refine ⟨String.toList_ofList, fun hv => ?_⟩
    rw [spelled_of_isIdentifier hv, String.ofList_toList]
  · rw [hnames, List.Nodup, List.pairwise_map]
    simp only [Function.comp_apply, ne_eq, String.ofList_inj]
  · simp only [List.forall_mem_map, enumerationMember_eq, isIdentifier_spelled]

/-- The components of a document in which one is an enumeration of strings. -/
def enumerationOf (values : List String) : Components :=
  { schemas := [("Size", .inline { enumeration := values.map .string })] }

/-- Members of an enumeration with a value that is no identifier, and one that starts with a digit. -/
theorem declarationOf_enumeration_sizes :
    let c : TypeContext := { components := enumerationOf ["small", "extra-large", "2x"], transfers := [] }
    let st : TypeState := { bindings := .ofFile "Size.ts" ".js" .whenTaken }
    ∃ members : List (String × String),
      (c.declarationOf "Size" "Size").run.run st = (.ok (.enumeration { name := "Size", members }), st) ∧
      members.map (·.2) = ["small", "extra-large", "2x"] ∧
      (members.map (·.1)).Nodup ∧ ∀ m ∈ members, isIdentifier m.1 = true := by
  intro c st
  have hsize : c.components.schemas.at? "Size" = some (.inline
      { enumeration := ["small", "extra-large", "2x"].map .string }) := rfl
  obtain ⟨members, hrun, hvalues, -, hdistinct, hnamed⟩ :=
    declarationOf_enumeration c hsize (by simp) rfl "Size" st
  exact ⟨members, hrun, hvalues, hdistinct.2 (by decide +kernel), hnamed.2 (by decide +kernel)⟩

/-- **Members that have one name, and one that no identifier has**: separators of all kinds become one
underscore, and a digit that does not stand first in a value stays first in the name. -/
theorem not_declarationOf_enumeration :
    ¬ ∀ (c : TypeContext) (component : String) (s : SchemaObject) (values : List String),
      c.components.schemas.at? component = some (.inline s) → values ≠ [] → values.Nodup →
      s.enumeration = values.map .string → ∀ (identifier : String) (st : TypeState),
      ∃ members : List (String × String),
        (c.declarationOf component identifier).run.run st =
          (.ok (.enumeration { doc := s.description, name := identifier, members }), st) ∧
        members.map (·.2) = values ∧
        (members.map (·.1)).Nodup ∧ ∀ m ∈ members, isIdentifier m.1 = true := by
  intro h
  let c : TypeContext := { components := enumerationOf ["a_b", "a-b", "-1"], transfers := [] }
  let st : TypeState := { bindings := .ofFile "Size.ts" ".js" .whenTaken }
  have hsize : c.components.schemas.at? "Size" = some (.inline
      { enumeration := ["a_b", "a-b", "-1"].map .string }) := rfl
  have hrun := run_declarationOf c hsize (by simp) rfl "Size" st
  obtain ⟨members, hrun', -, hnodup, -⟩ :=
    h c "Size" _ ["a_b", "a-b", "-1"] hsize (by simp) (by simp) rfl "Size" st
  cases hrun.symm.trans hrun'
  exact absurd hnodup (by decide +kernel)

end Client
end OpenApiClient
