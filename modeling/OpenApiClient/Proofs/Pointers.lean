/-
# Where pointers lead

A pointer stands for names (`names?`), and what it points at is what they lead to one after another
(`pointee?_eq`). A name can be read back from a pointer (`unescapeName_escapeName`), so the pointer
at a schema stands for the name of the schema in the schemas of the components
(`localNames?_pointerTo`).

Schemas written into a document stand where these pointers lead (`locate?_withSchemas_of_mem`), and
everything else that was in the document stays, apart from the objects that hold them
(`locate?_withSchemas`).
-/

import OpenApiClient.Proofs.Unfolding
import OpenApiClient.Proofs.Records
import Mathlib.Data.List.Infix

namespace OpenApiClient

namespace OpenApi

/-- The characters of a name as they stand in a pointer. -/
theorem toList_escapeName (name : String) :
    (escapeName name).toList = name.toList.flatMap fun c =>
      if c = '~' then ['~', '0'] else if c = '/' then ['~', '1'] else [c] := by
  rw [escapeName, Text.toList_replaceCharIn, Text.toList_replaceCharIn]
  induction name.toList with
  | nil => rfl
  | cons c cs ih =>
    rw [List.flatMap_cons, List.flatMap_append, ih, List.flatMap_cons]
    by_cases h : c = '~'
    · subst h
      rfl
    · rw [if_neg h, if_neg h, List.flatMap_singleton]
      rfl

theorem not_slash_of_mem_escapeName {name : String} {c : Char} (h : c ∈ (escapeName name).toList) :
    (c == '/') = false := by
  rw [toList_escapeName, List.mem_flatMap] at h
  obtain ⟨d, -, hc⟩ := h
  by_cases hd : d = '~'
  · rw [if_pos hd] at hc
    rcases List.mem_pair.1 hc with rfl | rfl <;> rfl
  · rw [if_neg hd] at hc
    by_cases hs : d = '/'
    · rw [if_pos hs] at hc
      rcases List.mem_pair.1 hc with rfl | rfl <;> rfl
    · rw [if_neg hs] at hc
      obtain rfl := List.mem_singleton.1 hc
      exact beq_eq_false_iff_ne.2 hs

/-- **A name can be read back** from a pointer that it stands in. -/
theorem unescapeName_escapeName (name : String) : unescapeName (escapeName name) = name := by
  have hslash : ∀ cs : List Char, Text.replacePair '~' '1' ['/'] (cs.flatMap fun c =>
      if c = '~' then ['~', '0'] else if c = '/' then ['~', '1'] else [c]) =
        cs.flatMap fun c => if c = '~' then ['~', '0'] else [c] := by
    intro cs
    induction cs with
    | nil => rfl
    | cons c cs ih =>
      by_cases hc : c = '~'
      · simp [hc, Text.replacePair_cons_cons_of_ne, Text.replacePair_cons_of_ne, ih]
      · by_cases hs : c = '/'
        · simp [hs, Text.replacePair_pair, ih]
        · simp [hc, hs, Text.replacePair_cons_of_ne, ih]
  have htilde : ∀ cs : List Char, Text.replacePair '~' '0' ['~'] (cs.flatMap fun c =>
      if c = '~' then ['~', '0'] else [c]) = cs := by
    intro cs
    induction cs with
    | nil => rfl
    | cons c cs ih =>
      by_cases hc : c = '~'
      · simp [hc, Text.replacePair_pair, ih]
      · simp [hc, Text.replacePair_cons_of_ne, ih]
  have htexts : "/".toList = ['/'] ∧ "~".toList = ['~'] := ⟨rfl, rfl⟩
  rw [unescapeName, Text.replacePairIn, Text.replacePairIn, htexts.1, htexts.2, toList_escapeName,
    hslash, String.toList_ofList, htilde, String.ofList_toList]

end OpenApi

namespace Bundle

open OpenApi

section Names

/-- The names that a pointer stands for. -/
def names? (pointer : String) : Option (List String) :=
  if pointer.isEmpty then some []
  else (Text.dropStart? "/" pointer).map fun tokens =>
    (Text.pieces (· == '/') tokens).map unescapeName

/-- The pointer of a reference that names no file. -/
def localPointer? (ref : String) : Option String :=
  match Text.cutFirst? '#' ref with
  | some (file, pointer) => if file.isEmpty then some pointer else none
  | none => none

/-- The names that a reference stands for that names no file. -/
def localNames? (ref : String) : Option (List String) := (localPointer? ref).bind names?

variable {j : Json} {names : List String}

theorem child?_eq (j : Json) (token : String) :
    child? j token = member? j (unescapeName token) := by
  cases j <;> rfl

/-- **What a pointer points at** is what its names lead to. -/
theorem pointee?_eq (j : Json) (pointer : String) :
    pointee? j pointer = (names? pointer).bind (locate? j) := by
  rw [pointee?, names?]
  split
  · rfl
  · cases Text.dropStart? "/" pointer with
    | none => rfl
    | some tokens =>
      rw [Option.bind_some, Option.map_some, Option.bind_some, locate?, List.foldlM_map]
      exact congrArg (fun step => List.foldlM step j _) (funext₂ child?_eq)

/-- The place of a schema in a document. -/
def schemaPlace (name : String) : List String := ["components", "schemas", name]

/-- A hash sign and a slash are followed by the names. -/
theorem localNames?_of_toList {ref : String} {cs : List Char} (h : ref.toList = '#' :: '/' :: cs) :
    localNames? ref = some ((Text.split (· == '/') cs).map fun w => unescapeName (.ofList w)) := by
  have hcut : Text.cutFirst? '#' ref = some ("", .ofList ('/' :: cs)) := by
    rw [Text.cutFirst?, h]
    rfl
  have hdrop : Text.dropStart? "/" (.ofList ('/' :: cs)) = some (.ofList cs) :=
    Text.dropStart?_of_append (String.toList_ofList ..).symm
  have hpointer : localPointer? ref = some (.ofList ('/' :: cs)) := by
    rw [localPointer?, hcut]
    rfl
  have hempty : (String.ofList ('/' :: cs)).isEmpty = false := by simp
  rw [localNames?, hpointer, Option.bind_some, names?, hempty, if_neg Bool.false_ne_true, hdrop,
    Option.map_some, Text.pieces, String.toList_ofList, List.map_map]
  rfl

/-- **The pointer at a schema** stands for its place. -/
theorem localNames?_pointerTo (name : String) :
    localNames? (pointerTo .schemas name) = some (schemaPlace name) := by
  have hchars : (pointerTo .schemas name).toList =
      '#' :: '/' :: ("components".toList ++ '/' :: ("schemas".toList ++
        '/' :: (escapeName name).toList)) := by
    rw [pointerTo, String.toList_append, String.toList_append, String.toList_append]
    rfl
  have hsections : Text.split (· == '/') "components".toList = ["components".toList] ∧
      Text.split (· == '/') "schemas".toList = ["schemas".toList] := ⟨rfl, rfl⟩
  rw [localNames?_of_toList hchars, Text.split_append_cons (by decide),
    Text.split_append_cons (by decide), hsections.1, hsections.2,
    Text.split_eq_singleton fun c => not_slash_of_mem_escapeName, List.singleton_append,
    List.singleton_append, List.map_cons, List.map_cons, List.map_cons, String.ofList_toList,
    String.ofList_toList, String.ofList_toList, unescapeName_escapeName]
  rfl

end Names

section Writing

variable {j j' : Json} {schemas : Entries Json} {names : List String}

theorem member?_getD (o : Option Json) (name : String) :
    member? (o.getD (.object [])) name = o.bind (member? · name) := by
  cases o <;> rfl

theorem adjustObject_eq_some {key : String} {change : Json → Option Json}
    (h : adjustObject key change j = some j') :
    ∃ x, change ((member? j key).getD (.object [])) = some x ∧
      ∀ name, member? j' name = if name = key then some x else member? j name := by
  cases j with
  | object es =>
    obtain ⟨x, hx, rfl⟩ := Option.map_eq_some_iff.1 h
    exact ⟨x, hx, fun name => Json.at?_putSorted key name x es⟩
  | _ => cases h

/-- What a document holds in which schemas were written. -/
theorem withSchemas_eq_ok (hn : schemas.keys.Nodup) (h : withSchemas j schemas = .ok j') :
    (∀ name ≠ "components", member? j' name = member? j name) ∧
      (∀ name ≠ "schemas", locate? j' ["components", name] = locate? j ["components", name]) ∧
        ∀ name, locate? j' (schemaPlace name) =
          (schemas.at? name).or (locate? j (schemaPlace name)) := by
  rw [withSchemas] at h
  split at h
  · next j'' hwrite =>
    obtain rfl := Except.ok.inj h
    obtain ⟨components, hcomponents, hj⟩ := adjustObject_eq_some hwrite
    obtain ⟨written, hwritten, hc⟩ := adjustObject_eq_some hcomponents
    have hold : ∀ name, member? ((member? j "components").getD (.object [])) name =
        locate? j ["components", name] := by
      intro name
      rw [member?_getD, locate?_cons]
      exact congrArg _ (funext fun x => locate?_singleton.symm)
    have hnew : ∀ name, locate? j'' ["components", name] = member? components name := by
      intro name
      rw [locate?_cons, hj, if_pos rfl, Option.bind_some, locate?_singleton]
    refine ⟨fun name hname => by rw [hj, if_neg hname],
      fun name hname => by rw [hnew, hc, if_neg hname, hold], fun name => ?_⟩
    have happend : ∀ x, locate? x (schemaPlace name) =
        (locate? x ["components", "schemas"]).bind (member? · name) := by
      intro x
      change locate? x (["components", "schemas"] ++ [name]) = _
      rw [locate?_append]
      exact congrArg _ (funext fun y => locate?_singleton)
    rw [hold] at hwritten
    rw [happend, happend, hnew, hc, if_pos rfl, Option.bind_some,
      ← member?_getD (locate? j ["components", "schemas"])]
    split at hwritten
    · next es hes =>
      obtain rfl := Option.some.inj hwritten
      rw [hes]
      exact Json.at?_foldl_putSorted hn name es
    · cases hwritten
  · cases h

/-- **Schemas that were written stand at their places.** -/
theorem locate?_withSchemas_of_mem (hn : schemas.keys.Nodup) (h : withSchemas j schemas = .ok j')
    {name : String} {x : Json} (hx : (name, x) ∈ schemas) :
    locate? j' (schemaPlace name) = some x := by
  rw [(withSchemas_eq_ok hn h).2.2, Entries.at?_of_mem hn hx, Option.some_or]

/-- **What stands elsewhere stays**, unless schemas were written into it. -/
theorem locate?_withSchemas (hn : schemas.keys.Nodup) (h : withSchemas j schemas = .ok j')
    (hnames : ¬ names <+: ["components", "schemas"])
    (hfree : ∀ name ∈ schemas.keys, ¬ schemaPlace name <+: names) :
    locate? j' names = locate? j names := by
  obtain ⟨hfirst, hsecond, hthird⟩ := withSchemas_eq_ok hn h
  match names with
  | [] => exact absurd List.nil_prefix hnames
  | first :: rest =>
    by_cases h₁ : first = "components"
    · subst h₁
      match rest with
      | [] => exact absurd (by decide) hnames
      | second :: rest =>
        by_cases h₂ : second = "schemas"
        · subst h₂
          match rest with
          | [] => exact absurd (by decide) hnames
          | third :: rest =>
            have h₃ : third ∉ schemas.keys := fun hmem => hfree third hmem ⟨rest, rfl⟩
            change locate? j' (schemaPlace third ++ rest) = locate? j (schemaPlace third ++ rest)
            rw [locate?_append, locate?_append, hthird, Entries.at?_eq_none.2 h₃, Option.none_or]
        · change locate? j' (["components", second] ++ rest) =
            locate? j (["components", second] ++ rest)
          rw [locate?_append, locate?_append, hsecond second h₂]
    · rw [locate?_cons, locate?_cons, hfirst first h₁]

end Writing

end Bundle
end OpenApiClient
