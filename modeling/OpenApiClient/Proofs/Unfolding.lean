/-
# What values unfold to

A value with references unfolds to a tree: where it is a reference, the tree goes on with what the
reference leads to. `view` tells the tree by its paths. It follows so many references one after
another as it is told to, and what a reference leads to is a parameter, so that references can be
read in many files or in one.

`relocate f` is a value with references replaced. References do not stand under the key of a
reference itself, and what stands there is left as it is (`place?_relocate`); apart from that, views
agree if the references do (`observe_relocate`).
-/

import OpenApiClient.Bundle

namespace OpenApiClient
namespace Bundle

section Places

/-- The value under a name: that of an entry, or the item at a position. -/
def member? (j : Json) (name : String) : Option Json :=
  match j with
  | .object es => Entries.at? es name
  | .array xs => (position? name).bind fun i => xs[i]?
  | _ => none

/-- The value that names lead to one after another. -/
def locate? (j : Json) (names : List String) : Option Json := names.foldlM member? j

/-- The reference that a value is, if it is one. -/
def reference? : Json → Option String
  | .object es => match Entries.at? es "$ref" with
    | some (.string p) => some p
    | _ => none
  | _ => none

/-- The value under a name of a value that is no reference; a reference holds nothing else. -/
def step? (j : Json) (name : String) : Option Json :=
  match reference? j with
  | some _ => none
  | none => member? j name

/-- The value that names lead to one after another without a reference on the way. -/
def place? (j : Json) (names : List String) : Option Json := names.foldlM step? j

variable {j x : Json} {name : String} {names rest : List String}

theorem place?_cons : place? j (name :: names) = (step? j name).bind (place? · names) := rfl

theorem locate?_cons : locate? j (name :: names) = (member? j name).bind (locate? · names) := rfl

theorem locate?_append : locate? j (names ++ rest) = (locate? j names).bind (locate? · rest) := by
  rw [locate?, List.foldlM_append]
  rfl

theorem locate?_singleton : locate? j [name] = member? j name := by
  rw [locate?_cons]
  cases member? j name <;> rfl

theorem place?_append : place? j (names ++ rest) = (place? j names).bind (place? · rest) := by
  rw [place?, List.foldlM_append]
  rfl

theorem step?_eq_some : step? j name = some x ↔ reference? j = none ∧ member? j name = some x := by
  rw [step?]
  cases reference? j <;> simp

theorem locate?_of_place? (h : place? j names = some x) : locate? j names = some x := by
  induction names generalizing j with
  | nil => exact h
  | cons name names ih =>
    obtain ⟨y, hy, h⟩ := Option.bind_eq_some_iff.1 (place?_cons ▸ h)
    rw [locate?_cons, (step?_eq_some.1 hy).2]
    exact ih h

end Places

section Views

/-- What stands at a path of a tree. -/
inductive View where
  /-- A value without parts. -/
  | leaf (value : Json)
  /-- An array, by the number of its items. -/
  | items (count : Nat)
  /-- An object, by its keys. -/
  | keys (names : List String)
  /-- Nothing: the path goes on where the tree has ended. -/
  | absent
  /-- A reference that leads nowhere. -/
  | missing
  /-- A reference that is not followed any more. -/
  | deep

/-- What a value is, apart from its parts. -/
def shape : Json → View
  | .array xs => .items xs.length
  | .object es => .keys (Entries.keys es)
  | j => .leaf j

/-- What stands at a path of a value, where `onRef` tells it of references. -/
def observe (onRef : String → List String → View) : List String → Json → View
  | [], j => match reference? j with
    | some p => onRef p []
    | none => shape j
  | name :: rest, j => match reference? j with
    | some p => onRef p (name :: rest)
    | none => match member? j name with
      | some x => observe onRef rest x
      | none => .absent

/-- What references lead to: a value, and where the references in it are read. -/
abbrev Graph (κ : Type) := κ → String → Option (κ × Json)

variable {κ : Type} (g : Graph κ)

/-- What stands at a path of the tree that a value unfolds to, with so many references followed. -/
def view : Nat → κ → Json → List String → View
  | 0, _, j, path => observe (fun _ _ => .deep) path j
  | n + 1, k, j, path =>
    observe (fun p rest => match g k p with
      | some (k', x) => view n k' x rest
      | none => .missing) path j

/-- What stands at a path of the tree that a reference unfolds to. -/
def viewOf (n : Nat) (k : κ) (p : String) (path : List String) : View :=
  match g k p with
  | some (k', x) => view g n k' x path
  | none => .missing

variable {g} {n : Nat} {k : κ} {j x : Json} {p name : String} {path rest : List String}

theorem view_succ : view g (n + 1) k j path = observe (viewOf g n k) path j := rfl

theorem observe_of_reference? {r : String → List String → View} (h : reference? j = some p) :
    observe r path j = r p path := by
  cases path <;> simp only [observe, h]

theorem observe_of_step? {r : String → List String → View} (h : step? j name = some x) :
    observe r (name :: path) j = observe r path x := by
  obtain ⟨hr, hm⟩ := step?_eq_some.1 h
  simp only [observe, hr, hm]

theorem observe_of_place? {r : String → List String → View} (h : place? j rest = some x) :
    observe r (rest ++ path) j = observe r path x := by
  induction rest generalizing j with
  | nil => exact Option.some.inj h ▸ rfl
  | cons name rest ih =>
    obtain ⟨y, hy, h⟩ := Option.bind_eq_some_iff.1 (place?_cons ▸ h)
    rw [List.cons_append, observe_of_step? hy, ih h]

/-- A place of a value is seen through the value. -/
theorem view_of_place? (h : place? j rest = some x) :
    view g n k j (rest ++ path) = view g n k x path := by
  cases n <;> exact observe_of_place? h

theorem view_of_step? (h : step? j name = some x) :
    view g n k j (name :: path) = view g n k x path := by
  cases n <;> exact observe_of_step? h

theorem view_of_reference? (h : reference? j = some p) :
    view g (n + 1) k j path = viewOf g n k p path :=
  observe_of_reference? h

end Views

section Agreement

variable {κ κ' : Type}

/-- Two values unfold to the same tree. -/
def Agree (g : Graph κ) (k : κ) (j : Json) (g' : Graph κ') (k' : κ') (j' : Json) : Prop :=
  ∀ n path, view g n k j path = view g' n k' j' path

variable {g : Graph κ} {g' : Graph κ'} {k : κ} {k' : κ'} {j j' x : Json}

theorem shape_ne_deep (j : Json) : shape j ≠ .deep := by cases j <;> exact nofun

theorem shape_ne_absent (j : Json) : shape j ≠ .absent := by cases j <;> exact nofun

theorem view_zero_nil (g : Graph κ) (k : κ) (j : Json) :
    view g 0 k j [] = match reference? j with
      | some _ => .deep
      | none => shape j := by
  rw [view, observe]

/-- A value that agrees with one that is no reference is none either. -/
theorem Agree.reference? (h : Agree g k j g' k' j') (hr : reference? j = none) :
    reference? j' = none := by
  have h0 := h 0 []
  rw [view_zero_nil, view_zero_nil, hr] at h0
  cases hr' : Bundle.reference? j' with
  | none => rfl
  | some p =>
    rw [hr'] at h0
    exact absurd h0 (shape_ne_deep j)

theorem Agree.step? {name : String} (h : Agree g k j g' k' j') (hx : step? j name = some x) :
    ∃ x', Bundle.step? j' name = some x' ∧ Agree g k x g' k' x' := by
  have hr' := h.reference? (step?_eq_some.1 hx).1
  cases hm : member? j' name with
  | none =>
    have habsent : view g' 0 k' j' [name] = .absent := by simp only [view, observe, hr', hm]
    have h0 := h 0 [name]
    rw [habsent, view_of_step? hx, view_zero_nil] at h0
    split at h0
    · cases h0
    · exact absurd h0 (shape_ne_absent x)
  | some x' =>
    have hx' := step?_eq_some.2 ⟨hr', hm⟩
    refine ⟨x', hx', fun n path => ?_⟩
    rw [← view_of_step? hx, ← view_of_step? hx']
    exact h n (name :: path)

/-- **Values that agree agree at all their places.** -/
theorem Agree.place? {rest : List String} (h : Agree g k j g' k' j')
    (hx : place? j rest = some x) :
    ∃ x', Bundle.place? j' rest = some x' ∧ Agree g k x g' k' x' := by
  induction rest generalizing j j' with
  | nil => exact ⟨j', rfl, Option.some.inj hx ▸ h⟩
  | cons name rest ih =>
    obtain ⟨y, hy, hx⟩ := Option.bind_eq_some_iff.1 (place?_cons ▸ hx)
    obtain ⟨y', hy', h⟩ := h.step? hy
    obtain ⟨x', hx', h⟩ := ih h hx
    exact ⟨x', by rw [place?_cons, hy', Option.bind_some, hx'], h⟩

end Agreement

section Relocation

variable (f : String → Option String)

mutual

/-- The value with references replaced, where `f` has something to replace them by. -/
def relocate : Json → Json
  | .array items => .array (relocateItems items)
  | .object es => .object (relocateEntries ((reference? (.object es)).bind f) es)
  | j => j

/-- The items with references replaced. -/
def relocateItems : List Json → List Json
  | [] => []
  | x :: xs => relocate x :: relocateItems xs

/-- The entries with references replaced, the reference of the object itself by `own`. -/
def relocateEntries (own : Option String) : List (String × Json) → List (String × Json)
  | [] => []
  | e :: es =>
    (e.1, if e.1 = "$ref" then own.elim e.2 .string else relocate e.2) :: relocateEntries own es

end

/-- What stands at a place of a relocated value, where `x` stood before. -/
def copyOf (names : List String) (x : Json) : Json :=
  if "$ref" ∈ names then x else relocate f x

variable {f} {own : Option String} {es : List (String × Json)} {j x : Json} {key name : String}
  {names : List String}

theorem relocateItems_eq_map (xs : List Json) : relocateItems f xs = xs.map (relocate f) := by
  induction xs with
  | nil => rfl
  | cons x xs ih => rw [relocateItems, ih, List.map_cons]

theorem keys_relocateEntries : Entries.keys (relocateEntries f own es) = Entries.keys es := by
  induction es with
  | nil => rfl
  | cons e es ih =>
    rw [relocateEntries, Entries.keys, Entries.keys, List.map_cons, List.map_cons]
    exact congrArg _ ih

theorem at?_relocateEntries (h : key ≠ "$ref") :
    Entries.at? (relocateEntries f own es) key = (Entries.at? es key).map (relocate f) := by
  induction es with
  | nil => rfl
  | cons e es ih =>
    rw [relocateEntries, Entries.at?_cons, Entries.at?_cons, ih]
    by_cases hk : key = e.1
    · subst hk
      simp [h]
    · simp [hk]

theorem at?_relocateEntries_ref :
    Entries.at? (relocateEntries f own es) "$ref" =
      (Entries.at? es "$ref").map fun x => own.elim x .string := by
  induction es with
  | nil => rfl
  | cons e es ih =>
    rw [relocateEntries, Entries.at?_cons, Entries.at?_cons, ih]
    by_cases hk : "$ref" = e.1
    · simp [← hk]
    · simp [hk]

theorem shape_relocate : shape (relocate f j) = shape j := by
  cases j with
  | array xs => rw [relocate, shape, shape, relocateItems_eq_map, List.length_map]
  | object es => rw [relocate, shape, shape, keys_relocateEntries]
  | _ => rfl

/-- A reference is replaced as `f` tells, and nothing else becomes one. -/
theorem reference?_relocate :
    reference? (relocate f j) = (reference? j).map fun p => (f p).getD p := by
  cases j with
  | object es =>
    rw [relocate, reference?, reference?, at?_relocateEntries_ref]
    cases h : Entries.at? es "$ref" with
    | none => rfl
    | some x =>
      cases x with
      | string p => cases hp : f p <;> simp [hp]
      | _ => rfl
  | _ => rfl

theorem member?_relocate (h : name ≠ "$ref") :
    member? (relocate f j) name = (member? j name).map (relocate f) := by
  cases j with
  | array xs =>
    rw [relocate, member?, member?, relocateItems_eq_map]
    cases position? name with
    | none => rfl
    | some i => simp
  | object es => rw [relocate, member?, member?, at?_relocateEntries h]
  | _ => rfl

/-- The entry under the key of references is left as it is, unless it is a reference. -/
theorem member?_relocate_ref (h : reference? j = none) :
    member? (relocate f j) "$ref" = member? j "$ref" := by
  cases j with
  | array xs => rfl
  | object es =>
    rw [relocate, member?, member?, at?_relocateEntries_ref, h]
    simp
  | _ => rfl

theorem step?_relocate (h : name ≠ "$ref") :
    step? (relocate f j) name = (step? j name).map (relocate f) := by
  rw [step?, step?, reference?_relocate, member?_relocate h]
  cases reference? j <;> rfl

theorem step?_relocate_ref : step? (relocate f j) "$ref" = step? j "$ref" := by
  rw [step?, step?, reference?_relocate]
  cases h : reference? j with
  | none => exact member?_relocate_ref h
  | some p => rfl

/-- **The places of a relocated value are those of the value**; at each stands the relocation of
what stood there, or below the key of references what stood there. -/
theorem place?_relocate : place? (relocate f j) names = (place? j names).map (copyOf f names) := by
  induction names generalizing j with
  | nil => rfl
  | cons name names ih =>
    rw [place?_cons, place?_cons]
    by_cases h : name = "$ref"
    · subst h
      rw [step?_relocate_ref]
      have hcopy : copyOf f ("$ref" :: names) = id := by
        funext x
        rw [copyOf, if_pos List.mem_cons_self, id]
      rw [hcopy, Option.map_id, id]
    · rw [step?_relocate h]
      have hcopy : copyOf f (name :: names) = copyOf f names := by
        funext x
        rw [copyOf, copyOf]
        simp [Ne.symm h]
      rw [hcopy]
      cases hj : step? j name with
      | none => rfl
      | some y => exact ih

variable {r r' : String → List String → View} {path : List String}

/-- What is observed depends on the references that are found on the way alone. -/
theorem observe_congr (h : ∀ names x p path, place? j names = some x → reference? x = some p →
    r' p path = r p path) : observe r' path j = observe r path j := by
  induction path generalizing j with
  | nil =>
    cases hr : reference? j with
    | some p =>
      rw [observe_of_reference? hr, observe_of_reference? hr]
      exact h [] j p [] rfl hr
    | none => simp only [observe, hr]
  | cons name path ih =>
    cases hr : reference? j with
    | some p =>
      rw [observe_of_reference? hr, observe_of_reference? hr]
      exact h [] j p (name :: path) rfl hr
    | none =>
      cases hm : member? j name with
      | none => simp only [observe, hr, hm]
      | some y =>
        have hs := step?_eq_some.2 ⟨hr, hm⟩
        rw [observe_of_step? hs, observe_of_step? hs]
        refine ih fun names x p path hx => h (name :: names) x p path ?_
        rw [place?_cons, hs, Option.bind_some, hx]

theorem observe_relocate_of_reference? {p : String} (h : reference? j = some p) :
    observe r' path (relocate f j) = r' ((f p).getD p) path :=
  observe_of_reference? (by rw [reference?_relocate, h, Option.map_some])

/-- **A relocated value looks like the value** if each reference that was replaced looks like the
one that replaces it, and each that was left looks as before. -/
theorem observe_relocate (h : ∀ names x p path, place? j names = some x → reference? x = some p →
    r' (if "$ref" ∈ names then p else (f p).getD p) path = r p path) :
    observe r' path (relocate f j) = observe r path j := by
  induction path generalizing j with
  | nil =>
    cases hr : reference? j with
    | some p =>
      rw [observe_relocate_of_reference? hr, observe_of_reference? hr]
      exact h [] j p [] rfl hr
    | none =>
      have hr' : reference? (relocate f j) = none := by
        rw [reference?_relocate, hr, Option.map_none]
      simp only [observe, hr, hr', shape_relocate]
  | cons name path ih =>
    cases hr : reference? j with
    | some p =>
      rw [observe_relocate_of_reference? hr, observe_of_reference? hr]
      exact h [] j p (name :: path) rfl hr
    | none =>
      have hr' : reference? (relocate f j) = none := by
        rw [reference?_relocate, hr, Option.map_none]
      have hplace : ∀ {y}, member? j name = some y → ∀ {names x}, place? y names = some x →
          place? j (name :: names) = some x := by
        intro y hm names x hx
        rw [place?_cons, step?_eq_some.2 ⟨hr, hm⟩, Option.bind_some, hx]
      by_cases hn : name = "$ref"
      · subst hn
        simp only [observe, hr, hr', member?_relocate_ref (f := f) hr]
        cases hm : member? j "$ref" with
        | none => rfl
        | some y =>
          refine observe_congr fun names x p path hx hp => ?_
          simpa using h ("$ref" :: names) x p path (hplace hm hx) hp
      · simp only [observe, hr, hr', member?_relocate hn]
        cases hm : member? j name with
        | none => rfl
        | some y =>
          refine ih fun names x p path hx hp => ?_
          simpa [Ne.symm hn] using h (name :: names) x p path (hplace hm hx) hp

/-- What stands at a place of a relocated value looks as before if its references do. -/
theorem observe_copyOf (h : ∀ rest y p path, place? x rest = some y → reference? y = some p →
    r' (if "$ref" ∈ names ++ rest then p else (f p).getD p) path = r p path) :
    observe r' path (copyOf f names x) = observe r path x := by
  rw [copyOf]
  split
  · next hn =>
    refine observe_congr fun rest y p path hy hp => ?_
    rw [← h rest y p path hy hp, if_pos (List.mem_append_left _ hn)]
  · next hn =>
    refine observe_relocate fun rest y p path hy hp => ?_
    rw [← h rest y p path hy hp]
    simp only [List.mem_append, hn, false_or]

end Relocation

end Bundle
end OpenApiClient
