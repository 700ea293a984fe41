/-
# Maps that keep their order

The maps of a document, and those of a run, are lists of entries in the order in which their keys
first came. Writing to a key that is there replaces its value in place; a new key goes to the end.

`at?_put` reads a written map, `keys_put` says where its keys stand.

Sets are lists without repetitions in the order in which their elements first came (`insertNew`,
`distinct`).
-/

namespace OpenApiClient

/-- A map from names that keeps its entries in order. -/
abbrev Entries (α : Type) := List (String × α)

namespace Entries

variable {α β : Type}

/-- The value at a key: that of the first entry with it. -/
def at? (es : Entries α) (key : String) : Option α := List.lookup key es

/-- Whether the key has an entry. -/
def has (es : Entries α) (key : String) : Bool := (es.at? key).isSome

/-- The keys in order. -/
def keys (es : Entries α) : List String := List.map Prod.fst es

/-- The values in order. -/
def values (es : Entries α) : List α := List.map Prod.snd es

/-- The map with a value written to a key. -/
def put : Entries α → String → α → Entries α
  | [], k, v => [(k, v)]
  | e :: es, k, v => if e.1 = k then (k, v) :: es else e :: put es k v

/-- The map that arises from writing entries one after another. -/
def ofList (es : List (String × α)) : Entries α := es.foldl (fun m e => put m e.1 e.2) []

/-- The entries whose keys did not come before. -/
def firsts (es : List (String × α)) : Entries α :=
  es.foldl (fun m e => if has m e.1 then m else m ++ [e]) []

/-- The values of each key, keys in the order in which they first came. -/
def group (es : List (String × α)) : Entries (List α) :=
  es.foldl (fun m e => put m e.1 ((at? m e.1).getD [] ++ [e.2])) []

@[simp] theorem at?_nil (k : String) : at? ([] : Entries α) k = none := rfl

theorem at?_cons (e : String × α) (es : Entries α) (k : String) :
    at? (e :: es) k = if k = e.1 then some e.2 else at? es k := by
  unfold at?
  rw [List.lookup_cons]
  by_cases h : k = e.1
  · simp [h]
  · have hb : (k == e.1) = false := by simp [h]
    simp [h, hb]

/-- Reading a written map gives the new value at its key and the old ones elsewhere. -/
theorem at?_put (es : Entries α) (k k' : String) (v : α) :
    (put es k v).at? k' = if k' = k then some v else es.at? k' := by
  induction es with
  | nil => simp [put, at?_cons]
  | cons e es ih =>
    by_cases h : e.1 = k
    · subst h
      by_cases h' : k' = e.1 <;> simp [put, at?_cons, h']
    · by_cases h' : k' = e.1
      · subst h'; simp [put, at?_cons, h]
      · simp [put, at?_cons, h, h', ih]

/-- A written key stands where it stood, a new one at the end. -/
theorem keys_put (es : Entries α) (k : String) (v : α) :
    (put es k v).keys = if k ∈ es.keys then es.keys else es.keys ++ [k] := by
  induction es with
  | nil => simp [put, keys]
  | cons e es ih =>
    by_cases h : e.1 = k
    · subst h; simp [put, keys]
    · have hk : ¬ k = e.1 := fun h' => h h'.symm
      simp only [put, h, if_false]
      change e.1 :: keys (put es k v) = _
      rw [ih]
      change _ = if k ∈ e.1 :: keys es then e.1 :: keys es else e.1 :: keys es ++ [k]
      by_cases hm : k ∈ keys es <;> simp [hm, hk]

/-- What stands in a written map was written, or stood there. -/
theorem mem_put {es : Entries α} {k : String} {v : α} {e : String × α} (h : e ∈ put es k v) : e = (k, v) ∨ e ∈ es := by
  induction es with
  | nil => exact .inl (List.mem_singleton.1 h)
  | cons f es ih =>
    rw [put] at h
    split at h
    · exact (List.mem_cons.1 h).imp_right (List.mem_cons_of_mem _)
    · rcases List.mem_cons.1 h with rfl | h
      · exact .inr List.mem_cons_self
      · exact (ih h).imp_right (List.mem_cons_of_mem _)

/-- No key is lost and none comes twice. -/
theorem nodup_keys_put {es : Entries α} (h : es.keys.Nodup) (k : String) (v : α) :
    (put es k v).keys.Nodup := by
  rw [keys_put]
  split
  · exact h
  · next hk =>
    rw [List.nodup_append]
    exact ⟨h, by simp, by rintro a ha b hb rfl; simp at hb; exact hk (hb ▸ ha)⟩

theorem nodup_keys_ofList (es : List (String × α)) : (ofList es).keys.Nodup := by
  have : ∀ (es : List (String × α)) (m : Entries α), m.keys.Nodup →
      (es.foldl (fun m e => put m e.1 e.2) m).keys.Nodup := by
    intro es
    induction es with
    | nil => intro m h; exact h
    | cons e es ih => intro m h; exact ih _ (nodup_keys_put h _ _)
  exact this es [] (by simp [keys])

end Entries

section Distinct

variable {α : Type} [DecidableEq α]

/-- A list without repetitions, with one more element unless it is there already. -/
def insertNew (xs : List α) (x : α) : List α := if x ∈ xs then xs else xs ++ [x]

/-- Elements added to a list without repetitions one after another. -/
def insertAll (xs more : List α) : List α := more.foldl insertNew xs

/-- The elements of a list at their first places. -/
def distinct (xs : List α) : List α := insertAll [] xs

@[simp] theorem mem_insertNew {xs : List α} {a b : α} : b ∈ insertNew xs a ↔ b ∈ xs ∨ b = a := by
  unfold insertNew
  split
  · constructor
    · exact Or.inl
    · rintro (h | rfl) <;> assumption
  · simp

@[simp] theorem mem_insertAll {xs more : List α} {b : α} :
    b ∈ insertAll xs more ↔ b ∈ xs ∨ b ∈ more := by
  unfold insertAll
  induction more generalizing xs with
  | nil => simp
  | cons a as ih => simp [ih, or_assoc]

theorem nodup_insertNew {xs : List α} (h : xs.Nodup) (a : α) : (insertNew xs a).Nodup := by
  unfold insertNew
  split
  · exact h
  · next ha =>
    rw [List.nodup_append]
    exact ⟨h, by simp, by rintro x hx y hy rfl; simp at hy; exact ha (hy ▸ hx)⟩

theorem nodup_insertAll {xs : List α} (h : xs.Nodup) (more : List α) :
    (insertAll xs more).Nodup := by
  unfold insertAll
  induction more generalizing xs with
  | nil => exact h
  | cons a as ih => exact ih (nodup_insertNew h a)

@[simp] theorem mem_distinct {xs : List α} {b : α} : b ∈ distinct xs ↔ b ∈ xs := by
  simp [distinct]

theorem nodup_distinct (xs : List α) : (distinct xs).Nodup := nodup_insertAll (by simp) xs

end Distinct

end OpenApiClient
