/-
# Reading back what was written

A structure is written as an object whose keys are names of its fields, each at most once, so every
field is found again (`exists_record?`). What a field holds is then read back, if its value is: a
value that may be missing, since what is written is never `null` (`optional?_written`), and a list or
a map, since it is left out only when it is empty (`list_written`, `map_written`).

Values are only claimed to be read back when they were read before. Reading leaves its marks: a map
has no key twice (`map?_eq_some`), and free JSON values are sorted and hold no number that has no
JSON text, so that reading them again changes nothing (`json?_toDatum`).
-/

import OpenApiClient.OpenApi.Schema.Writer
import OpenApiClient.Proofs.Entries

namespace OpenApiClient

/-- A step of what may be missing, when its result is there. -/
theorem bind_of_eq_some {α β : Type} {o : Option α} {a : α} {f : α → Option β} {b : Option β}
    (ho : o = some a) (h : f a = b) : (o >>= f) = b := by
  rw [ho]
  exact h

/-- A step and what follows it, when there is a result. Rewriting with it goes from the first step to the
last (`↓`): as `Option.bind`s, which have a congruence lemma, each would have all that follow it visited
twice. -/
theorem do_eq_some_iff {α β : Type} {o : Option α} {f : α → Option β} {b : β} :
    (o >>= f) = some b ↔ ∃ a, o = some a ∧ f a = some b :=
  Option.bind_eq_some_iff

/-- The results of a list were each given by one of its elements. -/
theorem exists_of_mem_mapM {α β : Type} {f : α → Option β} {xs : List α} {ys : List β}
    (h : xs.mapM f = some ys) {y : β} (hy : y ∈ ys) : ∃ x ∈ xs, f x = some y := by
  induction xs generalizing ys with
  | nil =>
    obtain rfl := Option.some.inj h
    simp at hy
  | cons x xs ih =>
    rw [List.mapM_cons] at h
    obtain ⟨z, hz, h⟩ := Option.bind_eq_some_iff.1 h
    obtain ⟨zs, hzs, h⟩ := Option.bind_eq_some_iff.1 h
    obtain rfl := Option.some.inj h
    rcases List.mem_cons.1 hy with rfl | hy
    · exact ⟨x, List.mem_cons_self, hz⟩
    · obtain ⟨w, hw, hwy⟩ := ih hzs hy
      exact ⟨w, List.mem_cons_of_mem _ hw, hwy⟩

/-- The elements of a list each give one of its results. -/
theorem exists_mem_of_mapM {α β : Type} {f : α → Option β} {xs : List α} {ys : List β}
    (h : xs.mapM f = some ys) {x : α} (hx : x ∈ xs) : ∃ y ∈ ys, f x = some y := by
  induction xs generalizing ys with
  | nil => cases hx
  | cons z zs ih =>
    rw [List.mapM_cons] at h
    obtain ⟨y, hy, h⟩ := Option.bind_eq_some_iff.1 h
    obtain ⟨rest, hrest, h⟩ := Option.bind_eq_some_iff.1 h
    obtain rfl := Option.some.inj h
    rcases List.mem_cons.1 hx with rfl | hx
    · exact ⟨y, List.mem_cons_self, hy⟩
    · obtain ⟨w, hw, hwx⟩ := ih hrest hx
      exact ⟨w, List.mem_cons_of_mem _ hw, hwx⟩

/-- Elements that are each given back make up the list that is given back. -/
theorem mapM_map_of_forall {α β : Type} {f : α → Option β} {g : β → α} {xs : List β}
    (h : ∀ x ∈ xs, f (g x) = some x) : (xs.map g).mapM f = some xs := by
  induction xs with
  | nil => rfl
  | cons x xs ih =>
    have hx := h x List.mem_cons_self
    have hxs := ih fun y hy => h y (List.mem_cons_of_mem _ hy)
    rw [List.map_cons, List.mapM_cons, hx, hxs]
    rfl

namespace Entries

variable {α : Type}

theorem put_of_notMem {es : Entries α} {k : String} (h : k ∉ es.keys) (v : α) :
    es.put k v = es ++ [(k, v)] := by
  induction es with
  | nil => rfl
  | cons e es ih =>
    rw [keys, List.map_cons, List.mem_cons, not_or] at h
    rw [put, if_neg fun he => h.1 he.symm, ih h.2, List.cons_append]

theorem mem_of_mem_ofList {es : List (String × α)} {e : String × α} (h : e ∈ ofList es) :
    e ∈ es := by
  suffices hm : ∀ m : Entries α, e ∈ es.foldl (fun m e => put m e.1 e.2) m → e ∈ m ∨ e ∈ es from
    (hm [] h).resolve_left (by simp)
  clear h
  induction es with
  | nil => exact fun m hm => .inl hm
  | cons f es ih =>
    intro m hm
    rcases ih _ hm with hm | hm
    · exact (mem_put hm).symm.imp_right fun h => by simp [h]
    · exact .inr (List.mem_cons_of_mem _ hm)

/-- Entries with different keys are written as they are. -/
theorem ofList_of_nodup {es : Entries α} (h : es.keys.Nodup) : ofList es = es := by
  suffices hm : ∀ m : Entries α, (keys (m ++ es)).Nodup →
      es.foldl (fun m e => put m e.1 e.2) m = m ++ es from hm [] h
  clear h
  induction es with
  | nil => exact fun m _ => (List.append_nil m).symm
  | cons e es ih =>
    intro m hm
    have hnew : e.1 ∉ m.keys := fun hmem => by
      rw [keys_append, List.nodup_append] at hm
      exact hm.2.2 _ hmem e.1 (by simp [keys]) rfl
    rw [List.foldl_cons, put_of_notMem hnew, ih _ (by simpa using hm)]
    simp

@[simp] theorem at?_append (es fs : Entries α) (k : String) :
    at? (es ++ fs) k = (es.at? k).or (fs.at? k) := by
  induction es with
  | nil => rfl
  | cons e es ih =>
    rw [List.cons_append, at?_cons, at?_cons, ih]
    split <;> rfl

end Entries

namespace Json

variable {α : Type}

/-- Entries whose keys come in increasing order. -/
def Increasing (es : Entries α) : Prop := es.Pairwise fun a b => compare a.1 b.1 = .lt

theorem mem_putSorted {k : String} {v : α} {es : Entries α} {e : String × α}
    (h : e ∈ putSorted k v es) : e = (k, v) ∨ e ∈ es := by
  induction es with
  | nil => simpa [putSorted] using h
  | cons f es ih =>
    rw [putSorted] at h
    split at h
    · simpa using h
    · rcases List.mem_cons.1 h with h | h
      · exact .inl h
      · exact .inr (List.mem_cons_of_mem _ h)
    · rcases List.mem_cons.1 h with rfl | h
      · exact .inr List.mem_cons_self
      · exact (ih h).imp_right (List.mem_cons_of_mem _)

theorem increasing_putSorted {es : Entries α} (h : Increasing es) (k : String) (v : α) :
    Increasing (putSorted k v es) := by
  induction es with
  | nil => simp [putSorted, Increasing]
  | cons e es ih =>
    obtain ⟨he, hes⟩ := List.pairwise_cons.1 h
    rw [putSorted]
    split
    · next hlt =>
      refine List.pairwise_cons.2 ⟨fun f hf => ?_, h⟩
      rcases List.mem_cons.1 hf with rfl | hf
      · exact hlt
      · exact Std.TransCmp.lt_trans hlt (he f hf)
    · next heq =>
      have hk : k = e.1 := Std.LawfulEqCmp.eq_of_compare heq
      exact List.pairwise_cons.2 ⟨fun f hf => hk ▸ he f hf, hes⟩
    · next hgt =>
      refine List.pairwise_cons.2 ⟨fun f hf => ?_, ih hes⟩
      rcases mem_putSorted hf with rfl | hf
      · exact Std.OrientedCmp.lt_of_gt hgt
      · exact he f hf

/-- A key greater than all others goes to the end. -/
theorem putSorted_of_greatest {k : String} {v : α} {es : Entries α}
    (h : ∀ e ∈ es, compare e.1 k = .lt) : putSorted k v es = es ++ [(k, v)] := by
  induction es with
  | nil => rfl
  | cons e es ih =>
    have hgt : compare k e.1 = .gt := Std.OrientedCmp.gt_of_lt (h e List.mem_cons_self)
    have htail := ih fun f hf => h f (List.mem_cons_of_mem _ hf)
    rw [putSorted, hgt, htail, List.cons_append]

theorem increasing_sortEntries (es : Entries α) : Increasing (sortEntries es) := by
  suffices h : ∀ m : Entries α, Increasing m →
      Increasing (es.foldl (fun m e => putSorted e.1 e.2 m) m) from h [] List.Pairwise.nil
  induction es with
  | nil => exact fun m hm => hm
  | cons e es ih => exact fun m hm => ih _ (increasing_putSorted hm e.1 e.2)

theorem mem_of_mem_sortEntries {es : Entries α} {e : String × α} (h : e ∈ sortEntries es) :
    e ∈ es := by
  suffices hm : ∀ m : Entries α, e ∈ es.foldl (fun m e => putSorted e.1 e.2 m) m → e ∈ m ∨ e ∈ es
      from (hm [] h).resolve_left (by simp)
  clear h
  induction es with
  | nil => exact fun m hm => .inl hm
  | cons f es ih =>
    intro m hm
    rcases ih _ hm with hm | hm
    · exact (mem_putSorted hm).symm.imp_right fun h => by simp [h]
    · exact .inr (List.mem_cons_of_mem _ hm)

theorem at?_putSorted (key name : String) (x : α) (es : Entries α) :
    Entries.at? (putSorted key x es) name = if name = key then some x else es.at? name := by
  induction es with
  | nil => rw [putSorted, Entries.at?_cons]
  | cons e es ih =>
    rw [putSorted]
    split
    · rw [Entries.at?_cons]
    · next heq =>
      obtain rfl := Std.LawfulEqCmp.eq_of_compare heq
      rw [Entries.at?_cons, Entries.at?_cons]
      by_cases h : name = e.1 <;> simp [h]
    · next hgt =>
      have hne : e.1 ≠ key := by
        rintro rfl
        have heq : compare e.1 e.1 = .eq := Std.ReflCmp.compare_self
        rw [heq] at hgt
        cases hgt
      rw [Entries.at?_cons, Entries.at?_cons, ih]
      by_cases h : name = e.1
      · simp [h, hne]
      · simp [h]

theorem at?_foldl_putSorted {es : Entries α} (hn : es.keys.Nodup) (name : String) (m : Entries α) :
    Entries.at? (es.foldl (fun m e => putSorted e.1 e.2 m) m) name = (es.at? name).or (m.at? name) := by
  induction es generalizing m with
  | nil => rfl
  | cons e es ih =>
    rw [Entries.keys, List.map_cons, List.nodup_cons] at hn
    rw [List.foldl_cons, ih hn.2, at?_putSorted, Entries.at?_cons]
    by_cases h : name = e.1
    · rw [Entries.at?_eq_none.2 (h ▸ hn.1)]
      simp [h]
    · simp [h]

/-- Sorting loses no entry, if no key comes twice. -/
theorem mem_sortEntries {es : Entries α} (hn : es.keys.Nodup) {e : String × α} (h : e ∈ es) :
    e ∈ sortEntries es := by
  refine Entries.mem_of_at? ((at?_foldl_putSorted hn e.1 []).trans ?_)
  rw [Entries.at?_of_mem hn h]
  rfl

/-- Sorting changes nothing about sorted entries. -/
theorem sortEntries_of_increasing {es : Entries α} (h : Increasing es) : sortEntries es = es := by
  suffices hm : ∀ m : Entries α, Increasing (m ++ es) →
      es.foldl (fun m e => putSorted e.1 e.2 m) m = m ++ es from hm [] h
  clear h
  induction es with
  | nil => exact fun m _ => (List.append_nil m).symm
  | cons e es ih =>
    intro m hm
    have hlast : ∀ f ∈ m, compare f.1 e.1 = .lt := fun f hf =>
      (List.pairwise_append.1 hm).2.2 f hf e List.mem_cons_self
    rw [List.foldl_cons, putSorted_of_greatest hlast, ih _ (by simpa using hm)]
    simp

@[simp] theorem field?_object (es : Entries Json) (key : String) :
    (object es).field? key = es.at? key := rfl

theorem itemsToData_eq (xs : List Json) : itemsToData xs = xs.map toDatum := by
  induction xs with
  | nil => rfl
  | cons x xs ih => rw [itemsToData, ih, List.map_cons]

theorem entriesToData_eq (es : Entries Json) :
    entriesToData es = es.map fun e => (.leaf (.string e.1), e.2.toDatum) := by
  induction es with
  | nil => rfl
  | cons e es ih => rw [entriesToData, ih, List.map_cons]

mutual

/-- Data of a JSON value has known types already. -/
theorem typed?_toDatum : ∀ j : Json, j.toDatum.typed? = some j.toDatum
  | .null | .bool _ | .number _ | .string _ => rfl
  | .array xs => by rw [toDatum, Tree.typed?, typedItems?_toData xs]; rfl
  | .object es => by rw [toDatum, Tree.typed?, typedEntries?_toData es]; rfl

theorem typedItems?_toData : ∀ xs : List Json,
    Tree.typedItems? (itemsToData xs) = some (itemsToData xs)
  | [] => rfl
  | x :: xs => by rw [itemsToData, Tree.typedItems?, typed?_toDatum x, typedItems?_toData xs]

theorem typedEntries?_toData : ∀ es : List (String × Json),
    Tree.typedEntries? (entriesToData es) = some (entriesToData es)
  | [] => rfl
  | e :: es => by
    rw [entriesToData, Tree.typedEntries?, typed?_toDatum e.2, typedEntries?_toData es]; rfl

end

mutual

/-- Whether data is that of a value. -/
def isDatum : Json → Datum → Bool
  | .null, .leaf a => a == .null
  | .bool b, .leaf a => a == .bool b
  | .number n, .leaf a => a == .number n
  | .string s, .leaf a => a == .string s
  | .array xs, .sequence ts => areItems xs ts
  | .object es, .mapping ts => areEntries es ts
  | _, _ => false

/-- Whether data is that of the items of an array. -/
def areItems : List Json → List Datum → Bool
  | [], [] => true
  | x :: xs, t :: ts => isDatum x t && areItems xs ts
  | _, _ => false

/-- Whether data is that of the entries of an object. -/
def areEntries : List (String × Json) → List (Datum × Datum) → Bool
  | [], [] => true
  | e :: es, (.leaf a, t) :: ts => a == .string e.1 && isDatum e.2 t && areEntries es ts
  | _, _ => false

end

mutual

theorem eq_of_isDatum : ∀ {j : Json} {t : Datum}, j.isDatum t = true → t = j.toDatum
  | .null, .leaf a, h | .bool _, .leaf a, h | .number _, .leaf a, h | .string _, .leaf a, h => by
    rw [isDatum, beq_iff_eq] at h
    rw [h, toDatum]
  | .array xs, .sequence ts, h => by
    rw [isDatum] at h
    rw [eq_of_areItems h, toDatum]
  | .object es, .mapping ts, h => by
    rw [isDatum] at h
    rw [eq_of_areEntries h, toDatum]

theorem eq_of_areItems : ∀ {xs : List Json} {ts : List Datum}, areItems xs ts = true →
    ts = itemsToData xs
  | [], [], _ => rfl
  | x :: xs, t :: ts, h => by
    rw [areItems, Bool.and_eq_true] at h
    rw [eq_of_isDatum h.1, eq_of_areItems h.2, itemsToData]

theorem eq_of_areEntries : ∀ {es : List (String × Json)} {ts : List (Datum × Datum)},
    areEntries es ts = true → ts = entriesToData es
  | [], [], _ => rfl
  | e :: es, (.leaf a, t) :: ts, h => by
    rw [areEntries, Bool.and_eq_true, Bool.and_eq_true, beq_iff_eq] at h
    rw [h.1.1, eq_of_isDatum h.1.2, eq_of_areEntries h.2, entriesToData]

end

theorem eq_some_of_isDatum {o : Option Datum} {j : Json} (h : o.any j.isDatum = true) :
    o = some j.toDatum := by
  cases o with
  | none => cases h
  | some t => rw [eq_of_isDatum h]

theorem jsonItems?_itemsToData {xs : List Json} (h : ∀ x ∈ xs, x.toDatum.json? = some x) :
    Tree.jsonItems? (itemsToData xs) = some xs := by
  induction xs with
  | nil => rfl
  | cons x xs ih =>
    have hx := h x List.mem_cons_self
    have hxs := ih fun y hy => h y (List.mem_cons_of_mem _ hy)
    rw [itemsToData, Tree.jsonItems?, hx, hxs]

theorem jsonEntries?_entriesToData {es : Entries Json}
    (h : ∀ e ∈ es, e.2.toDatum.json? = some e.2) :
    Tree.jsonEntries? (entriesToData es) = some es := by
  induction es with
  | nil => rfl
  | cons e es ih =>
    have he := h e List.mem_cons_self
    have hes := ih fun f hf => h f (List.mem_cons_of_mem _ hf)
    rw [entriesToData, Tree.jsonEntries?, he, hes]
    rfl

end Json

namespace Tree

variable {α : Type} [Leaf α]

theorem json?_scalarToJson (v : Scalar) : (v.toJson).toDatum.json? = some v.toJson := by
  rcases v with _ | _ | (n | x) | _ | _ <;> try rfl
  by_cases hx : x.isFinite
  · simp only [Scalar.toJson, hx, if_true, Json.toDatum, json?, Leaf.scalar?, Option.map_some]
  · simp only [Scalar.toJson, hx]
    rfl

mutual

/-- **A free JSON value is read back.**  Reading sorts its objects and drops what has no JSON text,
so reading again finds nothing left to do. -/
theorem json?_toDatum : ∀ {t : Tree α} {j : Json}, t.json? = some j → j.toDatum.json? = some j
  | .leaf a, j, h => by
    obtain ⟨v, -, rfl⟩ := Option.map_eq_some_iff.1 h
    exact json?_scalarToJson v
  | .sequence items, j, h => by
    obtain ⟨js, hjs, rfl⟩ := Option.map_eq_some_iff.1 h
    rw [Json.toDatum, json?, Json.jsonItems?_itemsToData (json?_of_jsonItems? hjs)]
    rfl
  | .mapping entries, j, h => by
    obtain ⟨es, hes, rfl⟩ := Option.map_eq_some_iff.1 h
    have hvalues : ∀ e ∈ Json.sortEntries es, e.2.toDatum.json? = some e.2 := fun e he =>
      json?_of_jsonEntries? hes e (Json.mem_of_mem_sortEntries he)
    rw [Json.toDatum, json?, Json.jsonEntries?_entriesToData hvalues, Option.map_some,
      Json.sortEntries_of_increasing (Json.increasing_sortEntries es)]

theorem json?_of_jsonItems? : ∀ {ts : List (Tree α)} {js : List Json}, jsonItems? ts = some js →
    ∀ j ∈ js, j.toDatum.json? = some j
  | [], _, h => by obtain rfl := Option.some.inj h; simp
  | t :: ts, js, h => by
    rw [jsonItems?] at h
    split at h
    · next j rest hj hrest =>
      obtain rfl := Option.some.inj h
      rw [List.forall_mem_cons]
      exact ⟨json?_toDatum hj, json?_of_jsonItems? hrest⟩
    · cases h

theorem json?_of_jsonEntries? : ∀ {es : List (Tree α × Tree α)} {js : Entries Json},
    jsonEntries? es = some js → ∀ e ∈ js, e.2.toDatum.json? = some e.2
  | [], _, h => by obtain rfl := Option.some.inj h; simp
  | e :: es, js, h => by
    rw [jsonEntries?] at h
    split at h
    · next k j rest _ hj hrest =>
      obtain rfl := Option.some.inj h
      rw [List.forall_mem_cons]
      exact ⟨json?_toDatum hj, json?_of_jsonEntries? hrest⟩
    · cases h

end

section Again

variable {β : Type}

/-- A value is read back when its data is read as it. -/
def ReadsBack (back : Datum → Option β) (write : β → Json) (x : β) : Prop :=
  back (write x).toDatum = some x

theorem readsBack_string (x : String) : ReadsBack text? .string x := rfl

theorem readsBack_bool (b : Bool) : ReadsBack flag? .bool b := rfl

variable {read : Tree α → Option β} {back : Datum → Option β} {write : β → Json}

theorem of_optional?_eq_some {t : Tree α} {x : β} (h : t.optional? read = some (some x)) :
    read t = some x := by
  cases t with
  | leaf a =>
    rw [optional?] at h
    split at h
    · cases h
    · obtain ⟨y, hy, hxy⟩ := Option.map_eq_some_iff.1 h
      rw [hy, hxy]
    · cases h
  | _ =>
    obtain ⟨y, hy, hxy⟩ := Option.map_eq_some_iff.1 h
    rw [hy, hxy]

/-- What is not `null` is there. -/
theorem optional?_toDatum {j : Json} (hj : j ≠ .null) :
    j.toDatum.optional? back = (back j.toDatum).map some := by
  cases j with
  | null => exact absurd rfl hj
  | _ => rfl

theorem of_list?_eq_some {t : Tree α} {xs : List β} (h : t.list? read = some xs) {x : β}
    (hx : x ∈ xs) : ∃ t', read t' = some x := by
  obtain ⟨items, -, h⟩ := Option.bind_eq_some_iff.1 h
  obtain ⟨t', -, ht'⟩ := exists_of_mem_mapM h hx
  exact ⟨t', ht'⟩

theorem of_map?_eq_some {t : Tree α} {es : Entries β} (h : t.map? read = some es) :
    es.keys.Nodup ∧ ∀ e ∈ es, ∃ t', read t' = some e.2 := by
  obtain ⟨entries, -, h⟩ := Option.bind_eq_some_iff.1 h
  obtain ⟨pairs, hpairs, rfl⟩ := Option.map_eq_some_iff.1 h
  refine ⟨Entries.nodup_keys_ofList pairs, fun e he => ?_⟩
  obtain ⟨entry, -, hentry⟩ := exists_of_mem_mapM hpairs (Entries.mem_of_mem_ofList he)
  rw [readPair?] at hentry
  split at hentry
  · next k v _ hv =>
    obtain rfl := Option.some.inj hentry
    exact ⟨entry.2, hv⟩
  · cases hentry

/-- A list is read back if its elements are. -/
theorem readsBack_list {xs : List β} (h : ∀ x ∈ xs, ReadsBack back write x) :
    ReadsBack (list? back) (fun xs => .array (xs.map write)) xs := by
  have hitems : (Json.array (xs.map write)).toDatum.items? =
      some (xs.map fun x => (write x).toDatum) := by
    rw [Json.toDatum, Json.itemsToData_eq, List.map_map]
    rfl
  rw [ReadsBack, list?, hitems]
  exact mapM_map_of_forall h

/-- A map is read back, in its order, if its values are and no key comes twice. -/
theorem readsBack_map {es : Entries β} (hn : es.keys.Nodup)
    (h : ∀ e ∈ es, ReadsBack back write e.2) :
    ReadsBack (map? back) (OpenApi.mapToJson write) es := by
  have hentries : (OpenApi.mapToJson write es).toDatum.entries? =
      some (es.map fun e => (.leaf (.string e.1), (write e.2).toDatum)) := by
    rw [OpenApi.mapToJson, Json.toDatum, Json.entriesToData_eq, List.map_map]
    rfl
  have hpairs : (es.map fun e => ((.leaf (.string e.1) : Datum), (write e.2).toDatum)).mapM
      (readPair? back) = some es := by
    refine mapM_map_of_forall fun e he => ?_
    rw [readPair?, show back (write e.2).toDatum = some e.2 from h e he]
    rfl
  rw [ReadsBack, map?, hentries, Option.bind_some, hpairs, Option.map_some,
    Entries.ofList_of_nodup hn]

end Again

end Tree

namespace Record

variable {α β : Type} [Leaf α] {read : Tree α → Option β} {back : Datum → Option β}
  {write : β → Json} {r : Entries (Tree α)} {name : String}

/-- The fields are those of a written object. -/
def Presents (r : Entries Datum) (j : Json) : Prop :=
  ∀ name, r.at? name = (j.field? name).map Json.toDatum

/-- **Every field that is written is found.** -/
theorem exists_record? (fields : List Field) {j : Json} {es : Entries Json} (hj : j = .object es)
    (hkeys : es.keys.Sublist (fields.map (·.name))) (hn : (fields.map (·.name)).Nodup) :
    ∃ r, j.toDatum.record? fields = some r ∧ Presents r j := by
  subst hj
  have hnodup : es.keys.Nodup := hkeys.nodup hn
  have hnames : ∀ k ∈ es.keys, ∃ f ∈ fields, f.name = k := fun k hk =>
    List.mem_map.1 (hkeys.subset hk)
  clear hkeys hn
  refine ⟨es.map fun e => (e.1, e.2.toDatum), ?_,
    fun name => Entries.at?_map (fun _ => Json.toDatum) es name⟩
  change Tree.fieldsOfEntries? fields (Json.entriesToData es) = _
  induction es with
  | nil => rfl
  | cons e es ih =>
    rw [Entries.keys, List.map_cons] at hnodup hnames
    obtain ⟨hfresh, hrest⟩ := List.nodup_cons.1 hnodup
    have hes := ih hrest fun k hk => hnames k (List.mem_cons_of_mem _ hk)
    have hkey : Field.ofKey? fields (.name e.1) = some e.1 := by
      obtain ⟨f, hf, hfe⟩ := hnames e.1 List.mem_cons_self
      have hfound : (fields.find? (·.name == e.1)).isSome := by
        rw [List.find?_isSome]
        exact ⟨f, hf, by simp [hfe]⟩
      obtain ⟨g, hg⟩ := Option.isSome_iff_exists.1 hfound
      have hge : g.name = e.1 := by simpa using List.find?_some hg
      rw [Field.ofKey?, hg, Option.map_some, hge]
    have hnew : Entries.has (es.map fun e => (e.1, e.2.toDatum)) e.1 = false := by
      rw [Entries.has_eq_false]
      simpa [Entries.keys] using hfresh
    rw [Json.entriesToData, Tree.fieldsOfEntries?, hes]
    simp only [Tree.fieldKey?, Leaf.fieldKey?, hkey, hnew]
    rfl

section Written

variable {j : Json} {r' : Entries Datum} (hr : Presents r' j)

include hr

/-- A field that must be there is read back. -/
theorem required?_written {x : β} (hat : j.field? name = some (write x))
    (hx : Tree.ReadsBack back write x) : required? r' name back = some x := by
  rw [required?, hr, hat]
  exact hx

/-- A field that may be missing is read back. -/
theorem optional?_written {o : Option β} (hat : j.field? name = o.map write)
    (hnull : ∀ x, write x ≠ .null) (ho : ∀ x ∈ o, Tree.ReadsBack back write x) :
    optional? r' name back = some o := by
  rw [optional?, hr, hat]
  cases o with
  | none => rfl
  | some x =>
    have hx : back (write x).toDatum = some x := ho x rfl
    simp only [Option.map_some]
    rw [Tree.optional?_toDatum (hnull x), hx]
    rfl

/-- A field that always stands there, though it has a default, is read back. -/
theorem withDefault?_written {x d : β} (hat : j.field? name = some (write x))
    (hx : Tree.ReadsBack back write x) : withDefault? r' name d back = some x := by
  rw [withDefault?, hr, hat]
  exact hx

/-- A list that is left out when it is empty is read back. -/
theorem list_written {xs : List β}
    (hat : j.field? name = if xs ≠ [] then some (.array (xs.map write)) else none)
    (hxs : ∀ x ∈ xs, Tree.ReadsBack back write x) :
    withDefault? r' name [] (Tree.list? back) = some xs := by
  cases xs with
  | nil => rw [withDefault?, hr, hat]; rfl
  | cons x xs =>
    rw [if_pos (List.cons_ne_nil x xs)] at hat
    exact withDefault?_written hr hat (Tree.readsBack_list hxs)

/-- A map that is left out when it is empty is read back in its order. -/
theorem map_written {m : Entries β}
    (hat : j.field? name = if m ≠ [] then some (OpenApi.mapToJson write m) else none)
    (hn : m.keys.Nodup) (hm : ∀ e ∈ m, Tree.ReadsBack back write e.2) :
    withDefault? r' name [] (Tree.map? back) = some m := by
  cases m with
  | nil => rw [withDefault?, hr, hat]; rfl
  | cons e m =>
    rw [if_pos (List.cons_ne_nil e m)] at hat
    exact withDefault?_written hr hat (Tree.readsBack_map hn hm)

theorem text_written {x : String} (hat : j.field? name = some (.string x)) :
    required? r' name Tree.text? = some x :=
  required?_written hr hat (Tree.readsBack_string x)

theorem optionalText_written {o : Option String} (hat : j.field? name = o.map .string) :
    optional? r' name Tree.text? = some o :=
  optional?_written hr hat (fun _ => Json.noConfusion) fun x _ => Tree.readsBack_string x

theorem optionalFlag_written {o : Option Bool} (hat : j.field? name = o.map .bool) :
    optional? r' name Tree.flag? = some o :=
  optional?_written hr hat (fun _ => Json.noConfusion) fun b _ => Tree.readsBack_bool b

theorem texts_written {xs : List String}
    (hat : j.field? name = if xs ≠ [] then some (.array (xs.map .string)) else none) :
    withDefault? r' name [] (Tree.list? Tree.text?) = some xs :=
  list_written hr hat fun x _ => Tree.readsBack_string x

end Written

/-- A value that may be missing was read if it is there. -/
theorem of_optional?_eq_some {o : Option β} (h : optional? r name read = some o) {x : β}
    (hx : x ∈ o) : ∃ t, read t = some x := by
  obtain rfl : o = some x := hx
  rw [optional?] at h
  split at h
  · next t _ => exact ⟨t, Tree.of_optional?_eq_some h⟩
  · cases h

omit [Leaf α] in
theorem of_withDefault?_eq_some {x d : β} (h : withDefault? r name d read = some x) :
    (∃ t, read t = some x) ∨ x = d := by
  rw [withDefault?] at h
  split at h
  · next t _ => exact .inl ⟨t, h⟩
  · exact .inr (Option.some.inj h).symm

/-- The elements of a list that was read were read. -/
theorem of_list_eq_some {xs : List β} (h : withDefault? r name [] (Tree.list? read) = some xs)
    {x : β} (hx : x ∈ xs) : ∃ t, read t = some x := by
  rcases of_withDefault?_eq_some h with ⟨t, ht⟩ | rfl
  · exact Tree.of_list?_eq_some ht hx
  · simp at hx

/-- A map that was read has no key twice, and its values were read. -/
theorem of_map_eq_some {m : Entries β} (h : withDefault? r name [] (Tree.map? read) = some m) :
    m.keys.Nodup ∧ ∀ e ∈ m, ∃ t, read t = some e.2 := by
  rcases of_withDefault?_eq_some h with ⟨t, ht⟩ | rfl
  · exact Tree.of_map?_eq_some ht
  · simp [Entries.keys]

section Again

variable {j : Json} {r' : Entries Datum}
  (hread : ∀ {t : Tree α} {x : β}, read t = some x → Tree.ReadsBack back write x)

include hread

/-- A value that may be missing, once read, is read back. -/
theorem optional?_again {o : Option β} (h : optional? r name read = some o) (hr : Presents r' j)
    (hat : j.field? name = o.map write) (hnull : ∀ x, write x ≠ .null) :
    optional? r' name back = some o :=
  optional?_written hr hat hnull fun x hx => by
    obtain ⟨t, ht⟩ := of_optional?_eq_some h hx
    exact hread ht

/-- A list, once read, is read back. -/
theorem list_again {xs : List β} (h : withDefault? r name [] (Tree.list? read) = some xs)
    (hr : Presents r' j)
    (hat : j.field? name = if xs ≠ [] then some (.array (xs.map write)) else none) :
    withDefault? r' name [] (Tree.list? back) = some xs :=
  list_written hr hat fun x hx => by
    obtain ⟨t, ht⟩ := of_list_eq_some h hx
    exact hread ht

/-- A map, once read, is read back in its order. -/
theorem map_again {m : Entries β} (h : withDefault? r name [] (Tree.map? read) = some m)
    (hr : Presents r' j)
    (hat : j.field? name = if m ≠ [] then some (OpenApi.mapToJson write m) else none) :
    withDefault? r' name [] (Tree.map? back) = some m := by
  obtain ⟨hn, hm⟩ := of_map_eq_some h
  refine map_written hr hat hn fun e he => ?_
  obtain ⟨t, ht⟩ := hm e he
  exact hread ht

end Again

end Record

namespace OpenApi

variable {α : Type} {key name : String} {write : α → Json}

@[simp] theorem at?_entryOf (o : Option α) :
    Entries.at? (entryOf key write o) name = if name = key then o.map write else none := by
  cases o <;> simp [entryOf, Entries.at?_cons]

@[simp] theorem at?_entryOfList (xs : List α) :
    Entries.at? (entryOfList key write xs) name =
      if name = key ∧ xs ≠ [] then some (.array (xs.map write)) else none := by
  cases xs <;> simp [entryOfList, Entries.at?_cons]

@[simp] theorem at?_entryOfMap (es : List (String × α)) :
    Entries.at? (entryOfMap key write es) name =
      if name = key ∧ es ≠ [] then some (mapToJson write es) else none := by
  cases es <;> simp [entryOfMap, Entries.at?_cons]

theorem keys_entryOf (o : Option α) : (Entries.keys (entryOf key write o)).Sublist [key] := by
  cases o <;> simp [entryOf, Entries.keys]

theorem keys_entryOfList (xs : List α) :
    (Entries.keys (entryOfList key write xs)).Sublist [key] := by
  cases xs <;> simp [entryOfList, Entries.keys]

theorem keys_entryOfMap (es : List (String × α)) :
    (Entries.keys (entryOfMap key write es)).Sublist [key] := by
  cases es <;> simp [entryOfMap, Entries.keys]

/-- The keys of entries that are written one after another. -/
theorem keys_append_sublist {es fs : Entries Json} {keys : List String}
    (he : es.keys.Sublist [key]) (hf : fs.keys.Sublist keys) :
    (Entries.keys (es ++ fs)).Sublist (key :: keys) := by
  rw [Entries.keys_append]
  exact he.append hf

end OpenApi

end OpenApiClient
