/-
# Unions are merged

A union of types has the members of the types, each once and at its first place, and none of them is a union.
That is all there is to say of it, as no other type is like that (`MergeOf.unique`). So it does not matter
whether some of the types were united before (`unite_unite_cons`), and a type that may be missing may not be
missing twice. Members are the same if they are made the same way, and not if they are written the same way:
what is called `undefined` is no keyword, so that the word may be written twice (`not_undefinedOnce`).

Types that were united before have to be *opened* for that: a union among them has members, none of which is a
union. All types of schemas are, at any depth (`typeOf_opened`), since whatever the mapping makes a union of
goes through `unite`.
-/

import OpenApiClient.Proofs.Opening
import OpenApiClient.Proofs.Pruning
import OpenApiClient.Proofs.UniqueReading
import OpenApiClient.Proofs.Yields

namespace OpenApiClient

section Distinct

variable {α : Type} [DecidableEq α]

theorem distinct_concat (xs : List α) (x : α) : distinct (xs ++ [x]) = insertNew (distinct xs) x := by
  rw [distinct, insertAll_append]
  rfl

theorem distinct_of_nodup {xs : List α} (h : xs.Nodup) : distinct xs = xs := by
  induction xs using List.reverseRecOn with
  | nil => rfl
  | append_singleton xs x ih =>
    obtain ⟨hxs, -, hx⟩ := List.nodup_append.1 h
    rw [distinct_concat, ih hxs, insertNew_of_not_mem fun hmem => hx x hmem x (List.mem_singleton_self x) rfl]

/-- Repetitions may be removed before more is added. -/
theorem distinct_distinct_append (xs ys : List α) : distinct (distinct xs ++ ys) = distinct (xs ++ ys) := by
  have hagain : insertAll [] (distinct xs) = insertAll [] xs := distinct_of_nodup (nodup_distinct xs)
  rw [distinct, insertAll_append, hagain, distinct, insertAll_append]

/-- **Elements keep the order of their first places.** -/
theorem pairwise_distinct (xs : List α) : (distinct xs).Pairwise fun a b => xs.idxOf a < xs.idxOf b := by
  induction xs using List.reverseRecOn with
  | nil => exact .nil
  | append_singleton xs x ih =>
    have hstays : ∀ a ∈ distinct xs, (xs ++ [x]).idxOf a = xs.idxOf a := fun a ha =>
      List.idxOf_append_of_mem (mem_distinct.1 ha)
    have hbefore : (distinct xs).Pairwise fun a b => (xs ++ [x]).idxOf a < (xs ++ [x]).idxOf b :=
      ih.imp_of_mem fun ha hb hab => by rwa [hstays _ ha, hstays _ hb]
    rw [distinct_concat]
    by_cases hx : x ∈ distinct xs
    · rwa [insertNew_of_mem hx]
    · rw [insertNew_of_not_mem hx]
      refine List.pairwise_append.2 ⟨hbefore, List.pairwise_singleton _ _, fun a ha b hb => ?_⟩
      obtain rfl := List.mem_singleton.1 hb
      rw [hstays a ha, List.idxOf_append_of_notMem (mt mem_distinct.2 hx)]
      exact Nat.lt_add_right _ (List.idxOf_lt_length_of_mem (mem_distinct.1 ha))

end Distinct

namespace TypeScript
namespace Ty

/-- A union has a member, and none of its members is a union. -/
def Opened (t : Ty) : Prop := ∀ ms, t = .union ms → ms ≠ [] ∧ ∀ m ∈ ms, m.isUnion = false

theorem Opened.of_not {t : Ty} (h : t.isUnion = false) : t.Opened := by
  rintro ms rfl
  cases h

theorem Opened.ne_nil {t : Ty} (h : t.Opened) : t.unionMembers ≠ [] := by
  cases t with
  | union ms => exact (h ms rfl).1
  | _ => exact List.cons_ne_nil _ _

theorem Opened.isUnion_of_mem {t m : Ty} (h : t.Opened) (hm : m ∈ t.unionMembers) : m.isUnion = false := by
  cases t with
  | union ms => exact (h ms rfl).2 m hm
  | _ =>
    obtain rfl := List.mem_singleton.1 hm
    rfl

theorem Opened.flat {t : Ty} (h : t.Opened) : t.Flat := fun _ hm => unionMembers_of_not (h.isUnion_of_mem hm)

variable {ts xs ys : List Ty}

/-- The members of a union of opened types are theirs. -/
theorem unionMembers_unite_of_opened (h : ∀ t ∈ ts, t.Opened) (hne : ts ≠ []) :
    (unite ts).unionMembers = distinct (ts.flatMap unionMembers) := by
  rw [unionMembers_unite fun t ht => (h t ht).flat, if_neg]
  obtain ⟨t, ht⟩ := List.exists_mem_of_ne_nil _ hne
  exact fun hnil => (h t ht).ne_nil (List.flatMap_eq_nil_iff.1 hnil t ht)

/-- **Types may be united before others are added.** -/
theorem unite_unite_cons (h : ∀ t ∈ xs, t.Opened) (hne : xs ≠ []) (ys : List Ty) :
    unite (unite xs :: ys) = unite (xs ++ ys) := by
  have hmembers := unionMembers_unite_of_opened h hne
  rw [unite, List.flatMap_cons, hmembers, distinct_distinct_append, ← List.flatMap_append]
  rfl

/-- The type is what becomes of some types that are united. -/
structure MergeOf (ts : List Ty) (t : Ty) : Prop where
  /-- Its members are those of the types. -/
  mem : ∀ m, m ∈ t.unionMembers ↔ ∃ u ∈ ts, m ∈ u.unionMembers
  /-- They are in the order of their first places there, so that none is repeated. -/
  order : t.unionMembers.Pairwise fun a b =>
    (ts.flatMap unionMembers).idxOf a < (ts.flatMap unionMembers).idxOf b
  opened : ∀ m ∈ t.unionMembers, m.isUnion = false
  /-- It is a union only if it has two members at least. -/
  several : ∀ ms, t = .union ms → 2 ≤ ms.length

theorem MergeOf.nodup {t : Ty} (h : MergeOf ts t) : t.unionMembers.Nodup :=
  h.order.imp fun {_ _} hab heq => absurd (heq ▸ hab) (Nat.lt_irrefl _)

/-- It is told by its members. -/
theorem MergeOf.ofMembers_eq {t : Ty} (h : MergeOf ts t) : ofMembers t.unionMembers = t := by
  cases t with
  | union ms =>
    match ms, h.several ms rfl with
    | _ :: _ :: _, _ => rfl
  | _ => rfl

/-- **Only one type is what becomes of some types that are united.** -/
theorem MergeOf.unique {t t' : Ty} (h : MergeOf ts t) (h' : MergeOf ts t') : t = t' := by
  have hperm : t.unionMembers.Perm t'.unionMembers :=
    (List.perm_ext_iff_of_nodup h.nodup h'.nodup).2 fun m => by rw [h.mem, h'.mem]
  have hmembers : t.unionMembers = t'.unionMembers :=
    hperm.eq_of_pairwise (fun _ _ _ _ hab hba => absurd (hab.trans hba) (Nat.lt_irrefl _)) h.order h'.order
  rw [← h.ofMembers_eq, hmembers, h'.ofMembers_eq]

theorem mergeOf_unite (h : ∀ t ∈ ts, t.Opened) (hne : ts ≠ []) : MergeOf ts (unite ts) := by
  have hmembers := unionMembers_unite_of_opened h hne
  have hopened : ∀ m ∈ distinct (ts.flatMap unionMembers), m.isUnion = false := fun m hm => by
    obtain ⟨t, ht, hm⟩ := List.mem_flatMap.1 (mem_distinct.1 hm)
    exact (h t ht).isUnion_of_mem hm
  refine ⟨fun m => by rw [hmembers, mem_distinct, List.mem_flatMap], ?_, hmembers ▸ hopened, fun ms hms => ?_⟩
  · rw [hmembers]
    exact pairwise_distinct _
  · rw [unite] at hms
    rcases hd : distinct (ts.flatMap unionMembers) with _ | ⟨t, _ | ⟨u, us⟩⟩
    · rw [hd] at hms
      cases hms
    · rw [hd] at hms hopened
      obtain rfl : t = .union ms := hms
      cases hopened _ (List.mem_singleton_self _)
    · rw [hd] at hms
      obtain rfl := Ty.union.inj hms
      simp

/-- Types add nothing to a union that has their members. -/
theorem unite_append_of_subset (h : ys.flatMap unionMembers ⊆ xs.flatMap unionMembers) :
    unite (xs ++ ys) = unite xs := by
  have hall : ys.flatMap unionMembers ⊆ insertAll [] (xs.flatMap unionMembers) := fun m hm => mem_distinct.2 (h hm)
  rw [unite, unite, List.flatMap_append, distinct, distinct, insertAll_append, insertAll_of_subset hall]

section Missing

variable {t : Ty} (h : t.Opened)
include h

theorem opened_or_undefined : ∀ u ∈ [t, .basic .undefined], u.Opened :=
  List.forall_mem_cons.2 ⟨h, List.forall_mem_singleton.2 (.of_not rfl)⟩

/-- **A type that may be missing may not be missing twice.** -/
theorem orUndefined_orUndefined : t.orUndefined.orUndefined = t.orUndefined :=
  calc t.orUndefined.orUndefined
    _ = unite ([t, basic .undefined] ++ [basic .undefined]) :=
      unite_unite_cons (opened_or_undefined h) (List.cons_ne_nil _ _) [.basic .undefined]
    _ = t.orUndefined := unite_append_of_subset (by simp [unionMembers])

theorem mergeOf_orUndefined : MergeOf [t, .basic .undefined] t.orUndefined :=
  mergeOf_unite (opened_or_undefined h) (List.cons_ne_nil _ _)

theorem mem_unionMembers_orUndefined {m : Ty} :
    m ∈ t.orUndefined.unionMembers ↔ m ∈ t.unionMembers ∨ m = .basic .undefined := by
  rw [(mergeOf_orUndefined h).mem]
  simp [unionMembers]

/-- The keyword `undefined` is one of its members once. -/
theorem count_orUndefined : t.orUndefined.unionMembers.count (.basic .undefined) = 1 :=
  List.count_eq_one_of_mem (mergeOf_orUndefined h).nodup ((mem_unionMembers_orUndefined h).2 (.inr rfl))

/-- **The word is written once** exactly if nothing else in the type is written so. -/
theorem count_texts_orUndefined : (texts t.orUndefined.unionMembers).count "undefined" = 1 ↔
    ∀ m ∈ t.unionMembers, m.text = "undefined" → m = .basic .undefined := by
  have hmem := @mem_unionMembers_orUndefined t h
  rw [texts_eq, List.count_eq_countP, List.countP_map]
  constructor
  · intro hone m hm htext
    rw [List.countP_eq_length_filter, List.length_eq_one_iff] at hone
    obtain ⟨u, hu⟩ := hone
    have hsingle : ∀ m' ∈ t.orUndefined.unionMembers, m'.text = "undefined" → m' = u := fun m' hm' htext' =>
      List.mem_singleton.1 (hu ▸ List.mem_filter.2 ⟨hm', by simp [htext']⟩)
    exact (hsingle m (hmem.2 (.inl hm)) htext).trans (hsingle _ (hmem.2 (.inr rfl)) rfl).symm
  · intro hword
    rw [← count_orUndefined h, List.count_eq_countP]
    refine List.countP_congr fun m hm => ?_
    have honly : m.text = "undefined" → m = .basic .undefined := fun htext =>
      (hmem.1 hm).elim (fun hm => hword m hm htext) id
    simpa using ⟨honly, fun heq => heq ▸ rfl⟩

end Missing

/-- What is written of a type are its members. -/
theorem text_eq_intercalate (t : Ty) : t.text = " | ".intercalate (texts t.unionMembers) := by
  cases t with
  | union ms => rw [text, unionMembers]
  | _ => simp [unionMembers, texts]

/-- The types that a type is made of. -/
def constituents : Ty → List Ty
  | .basic _ | .literal _ => []
  | .named _ args => args
  | .array t => [t]
  | .record k v => [k, v]
  | .union ts | .intersection ts => ts
  | .object ps => ps.map (·.type)

/-- Every union in the type, at any depth, is opened. -/
def OpenedWithin (t : Ty) : Prop := ∀ u : Ty, u.Within t → u.Opened

theorem within_constituents {t u : Ty} (h : u.Within t) : u = t ∨ ∃ p ∈ t.constituents, u.Within p := by
  cases h with
  | self => exact .inl rfl
  | argument hp h | member hp h | operand hp h => exact .inr ⟨_, hp, h⟩
  | item h => exact .inr ⟨_, List.mem_singleton_self _, h⟩
  | key h => exact .inr ⟨_, List.mem_cons_self, h⟩
  | value h => exact .inr ⟨_, List.mem_cons_of_mem _ (List.mem_singleton_self _), h⟩
  | property hp h => exact .inr ⟨_, List.mem_map_of_mem hp, h⟩

theorem OpenedWithin.of_constituents {t : Ty} (ht : t.Opened) (h : ∀ p ∈ t.constituents, p.OpenedWithin) :
    t.OpenedWithin := fun u hu => by
  rcases within_constituents hu with rfl | ⟨p, hp, hu⟩
  · exact ht
  · exact h p hp u hu

theorem OpenedWithin.basic (keyword : Basic) : (Ty.basic keyword).OpenedWithin :=
  .of_constituents (.of_not rfl) (by simp [constituents])

theorem OpenedWithin.named {name : String} {args : List Ty} (h : ∀ a ∈ args, a.OpenedWithin) :
    (Ty.named name args).OpenedWithin := .of_constituents (.of_not rfl) h

theorem OpenedWithin.array {t : Ty} (h : t.OpenedWithin) : (Ty.array t).OpenedWithin :=
  .of_constituents (.of_not rfl) (List.forall_mem_singleton.2 h)

theorem OpenedWithin.record {k v : Ty} (hk : k.OpenedWithin) (hv : v.OpenedWithin) : (Ty.record k v).OpenedWithin :=
  .of_constituents (.of_not rfl) (List.forall_mem_cons.2 ⟨hk, List.forall_mem_singleton.2 hv⟩)

theorem OpenedWithin.object {ps : List Property} (h : ∀ p ∈ ps, p.type.OpenedWithin) : (Ty.object ps).OpenedWithin :=
  .of_constituents (.of_not rfl) (List.forall_mem_map.2 h)

theorem OpenedWithin.of_mem {t m : Ty} (h : t.OpenedWithin) (hm : m ∈ t.unionMembers) : m.OpenedWithin := by
  cases t with
  | union ms => exact fun u hu => h u (.member hm hu)
  | _ =>
    obtain rfl := List.mem_singleton.1 hm
    exact h

/-- **A union of types** is opened at any depth if they are. -/
theorem OpenedWithin.unite (h : ∀ t ∈ ts, t.OpenedWithin) : (unite ts).OpenedWithin := by
  have hmembers : ∀ m ∈ distinct (ts.flatMap unionMembers), m.OpenedWithin ∧ m.isUnion = false := fun m hm => by
    obtain ⟨t, ht, hm⟩ := List.mem_flatMap.1 (mem_distinct.1 hm)
    exact ⟨(h t ht).of_mem hm, (h t ht t .self).isUnion_of_mem hm⟩
  rw [Ty.unite]
  rcases hd : distinct (ts.flatMap unionMembers) with _ | ⟨t, _ | ⟨u, us⟩⟩
  · exact .basic .unknown
  · exact (hmembers t (hd ▸ List.mem_singleton_self t)).1
  · rw [hd] at hmembers
    refine .of_constituents (t := .union _) (fun ms hms => ?_) fun m hm => (hmembers m hm).1
    obtain rfl := Ty.union.inj hms
    exact ⟨List.cons_ne_nil _ _, fun m hm => (hmembers m hm).2⟩

end Ty
end TypeScript

namespace Client

open OpenApi TypeScript

/-- What is said of each result is said of all. -/
theorem Mapping.Yields.forall_mapM {α β : Type} {P : β → Prop} {f : α → Mapping β} {xs : List α}
    (h : ∀ x ∈ xs, (f x).Yields P) : (xs.mapM f).Yields fun ys => ∀ y ∈ ys, P y := by
  induction xs with
  | nil => exact .pure (by simp)
  | cons x xs ih =>
    rw [List.mapM_cons]
    refine (h x List.mem_cons_self).bind fun y hy => ?_
    exact (ih fun x hx => h x (List.mem_cons_of_mem _ hx)).bind fun ys hys =>
      .pure (List.forall_mem_cons.2 ⟨hy, hys⟩)

namespace TypeContext

variable (c : TypeContext)

theorem opened_padded {args : List Ty} (h : ∀ a ∈ args, a.OpenedWithin) (n : Nat) :
    ∀ a ∈ padded args n, a.OpenedWithin := fun a ha => by
  rcases List.mem_append.1 ha with ha | ha
  · exact h a ha
  · obtain rfl := List.eq_of_mem_replicate ha
    exact .basic _

theorem reference_opened (component : String) {args : List Ty} (hargs : ∀ a ∈ args, a.OpenedWithin) :
    (c.reference component args).Yields Ty.OpenedWithin := by
  have hpadded := opened_padded hargs
  unfold reference
  split
  · split
    · exact (Mapping.Yields.of_any _).bind fun _ _ => .pure (.named hargs)
    · exact .pure (.named hargs)
  · refine (Mapping.Yields.of_any _).bind fun schema _ => ?_
    dsimp only
    split
    · exact .pure (.named (hpadded _))
    · exact (Mapping.Yields.of_any _).bind fun _ _ =>
        (Mapping.Yields.of_any _).bind fun _ _ => .pure (.named (hpadded _))

theorem pointee_opened (pointer : String) {args : Mapping (List Ty)}
    (hargs : args.Yields fun ts => ∀ a ∈ ts, a.OpenedWithin) : (c.pointee pointer args).Yields Ty.OpenedWithin :=
  (Mapping.Yields.of_any _).bind fun _ _ => hargs.bind fun _ hts => c.reference_opened _ hts

section Objects

variable {c} {s : SchemaOf Nested} (h : ∀ p ∈ s.children, p.2.Yields Ty.OpenedWithin)

theorem orNothing_opened {p : Nested} (hp : p.2.Yields Ty.OpenedWithin) : (orNothing p).Yields Ty.OpenedWithin := by
  refine hp.bind fun t ht => .pure ?_
  split
  · exact .unite (List.forall_mem_cons.2 ⟨ht, List.forall_mem_singleton.2 (.basic _)⟩)
  · exact ht

include h

theorem propertiesOf_opened : (propertiesOf s).Yields fun ps => ∀ p ∈ ps, p.type.OpenedWithin :=
  .forall_mapM fun e he => (h e.2 (SchemaOf.mem_children.2 (.inl ⟨e.1, he⟩))).bind fun _ ht => .pure ht

theorem ofObjectKeyword_opened : (ofObjectKeyword s).Yields Ty.OpenedWithin := by
  unfold ofObjectKeyword
  split
  · exact (propertiesOf_opened h).bind fun _ hps => .pure (.object hps)
  · split
    · next p hp =>
      have hvalue := orNothing_opened (h p (SchemaOf.mem_children.2 (by tauto)))
      exact hvalue.bind fun _ hv => .pure (.record (.basic _) hv)
    · exact .pure (.record (.basic _) (.basic _))
    · refine .pure ?_
      split
      · exact .record (.basic _) (.basic _)
      · exact .basic _

theorem ofKeyword_opened : (ofKeyword s).Yields Ty.OpenedWithin := by
  unfold ofKeyword
  rcases s.singleType? with _ | (_ | _ | _ | _ | _ | _ | _)
  case none | some.object => exact ofObjectKeyword_opened h
  case some.string =>
    dsimp only
    split
    · exact .pure (.named (by simp))
    · exact .pure (.basic _)
  case some.array =>
    dsimp only
    split
    · next p hp =>
      have hitem := orNothing_opened (h p (SchemaOf.mem_children.2 (by tauto)))
      exact hitem.bind fun _ ht => .pure (.array ht)
    · exact .pure (.array (.basic _))
  all_goals exact .pure (.basic _)

theorem ofAll_opened : (ofAll s).Yields Ty.OpenedWithin := by
  have hparts : Mapping.Yields (s.allOf.mapM (·.2)) fun ts => ∀ t ∈ ts, t.OpenedWithin :=
    .forall_mapM fun p hp => h p (SchemaOf.mem_children.2 (by tauto))
  refine hparts.bind fun parts hps => (propertiesOf_opened h).bind fun own hown => ?_
  have hobject : ∀ t ∈ if own.isEmpty then [] else [Ty.object own], t.OpenedWithin := by
    split
    · simp
    · exact List.forall_mem_singleton.2 (.object hown)
  have hall := List.forall_mem_append.2 ⟨hps, hobject⟩
  split
  · next t hsingle => exact .pure (hall t (hsingle ▸ List.mem_singleton_self t))
  · exact .pure (.of_constituents (.of_not rfl) hall)

/-- **The type of an object** is opened at any depth if those of the schemas inside it are. -/
theorem ofObject_opened : (c.ofObject s).Yields Ty.OpenedWithin := by
  unfold ofObject
  split
  · exact .pure (.named (by simp))
  split
  · refine c.pointee_opened _ (.forall_mapM fun p hp => orNothing_opened (h p ?_))
    cases hargs : s.typeArguments with
    | none => simp [hargs] at hp
    | some args => exact SchemaOf.mem_children.2 (by simp_all)
  split
  · refine (Mapping.Yields.forall_mapM fun p hp => ?_).bind fun ts hts => .pure (.unite hts)
    have hp := List.mem_append.1 (List.mem_filter.1 hp).1
    exact h p (SchemaOf.mem_children.2 (by tauto))
  split
  · exact ofAll_opened h
  split
  · refine .pure (.unite (List.forall_mem_map.2 fun v _ => ?_))
    cases v <;> exact .of_constituents (.of_not rfl) (by simp [ofValue, Ty.constituents])
  · exact ofKeyword_opened h

end Objects

/-- **Every type of a schema is opened**, at any depth. -/
theorem typeOf_opened (x : Schema) : (c.typeOf x).Yields Ty.OpenedWithin := by
  induction x using Schema.induct with
  | ref pointer =>
    rw [typeOf, Schema.para_ref]
    exact c.pointee_opened pointer (.pure (by simp))
  | inline s ih =>
    rw [typeOf, Schema.para_inline]
    refine ofObject_opened fun p hp => ?_
    rw [SchemaOf.children_map] at hp
    obtain ⟨x, hx, rfl⟩ := List.mem_map.1 hp
    exact ih x hx

theorem nullableTypeOf_opened (x : Schema) : (c.nullableTypeOf x).Yields Ty.OpenedWithin :=
  orNothing_opened (p := c.typed x) (c.typeOf_opened x)

end TypeContext

/-- **Unions are merged.** To unite some opened types with what others are united to is to unite them all. The
union of all is the only type that has their members at their first places, none of which is a union, and that
is a union only of two members at least. A type that may be missing has the keyword `undefined` once, however
often it may be missing. What is written of it are its members, and the word `undefined` is written once
exactly if no other member of the type is written so. The types of schemas are opened, and so are all types in
them. -/
theorem unite_merges {xs ys : List Ty} (h : ∀ t ∈ xs ++ ys, t.Opened) (hne : xs ≠ []) :
    Ty.unite (Ty.unite xs :: ys) = Ty.unite (xs ++ ys) ∧
    (Ty.unite (xs ++ ys)).unionMembers.Nodup ∧ (∀ t, t = Ty.unite (xs ++ ys) ↔ Ty.MergeOf (xs ++ ys) t) ∧
    (∀ t ∈ xs ++ ys, t.orUndefined.orUndefined = t.orUndefined ∧
      t.orUndefined.unionMembers.count (.basic .undefined) = 1 ∧
      t.orUndefined.text = " | ".intercalate (Ty.texts t.orUndefined.unionMembers) ∧
      ((Ty.texts t.orUndefined.unionMembers).count "undefined" = 1 ↔
        ∀ m ∈ t.unionMembers, m.text = "undefined" → m = .basic .undefined)) ∧
    ∀ (c : TypeContext) (x : Schema), (c.nullableTypeOf x).Yields fun t => ∀ u : Ty, u.Within t → u.Opened := by
  have hmerge : Ty.MergeOf (xs ++ ys) (Ty.unite (xs ++ ys)) := Ty.mergeOf_unite h (by simp [hne])
  refine ⟨Ty.unite_unite_cons (fun t ht => h t (List.mem_append_left _ ht)) hne ys, hmerge.nodup, fun t => ?_, ?_, ?_⟩
  · exact ⟨fun heq => heq ▸ hmerge, fun ht => ht.unique hmerge⟩
  · intro t ht
    exact ⟨Ty.orUndefined_orUndefined (h t ht), Ty.count_orUndefined (h t ht), Ty.text_eq_intercalate _,
      Ty.count_texts_orUndefined (h t ht)⟩
  · exact fun c x => c.nullableTypeOf_opened x

/-- Two choices that share a type and may both be missing. -/
theorem unite_merges_overlappingChoices :
    let xs : List Ty := [.union [.ref "Cat", .basic .undefined], .ref "Dog"]
    let ys : List Ty := [.union [.ref "Dog", .ref "Fish", .basic .undefined], .ref "Cat"]
    (∀ t ∈ xs ++ ys, t.Opened) ∧ xs ≠ [] ∧ Ty.unite (Ty.unite xs :: ys) = Ty.unite (xs ++ ys) ∧
      Ty.unite (xs ++ ys) = .union [.ref "Cat", .basic .undefined, .ref "Dog", .ref "Fish"] := by
  intro xs ys
  have hopened : ∀ t ∈ xs ++ ys, t.Opened := by
    simp [xs, ys, Ty.Opened, Ty.isUnion, Ty.ref]
  exact ⟨hopened, List.cons_ne_nil _ _, (unite_merges hopened (List.cons_ne_nil _ _)).1, by decide⟩

/-- **A type that is missing twice over**: a type parameter has the name of the keyword, and may be missing. -/
theorem not_undefinedOnce :
    let c : TypeContext := { components := {}, transfers := [] }
    let s : Schema := .inline { typeVariable := some "undefined", nullable := some true }
    let f : Module.File := ⟨"E.ts", "backbone", .ofFile "E.ts" ".js" .whenTaken, []⟩
    let t : Ty := .union [.ref "undefined", .basic .undefined]
    (c.nullableTypeOf s).inFile f = .ok (t, f, []) ∧ t = (Ty.ref "undefined").orUndefined ∧
      t.text = "undefined | undefined" := by
  intro c s f t
  exact ⟨rfl, by decide, by decide +kernel⟩

end Client
end OpenApiClient
