/-
# Opening choices

To find the leaves of a polymorphic base its alternatives are visited first to last, and an alternative
that is a choice itself is opened in turn, unless a type of the client stands for it (`opened?`). Choices
may refer to each other in circles, and a component may be reached in many ways; the search visits it
once, and does not come back to the base.

What the search finds is told here without a record of what was visited. `Below` says which components
are reached. `walk` goes down every path that does not come back to a component on it, so that it ends
although it may list a component often; the search visits the components at their first places on the walk
(`Leaves.visits`). So the leaves are the components below the base that are not opened, in that order, if
every alternative on the way is a reference, and else there are none (`leavesOf_spec`).
-/

import OpenApiClient.Proofs.Irrelevance

namespace OpenApiClient

theorem insertNew_of_mem {α : Type} [DecidableEq α] {xs : List α} {x : α} (h : x ∈ xs) :
    insertNew xs x = xs := if_pos h

theorem insertNew_of_not_mem {α : Type} [DecidableEq α] {xs : List α} {x : α} (h : x ∉ xs) :
    insertNew xs x = xs ++ [x] := if_neg h

theorem insertAll_cons {α : Type} [DecidableEq α] (xs : List α) (y : α) (ys : List α) :
    insertAll xs (y :: ys) = insertAll (insertNew xs y) ys := rfl

theorem insertAll_append {α : Type} [DecidableEq α] (xs ys zs : List α) :
    insertAll xs (ys ++ zs) = insertAll (insertAll xs ys) zs := List.foldl_append

/-- Elements that are there already change nothing. -/
theorem insertAll_of_subset {α : Type} [DecidableEq α] {xs ys : List α} (h : ys ⊆ xs) :
    insertAll xs ys = xs := by
  induction ys with
  | nil => rfl
  | cons y ys ih =>
    obtain ⟨hy, hys⟩ := List.cons_subset.1 h
    rw [insertAll_cons, insertNew_of_mem hy, ih hys]

namespace OpenApi

/-- The alternatives of a choice. -/
def SchemaOf.alternatives {α : Type} (s : SchemaOf α) : List α := s.oneOf ++ s.anyOf

/-- The component that a reference points at. -/
def Schema.referent? : Schema → Option String
  | .ref pointer => (componentName pointer).toOption
  | .inline _ => none

/-- The components that schemas refer to. -/
def referents (xs : List Schema) : List String := xs.filterMap Schema.referent?

/-- The schema is a reference. -/
def Schema.IsReference (x : Schema) : Prop := ∃ pointer, x = .ref pointer

theorem referents_ref {pointer name : String} (h : componentName pointer = .ok name)
    (xs : List Schema) : referents (.ref pointer :: xs) = name :: referents xs := by
  have hname : (Schema.ref pointer).referent? = some name := by rw [Schema.referent?, h]; rfl
  rw [referents, List.filterMap_cons_some hname, referents]

end OpenApi

namespace Client

open OpenApi

namespace TypeContext

variable (c : TypeContext)

/-- The alternatives of a component that is opened: it is a choice, and no type of the client stands for
it. -/
def opened? (name : String) : Option (List Schema) :=
  if c.transfers.has name then none
  else match c.components.schema name with
    | .ok s => if Schema.isUnion s then some s.alternatives else none
    | .error _ => none

/-- The component is one of the names, or an alternative of an opened component below them. -/
inductive Below (names : List String) : String → Prop
  | name {n : String} (h : n ∈ names) : Below names n
  | alternative {n m : String} {xs : List Schema} (h : Below names n) (hopened : c.opened? n = some xs)
      (hm : m ∈ referents xs) : Below names m

/-- All alternatives are references, and so are those of the opened components below them. -/
structure RefersOnly (xs : List Schema) : Prop where
  references : ∀ x ∈ xs, x.IsReference
  below : ∀ n ys, c.Below (referents xs) n → c.opened? n = some ys → ∀ y ∈ ys, y.IsReference

variable {c} {xs ys : List Schema} {names : List String} {n m : String}

theorem mem_keys_of_opened? (h : c.opened? n = some xs) : n ∈ c.components.schemas.keys := by
  unfold opened? at h
  split at h
  · cases h
  · split at h
    · next s hs => exact Components.Leads.mem_keys ⟨s, hs⟩
    · cases h

variable (c) in
/-- The components below the names, path by path: first to last, each followed by what is below it on a
path that does not come back. -/
def walk (path : List String) : (names : List String) → List String
  | [] => []
  | n :: names =>
    if hn : n ∈ path then walk path names
    else match h : c.opened? n with
      | none => n :: walk path names
      | some xs =>
        have := unvisited_lt (mem_keys_of_opened? h) hn
        n :: walk (n :: path) (referents xs) ++ walk path names
termination_by names => (unvisited c.components path, names.length)

variable {path : List String}

theorem walk_of_mem (hn : n ∈ path) : c.walk path (n :: names) = c.walk path names := by
  rw [walk, dif_pos hn]

theorem walk_of_leaf (hn : n ∉ path) (h : c.opened? n = none) :
    c.walk path (n :: names) = n :: c.walk path names := by
  rw [walk, dif_neg hn]
  split
  · rfl
  · next ho => cases h.symm.trans ho

theorem walk_of_opened (hn : n ∉ path) (h : c.opened? n = some xs) :
    c.walk path (n :: names) = n :: c.walk (n :: path) (referents xs) ++ c.walk path names := by
  rw [walk, dif_neg hn]
  split
  · next ho => cases h.symm.trans ho
  · next ho => rw [Option.some.inj (h.symm.trans ho)]

/-- What is below alternatives of a component is below the component. -/
theorem Below.of_opened (hn : c.Below names n) (ho : c.opened? n = some xs)
    (h : c.Below (referents xs) m) : c.Below names m := by
  induction h with
  | name hm => exact .alternative hn ho hm
  | alternative _ ho hm ih => exact .alternative ih ho hm

theorem Below.mono {names' : List String} (h : c.Below names n) (hsub : names ⊆ names') :
    c.Below names' n := by
  induction h with
  | name hn => exact .name (hsub hn)
  | alternative _ ho hm ih => exact .alternative ih ho hm

theorem RefersOnly.tail {x : Schema} (h : c.RefersOnly (x :: xs)) : c.RefersOnly xs where
  references y hy := h.references y (List.mem_cons_of_mem _ hy)
  below n ys hn := h.below n ys (hn.mono ((List.sublist_cons_self x xs).filterMap _).subset)

theorem RefersOnly.opened (h : c.RefersOnly xs) (hn : n ∈ referents xs) (ho : c.opened? n = some ys) :
    c.RefersOnly ys where
  references := h.below n ys (.name hn) ho
  below m zs hm := h.below m zs (.of_opened (.name hn) ho hm)

theorem not_mem_path_of_mem_walk (h : m ∈ c.walk path names) : m ∉ path := by
  induction path, names using walk.induct c with
  | case1 path => simp [walk] at h
  | case2 path n names hn ih => exact ih (walk_of_mem hn ▸ h)
  | case3 path n names hn ho ih =>
    rw [walk_of_leaf hn ho] at h
    rcases List.mem_cons.1 h with rfl | h
    · exact hn
    · exact ih h
  | case4 path n names hn xs ho _ ih ih' =>
    rw [walk_of_opened hn ho, List.cons_append] at h
    rcases List.mem_cons.1 h with rfl | h
    · exact hn
    · rcases List.mem_append.1 h with h | h
      · exact fun hm => ih h (List.mem_cons_of_mem _ hm)
      · exact ih' h

/-- A name that is not on the path is walked to. -/
theorem mem_walk (hm : m ∈ names) (hpath : m ∉ path) : m ∈ c.walk path names := by
  induction names with
  | nil => cases hm
  | cons n names ih =>
    by_cases hn : n ∈ path
    · rw [walk_of_mem hn]
      exact ih ((List.mem_cons.1 hm).resolve_left fun heq => hpath (heq ▸ hn))
    · cases ho : c.opened? n with
      | none =>
        rw [walk_of_leaf hn ho]
        exact List.mem_cons.2 ((List.mem_cons.1 hm).imp_right ih)
      | some xs =>
        rw [walk_of_opened hn ho, List.cons_append]
        exact List.mem_cons.2 ((List.mem_cons.1 hm).imp_right fun h => List.mem_append_right _ (ih h))

/-- The walk does not leave what is below the names. -/
theorem below_of_mem_walk (h : m ∈ c.walk path names) : c.Below names m := by
  induction path, names using walk.induct c with
  | case1 path => simp [walk] at h
  | case2 path n names hn ih =>
    exact (ih (walk_of_mem hn ▸ h)).mono (List.subset_cons_self _ _)
  | case3 path n names hn ho ih =>
    rw [walk_of_leaf hn ho] at h
    rcases List.mem_cons.1 h with rfl | h
    · exact .name List.mem_cons_self
    · exact (ih h).mono (List.subset_cons_self _ _)
  | case4 path n names hn xs ho _ ih ih' =>
    rw [walk_of_opened hn ho, List.cons_append] at h
    rcases List.mem_cons.1 h with rfl | h
    · exact .name List.mem_cons_self
    · rcases List.mem_append.1 h with h | h
      · exact .of_opened (.name List.mem_cons_self) ho (ih h)
      · exact (ih' h).mono (List.subset_cons_self _ _)

/-- The walk does not leave names that have the alternatives of theirs that are not on its path. -/
theorem walk_subset {V : List String}
    (hclosed : ∀ k ∈ V, k ∉ path → ∀ xs, c.opened? k = some xs → referents xs ⊆ V)
    (hnames : names ⊆ V) : c.walk path names ⊆ V := by
  induction path, names using walk.induct c with
  | case1 path => simp [walk]
  | case2 path n names hn ih =>
    rw [walk_of_mem hn]
    exact ih hclosed (List.cons_subset.1 hnames).2
  | case3 path n names hn ho ih =>
    rw [walk_of_leaf hn ho]
    obtain ⟨hin, hnames⟩ := List.cons_subset.1 hnames
    exact List.cons_subset.2 ⟨hin, ih hclosed hnames⟩
  | case4 path n names hn xs ho _ ih ih' =>
    rw [walk_of_opened hn ho, List.cons_append]
    obtain ⟨hin, hnames⟩ := List.cons_subset.1 hnames
    refine List.cons_subset.2 ⟨hin, List.append_subset.2 ⟨ih (fun k hk hpath => ?_) ?_, ih' hclosed hnames⟩⟩
    · exact hclosed k hk fun h => hpath (List.mem_cons_of_mem _ h)
    · exact hclosed n hin hn xs ho

end TypeContext

namespace Leaves

/-- An alternative is visited. -/
def visit (c : TypeContext) (fuel : Nat) (l : Leaves) : Schema → Search Leaves
  | .inline _ => failure
  | .ref pointer => do
    let name ← OptionT.lift (componentName pointer)
    if name ∈ l.visited then return l
    let l : Leaves := { l with visited := name :: l.visited }
    let leaf : Leaves := { l with found := l.found ++ [name] }
    if c.transfers.has name then return leaf
    let s ← OptionT.lift (c.components.schema name)
    if Schema.isUnion s then Leaves.with c fuel l s else return leaf

theorem with_succ (c : TypeContext) (fuel : Nat) (l : Leaves) (s : SchemaObject) :
    Leaves.with c (fuel + 1) l s = s.alternatives.foldlM (visit c fuel) l := by
  rw [Leaves.with]
  refine congrArg (fun f => List.foldlM f l s.alternatives) ?_
  funext l x
  cases x <;> rfl

variable {c : TypeContext} {l : Leaves} {pointer name : String} {xs : List Schema}

theorem run_visit_of_mem (fuel : Nat) (hp : componentName pointer = .ok name) (hmem : name ∈ l.visited) :
    (visit c fuel l (.ref pointer)).run = .ok (some l) := by
  rw [visit, Search.run_lift hp, if_pos hmem]
  rfl

theorem run_visit_of_leaf (fuel : Nat) (hp : componentName pointer = .ok name)
    (hl : c.components.Leads name) (hnew : name ∉ l.visited) (ho : c.opened? name = none) :
    (visit c fuel l (.ref pointer)).run =
      .ok (some { visited := name :: l.visited, found := l.found ++ [name] }) := by
  obtain ⟨s, hs⟩ := hl
  rw [visit, Search.run_lift hp, if_neg hnew]
  rw [TypeContext.opened?, hs] at ho
  dsimp only
  split
  · rfl
  · next hfree =>
    rw [if_neg hfree] at ho
    rw [Search.run_lift hs]
    split
    · next hu =>
      dsimp only at ho
      rw [if_pos hu] at ho
      cases ho
    · rfl

theorem run_visit_of_opened (fuel : Nat) (hp : componentName pointer = .ok name)
    (hnew : name ∉ l.visited) (ho : c.opened? name = some xs) :
    ∃ s, c.components.schema name = .ok s ∧ s.alternatives = xs ∧
      (visit c fuel l (.ref pointer)).run =
        (Leaves.with c fuel { l with visited := name :: l.visited } s).run := by
  unfold TypeContext.opened? at ho
  split at ho
  · cases ho
  next hfree =>
  split at ho
  · next s hs =>
    split at ho
    · next hu =>
      refine ⟨s, hs, Option.some.inj ho, ?_⟩
      rw [visit, Search.run_lift hp, if_neg hnew]
      dsimp only
      rw [if_neg hfree, Search.run_lift hs, if_pos hu]
    · cases ho
  · cases ho

/-- The search is on its way down the path and has visited the components of `order`, the first ones
first. Those of them that are not on the path are done: their alternatives were visited. -/
structure OnPath (c : TypeContext) (path order : List String) (l : Leaves) : Prop where
  visited : ∀ n, n ∈ l.visited ↔ n ∈ path ∨ n ∈ order
  found : l.found = order.filter fun n => (c.opened? n).isNone
  done : ∀ n ∈ order, n ∉ path → ∀ xs, c.opened? n = some xs →
    (∀ x ∈ xs, x.IsReference) ∧ referents xs ⊆ l.visited

namespace OnPath

variable {path order names : List String}

/-- **What was visited is not walked to again.** -/
theorem insertAll_walk_of_mem (h : l.OnPath c path order) (hn : name ∈ l.visited) :
    insertAll order (c.walk path (name :: names)) = insertAll order (c.walk path names) := by
  by_cases hpath : name ∈ path
  · rw [TypeContext.walk_of_mem hpath]
  have horder : name ∈ order := ((h.visited name).1 hn).resolve_left hpath
  cases ho : c.opened? name with
  | none => rw [TypeContext.walk_of_leaf hpath ho, insertAll_cons, insertNew_of_mem horder]
  | some xs =>
    have hbelow : c.walk (name :: path) (referents xs) ⊆ order := fun m hm => by
      have hvisited : m ∈ l.visited := TypeContext.walk_subset (fun k hk hkpath ys hys => by
        have hnot : k ∉ path := fun hin => hkpath (List.mem_cons_of_mem _ hin)
        exact (h.done k (((h.visited k).1 hk).resolve_left hnot) hnot ys hys).2)
        (h.done name horder hpath xs ho).2 hm
      exact ((h.visited m).1 hvisited).resolve_left fun hin =>
        TypeContext.not_mem_path_of_mem_walk hm (List.mem_cons_of_mem _ hin)
    rw [TypeContext.walk_of_opened hpath ho, List.cons_append, insertAll_cons,
      insertNew_of_mem horder, insertAll_append, insertAll_of_subset hbelow]

/-- A leaf is found. -/
theorem leaf (h : l.OnPath c path order) (ho : c.opened? name = none) :
    OnPath c path (order ++ [name])
      { visited := name :: l.visited, found := l.found ++ [name] } where
  visited n := by simp only [List.mem_cons, h.visited, List.mem_append]; tauto
  found := by simp [h.found, ho]
  done n hn hpath xs hxs := by
    rcases List.mem_append.1 hn with hn | hn
    · exact (h.done n hn hpath xs hxs).imp_right fun hsub => List.subset_cons_of_subset _ hsub
    · obtain rfl := List.mem_singleton.1 hn
      cases ho.symm.trans hxs

/-- A component is entered. -/
theorem enter (h : l.OnPath c path order) (ho : c.opened? name = some xs) :
    OnPath c (name :: path) (order ++ [name]) { l with visited := name :: l.visited } where
  visited n := by simp only [List.mem_cons, h.visited, List.mem_append]; tauto
  found := by simp [h.found, ho]
  done n hn hpath ys hys := by
    simp only [List.mem_cons, not_or] at hpath
    have hn : n ∈ order := (List.mem_append.1 hn).resolve_right fun hn =>
      hpath.1 (List.mem_singleton.1 hn)
    exact (h.done n hn hpath.2 ys hys).imp_right fun hsub => List.subset_cons_of_subset _ hsub

/-- A component is left after its alternatives were visited. -/
theorem leave (h : l.OnPath c (name :: path) order) (hn : name ∈ order)
    (ho : c.opened? name = some xs) (hrefs : ∀ x ∈ xs, x.IsReference)
    (hxs : referents xs ⊆ l.visited) : l.OnPath c path order where
  visited n := by
    rw [h.visited, List.mem_cons]
    exact ⟨fun hn' => by rcases hn' with (rfl | hn') | hn' <;> simp [*],
      fun hn' => hn'.imp_left .inr⟩
  found := h.found
  done n hn' hpath ys hys := by
    by_cases heq : n = name
    · obtain rfl := heq
      obtain rfl := Option.some.inj (ho.symm.trans hys)
      exact ⟨hrefs, hxs⟩
    · exact h.done n hn' (by simp [heq, hpath]) ys hys

end OnPath

/-- The search succeeds on the alternatives and has visited what the walk lists, unless one of the
alternatives on the way is no reference. -/
def Visits (c : TypeContext) (path order : List String) (xs : List Schema) (m : Search Leaves) : Prop :=
  (m.run = .ok none ∧ ¬ c.RefersOnly xs) ∨
    ∃ l, m.run = .ok (some l) ∧ (∀ x ∈ xs, x.IsReference) ∧
      l.OnPath c path (insertAll order (c.walk path (referents xs)))

section Valid

variable (hc : c.components.Valid)
include hc

/-- **The search visits what the walk lists**, as long as there is fuel to open what was not visited. -/
theorem visits : ∀ (fuel : Nat) (xs : List Schema) (l : Leaves) (path order : List String),
    (∀ x ∈ xs, c.components.Closed x) → unvisited c.components l.visited ≤ fuel →
      l.OnPath c path order → Visits c path order xs (xs.foldlM (visit c fuel) l)
  | _, [], l, path, order, _, _, h => by
    refine .inr ⟨l, rfl, by simp, ?_⟩
    simpa [referents, TypeContext.walk, insertAll] using h
  | _, .inline s :: xs, _, _, _, _, _, _ => by
    refine .inl ⟨rfl, fun hrefers => ?_⟩
    obtain ⟨pointer, hpointer⟩ := hrefers.references _ List.mem_cons_self
    cases hpointer
  | fuel, .ref pointer :: xs, l, path, order, hclosed, hfuel, h => by
    obtain ⟨name, hp, hl⟩ := Components.closed_ref.1 (hclosed _ List.mem_cons_self)
    -- After the first alternative the others are visited.
    have hrest : ∀ l' order', (visit c fuel l (.ref pointer)).run = .ok (some l') →
        l'.OnPath c path order' → l.visited ⊆ l'.visited →
        insertAll order' (c.walk path (referents xs)) =
          insertAll order (c.walk path (name :: referents xs)) →
        Visits c path order (.ref pointer :: xs) ((.ref pointer :: xs).foldlM (visit c fuel) l) := by
      intro l' order' hrun h' hgrows horder
      have hfuel' := (unvisited_le (c := c.components) hgrows).trans hfuel
      have hfold : ((.ref pointer :: xs).foldlM (visit c fuel) l).run =
          (xs.foldlM (visit c fuel) l').run := by
        rw [List.foldlM_cons, OptionT.run_bind, hrun]
        rfl
      rw [Visits, hfold, referents_ref hp, ← horder]
      refine (visits fuel xs l' path order' (fun x hx => hclosed x (List.mem_cons_of_mem _ hx)) hfuel'
        h').imp (fun hnone => ⟨hnone.1, fun hrefers => hnone.2 hrefers.tail⟩) ?_
      rintro ⟨l'', hl'', hrefs, h''⟩
      exact ⟨l'', hl'', List.forall_mem_cons.2 ⟨⟨pointer, rfl⟩, hrefs⟩, h''⟩
    by_cases hmem : name ∈ l.visited
    · exact hrest l order (run_visit_of_mem fuel hp hmem) h (List.Subset.refl _)
        (h.insertAll_walk_of_mem hmem).symm
    obtain ⟨hpath, hnew⟩ := not_or.1 fun hin => hmem ((h.visited name).2 hin)
    cases ho : c.opened? name with
    | none =>
      refine hrest _ _ (run_visit_of_leaf fuel hp hl hmem ho) (h.leaf ho) (List.subset_cons_self _ _) ?_
      rw [TypeContext.walk_of_leaf hpath ho, insertAll_cons, insertNew_of_not_mem hnew]
    | some ys =>
      obtain ⟨s, hs, rfl, hrun⟩ := run_visit_of_opened fuel hp hmem ho
      have hless := unvisited_lt hl.mem_keys hmem
      obtain ⟨fuel, rfl⟩ : ∃ k, fuel = k + 1 := ⟨fuel - 1, by omega⟩
      have hinside := visits fuel s.alternatives { l with visited := name :: l.visited } (name :: path)
        (order ++ [name]) (fun x hx => ?_) (by dsimp only; omega) (h.enter ho)
      · rw [with_succ] at hrun
        rcases hinside with ⟨hnone, hnot⟩ | ⟨l₁, hl₁, hrefs, h₁⟩
        · refine .inl ⟨?_, fun hrefers => hnot (hrefers.opened ?_ ho)⟩
          · rw [List.foldlM_cons, OptionT.run_bind, hrun, hnone]
            rfl
          · rw [referents_ref hp]
            exact List.mem_cons_self
        · have hxs : referents s.alternatives ⊆ l₁.visited := fun m hm => by
            rw [h₁.visited, mem_insertAll]
            by_cases hin : m ∈ name :: path
            · exact .inl hin
            · exact .inr (.inr (TypeContext.mem_walk hm hin))
          refine hrest l₁ _ (hrun.trans hl₁) (h₁.leave (by simp) ho hrefs hxs) (fun m hm => ?_) ?_
          · rw [h₁.visited, mem_insertAll, List.mem_cons, List.mem_append]
            exact ((h.visited m).1 hm).imp .inr fun hin => .inl (.inl hin)
          · rw [TypeContext.walk_of_opened hpath ho, List.cons_append, insertAll_cons,
              insertNew_of_not_mem hnew, insertAll_append]
      · exact Components.closed_inline.1 (hc.closed_of_schema hs) x
          (SchemaOf.mem_children.2 (by rcases List.mem_append.1 hx with hx | hx <;> tauto))
termination_by fuel xs => (fuel, xs.length)

end Valid

/-- A search that is back at the base has visited what is below the base, and only references there. -/
theorem OnPath.below {base : String} {order : List String} (h : l.OnPath c [base] order)
    (hrefs : ∀ x ∈ xs, x.IsReference) (hxs : referents xs ⊆ l.visited)
    (hbase : ∀ ys, c.opened? base = some ys → ys = xs) {n : String} (hn : c.Below (referents xs) n) :
    n ∈ l.visited ∧ ∀ ys, c.opened? n = some ys → ∀ y ∈ ys, y.IsReference := by
  have done : ∀ n ∈ l.visited, ∀ ys, c.opened? n = some ys →
      (∀ y ∈ ys, y.IsReference) ∧ referents ys ⊆ l.visited := by
    intro n hn ys hys
    by_cases heq : n = base
    · obtain rfl := hbase ys (heq ▸ hys)
      exact ⟨hrefs, hxs⟩
    · have hnot : n ∉ [base] := by simpa using heq
      exact h.done n (((h.visited n).1 hn).resolve_left hnot) hnot ys hys
  have hvisited : n ∈ l.visited := by
    induction hn with
    | name hn => exact hxs hn
    | alternative _ ho hm ih => exact (done _ ih _ ho).2 hm
  exact ⟨hvisited, fun ys hys => (done n hvisited ys hys).1⟩

end Leaves

/-- What is found below a base with the alternatives: if every alternative on the way is a reference, the
components below the base, other than itself, that are not opened, each once and in the order in which the
walk comes to them first. -/
structure TypeContext.Finds (c : TypeContext) (base : String) (xs : List Schema)
    (found : Option (List String)) : Prop where
  complete : found.isSome = true ↔ c.RefersOnly xs
  nodup : ∀ leaves, found = some leaves → leaves.Nodup
  mem_iff : ∀ leaves, found = some leaves → ∀ n,
    n ∈ leaves ↔ n ≠ base ∧ c.Below (referents xs) n ∧ c.opened? n = none
  order : ∀ leaves, found = some leaves →
    leaves = (distinct (c.walk [base] (referents xs))).filter fun n => (c.opened? n).isNone

/-- **The leaves of a base are found** among all components, however they refer to each other: the search
does not stop for want of fuel. -/
theorem leavesOf_finds {c : TypeContext} (hc : c.components.Valid) {base : String} {s : SchemaObject}
    (hs : c.components.schema base = .ok s) :
    (∀ more, (Leaves.with c (c.components.schemas.length + 1 + more) { visited := [base] } s).run =
      (Leaves.with c (c.components.schemas.length + 1) { visited := [base] } s).run) ∧
    ∃ found, leavesOf c base s = .ok found ∧ c.Finds base s.alternatives found := by
  have hclosed := hc.closed_of_schema hs
  have hstart : Leaves.OnPath c [base] [] { visited := [base] } := ⟨by simp, rfl, by simp⟩
  have hbound := unvisited_lt_succ c.components [base]
  have hbase : ∀ ys, c.opened? base = some ys → ys = s.alternatives := by
    intro ys hys
    rw [TypeContext.opened?, hs] at hys
    split at hys
    · cases hys
    · dsimp only at hys
      split at hys
      · exact (Option.some.inj hys).symm
      · cases hys
  have hvisits := Leaves.visits hc c.components.schemas.length s.alternatives { visited := [base] } [base]
    [] (fun x hx => Components.closed_inline.1 hclosed x
      (SchemaOf.mem_children.2 (by rcases List.mem_append.1 hx with hx | hx <;> tauto)))
    (Nat.le_of_lt_succ hbound) hstart
  rw [← Leaves.with_succ] at hvisits
  have hself : c.Extends c := ⟨⟨⟨fun _ _ h => h, le_rfl⟩, ⟨fun _ _ h => h, le_rfl⟩, ⟨fun _ _ h => h, le_rfl⟩,
    ⟨fun _ _ h => h, le_rfl⟩⟩, rfl, rfl⟩
  refine ⟨fun more => ?_, ?_⟩
  · obtain ⟨r, hr⟩ : ∃ r, (Leaves.with c (c.components.schemas.length + 1) { visited := [base] } s).run =
        .ok r := by
      rcases hvisits with ⟨hnone, -⟩ | ⟨l, hl, -⟩
      · exact ⟨_, hnone⟩
      · exact ⟨_, hl⟩
    rw [hr]
    exact (Leaves.with_upholds hc hself _ (c.components.schemas.length + 1 + more) _ s hclosed hbound
      (Nat.lt_add_right more hbound)).1 r hr
  · rcases hvisits with ⟨hnone, hnot⟩ | ⟨l, hl, hrefs, h⟩
    · refine ⟨none, by rw [leavesOf, hnone]; rfl, by simpa using hnot, nofun, nofun, nofun⟩
    · have hfound : l.found = (distinct (c.walk [base] (referents s.alternatives))).filter
          fun n => (c.opened? n).isNone := h.found
      have hvisited : ∀ n, n ∈ l.visited ↔ n = base ∨ n ∈ c.walk [base] (referents s.alternatives) :=
        fun n => by rw [h.visited, mem_insertAll]; simp
      have hreferents : referents s.alternatives ⊆ l.visited := fun n hn => by
        rw [hvisited]
        by_cases heq : n = base
        · exact .inl heq
        · exact .inr (TypeContext.mem_walk hn (by simpa using heq))
      refine ⟨some l.found, by rw [leavesOf, hl]; rfl, ?_, ?_, ?_, ?_⟩
      · refine iff_of_true rfl ⟨hrefs, fun n ys hn => ?_⟩
        exact (h.below hrefs hreferents hbase hn).2 ys
      · intro leaves hleaves
        obtain rfl := Option.some.inj hleaves
        exact hfound ▸ (nodup_distinct _).filter _
      · intro leaves hleaves n
        obtain rfl := Option.some.inj hleaves
        rw [hfound, List.mem_filter, mem_distinct, Option.isNone_iff_eq_none]
        constructor
        · rintro ⟨hn, hleaf⟩
          have hne := TypeContext.not_mem_path_of_mem_walk hn
          exact ⟨by simpa using hne, TypeContext.below_of_mem_walk hn, hleaf⟩
        · rintro ⟨hne, hn, hleaf⟩
          have hin := (hvisited n).1 (h.below hrefs hreferents hbase hn).1
          exact ⟨hin.resolve_left hne, hleaf⟩
      · intro leaves hleaves
        exact (Option.some.inj hleaves).symm.trans hfound

end Client
end OpenApiClient
