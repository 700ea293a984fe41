/-
# Where chains of references end

A reference may lead to another one. Here the chain is told step by step and without a bound: `Steps`
says where so many steps lead. It ends at a component that is no reference, at a name that is missing,
or at a pointer that does not fit its place; or it comes to a place again and never ends.

Following a chain tells which of these it is. `Components.NameResolves` and `Components.ItemResolves`
say what a chain comes to, and this is what is found (`resolution_exact`): as there are finitely many
components, a chain that goes on for longer than there are components repeats itself
(`Steps.exists_repeated`), so that no chain is given up too early.
-/

import OpenApiClient.OpenApi.Reference
import OpenApiClient.Proofs.Entries
import Mathlib.Data.Fintype.Card
import Mathlib.Logic.Relator

namespace OpenApiClient

section Steps

variable {α : Type} {step : α → α → Prop} {start a b : α} {m n : Nat}

/-- So many steps lead from the start to a place. -/
inductive Steps (step : α → α → Prop) (start : α) : Nat → α → Prop where
  | zero : Steps step start 0 start
  | succ {n : Nat} {a b : α} : Steps step start n a → step a b → Steps step start (n + 1) b

theorem Steps.exists_of_le (h : Steps step start n a) (hmn : m ≤ n) : ∃ b, Steps step start m b := by
  induction h with
  | zero => exact ⟨start, Nat.le_zero.1 hmn ▸ .zero⟩
  | @succ n a b ha hstep ih =>
    rcases Nat.le_succ_iff.1 hmn with hmn | rfl
    · exact ih hmn
    · exact ⟨b, .succ ha hstep⟩

/-- **More steps than there are places** come to one of them again. -/
theorem Steps.exists_repeated {places : List α} (h : Steps step start n a)
    (hplaces : ∀ i x, i < n → Steps step start i x → x ∈ places) (hlength : places.length < n) :
    ∃ i j x, i < j ∧ j < n ∧ Steps step start i x ∧ Steps step start j x := by
  classical
  have hplace : ∀ i : Fin n, ∃ x, Steps step start i x := fun i => h.exists_of_le i.2.le
  choose place hplace using hplace
  have hmaps : ∀ i ∈ (Finset.univ : Finset (Fin n)), place i ∈ places.toFinset := fun i _ =>
    List.mem_toFinset.2 (hplaces i _ i.2 (hplace i))
  have hcard : places.toFinset.card < (Finset.univ : Finset (Fin n)).card := by
    rw [Finset.card_univ, Fintype.card_fin]
    exact (List.toFinset_card_le places).trans_lt hlength
  obtain ⟨i, -, j, -, hne, heq⟩ := Finset.exists_ne_map_eq_of_card_lt_of_maps_to hcard hmaps
  rcases lt_or_gt_of_ne hne with hij | hij
  · exact ⟨i, j, place i, hij, j.2, hplace i, heq ▸ hplace j⟩
  · exact ⟨j, i, place j, hij, i.2, hplace j, heq ▸ hplace i⟩

section Unique

variable (hstep : Relator.RightUnique step)
include hstep

theorem Steps.unique (h : Steps step start n a) (h' : Steps step start n b) : a = b := by
  induction h generalizing b with
  | zero => cases h'; rfl
  | succ _ hnext ih =>
    obtain _ | ⟨hb, hnext'⟩ := h'
    obtain rfl := ih hb
    exact hstep hnext hnext'

/-- A place without a step is the last one. -/
theorem Steps.le_of_last (h : Steps step start n a) (hlast : ∀ b, ¬ step a b)
    (h' : Steps step start m b) : m ≤ n := by
  by_contra hlt
  obtain ⟨c, hc⟩ := h'.exists_of_le (Nat.succ_le_of_lt (Nat.lt_of_not_le hlt))
  obtain _ | ⟨ha, hnext⟩ := hc
  obtain rfl := Steps.unique hstep h ha
  exact hlast _ hnext

/-- **A chain that repeats itself** never ends. -/
theorem Steps.endless {i j : Nat} (hij : i < j) (hi : Steps step start i a)
    (hj : Steps step start j a) (n : Nat) : ∃ b, Steps step start n b := by
  have hagain : ∀ k b, Steps step start (i + k) b → Steps step start (j + k) b := by
    intro k
    induction k with
    | zero => exact fun b hb => Steps.unique hstep hi hb ▸ hj
    | succ k ih =>
      intro b hb
      obtain _ | ⟨hc, hnext⟩ := hb
      exact .succ (ih _ hc) hnext
  induction n using Nat.strong_induction_on with
  | _ n ih =>
    by_cases hn : n ≤ j
    · exact hj.exists_of_le hn
    · obtain ⟨k, rfl⟩ := Nat.exists_eq_add_of_le (Nat.le_of_not_le hn)
      obtain ⟨b, hb⟩ := ih (i + k) (by omega)
      exact ⟨b, hagain k b hb⟩

/-- A chain that ends does not repeat itself, -/
theorem Steps.not_repeated {i j : Nat} (h : Steps step start n a) (hlast : ∀ b, ¬ step a b)
    (hij : i < j) (hi : Steps step start i b) : ¬ Steps step start j b := fun hj => by
  obtain ⟨c, hc⟩ := Steps.endless hstep hij hi hj (n + 1)
  exact absurd (Steps.le_of_last hstep h hlast hc) (by omega)

/-- and ends at one place. -/
theorem Steps.last_unique (h : Steps step start n a) (ha : ∀ b, ¬ step a b)
    (h' : Steps step start m b) (hb : ∀ c, ¬ step b c) : a = b := by
  have hmn := Steps.le_of_last hstep h ha h'
  have hnm := Steps.le_of_last hstep h' hb h
  obtain rfl := Nat.le_antisymm hmn hnm
  exact Steps.unique hstep h h'

end Unique

end Steps

namespace OpenApi

section Pointers

variable {s : Section} {pointer name : String} {e : ReferenceError}

/-- The pointer points into the section of the name, at what the token stands for. -/
def PointsInto (pointer found token : String) : Prop :=
  pointer = pointerStart ++ found ++ "/" ++ token ∧ '/' ∉ found.toList

/-- The pointer does not fit a place where the section is asked for. -/
inductive Misplaced (s : Section) (pointer : String) : ReferenceError → Prop where
  | malformed : (∀ found token, ¬ PointsInto pointer found token) →
      Misplaced s pointer (.malformed pointer)
  | wrongSection {found token : String} : PointsInto pointer found token → found ≠ s.name →
      Misplaced s pointer (.wrongSection s found pointer)

/-- A pointer is cut into the name of its section and a token. -/
theorem cut_eq_some_iff {found token : String} :
    (Text.dropStart? pointerStart pointer).bind (Text.cutFirst? '/') = some (found, token) ↔
      PointsInto pointer found token := by
  rw [Option.bind_eq_some_iff]
  constructor
  · rintro ⟨rest, hrest, hcut⟩
    obtain ⟨chars, hchars, rfl⟩ := Option.map_eq_some_iff.1 hrest
    obtain ⟨⟨as, bs⟩, hsplit, heq⟩ := Option.map_eq_some_iff.1 hcut
    obtain ⟨rfl, rfl⟩ := Prod.mk.inj heq
    rw [String.toList_ofList] at hsplit
    obtain ⟨b, rfl, hb, has⟩ := Text.of_splitFirst?_eq_some hsplit
    obtain rfl := beq_iff_eq.1 hb
    have hpointer := List.isPrefixOf?_eq_some_iff_append_eq.1 hchars
    refine ⟨?_, fun h => ?_⟩
    · rw [← String.toList_inj, ← hpointer]
      simp
    · rw [String.toList_ofList] at h
      exact absurd (has '/' h) (by decide)
  · rintro ⟨rfl, hslash⟩
    have hchars : (pointerStart ++ found ++ "/" ++ token).toList =
        pointerStart.toList ++ (found.toList ++ '/' :: token.toList) := by
      simp
    refine ⟨.ofList (found.toList ++ '/' :: token.toList), ?_, ?_⟩
    · exact Text.dropStart?_of_append hchars.symm
    · have hfound : ∀ a ∈ found.toList, (a == '/') = false := fun a ha =>
        beq_eq_false_iff_ne.2 fun h => hslash (h ▸ ha)
      rw [Text.cutFirst?, String.toList_ofList, Text.splitFirst?_append_cons hfound rfl,
        Option.map_some]
      simp

theorem PointsInto.unique {found token found' token' : String} (h : PointsInto pointer found token)
    (h' : PointsInto pointer found' token') : found = found' ∧ token = token' :=
  Prod.mk.inj (Option.some.inj ((cut_eq_some_iff.2 h).symm.trans (cut_eq_some_iff.2 h')))

/-- **A name is told** of the pointers into the section. -/
theorem targetName_eq_ok :
    targetName s pointer = .ok name ↔
      ∃ token, PointsInto pointer s.name token ∧ name = unescapeName token := by
  constructor
  · intro h
    rw [targetName] at h
    split at h
    · cases h
    · next found token hcut =>
      split at h
      · next hfound =>
        obtain rfl := hfound
        exact ⟨token, cut_eq_some_iff.1 hcut, (Except.ok.inj h).symm⟩
      · cases h
  · rintro ⟨token, htoken, rfl⟩
    rw [targetName, cut_eq_some_iff.2 htoken]
    exact if_pos rfl

/-- **No name is told** of all other pointers. -/
theorem targetName_eq_error : targetName s pointer = .error e ↔ Misplaced s pointer e := by
  constructor
  · intro h
    rw [targetName] at h
    split at h
    · next hcut =>
      obtain rfl := Except.error.inj h
      refine .malformed fun found token hinto => ?_
      rw [cut_eq_some_iff.2 hinto] at hcut
      cases hcut
    · next found token hcut =>
      split at h
      · cases h
      · next hfound =>
        obtain rfl := Except.error.inj h
        exact .wrongSection (cut_eq_some_iff.1 hcut) hfound
  · intro h
    rw [targetName]
    cases h with
    | malformed hnone =>
      split
      · rfl
      · next found token hcut => exact absurd (cut_eq_some_iff.1 hcut) (hnone found token)
    | wrongSection hinto hfound =>
      rw [cut_eq_some_iff.2 hinto]
      exact if_neg hfound

end Pointers

namespace Components

section Names

variable (c : Components)

/-- The schema of a name is a reference to that of another one. -/
def Aliases (name next : String) : Prop :=
  ∃ pointer, c.schemas.at? name = some (.ref pointer) ∧
    ∃ token, PointsInto pointer Section.schemas.name token ∧ next = unescapeName token

/-- What a chain of names comes to when it ends at a name. -/
inductive NameStops (name : String) : Except ReferenceError SchemaObject → Prop where
  | found {o : SchemaObject} : c.schemas.at? name = some (.inline o) → NameStops name (.ok o)
  | missing : c.schemas.at? name = none → NameStops name (.error (.missing name))
  | misplaced {pointer : String} {e : ReferenceError} : c.schemas.at? name = some (.ref pointer) →
      Misplaced .schemas pointer e → NameStops name (.error e)

/-- What the chain of names from the first one comes to. -/
inductive NameResolves (name : String) : Except ReferenceError SchemaObject → Prop where
  | ends {n : Nat} {last : String} {r : Except ReferenceError SchemaObject} :
      Steps c.Aliases name n last → c.NameStops last r → NameResolves name r
  /-- The chain comes to a name again. -/
  | circular {i j : Nat} {again : String} : i < j → Steps c.Aliases name i again →
      Steps c.Aliases name j again → NameResolves name (.error (.circular name))

end Names

section Items

variable {α : Type} [Kept α] (c : Components)

/-- The item is a reference to the entry of its section that the next one is. -/
def RefersTo (item next : Referable α) : Prop :=
  ∃ pointer token, item = .ref pointer ∧ PointsInto pointer (Kept.place α).name token ∧
    (Kept.entries c).at? (unescapeName token) = some next

/-- What a chain of items comes to when it ends at an item. -/
inductive ItemStops : Referable α → Except ReferenceError α → Prop where
  | found {x : α} : ItemStops (.item x) (.ok x)
  | missing {pointer token : String} : PointsInto pointer (Kept.place α).name token →
      (Kept.entries (α := α) c).at? (unescapeName token) = none →
        ItemStops (.ref pointer) (.error (.missing pointer))
  | misplaced {pointer : String} {e : ReferenceError} : Misplaced (Kept.place α) pointer e →
      ItemStops (.ref pointer) (.error e)

/-- What the chain of items from the first one comes to. -/
inductive ItemResolves (item : Referable α) : Except ReferenceError α → Prop where
  | ends {n : Nat} {last : Referable α} {r : Except ReferenceError α} :
      Steps c.RefersTo item n last → c.ItemStops last r → ItemResolves item r
  /-- The pointer is the first one that comes again. -/
  | circular {i j : Nat} {pointer : String} : i < j → Steps c.RefersTo item i (.ref pointer) →
      Steps c.RefersTo item j (.ref pointer) →
      (∀ k l x, k < l → l < j → Steps c.RefersTo item k x → ¬ Steps c.RefersTo item l x) →
        ItemResolves item (.error (.circular pointer))

end Items

section Names

variable {c : Components} {name next : String}

theorem aliases_unique : Relator.RightUnique c.Aliases := by
  intro name next next' h h'
  obtain ⟨pointer, hpointer, token, hinto, rfl⟩ := h
  obtain ⟨pointer', hpointer', token', hinto', rfl⟩ := h'
  obtain rfl := Schema.ref.inj (Option.some.inj (hpointer.symm.trans hpointer'))
  rw [(hinto.unique hinto').2]

/-- Where a chain of names ends, it goes on to no other. -/
theorem NameStops.not_aliases {r : Except ReferenceError SchemaObject} (h : c.NameStops name r) :
    ∀ next, ¬ c.Aliases name next := by
  rintro next ⟨pointer, hpointer, token, hinto, -⟩
  cases h with
  | found hfound => cases hfound.symm.trans hpointer
  | missing hmissing => cases hmissing.symm.trans hpointer
  | misplaced hat hmisplaced =>
    obtain rfl := Schema.ref.inj (Option.some.inj (hat.symm.trans hpointer))
    have hok := targetName_eq_ok.2 ⟨token, hinto, rfl⟩
    cases hok.symm.trans (targetName_eq_error.2 hmisplaced)

theorem NameStops.unique {r r' : Except ReferenceError SchemaObject} (h : c.NameStops name r)
    (h' : c.NameStops name r') : r = r' := by
  cases h with
  | found hat => cases h' with
    | found hat' => cases hat.symm.trans hat'; rfl
    | missing hat' => cases hat.symm.trans hat'
    | misplaced hat' => cases hat.symm.trans hat'
  | missing hat => cases h' with
    | found hat' => cases hat.symm.trans hat'
    | missing => rfl
    | misplaced hat' => cases hat.symm.trans hat'
  | misplaced hat hmisplaced => cases h' with
    | found hat' => cases hat.symm.trans hat'
    | missing hat' => cases hat.symm.trans hat'
    | misplaced hat' hmisplaced' =>
      cases hat.symm.trans hat'
      rw [← targetName_eq_error] at hmisplaced hmisplaced'
      exact congrArg _ (Except.error.inj (hmisplaced.symm.trans hmisplaced'))

/-- A chain of names comes to one thing only. -/
theorem NameResolves.unique {r r' : Except ReferenceError SchemaObject} (h : c.NameResolves name r)
    (h' : c.NameResolves name r') : r = r' := by
  cases h with
  | ends hlast hstops => cases h' with
    | ends hlast' hstops' =>
      obtain rfl := Steps.last_unique aliases_unique hlast hstops.not_aliases hlast'
        hstops'.not_aliases
      exact hstops.unique hstops'
    | circular hij hi hj =>
      exact absurd hj (Steps.not_repeated aliases_unique hlast hstops.not_aliases hij hi)
  | circular hij hi hj => cases h' with
    | ends hlast hstops =>
      exact absurd hj (Steps.not_repeated aliases_unique hlast hstops.not_aliases hij hi)
    | circular => rfl

/-- **Following names** finds what the chain comes to: at the start there is fuel for one name more than
there are schemas. -/
theorem nameResolves_follow {fuel n : Nat} {reached : String} (h : Steps c.Aliases name n reached)
    (hfuel : n + fuel = c.schemas.length + 1) : c.NameResolves name (c.follow name fuel reached) := by
  induction fuel generalizing n reached with
  | zero =>
    have hkeys : ∀ i x, i < n → Steps c.Aliases name i x → x ∈ c.schemas.keys := by
      intro i x hi hx
      obtain ⟨y, hy⟩ := h.exists_of_le (Nat.succ_le_of_lt hi)
      obtain _ | ⟨hx', pointer, hat, -⟩ := hy
      obtain rfl := Steps.unique aliases_unique hx hx'
      exact List.mem_map_of_mem (Entries.mem_of_at? hat)
    obtain ⟨i, j, again, hij, -, hi, hj⟩ :=
      h.exists_repeated hkeys (by rw [Entries.length_keys]; omega)
    exact .circular hij hi hj
  | succ fuel ih =>
    rw [follow]
    split
    · next hat => exact .ends h (.missing hat)
    · next o hat => exact .ends h (.found hat)
    · next pointer hat =>
      split
      · next next hnext =>
        obtain ⟨token, hinto, heq⟩ := targetName_eq_ok.1 hnext
        exact ih (h.succ ⟨pointer, hat, token, hinto, heq⟩) (by omega)
      · next e he => exact .ends h (.misplaced hat (targetName_eq_error.1 he))

end Names

section Items

variable {α : Type} [Kept α] {c : Components} {item next : Referable α}

theorem refersTo_unique : Relator.RightUnique (c.RefersTo (α := α)) := by
  intro item next next' h h'
  obtain ⟨pointer, token, rfl, hinto, hat⟩ := h
  obtain ⟨pointer', token', heq, hinto', hat'⟩ := h'
  obtain rfl := Referable.ref.inj heq
  rw [(hinto.unique hinto').2] at hat
  exact Option.some.inj (hat.symm.trans hat')

/-- Where a chain of items ends, it goes on to no other. -/
theorem ItemStops.not_refersTo {r : Except ReferenceError α} (h : c.ItemStops item r) :
    ∀ next, ¬ c.RefersTo item next := by
  rintro next ⟨pointer, token, rfl, hinto, hat⟩
  cases h with
  | missing hinto' hmissing =>
    rw [(hinto.unique hinto').2] at hat
    cases hmissing.symm.trans hat
  | misplaced hmisplaced =>
    have hok := targetName_eq_ok.2 ⟨token, hinto, rfl⟩
    cases hok.symm.trans (targetName_eq_error.2 hmisplaced)

theorem ItemStops.unique {r r' : Except ReferenceError α} (h : c.ItemStops item r)
    (h' : c.ItemStops item r') : r = r' := by
  cases h with
  | found => cases h'; rfl
  | missing hinto _ => cases h' with
    | missing => rfl
    | misplaced hmisplaced =>
      cases (targetName_eq_ok.2 ⟨_, hinto, rfl⟩).symm.trans (targetName_eq_error.2 hmisplaced)
  | misplaced hmisplaced => cases h' with
    | missing hinto _ =>
      cases (targetName_eq_ok.2 ⟨_, hinto, rfl⟩).symm.trans (targetName_eq_error.2 hmisplaced)
    | misplaced hmisplaced' =>
      rw [← targetName_eq_error] at hmisplaced hmisplaced'
      exact congrArg _ (Except.error.inj (hmisplaced.symm.trans hmisplaced'))

/-- A chain of items comes to one thing only. -/
theorem ItemResolves.unique {r r' : Except ReferenceError α} (h : c.ItemResolves item r)
    (h' : c.ItemResolves item r') : r = r' := by
  cases h with
  | ends hlast hstops => cases h' with
    | ends hlast' hstops' =>
      obtain rfl := Steps.last_unique refersTo_unique hlast hstops.not_refersTo hlast'
        hstops'.not_refersTo
      exact hstops.unique hstops'
    | circular hij hi hj _ =>
      exact absurd hj (Steps.not_repeated refersTo_unique hlast hstops.not_refersTo hij hi)
  | @circular i j pointer hij hi hj hfirst => cases h' with
    | ends hlast hstops =>
      exact absurd hj (Steps.not_repeated refersTo_unique hlast hstops.not_refersTo hij hi)
    | @circular i' j' pointer' hij' hi' hj' hfirst' =>
      obtain rfl : j = j' := by
        rcases lt_trichotomy j j' with hlt | heq | hlt
        · exact absurd hj (hfirst' i j _ hij hlt hi)
        · exact heq
        · exact absurd hj' (hfirst i' j' _ hij' hlt hi')
      rw [Referable.ref.inj (Steps.unique refersTo_unique hj hj')]

/-- **Following items** finds what the chain comes to: the pointers seen are those that the chain came
to, at different places, and at the start there is fuel for two items more than there are in the
section. -/
theorem itemResolves_followItem {fuel n : Nat} {seen : List String} {reached : Referable α}
    (h : Steps c.RefersTo item n reached)
    (hseen : ∀ p, p ∈ seen ↔ ∃ i, i < n ∧ Steps c.RefersTo item i (.ref p))
    (hfirst : ∀ i j x, i < j → j < n → Steps c.RefersTo item i x → ¬ Steps c.RefersTo item j x)
    (hfuel : n + fuel = (Kept.entries (α := α) c).length + 2) :
    c.ItemResolves item (c.followItem fuel seen reached) := by
  induction fuel generalizing n seen reached with
  | zero =>
    have hplaces : ∀ i x, i < n → Steps c.RefersTo item i x →
        x ∈ item :: (Kept.entries (α := α) c).values := by
      intro i x _ hx
      obtain _ | ⟨-, pointer, token, -, -, hat⟩ := hx
      · exact List.mem_cons_self
      · exact List.mem_cons_of_mem _ (List.mem_map_of_mem (Entries.mem_of_at? hat))
    obtain ⟨i, j, x, hij, hj, hi, hx⟩ := h.exists_repeated hplaces (by
      rw [List.length_cons, Entries.values, List.length_map]
      omega)
    exact absurd hx (hfirst i j x hij hj hi)
  | succ fuel ih =>
    cases reached with
    | item x => exact .ends h .found
    | ref pointer =>
      rw [followItem]
      split
      · next hmem =>
        obtain ⟨i, hi, hx⟩ := (hseen pointer).1 hmem
        exact .circular hi hx h hfirst
      next hnew =>
      split
      · next e he => exact .ends h (.misplaced (targetName_eq_error.1 he))
      next name hname =>
      obtain ⟨token, hinto, rfl⟩ := targetName_eq_ok.1 hname
      split
      · next hnone => exact .ends h (.missing hinto hnone)
      · next next hat =>
        refine ih (h.succ ⟨pointer, token, rfl, hinto, hat⟩) (fun p => ?_) (fun i j x hij hj hi => ?_)
          (by omega)
        · rw [List.mem_cons, hseen]
          constructor
          · rintro (rfl | ⟨i, hi, hx⟩)
            · exact ⟨n, n.lt_succ_self, h⟩
            · exact ⟨i, by omega, hx⟩
          · rintro ⟨i, hi, hx⟩
            rcases Nat.lt_succ_iff_lt_or_eq.1 hi with hi | rfl
            · exact .inr ⟨i, hi, hx⟩
            · exact .inl (Referable.ref.inj (Steps.unique refersTo_unique hx h))
        · rcases Nat.lt_succ_iff_lt_or_eq.1 hj with hj | rfl
          · exact hfirst i j x hij hj hi
          · intro hx
            obtain rfl := Steps.unique refersTo_unique hx h
            exact hnew ((hseen pointer).2 ⟨i, hij, hi⟩)

end Items

/-- **References are followed exactly.**  What is found for the name of a schema, or for a parameter, a
body or a response, is what the chain from it comes to: the object at its end; that it is circular, if
it comes to a place again; what is missing, where it leaves the components; the pointer that does not
fit its place. Items are circular exactly if their chain never ends. -/
theorem resolution_exact (c : Components) :
    (∀ name r, c.schema name = r ↔ c.NameResolves name r) ∧
      ∀ {α : Type} [Kept α] (item : Referable α),
        (∀ r, c.resolveItem item = r ↔ c.ItemResolves item r) ∧
        ((∃ pointer, c.resolveItem item = .error (.circular pointer)) ↔
          ∀ n, ∃ reached, Steps c.RefersTo item n reached) := by
  have hname : ∀ name, c.NameResolves name (c.schema name) := fun name =>
    nameResolves_follow .zero (Nat.zero_add _)
  have hitem : ∀ {α : Type} [Kept α] (item : Referable α), c.ItemResolves item (c.resolveItem item) :=
    fun item => itemResolves_followItem .zero (by simp) (by omega) (Nat.zero_add _)
  refine ⟨fun name r => ⟨fun h => h ▸ hname name, (hname name).unique⟩, fun item =>
    ⟨fun r => ⟨fun h => h ▸ hitem item, (hitem item).unique⟩, ?_⟩⟩
  constructor
  · rintro ⟨pointer, h⟩ n
    have hresolves := h ▸ hitem item
    cases hresolves with
    | circular hij hi hj _ => exact Steps.endless refersTo_unique hij hi hj n
    | ends _ hstops =>
      obtain _ | _ | ⟨hmisplaced⟩ := hstops
      cases hmisplaced
  · intro hendless
    obtain ⟨r, hr⟩ : ∃ r, c.resolveItem item = r := ⟨_, rfl⟩
    have hresolves := hr ▸ hitem item
    cases hresolves with
    | @ends n last _ hlast hstops =>
      obtain ⟨reached, hreached⟩ := hendless (n + 1)
      exact absurd (Steps.le_of_last refersTo_unique hlast hstops.not_refersTo hreached) (by omega)
    | circular => exact ⟨_, hr⟩

end Components

end OpenApi
end OpenApiClient
