/-
# Which types may be nothing

A type may be nothing if it is `undefined` or `null`, or a union with one of them as a member. The
type of a schema that says that it is nullable, or that has `null` in a list of types, always may be
(`orNothing`). A choice says the same by a member that is `null` alone, but that member is left out
of the union, and nothing makes up for it. What is left is told by `Schema.showsNull`: a schema
shows `null` if its type is `null` in spite of that, because it has properties beside the keyword,
because it is the only schema of what must hold together, or because a member of its choice that is
not left out shows it.

`typeOf_yields` says that a type may be nothing exactly if its schema shows `null`, by induction on
the schema. That unions among the members of a union are opened needs that members are no unions
themselves, so this is proved along (`Ty.Flat`).
-/

import OpenApiClient.Proofs.Yields

namespace OpenApiClient

namespace TypeScript
namespace Ty

/-- Whether the type is `undefined` or `null`, or has one of them as a member. -/
def admitsNothing (t : Ty) : Bool :=
  t.unionMembers.any fun m => m = .basic .undefined || m = .basic .null

/-- **A union may be nothing if one of its types may.** -/
theorem admitsNothing_unite (h : ∀ t ∈ ts, t.Flat) :
    (unite ts).admitsNothing = ts.any admitsNothing := by
  rw [admitsNothing, unionMembers_unite h, Bool.eq_iff_iff]
  split
  · next he =>
    have hno : ∀ t ∈ ts, t.unionMembers = [] := List.flatMap_eq_nil_iff.1 he
    simp only [List.any_cons, List.any_nil, List.any_eq_true]
    refine ⟨by simp, fun ⟨t, ht, hn⟩ => ?_⟩
    simp [admitsNothing, hno t ht] at hn
  · simp only [List.any_eq_true, mem_distinct, List.mem_flatMap, admitsNothing]
    constructor
    · rintro ⟨m, ⟨t, ht, hm⟩, hn⟩
      exact ⟨t, ht, m, hm, hn⟩
    · rintro ⟨t, ht, m, hm, hn⟩
      exact ⟨m, ⟨t, ht, hm⟩, hn⟩

theorem admitsNothing_orUndefined {t : Ty} (h : t.Flat) : t.orUndefined.admitsNothing = true := by
  rw [orUndefined, admitsNothing_unite]
  · simp [admitsNothing, unionMembers]
  · simp only [List.mem_cons, List.not_mem_nil, or_false, forall_eq_or_imp, forall_eq]
    exact ⟨h, .of_single rfl⟩

/-- The type is flat, and `n` tells whether it may be nothing. -/
structure Told (n : Bool) (t : Ty) : Prop where
  flat : t.Flat
  nothing : t.admitsNothing = n

theorem Told.of_single {n : Bool} {t : Ty} (h : t.unionMembers = [t])
    (hn : decide (t = .basic .undefined ∨ t = .basic .null) = n) : Told n t :=
  ⟨.of_single h, by simpa [admitsNothing, h] using hn⟩

theorem Told.of_isPlain {t : Ty} (h : t.isPlain = true) : Told false t := by
  refine .of_single (unionMembers_of_isPlain h) (decide_eq_false ?_)
  rintro (rfl | rfl) <;> cases h

/-- The union of types is told as they are. -/
theorem Told.unite {α : Type} {xs : List α} {n : α → Bool}
    (h : List.Forall₂ (fun x t => Told (n x) t) xs ts) : Told (xs.any n) (unite ts) := by
  have hall : (∀ t ∈ ts, t.Flat) ∧ ts.any admitsNothing = xs.any n := by
    induction h with
    | nil => exact ⟨by simp, rfl⟩
    | cons hx _ ih =>
      refine ⟨List.forall_mem_cons.2 ⟨hx.flat, ih.1⟩, ?_⟩
      rw [List.any_cons, List.any_cons, hx.nothing, ih.2]
  exact ⟨flat_unite hall.1, (admitsNothing_unite hall.1).trans hall.2⟩

end Ty
end TypeScript

namespace OpenApi

/-- Whether the type of an object is or has `null`, given that of the schemas inside it. -/
def showsNullInside (s : SchemaOf (Schema × Bool)) : Bool :=
  match s.typeVariable, s.wrapped? fun p => p.1.pointer? with
  | some _, _ => false
  | none, some _ => false
  | none, none =>
    if !(s.oneOf.isEmpty && s.anyOf.isEmpty) then
      ((s.oneOf ++ s.anyOf).filter fun p => !p.1.isNull).any (·.2)
    else if !s.allOf.isEmpty then
      match s.allOf with
      | [p] => s.properties.isEmpty && p.2
      | _ => false
    else s.enumeration.isEmpty && s.singleType? == some .null

/-- Whether the type of a schema is or has `null`, in spite of what it leaves out. -/
def Schema.showsNull : Schema → Bool := Schema.para (fun _ => false) showsNullInside

@[simp] theorem Schema.showsNull_ref (p : String) : (Schema.ref p).showsNull = false := by
  simp [showsNull]

/-- Whether the type of an object is or has `null`, layer by layer. -/
theorem Schema.showsNull_inline (s : SchemaObject) :
    (Schema.inline s).showsNull = match s.typeVariable, s.wrapped? Schema.pointer? with
      | some _, _ => false
      | none, some _ => false
      | none, none =>
        if !(s.oneOf.isEmpty && s.anyOf.isEmpty) then
          ((s.oneOf ++ s.anyOf).filter (!·.isNull)).any showsNull
        else if !s.allOf.isEmpty then
          match s.allOf with
          | [x] => s.properties.isEmpty && x.showsNull
          | _ => false
        else s.enumeration.isEmpty && s.singleType? == some .null := by
  have h : (Schema.inline s).showsNull = showsNullInside (s.map fun x => (x, x.showsNull)) :=
    Schema.para_inline ..
  rw [h, showsNullInside, SchemaOf.wrapped?_map]
  change (match s.typeVariable, s.wrapped? Schema.pointer? with
    | some _, _ => _
    | none, some _ => _
    | none, none => _) = _
  have hall : (match s.allOf.map fun x => (x, x.showsNull) with
      | [p] => s.properties.isEmpty && p.2
      | _ => false) = match s.allOf with
        | [x] => s.properties.isEmpty && x.showsNull
        | _ => false := by
    rcases s.allOf with _ | ⟨x, _ | ⟨y, xs⟩⟩ <;> rfl
  simp only [SchemaOf.map, List.isEmpty_map, ← List.map_append, List.filter_map, List.any_map, hall]
  rfl

/-- An object says in one of three ways that it admits `null`: by the keyword for it, by a list of
types with `null`, or by a choice with a member whose type is `null`. -/
def SchemaOf.AdmitsNull (s : SchemaObject) : Prop :=
  s.nullable = some true ∨ (∃ ts, s.type = some (.multiple ts) ∧ .null ∈ ts) ∨
    ∃ x : SchemaObject, .inline x ∈ s.oneOf ++ s.anyOf ∧ x.singleType? = some .null

end OpenApi

namespace Client

open OpenApi TypeScript

namespace TypeContext

variable (c : TypeContext)

/-- A value of an enumeration is something. -/
theorem ofValue_told (v : Json) : Ty.Told false (ofValue v) := by
  cases v <;> exact .of_single rfl rfl

/-- What must hold together may be nothing if it is one schema that may. -/
theorem ofAll_told {s : SchemaObject} (h : ∀ x ∈ s.allOf, (c.typeOf x).Yields (Ty.Told x.showsNull))
    (hne : s.allOf ≠ []) :
    (ofAll (s.map c.typed)).Yields (Ty.Told (match s.allOf with
      | [x] => s.properties.isEmpty && x.showsNull
      | _ => false)) := by
  refine (c.ofAll_yields h hne).mono fun t ht => ?_
  rcases ht with ⟨x, hx, hempty, ht⟩ | ⟨hno, ht⟩
  · simpa [hx, hempty] using ht
  · split
    · next x hx => simpa [hno x hx] using Ty.Told.of_isPlain ht
    · exact .of_isPlain ht

/-- **The type of a schema may be nothing exactly if the schema shows `null`.** -/
theorem typeOf_yields (x : Schema) : (c.typeOf x).Yields (Ty.Told x.showsNull) := by
  induction x using Schema.induct with
  | ref p =>
    rw [Schema.showsNull_ref, typeOf, Schema.para_ref]
    exact (c.pointee_isPlain _ _).mono fun _ => .of_isPlain
  | inline s ih =>
    rw [Schema.showsNull_inline, typeOf_inline]
    cases s.typeVariable with
    | some name => exact .pure (.of_single rfl rfl)
    | none =>
      cases hw : s.wrapped? Schema.pointer? with
      | some pointer => exact (c.pointee_isPlain _ _).mono fun _ => .of_isPlain
      | none =>
        dsimp only
        split
        · refine (Mapping.Yields.mapM fun x hx => ?_).map fun ts hts => Ty.Told.unite hts
          have hx := List.mem_append.1 (List.mem_filter.1 hx).1
          exact ih x (SchemaOf.mem_children.2 (by tauto))
        split
        · next hne =>
          refine c.ofAll_told (fun x hx => ih x (SchemaOf.mem_children.2 (by tauto))) ?_
          simpa using hne
        split
        · next he =>
          have hvalues : List.Forall₂ (fun _ t => Ty.Told false t) s.enumeration
              (s.enumeration.map ofValue) := by
            rw [List.forall₂_map_right_iff]
            exact List.forall₂_same.2 fun v _ => ofValue_told v
          have hnone : (s.enumeration.isEmpty && s.singleType? == some .null) =
              s.enumeration.any fun _ => false := by
            rw [show s.enumeration.isEmpty = false by simpa using he, Bool.false_and]
            exact (List.any_eq_false.2 (by simp)).symm
          rw [hnone]
          exact .pure (.unite hvalues)
        · next he =>
          rw [show s.enumeration.isEmpty = true by simpa using he, Bool.true_and]
          refine (ofKeyword_isPlain (s.map c.typed)).mono fun t ht => ?_
          rw [show (s.map c.typed).singleType? = s.singleType? from rfl] at ht
          split at ht
          · next hnull =>
            rw [hnull, ht]
            exact .of_single rfl rfl
          · next hnull =>
            rw [Bool.eq_false_iff.2 hnull]
            exact .of_isPlain ht

theorem nullableTypeOf_yields (s : SchemaObject) :
    (c.nullableTypeOf (.inline s)).Yields fun t =>
      t.admitsNothing = (s.isNullable || (Schema.inline s).showsNull) := by
  refine (c.typeOf_yields (.inline s)).bind fun t ht => .pure ?_
  rw [show (Schema.inline s).isNullable = s.isNullable from rfl]
  cases s.isNullable
  · exact ht.nothing
  · exact Ty.admitsNothing_orUndefined ht.flat

theorem property_yields (name : String) (s : SchemaObject) (required : Bool) :
    (c.property name (.inline s) required).Yields fun p =>
      (p.isOptional || p.type.admitsNothing) =
        (!required || s.isNullable || (Schema.inline s).showsNull) :=
  (c.typeOf_yields (.inline s)).bind fun t ht => .pure (by
    rw [← ht.nothing]
    rfl)

/-- What the computation gives has the property, and it gives something in a closed schema. -/
theorem Gives.ends {α : Type} {m : Mapping α} {P : α → Prop} {ms : List Mention} {x : Schema}
    {Q : Module.Bindings → α → Prop} (hp : m.Yields P)
    (hg : c.components.Closed x → c.Gives m ms Q) (st : TypeState) :
    Ends m st (fun a _ => P a) fun _ _ => ¬ c.components.Closed x := by
  by_cases hc : c.components.Closed x
  · exact ((hp st).and (hg hc st)).mono (fun _ _ h => h.1) fun _ _ h => h.2.elim
  · exact (hp st).mono (fun _ _ h => h) fun _ _ _ => hc

/-- **When a type may be nothing.** The type of an object that is told with what it says of `null`,
and a property with that type, may be nothing exactly if the object is nullable, or its type list
has `null`, or it shows `null`; a property also if it need not be there. Both are told whenever all
references of the object lead to schemas. -/
theorem nullableTypeOf_nothing_iff (c : TypeContext) (s : SchemaObject) (name : String)
    (required : Bool) (st : TypeState) :
    Ends (c.nullableTypeOf (.inline s)) st
      (fun t _ => t.admitsNothing = true ↔
        s.isNullable = true ∨ (Schema.inline s).showsNull = true)
      (fun _ _ => ¬ c.components.Closed (.inline s)) ∧
    Ends (c.property name (.inline s) required) st
      (fun p _ => (p.isOptional = true ∨ p.type.admitsNothing = true) ↔
        required = false ∨ s.isNullable = true ∨ (Schema.inline s).showsNull = true)
      fun _ _ => ¬ c.components.Closed (.inline s) := by
  constructor
  · refine Gives.ends c ((c.nullableTypeOf_yields s).mono fun t ht => ?_) nullableTypeOf_gives st
    rw [ht, Bool.or_eq_true]
  · refine Gives.ends c ((c.property_yields name s required).mono fun p hp => ?_)
      (fun hc => propertyOf_gives (p := c.typed (.inline s)) (typeOf_gives hc)) st
    rw [← Bool.or_eq_true, hp]
    simp [or_assoc]

/-- **The member of a choice that is `null` is lost**: it is left out, and the choice between a
string and `null` is a string that has to be there. -/
theorem not_admitsNull_kept :
    ¬ ∀ (c : TypeContext) (s : SchemaObject) (st : TypeState), s.AdmitsNull →
      Ends (c.nullableTypeOf (.inline s)) st (fun t _ => t.admitsNothing = true)
        fun _ _ => ¬ c.components.Closed (.inline s) := by
  intro h
  let s : SchemaObject := {
    oneOf := [.inline { type := some (.single .string) },
      .inline { type := some (.single .null) }] }
  let c : TypeContext := { components := {}, transfers := [] }
  let st : TypeState := { bindings := .ofFile "E.ts" ".js" .whenTaken }
  have hrun : (c.nullableTypeOf (.inline s)).run.run st = (.ok (.basic .string), st) := by rfl
  have hkept :=
    (h c s st (.inr (.inr ⟨{ type := some (.single .null) }, by simp [s], rfl⟩))).result hrun
  exact absurd hkept (by decide)

end TypeContext

end Client
end OpenApiClient
