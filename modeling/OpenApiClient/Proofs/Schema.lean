/-
# Induction on schemas

A schema is a reference, or an object whose nested schemas are smaller. `Schema.induct` is the
induction that follows from it: what holds of references, and of an object if it holds of the
schemas inside it, holds of every schema.

With it `Schema.para` goes layer by layer as `Schema.fold` does (`para_inline`): it reads an object
from the schemas inside it and their values.
-/

import OpenApiClient.OpenApi.Schema

namespace OpenApiClient
namespace OpenApi

namespace SchemaOf

variable {α β γ : Type}

theorem mem_children {s : SchemaOf α} {x : α} :
    x ∈ s.children ↔ (∃ name, (name, x) ∈ s.properties) ∨ s.items = some x ∨ x ∈ s.allOf ∨
      x ∈ s.oneOf ∨ x ∈ s.anyOf ∨ s.additionalProperties = some (.schema x) ∨
        ∃ args, s.typeArguments = some args ∧ x ∈ args := by
  have hp : x ∈ Entries.values s.properties ↔ ∃ name, (name, x) ∈ s.properties := by
    simp [Entries.values]
  have ha : x ∈ (s.additionalProperties.bind Additional.schema?).toList ↔
      s.additionalProperties = some (.schema x) := by
    rcases s.additionalProperties with _ | (_ | a) <;> simp [Additional.schema?, eq_comm]
  have ht : x ∈ s.typeArguments.getD [] ↔ ∃ args, s.typeArguments = some args ∧ x ∈ args := by
    cases s.typeArguments <;> simp
  have hi : x ∈ s.items.toList ↔ s.items = some x := by simp
  simp only [children, List.mem_append, hp, ha, ht, hi, or_assoc]

/-- The schemas inside an object are replaced one by one. -/
theorem children_map (f : α → β) (s : SchemaOf α) : (s.map f).children = s.children.map f := by
  have ha : ((s.additionalProperties.map (·.map f)).bind Additional.schema?).toList =
      (s.additionalProperties.bind Additional.schema?).toList.map f := by
    rcases s.additionalProperties with _ | (_ | _) <;> rfl
  have ht : (s.typeArguments.map (·.map f)).getD [] = (s.typeArguments.getD []).map f := by
    cases s.typeArguments <;> rfl
  have hi : (s.items.map f).toList = s.items.toList.map f := by cases s.items <;> rfl
  simp [children, map, Entries.values, ha, ht, hi]

theorem map_map (f : α → β) (g : β → γ) (s : SchemaOf α) : (s.map f).map g = s.map (g ∘ f) := by
  simp only [map, List.map_map, Option.map_map]
  congr 1
  rcases s.additionalProperties with _ | (_ | _) <;> rfl
  cases s.typeArguments <;> simp

theorem map_congr {f g : α → β} {s : SchemaOf α} (h : ∀ x ∈ s.children, f x = g x) :
    s.map f = s.map g := by
  have hc : ∀ x, _ → f x = g x := fun x hx => h x (mem_children.2 hx)
  simp only [map, mk.injEq, List.map_inj_left, true_and]
  refine ⟨fun e he => by rw [hc e.2 (.inl ⟨e.1, he⟩)], ?_, ?_, ?_, ?_, ?_, ?_⟩
  · cases ha : s.additionalProperties with
    | none => rfl
    | some a =>
      cases a with
      | allowed b => rfl
      | schema x => simp [Additional.map, hc x (by simp [ha])]
  · cases hi : s.items with
    | none => rfl
    | some x => simp [hc x (by simp [hi])]
  · exact fun x hx => hc x (by simp [hx])
  · exact fun x hx => hc x (by simp [hx])
  · exact fun x hx => hc x (by simp [hx])
  · cases ha : s.typeArguments with
    | none => rfl
    | some args =>
      simp only [Option.map_some, Option.some.injEq, List.map_inj_left]
      exact fun x hx => hc x (by simp [ha, hx])

theorem map_id_of {f : α → α} {s : SchemaOf α} (h : ∀ x ∈ s.children, f x = x) : s.map f = s := by
  rw [map_congr (g := id) h]
  cases s with
  | mk type format title description nullable properties required additional =>
    simp only [map, List.map_id, mk.injEq, true_and]
    refine ⟨by simp, ?_, ?_, ?_⟩
    · rcases additional with _ | (_ | _) <;> rfl
    · simp
    · simp

theorem wrapped?_map (f : α → β) (pointer? : β → Option String) (s : SchemaOf α) :
    (s.map f).wrapped? pointer? = s.wrapped? (pointer? ∘ f) := by
  have hm : (s.map f).onlyMember? = s.onlyMember?.map f := by
    unfold onlyMember?
    simp only [map, List.isEmpty_map]
    split
    · rcases s.allOf with _ | ⟨a, _ | _⟩ <;> rcases s.anyOf with _ | ⟨b, _ | _⟩ <;>
        rcases s.oneOf with _ | ⟨d, _ | _⟩ <;> rfl
    · rfl
  rw [wrapped?, hm, wrapped?, Option.bind_map]

theorem mem_children_of_onlyMember? {s : SchemaOf α} {x : α} (h : s.onlyMember? = some x) :
    x ∈ s.children := by
  unfold onlyMember? at h
  split at h
  · split at h
    · next member hm =>
      obtain rfl := Option.some.inj h
      have : [member] ∈ [s.allOf, s.anyOf, s.oneOf].filter (!·.isEmpty) := by simp [hm]
      have := (List.mem_filter.1 this).1
      simp only [List.mem_cons, List.not_mem_nil, or_false] at this
      rcases this with h | h | h <;> simp [mem_children, ← h]
    · simp at h
  · simp at h

end SchemaOf

namespace Schema

theorem sizeOf_lt_of_mem_children {s : SchemaObject} {x : Schema} (h : x ∈ s.children) :
    sizeOf x < sizeOf (Schema.inline s) := by
  have hs : sizeOf s < sizeOf (Schema.inline s) := by simp
  suffices sizeOf x < sizeOf s by omega
  rcases s with ⟨type, format, title, description, nullable, properties, required, additional, items,
    allOf, oneOf, anyOf, discriminator, enumeration, readOnly, deprecated, className, parameters,
    typeVariable, arguments⟩
  simp only [SchemaOf.mem_children] at h
  simp only [SchemaOf.mk.sizeOf_spec]
  rcases h with ⟨name, h⟩ | h | h | h | h | h | ⟨args, h, hx⟩
  · have h₁ := List.sizeOf_lt_of_mem h
    simp only [Prod.mk.sizeOf_spec] at h₁
    omega
  · subst h; simp only [Option.some.sizeOf_spec]; omega
  · have := List.sizeOf_lt_of_mem h; omega
  · have := List.sizeOf_lt_of_mem h; omega
  · have := List.sizeOf_lt_of_mem h; omega
  · subst h; simp only [Option.some.sizeOf_spec, Additional.schema.sizeOf_spec]; omega
  · subst h
    have := List.sizeOf_lt_of_mem hx
    simp only [Option.some.sizeOf_spec]; omega

/-- **Induction on schemas.**  What holds of references, and of an object if it holds of the schemas
inside it, holds of every schema. -/
theorem induct {P : Schema → Prop} (ref : ∀ p, P (.ref p))
    (inline : ∀ s : SchemaObject, (∀ x ∈ s.children, P x) → P (.inline s)) : ∀ s, P s
  | .ref p => ref p
  | .inline s => inline s fun x h =>
    have := sizeOf_lt_of_mem_children h
    induct ref inline x
termination_by s => sizeOf s
decreasing_by exact this

section Para

variable {β : Type} (onRef : String → β) (onObject : SchemaOf (Schema × β) → β)

theorem withPara_eq (s : Schema) : withPara onRef onObject s = (s, para onRef onObject s) := by
  suffices h : (withPara onRef onObject s).1 = s from Prod.ext h rfl
  induction s using induct with
  | ref p => simp [withPara]
  | inline s ih =>
    unfold withPara at ih ⊢
    rw [fold_inline]
    simp only [SchemaOf.map_map, inline.injEq]
    exact SchemaOf.map_id_of fun x hx => ih x hx

@[simp] theorem para_ref (p : String) : para onRef onObject (.ref p) = onRef p := by
  simp [para, withPara]

/-- **What is computed of an object** is computed from the schemas inside it and their values. -/
theorem para_inline (s : SchemaObject) :
    para onRef onObject (.inline s) = onObject (s.map fun x => (x, para onRef onObject x)) := by
  have h : (withPara onRef onObject (.inline s)).2 =
      onObject (s.map (withPara onRef onObject)) := by
    unfold withPara
    rw [fold_inline]
  rw [para, h, SchemaOf.map_congr fun x _ => withPara_eq onRef onObject x]

end Para

/-- A wrapped reference stands inside its wrapper. -/
theorem ref_mem_children {s : SchemaObject} {p : String} (h : s.wrapped? pointer? = some p) :
    .ref p ∈ s.children := by
  obtain ⟨x, hx, hp⟩ := Option.bind_eq_some_iff.1 h
  obtain rfl : x = .ref p := by cases x <;> simp_all [pointer?]
  exact SchemaOf.mem_children_of_onlyMember? hx

theorem pointers_inline (s : SchemaObject) :
    pointers (.inline s) = s.children.flatMap pointers := by
  rw [pointers, fold_inline, SchemaOf.children_map, List.flatMap]

@[simp] theorem pointers_ref (p : String) : pointers (.ref p) = [p] := by simp [pointers]

/-- The references in a schema inside an object are in the object. -/
theorem pointers_subset {s : SchemaObject} {x : Schema} (hx : x ∈ s.children) :
    x.pointers ⊆ (Schema.inline s).pointers := fun p hp => by
  rw [pointers_inline]
  exact List.mem_flatMap.2 ⟨x, hx, hp⟩

end Schema

end OpenApi
end OpenApiClient
