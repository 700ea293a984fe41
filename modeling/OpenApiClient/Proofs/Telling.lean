/-
# How types are told

Whatever telling the type of a schema does to the bindings of a file, it does by naming components. So a
property of computations that checks have and that is handed on from step to step (`Sequential`) is one of
telling the type of any schema if it is one of naming a component (`Sequential.typeOf`). The proof follows the
definition of the types once, for all such properties.
-/

import OpenApiClient.Client.TypeMapping
import OpenApiClient.Proofs.Schema
import Mathlib.Tactic.Tauto

namespace OpenApiClient
namespace Client

open OpenApi TypeScript

/-- Checks have the property, and computations whose steps have it one after another. -/
structure Mapping.Sequential (P : ∀ {α : Type}, Mapping α → Prop) : Prop where
  lift : ∀ {α : Type} (x : Except ReferenceError α), P (ExceptT.mk (Pure.pure x) : Mapping α)
  bind : ∀ {α β : Type} {m : Mapping α} {f : α → Mapping β}, P m → (∀ a, P (f a)) → P (m >>= f)

namespace Mapping.Sequential

variable {P : ∀ {α : Type}, Mapping α → Prop} (hP : Sequential P)
include hP

theorem pure {α : Type} (a : α) : P (pure a : Mapping α) := hP.lift (.ok a)

theorem map {α β : Type} {m : Mapping α} (hm : P m) (g : α → β) : P (do return g (← m)) :=
  hP.bind hm fun a => hP.pure (g a)

theorem mapM {α β : Type} {f : α → Mapping β} {xs : List α} (h : ∀ x ∈ xs, P (f x)) :
    P (xs.mapM f) := by
  induction xs with
  | nil => exact hP.pure []
  | cons x xs ih =>
    rw [List.mapM_cons]
    refine hP.bind (h x List.mem_cons_self) fun y => ?_
    exact hP.map (ih fun x hx => h x (List.mem_cons_of_mem _ hx)) (y :: ·)

open TypeContext

theorem orNothing {p : Nested} (h : P p.2) : P (orNothing p) :=
  hP.map h fun t => if p.1.isNullable then t.orUndefined else t

theorem propertyOf {p : Nested} (name : String) (required : Bool) (h : P p.2) :
    P (propertyOf name p required) :=
  hP.bind h fun _ => hP.pure _

section Objects

variable {s : SchemaOf Nested} (h : ∀ p ∈ s.children, P p.2)
include h

theorem propertiesOf : P (propertiesOf s) :=
  hP.mapM fun e he => hP.propertyOf _ _ (h e.2 (SchemaOf.mem_children.2 (.inl ⟨e.1, he⟩)))

theorem ofObjectKeyword : P (ofObjectKeyword s) := by
  unfold TypeContext.ofObjectKeyword
  split
  · exact hP.map (hP.propertiesOf h) Ty.object
  · rcases ha : s.additionalProperties with _ | (_ | p)
    · exact hP.pure _
    · exact hP.pure _
    · have hp := h p (by simp [SchemaOf.mem_children, ha])
      exact hP.map (hP.orNothing hp) (Ty.record (.basic .string))

theorem ofKeyword : P (ofKeyword s) := by
  unfold TypeContext.ofKeyword
  rcases s.singleType? with _ | (_ | _ | _ | _ | _ | _ | _)
  case some.array =>
    cases hi : s.items with
    | none => exact hP.pure _
    | some p =>
      have hp := h p (by simp [SchemaOf.mem_children, hi])
      exact hP.map (hP.orNothing hp) Ty.array
  case none | some.object => exact hP.ofObjectKeyword h
  all_goals exact hP.pure _

theorem ofAll : P (ofAll s) := by
  unfold TypeContext.ofAll
  refine hP.bind (hP.mapM fun p hp => h p (SchemaOf.mem_children.2 (by tauto))) fun parts => ?_
  refine hP.bind (hP.propertiesOf h) fun own => ?_
  split <;> exact hP.pure _

end Objects

variable {c : TypeContext} (hc : ∀ component args, P (c.reference component args))
include hc

theorem pointee {args : Mapping (List Ty)} (hargs : P args) (pointer : String) :
    P (c.pointee pointer args) :=
  hP.bind (hP.lift (componentName pointer)) fun component => hP.bind hargs (hc component)

theorem ofObject {s : SchemaOf Nested} (h : ∀ p ∈ s.children, P p.2) : P (c.ofObject s) := by
  unfold TypeContext.ofObject
  split
  · exact hP.pure _
  split
  · next pointer _ =>
    refine hP.pointee hc (hP.mapM fun p hp => hP.orNothing (h p ?_)) pointer
    refine SchemaOf.mem_children.2 ?_
    cases ha : s.typeArguments <;> simp_all
  split
  · refine hP.map (hP.mapM fun p hp => h p (SchemaOf.mem_children.2 ?_)) Ty.unite
    have hp := List.mem_append.1 (List.mem_filter.1 hp).1
    tauto
  split
  · exact hP.ofAll h
  split
  · exact hP.pure _
  · exact hP.ofKeyword h

/-- **The type of a schema** has what naming a component has. -/
theorem typeOf (s : Schema) : P (c.typeOf s) := by
  induction s using Schema.induct with
  | ref pointer =>
    rw [TypeContext.typeOf, Schema.para_ref]
    exact hP.pointee hc (hP.pure []) pointer
  | inline s ih =>
    rw [TypeContext.typeOf, Schema.para_inline]
    refine hP.ofObject hc fun p hp => ?_
    rw [SchemaOf.children_map] at hp
    obtain ⟨x, hx, rfl⟩ := List.mem_map.1 hp
    exact ih x hx

theorem nullableTypeOf (s : Schema) : P (c.nullableTypeOf s) := hP.orNothing (hP.typeOf hc s)

theorem property (name : String) (s : Schema) (required : Bool) : P (c.property name s required) :=
  hP.propertyOf name required (hP.typeOf hc s)

end Mapping.Sequential
end Client
end OpenApiClient
