/-
# Interfaces have the properties of their objects

An object has the properties that it declares, those of the objects that it is composed of in place,
and those of the components that it refers to there (`Effective`). Its interface should have the
same, its own and those of the interfaces that it extends. But what an interface leaves to its
parents is told by another way through the components (`inheritedNames`), which enters types of the
client, choices and circles, and looks one level into what is composed in place, as does the
interface itself.

`IsDropped` tells from the schemas what a declaration loses that way: names that it leaves to its
parents, and names that stand too deep. `members_iff` says that the members of an interface, with
those that it extends, are the properties of its object exactly if all that is dropped on the way up
comes by another way, and nothing comes by a component that only wraps another one. Where no
component is composed like that, and none inherits from itself, they always are
(`hasName_iff_of_plain`).
-/

import OpenApiClient.Proofs.Extensions
import OpenApiClient.Proofs.Literals
import Mathlib.Logic.Relation

namespace OpenApiClient

namespace OpenApi
namespace Components

variable {c : Components} {a b : String} {s : SchemaObject}

/-- The component is another name for one. -/
def Renames (c : Components) (a b : String) : Prop :=
  ∃ pointer, c.schemas.at? a = some (.ref pointer) ∧ componentName pointer = .ok b

/-- Another name leads to the same schema. -/
theorem schema_of_renames (h : c.Renames a b) (hs : c.schema a = .ok s) : c.schema b = .ok s := by
  obtain ⟨pointer, hat, hb⟩ := h
  have hself : c.Extends c := by constructor <;> exact ⟨fun _ _ h => h, le_rfl⟩
  rw [schema, follow, hat] at hs
  dsimp only at hs
  rw [hb] at hs
  exact follow_upholds hself (Nat.le_succ _) _ hs

/-- Behind other names the schema is written in place. -/
theorem exists_renamed (hs : c.schema a = .ok s) :
    ∃ b, Relation.ReflTransGen c.Renames a b ∧ c.schemas.at? b = some (.inline s) := by
  suffices h : ∀ start fuel name, c.follow start fuel name = .ok s →
      ∃ b, Relation.ReflTransGen c.Renames name b ∧ c.schemas.at? b = some (.inline s) from
    h _ _ _ hs
  intro start fuel
  induction fuel with
  | zero => exact fun _ h => by cases h
  | succ fuel ih =>
    intro name h
    rw [follow] at h
    split at h
    · cases h
    · next o ho => exact ⟨name, .refl, Except.ok.inj h ▸ ho⟩
    · next pointer hat =>
      split at h
      · next next hnext =>
        obtain ⟨b, hb, hs⟩ := ih next h
        exact ⟨b, hb.head ⟨pointer, hat, hnext⟩, hs⟩
      · cases h

end Components
end OpenApi

namespace Client

open OpenApi TypeScript OpenApiClient.Module

section Ancestry

variable {c : Components}

/-- The component has a property of the name, or is composed in place of an object that has it, or
refers there to a component that provides it. -/
inductive Provides (c : Components) : String → String → Prop
  | own {component name : String} {s o : SchemaObject} (hs : c.schema component = .ok s)
      (ho : o = s ∨ .inline o ∈ s.allOf) (hname : name ∈ Entries.keys o.properties) :
      Provides c component name
  | parent {component pointer p name : String} {s : SchemaObject} (hs : c.schema component = .ok s)
      (hp : .ref pointer ∈ s.allOf) (hname : componentName pointer = .ok p)
      (h : Provides c p name) :
      Provides c component name

/-- Components that lead to one schema provide the same. -/
theorem Provides.congr {a b name : String} {s : SchemaObject} (h : Provides c a name)
    (ha : c.schema a = .ok s) (hb : c.schema b = .ok s) : Provides c b name := by
  cases h with
  | own hs ho hname => exact .own (Except.ok.inj (hs.symm.trans ha) ▸ hb) ho hname
  | parent hs hp hname h => exact .parent (Except.ok.inj (hs.symm.trans ha) ▸ hb) hp hname h

theorem foldlM_ok_induction {ε α β : Type} {f : β → α → Except ε β} {I : β → Prop} {xs : List α}
    (step : ∀ x ∈ xs, ∀ b b', I b → f b x = .ok b' → I b') {b b' : β} (start : I b)
    (h : xs.foldlM f b = .ok b') : I b' := by
  induction xs generalizing b with
  | nil => exact Except.ok.inj h ▸ start
  | cons x xs ih =>
    rw [List.foldlM_cons] at h
    obtain ⟨b₁, hb₁, h⟩ := bind_eq_ok.1 h
    exact ih (fun x hx => step x (.tail _ hx)) (step x List.mem_cons_self b b₁ start hb₁) h

/-- **All names on the way up are provided.** -/
theorem Ancestry.provides {fuel : Nat} {a a' : Ancestry} {component name : String}
    (h : Ancestry.with c fuel a component = .ok a') (hname : name ∈ a'.names) :
    name ∈ a.names ∨ Provides c component name := by
  induction fuel generalizing a a' component with
  | zero => exact .inl (Except.ok.inj h ▸ hname)
  | succ fuel ih =>
    rw [Ancestry.with] at h
    split at h
    · exact .inl (Except.ok.inj h ▸ hname)
    obtain ⟨s, hs, h⟩ := bind_eq_ok.1 h
    refine foldlM_ok_induction
      (I := fun b => name ∈ b.names → name ∈ a.names ∨ Provides c component name)
      (fun x hx b b' hb hstep hname => ?_) (fun hname => ?_) h hname
    · cases x with
      | inline o =>
        obtain rfl := Except.ok.inj hstep
        rcases List.mem_append.1 hname with hname | hname
        · exact hb hname
        · exact .inr (.own hs (.inr hx) hname)
      | ref pointer =>
        obtain ⟨p, hp, hstep⟩ := bind_eq_ok.1 hstep
        split at hstep
        · rcases ih hstep hname with hname | hname
          · exact hb hname
          · exact .inr (.parent hs hx hp hname)
        · exact hb (Except.ok.inj hstep ▸ hname)
    · exact (List.mem_append.1 hname).imp_right fun hname => .own hs (.inl rfl) hname

theorem provides_of_inheritedNames {component name : String}
    (h : name ∈ (inheritedNames c component).toOption.getD []) : Provides c component name := by
  cases hn : inheritedNames c component with
  | error e => simp [hn, Except.toOption] at h
  | ok names =>
    obtain ⟨a, ha, hnames⟩ := bind_eq_ok.1 hn
    obtain rfl := Except.ok.inj hnames
    rw [hn] at h
    exact (Ancestry.provides ha h).resolve_left (by simp)

end Ancestry

namespace TypeContext

variable (c : TypeContext)

/-- The object has a property of the name: its own, one of an object that it is composed of in
place, or one of a component that it refers to there and that no type of the client stands for. -/
inductive Effective : SchemaObject → String → Prop
  | own {s : SchemaObject} {name : String} (hname : name ∈ Entries.keys s.properties) :
    Effective s name
  | member {s o : SchemaObject} {name : String} (ho : .inline o ∈ s.allOf) (h : Effective o name) :
      Effective s name
  | parent {s o : SchemaObject} {pointer p name : String} (hp : .ref pointer ∈ s.allOf)
      (hname : componentName pointer = .ok p) (free : c.transfers.has p = false)
      (hs : c.components.schema p = .ok o) (h : Effective o name) : Effective s name

/-- The object that the component leads to has a property of the name. -/
def EffectiveOf (component name : String) : Prop :=
  ∃ s, c.components.schema component = .ok s ∧ c.Effective s name

/-- The names of the members that a declaration of the form has itself. -/
def memberNames : Form → List String
  | .interface s => Entries.keys (c.ownProperties s)
  | _ => []

/-- The declaration of a component takes over the members of another one, for which no type of the
client stands. -/
def TakesOver (a b : String) : Prop :=
  c.transfers.has b = false ∧ ∃ form, Form.of? c.components a = some form ∧ b ∈ c.above form

/-- The interface of the component, or one that it extends, has a member of the name. -/
def HasName (component name : String) : Prop :=
  ∃ k form, Relation.ReflTransGen c.TakesOver component k ∧ Form.of? c.components k = some form ∧
    name ∈ c.memberNames form

/-- The component is another name for one, or its interface extends it. -/
def Climbs (a b : String) : Prop :=
  c.TakesOver a b ∧ ∀ s, Form.of? c.components a ≠ some (.type s)

/-- The component is an alias of a type that wraps another one. -/
def Wraps (a b : String) : Prop :=
  c.TakesOver a b ∧ ∃ s, Form.of? c.components a = some (.type s)

/-- The declaration of the component loses a property that its object has. -/
inductive IsDropped (component name : String) : Prop
  /-- The interface leaves the name to its parents. -/
  | hidden {s o : SchemaObject} (hform : Form.of? c.components component = some (.interface s))
      (ho : o ∈ (c.heritage s).sources ++ [s]) (hname : name ∈ Entries.keys o.properties)
      (hinherited : name ∈ (c.heritage s).inherited)
  /-- An object that gives the interface its properties is composed itself. -/
  | buried {s o : SchemaObject} (hform : Form.of? c.components component = some (.interface s))
      (ho : o ∈ (c.heritage s).sources) (hname : c.Effective { o with properties := [] } name)
  /-- An object with properties is declared as an enumeration. -/
  | enumerated {values : List String}
      (hform : Form.of? c.components component = some (.enumeration values))
      (hname : c.EffectiveOf component name)
  /-- The component is another name for one that a type of the client stands for. -/
  | foreign {pointer p : String} (hform : Form.of? c.components component = some (.synonym pointer))
      (hp : componentName pointer = .ok p) (ht : c.transfers.has p = true)
      (hname : c.EffectiveOf p name)

variable {c} {a b component name : String} {s o : SchemaObject}

/-- What is inherited from a component that is referred to. -/
theorem inheritedFrom_ref {pointer p : String} (hp : componentName pointer = .ok p)
    (hs : c.components.schema p = .ok o) :
    c.inheritedFrom (.ref pointer) = if c.transfers.has p then { parents := [p] }
      else if Schema.isUnion o then { sources := [o] }
      else { parents := [p], inherited := (inheritedNames c.components p).toOption.getD [] } := by
  rw [inheritedFrom]
  simp only [hp, hs]

/-- An object that gives an interface properties is one that the object is composed of in place, or
a choice among its parents. -/
theorem cases_of_mem_sources (ho : o ∈ (c.heritage s).sources) :
    .inline o ∈ s.allOf ∨ Schema.isUnion o = true ∧ ∃ pointer p, .ref pointer ∈ s.allOf ∧
      componentName pointer = .ok p ∧ c.transfers.has p = false ∧
        c.components.schema p = .ok o := by
  obtain ⟨x, hx, ho⟩ := List.mem_flatMap.1 ho
  cases x with
  | inline o' =>
    obtain rfl := List.mem_singleton.1 ho
    exact .inl hx
  | ref pointer =>
    cases hp : componentName pointer with
    | error e => simp [inheritedFrom, hp] at ho
    | ok p =>
      cases hs : c.components.schema p with
      | error e =>
        simp only [inheritedFrom, hp, hs] at ho
        split at ho <;> cases ho
      | ok u =>
        rw [inheritedFrom_ref hp hs] at ho
        split at ho
        · cases ho
        · next free =>
          split at ho
          · next hu =>
            obtain rfl := List.mem_singleton.1 ho
            exact .inr ⟨hu, pointer, p, hx, hp, by simpa using free, hs⟩
          · cases ho

/-- A parent that no type of the client stands for is no choice. -/
theorem cases_of_mem_parents {p : String} (hp : p ∈ (c.heritage s).parents)
    (free : c.transfers.has p = false) (hs : c.components.schema p = .ok o) :
    Schema.isUnion o = false ∧
      ∃ pointer, .ref pointer ∈ s.allOf ∧ componentName pointer = .ok p := by
  obtain ⟨x, hx, hp⟩ := List.mem_flatMap.1 hp
  obtain ⟨pointer, rfl, hname⟩ := mem_parents hp
  rw [inheritedFrom_ref hname hs, free] at hp
  refine ⟨?_, pointer, hx, hname⟩
  cases hu : Schema.isUnion o with
  | false => rfl
  | true => simp [hu] at hp

/-- A property of an object that gives an interface properties is one of the interface's object. -/
theorem Effective.of_source (ho : o ∈ (c.heritage s).sources ++ [s])
    (h : c.Effective o name) : c.Effective s name := by
  rcases List.mem_append.1 ho with ho | ho
  · rcases cases_of_mem_sources ho with ho | ⟨-, pointer, p, hp, hname, free, hs⟩
    · exact .member ho h
    · exact .parent hp hname free hs h
  · exact List.mem_singleton.1 ho ▸ h

/-- An object has what it is composed of. -/
theorem Effective.of_composed (h : c.Effective { s with properties := [] } name) :
    c.Effective s name := by
  cases h with
  | own hname => cases hname
  | member ho h => exact .member ho h
  | parent hp hname free hs h => exact .parent hp hname free hs h

/-- An object without properties that is not composed has none. -/
theorem not_effective (hproperties : s.properties = []) (hallOf : s.allOf = []) :
    ¬ c.Effective s name := fun h => by
  cases h with
  | own hname => simp [Entries.keys, hproperties] at hname
  | member ho _ => simp [hallOf] at ho
  | parent hp _ _ _ _ => simp [hallOf] at hp

/-- The members that an interface has itself are properties of its object. -/
theorem Effective.of_mem_memberNames (h : name ∈ c.memberNames (.interface s)) :
    c.Effective s name := by
  obtain ⟨e, he, rfl⟩ := List.mem_map.1 h
  obtain ⟨o, ho, hp⟩ := mem_ownProperties he
  exact .of_source ho (.own (List.mem_map.2 ⟨_, hp, rfl⟩))

/-- The form of a component that is another name for one. -/
theorem renames_of_synonym {pointer : String}
    (hform : Form.of? c.components component = some (.synonym pointer)) :
    c.components.schemas.at? component = some (.ref pointer) := by
  obtain ⟨x, hat, hx⟩ := Option.map_eq_some_iff.1 hform
  cases x with
  | ref p => cases hx; exact hat
  | inline s =>
    simp only [Form.ofObject] at hx
    split at hx
    · cases hx
    split at hx <;> cases hx

/-- A component that is declared as an interface is an object, and no choice. -/
theorem at?_of_interface (hform : Form.of? c.components component = some (.interface s)) :
    c.components.schemas.at? component = some (.inline s) ∧ Schema.isUnion s = false := by
  obtain ⟨x, hat, hx⟩ := Option.map_eq_some_iff.1 hform
  cases x with
  | ref p => cases hx
  | inline o =>
    simp only [Form.ofObject] at hx
    split at hx
    · cases hx
    split at hx
    · next hlike =>
      obtain rfl := Form.interface.inj hx
      exact ⟨hat, by simpa using (Bool.and_eq_true_iff.1 hlike).2⟩
    · cases hx

theorem schema_of_at? (hat : c.components.schemas.at? component = some (.inline s)) :
    c.components.schema component = .ok s := by
  simp [Components.schema, Components.follow, hat]

theorem schema_of_interface (hform : Form.of? c.components component = some (.interface s)) :
    c.components.schema component = .ok s :=
  schema_of_at? (at?_of_interface hform).1

theorem Effective.of_interface (hform : Form.of? c.components component = some (.interface s))
    (h : c.EffectiveOf component name) : c.Effective s name := by
  obtain ⟨o, ho, h⟩ := h
  obtain rfl := Except.ok.inj ((schema_of_interface hform).symm.trans ho)
  exact h

section Valid

variable (hv : c.components.Valid)
include hv

/-- **What is climbed to is effective below.** -/
theorem EffectiveOf.of_climbs (h : c.Climbs a b) (hb : c.EffectiveOf b name) :
    c.EffectiveOf a name := by
  obtain ⟨⟨free, form, hform, habove⟩, hno⟩ := h
  obtain ⟨o, ho, hname⟩ := hb
  cases form with
  | synonym pointer =>
    have hat := renames_of_synonym hform
    obtain ⟨s, hs⟩ := hv.leads _ (Entries.mem_of_at? hat)
    have hpointer : componentName pointer = .ok b := by
      simp only [above] at habove
      cases hp : componentName pointer with
      | error e => simp [hp, Except.toOption] at habove
      | ok n => simpa [hp, Except.toOption, eq_comm] using habove
    have hs' := Components.schema_of_renames ⟨pointer, hat, hpointer⟩ hs
    obtain rfl := Except.ok.inj (hs'.symm.trans ho)
    exact ⟨s, hs, hname⟩
  | enumeration values => cases habove
  | interface s =>
    obtain ⟨-, pointer, hp, hpointer⟩ := cases_of_mem_parents habove free ho
    exact ⟨s, schema_of_interface hform, .parent hp hpointer free ho hname⟩
  | type s => exact absurd hform (hno s)

theorem EffectiveOf.of_chain (h : Relation.ReflTransGen c.Climbs a b) (hb : c.EffectiveOf b name) :
    c.EffectiveOf a name := by
  induction h with
  | refl => exact hb
  | tail _ hstep ih => exact ih (.of_climbs hv hstep hb)

/-- What is dropped is a property that the object of the component has. -/
theorem IsDropped.effective (h : c.IsDropped component name) : c.EffectiveOf component name := by
  cases h with
  | hidden hform ho hname _ =>
    exact ⟨_, schema_of_interface hform, .of_source ho (.own hname)⟩
  | buried hform ho hname =>
    exact ⟨_, schema_of_interface hform,
      .of_source (List.mem_append_left _ ho) (.of_composed hname)⟩
  | enumerated _ hname => exact hname
  | foreign hform hp _ hname =>
    have hat := renames_of_synonym hform
    obtain ⟨s, hs⟩ := hv.leads _ (Entries.mem_of_at? hat)
    obtain ⟨o, ho, hname⟩ := hname
    obtain rfl := Except.ok.inj ((Components.schema_of_renames ⟨_, hat, hp⟩ hs).symm.trans ho)
    exact ⟨s, hs, hname⟩

end Valid

/-- The members of an interface are the properties of the objects that give it properties, without
what it leaves to its parents. -/
theorem mem_memberNames : name ∈ c.memberNames (.interface s) ↔
    (∃ o ∈ (c.heritage s).sources ++ [s], name ∈ Entries.keys o.properties) ∧
      name ∉ (c.heritage s).inherited := by
  constructor
  · intro h
    obtain ⟨e, he, rfl⟩ := List.mem_map.1 h
    obtain ⟨o, ho, hp⟩ := mem_ownProperties he
    refine ⟨⟨o, ho, List.mem_map.2 ⟨_, hp, rfl⟩⟩, ?_⟩
    have hmem := Entries.mem_of_at? (Entries.mem_firsts.1 he)
    simpa using (List.mem_filter.1 hmem).2
  · rintro ⟨⟨o, ho, hname⟩, hnot⟩
    obtain ⟨⟨n, x⟩, hx, rfl⟩ := List.mem_map.1 hname
    have hkeys : ∀ es : Entries (Schema × Bool), ∀ e ∈ es, e.1 ∈ Entries.keys (Entries.firsts es) :=
      fun es e he => by
        cases hat : es.at? e.1 with
        | none => exact absurd (List.mem_map.2 ⟨e, he, rfl⟩) (Entries.at?_eq_none.1 hat)
        | some v => exact List.mem_map.2 ⟨(e.1, v), Entries.mem_firsts.2 hat, rfl⟩
    refine hkeys _ (n, x, o.required.contains n || s.required.contains n)
      (List.mem_filter.2 ⟨List.mem_flatMap.2 ⟨o, ho, ?_⟩, by simpa using hnot⟩)
    exact List.mem_map.2 ⟨_, hx, rfl⟩

/-- An interface has a name of an object that gives it properties, or leaves it to its parents. -/
theorem isDropped_or_mem (hform : Form.of? c.components component = some (.interface s))
    (ho : o ∈ (c.heritage s).sources ++ [s]) (hname : name ∈ Entries.keys o.properties) :
    c.IsDropped component name ∨
      ∃ form, Form.of? c.components component = some form ∧ name ∈ c.memberNames form := by
  by_cases hinherited : name ∈ (c.heritage s).inherited
  · exact .inl (.hidden hform ho hname hinherited)
  · exact .inr ⟨_, hform, mem_memberNames.2 ⟨⟨o, ho, hname⟩, hinherited⟩⟩

/-- So it is with all names of an object that the interface's object is composed of. -/
theorem isDropped_or_mem_of_source (hform : Form.of? c.components component = some (.interface s))
    (ho : o ∈ (c.heritage s).sources) (h : c.Effective o name) :
    c.IsDropped component name ∨
      ∃ form, Form.of? c.components component = some form ∧ name ∈ c.memberNames form := by
  cases h with
  | own hname => exact isDropped_or_mem hform (List.mem_append_left _ ho) hname
  | member ho' h => exact .inl (.buried hform ho (.member ho' h))
  | parent hp hp' free hs h => exact .inl (.buried hform ho (.parent hp hp' free hs h))

/-- An object with properties that is no choice has an interface under some name, or they are
dropped on the way to it. -/
theorem exists_interface (hs : c.components.schema a = .ok s) (hu : Schema.isUnion s = false)
    (h : c.Effective s name) :
    (∃ k, Relation.ReflTransGen c.Climbs a k ∧ c.IsDropped k name) ∨
      ∃ b, Relation.ReflTransGen c.Climbs a b ∧ Form.of? c.components b = some (.interface s) := by
  obtain ⟨b, hb, hat⟩ := Components.exists_renamed hs
  induction hb using Relation.ReflTransGen.head_induction_on with
  | refl =>
    have hform : Form.of? c.components b = some (Form.ofObject s) := by simp [Form.of?, hat]
    unfold Form.ofObject at hform
    split at hform
    · exact .inl ⟨b, .refl, .enumerated hform ⟨s, hs, h⟩⟩
    split at hform
    · exact .inr ⟨b, .refl, hform⟩
    · next hlike =>
      simp only [hu, Bool.not_false, Bool.and_true, Schema.isObjectLike, Bool.or_eq_true,
        not_or, Bool.not_eq_true', Bool.not_eq_false, List.isEmpty_iff] at hlike
      obtain ⟨⟨hproperties, hallOf⟩, -⟩ := hlike
      exact absurd h (not_effective hproperties hallOf)
  | @head a a' hstep _ ih =>
    have hs' := Components.schema_of_renames hstep hs
    obtain ⟨pointer, hat', hp⟩ := hstep
    have hform : Form.of? c.components a = some (.synonym pointer) := by simp [Form.of?, hat']
    cases ht : c.transfers.has a' with
    | true => exact .inl ⟨a, .refl, .foreign hform hp ht ⟨s, hs', h⟩⟩
    | false =>
      have hclimb : c.Climbs a a' := by
        refine ⟨⟨ht, _, hform, by simp [above, hp, Except.toOption]⟩, fun o ho => ?_⟩
        cases hform.symm.trans ho
      rcases ih hs' with ⟨k, hk, hd⟩ | ⟨b, hb, hf⟩
      · exact .inl ⟨k, hk.head hclimb, hd⟩
      · exact .inr ⟨b, hb.head hclimb, hf⟩

/-- **A property of an object is a member on the way up, or dropped there.** -/
theorem exists_of_effective (h : c.Effective s name) (hs : c.components.schema a = .ok s)
    (hu : Schema.isUnion s = false) :
    ∃ k, Relation.ReflTransGen c.Climbs a k ∧ (c.IsDropped k name ∨
      ∃ form, Form.of? c.components k = some form ∧ name ∈ c.memberNames form) := by
  induction h generalizing a with
  | own hname =>
    rcases exists_interface hs hu (.own hname) with ⟨k, hk, hd⟩ | ⟨b, hb, hform⟩
    · exact ⟨k, hk, .inl hd⟩
    · exact ⟨b, hb, isDropped_or_mem hform (by simp) hname⟩
  | @member s o name ho h _ =>
    rcases exists_interface hs hu (.member ho h) with ⟨k, hk, hd⟩ | ⟨b, hb, hform⟩
    · exact ⟨k, hk, .inl hd⟩
    · have hsource : o ∈ (c.heritage s).sources :=
        List.mem_flatMap.2 ⟨_, ho, List.mem_singleton_self o⟩
      exact ⟨b, hb, isDropped_or_mem_of_source hform hsource h⟩
  | @parent s o pointer p name hp hname free ho h ih =>
    rcases exists_interface hs hu (.parent hp hname free ho h) with ⟨k, hk, hd⟩ | ⟨b, hb, hform⟩
    · exact ⟨k, hk, .inl hd⟩
    · have hfrom := inheritedFrom_ref hname ho
      rw [free] at hfrom
      cases hunion : Schema.isUnion o with
      | true =>
        have hsource : o ∈ (c.heritage s).sources :=
          List.mem_flatMap.2 ⟨_, hp, by simp [hfrom, hunion]⟩
        exact ⟨b, hb, isDropped_or_mem_of_source hform hsource h⟩
      | false =>
        have hclimb : c.Climbs b p := by
          refine ⟨⟨free, _, hform, ?_⟩, fun o' ho' => by cases hform.symm.trans ho'⟩
          exact List.mem_flatMap.2 ⟨_, hp, by simp [hfrom, hunion]⟩
        obtain ⟨k, hk, hfound⟩ := ih ho hunion
        exact ⟨k, hb.trans (hk.head hclimb), hfound⟩

theorem HasName.of_chain (h : Relation.ReflTransGen c.Climbs a b) (hb : c.HasName b name) :
    c.HasName a name := by
  obtain ⟨k, form, hk, hform, hname⟩ := hb
  have htaken : Relation.ReflTransGen c.TakesOver a b :=
    Relation.ReflTransGen.mono (fun _ _ h => h.1) _ _ h
  exact ⟨k, form, htaken.trans hk, hform, hname⟩

/-- A name is a member on the way up, or comes by a component that wraps another one. -/
theorem HasName.cases (h : c.HasName a name) :
    (∃ k form, Relation.ReflTransGen c.Climbs a k ∧ Form.of? c.components k = some form ∧
      name ∈ c.memberNames form) ∨
      ∃ k q, Relation.ReflTransGen c.Climbs a k ∧ c.Wraps k q ∧ c.HasName q name := by
  obtain ⟨k, form, hk, hform, hname⟩ := h
  induction hk using Relation.ReflTransGen.head_induction_on with
  | refl => exact .inl ⟨k, form, .refl, hform, hname⟩
  | @head a a' hstep htail ih =>
    by_cases htype : ∃ s, Form.of? c.components a = some (.type s)
    · exact .inr ⟨a, a', .refl, ⟨hstep, htype⟩, ⟨k, form, htail, hform, hname⟩⟩
    · have hclimb : c.Climbs a a' := ⟨hstep, not_exists.1 htype⟩
      exact ih.imp (fun ⟨k, form, hk, h⟩ => ⟨k, form, hk.head hclimb, h⟩)
        fun ⟨k, q, hk, h⟩ => ⟨k, q, hk.head hclimb, h⟩

/-- **The members of an interface are the properties of its object** exactly if what is dropped on
the way up comes by another way, and nothing comes from elsewhere by a component that wraps another
one. -/
theorem members_iff (hv : c.components.Valid)
    (hform : Form.of? c.components component = some (.interface s)) :
    (∀ name, c.HasName component name ↔ c.Effective s name) ↔
      ∀ k, Relation.ReflTransGen c.Climbs component k →
        (∀ name, c.IsDropped k name → c.HasName component name) ∧
          ∀ q, c.Wraps k q → ∀ name, c.HasName q name → c.Effective s name := by
  obtain ⟨hat, hu⟩ := at?_of_interface hform
  have hs := schema_of_interface hform
  constructor
  · intro hall k hk
    refine ⟨fun name hd => (hall name).2 (.of_interface hform (.of_chain hv hk (hd.effective hv))),
      fun q hq name hname => (hall name).1 (.of_chain hk ?_)⟩
    obtain ⟨k', form, hk', hf, hn⟩ := hname
    exact ⟨k', form, hk'.head hq.1, hf, hn⟩
  · refine fun hall name => ⟨fun h => ?_, fun h => ?_⟩
    · rcases h.cases with ⟨k, form, hk, hf, hname⟩ | ⟨k, q, hk, hq, hname⟩
      · cases form with
        | interface o =>
          exact .of_interface hform (.of_chain hv hk
            ⟨o, schema_of_interface hf, .of_mem_memberNames hname⟩)
        | synonym | enumeration | type => cases hname
      · exact (hall k hk).2 q hq name hname
    · obtain ⟨k, hk, hd | ⟨form, hf, hname⟩⟩ := exists_of_effective h hs hu
      · exact (hall k hk).1 name hd
      · exact .of_chain hk ⟨k, form, .refl, hf, hname⟩

/-- What a component is composed of loses nothing and adds nothing. -/
structure IsPlain (c : TypeContext) (component : String) : Prop where
  /-- It is no other name for a component that a type of the client stands for. -/
  renames : ∀ p, c.components.Renames component p → c.transfers.has p = false
  /-- It does not wrap another component. -/
  wraps : ∀ p, ¬ c.Wraps component p
  /-- If it is declared as something else than an interface, it has no properties. -/
  bare : ∀ s, c.components.schemas.at? component = some (.inline s) →
    (∀ o, Form.ofObject s ≠ .interface o) → s.properties = [] ∧ s.allOf = []
  /-- The objects that it is composed of in place are not composed themselves. -/
  members : ∀ s o, c.components.schemas.at? component = some (.inline s) → .inline o ∈ s.allOf →
    o.allOf = []
  /-- The components that it refers to there are no choices, and no types of the client stand for
  them. -/
  parents : ∀ s pointer p o, c.components.schemas.at? component = some (.inline s) →
    .ref pointer ∈ s.allOf → componentName pointer = .ok p → c.components.schema p = .ok o →
      c.transfers.has p = false ∧ Schema.isUnion o = false

section Plain

variable (hv : c.components.Valid)
include hv

/-- A plain object inherits from the components that it refers to, and from nothing else. -/
theorem IsPlain.inheritedFrom_ref (h : c.IsPlain component)
    (hform : Form.of? c.components component = some (.interface s)) {pointer : String}
    (hp : .ref pointer ∈ s.allOf) : ∃ p, componentName pointer = .ok p ∧
      c.transfers.has p = false ∧ c.inheritedFrom (.ref pointer) =
        { parents := [p], inherited := (inheritedNames c.components p).toOption.getD [] } := by
  have hat := (at?_of_interface hform).1
  have hclosed := hv.closed _ (Entries.mem_of_at? hat)
  have hchild : Schema.ref pointer ∈ s.children := SchemaOf.mem_children.2 (by tauto)
  obtain ⟨p, hname, o, ho⟩ := hclosed pointer (Schema.pointers_subset hchild (by simp))
  obtain ⟨free, hunion⟩ := h.parents s pointer p o hat hp hname ho
  exact ⟨p, hname, free, by simp [TypeContext.inheritedFrom_ref hname ho, free, hunion]⟩

theorem IsPlain.climbs (h : c.IsPlain component)
    (hform : Form.of? c.components component = some (.interface s)) {pointer p : String}
    (hp : .ref pointer ∈ s.allOf) (hname : componentName pointer = .ok p) :
    c.Climbs component p := by
  obtain ⟨p', hp', free, hfrom⟩ := h.inheritedFrom_ref hv hform hp
  obtain rfl := Except.ok.inj (hname.symm.trans hp')
  refine ⟨⟨free, _, hform, List.mem_flatMap.2 ⟨_, hp, ?_⟩⟩, fun o ho => ?_⟩
  · simp [hfrom]
  · cases hform.symm.trans ho

/-- What a plain object leaves to its parents, one of them provides. -/
theorem IsPlain.exists_parent (h : c.IsPlain component)
    (hform : Form.of? c.components component = some (.interface s))
    (hname : name ∈ (c.heritage s).inherited) :
    ∃ p, c.Climbs component p ∧ Provides c.components p name := by
  obtain ⟨x, hx, hname⟩ := List.mem_flatMap.1 hname
  cases x with
  | inline o => cases hname
  | ref pointer =>
    obtain ⟨p, hp, -, hfrom⟩ := h.inheritedFrom_ref hv hform hx
    rw [hfrom] at hname
    exact ⟨p, h.climbs hv hform hx hp, provides_of_inheritedNames hname⟩

/-- **Where all is plain and nothing inherits from itself**, what a component provides are members.
-/
theorem hasName_of_provides (hacc : Acc (fun p k => c.Climbs k p) component)
    (hplain : ∀ k, Relation.ReflTransGen c.Climbs component k → c.IsPlain k)
    (h : Provides c.components component name) : c.HasName component name := by
  induction hacc generalizing name with
  | intro a _ ih =>
    have hself := hplain a .refl
    have hup : ∀ p, c.Climbs a p → Provides c.components p name → c.HasName a name := fun p hp h =>
      .of_chain (.single hp) (ih p hp (fun k hk => hplain k (hk.head hp)) h)
    have hs : ∃ s, c.components.schema a = .ok s := by cases h <;> exact ⟨_, by assumption⟩
    obtain ⟨s, hs⟩ := hs
    cases hat : c.components.schemas.at? a with
    | none => simp [Components.schema, Components.follow, hat] at hs
    | some x =>
      cases x with
      | ref pointer =>
        have hform : Form.of? c.components a = some (.synonym pointer) := by simp [Form.of?, hat]
        obtain ⟨p, hp, -⟩ := Components.closed_ref.1 (hv.closed _ (Entries.mem_of_at? hat))
        have hrenames : c.components.Renames a p := ⟨pointer, hat, hp⟩
        have hclimbs : c.Climbs a p :=
          ⟨⟨hself.renames p hrenames, _, hform, by simp [above, hp, Except.toOption]⟩,
            fun o ho => by cases hform.symm.trans ho⟩
        exact hup p hclimbs (h.congr hs (Components.schema_of_renames hrenames hs))
      | inline o =>
        obtain rfl := Except.ok.inj ((schema_of_at? hat).symm.trans hs)
        by_cases hinterface : ∃ s, Form.ofObject o = .interface s
        · obtain ⟨s, hinterface⟩ := hinterface
          have hform : Form.of? c.components a = some (.interface s) := by
            simp [Form.of?, hat, hinterface]
          obtain rfl := Except.ok.inj (hs.symm.trans (schema_of_interface hform))
          cases h with
          | @own _ _ s' o' hs' ho hname =>
            obtain rfl := Except.ok.inj (hs.symm.trans hs')
            have hsource : o' ∈ (c.heritage o).sources ++ [o] := by
              rcases ho with rfl | ho
              · simp
              · exact List.mem_append_left _ (List.mem_flatMap.2 ⟨_, ho, List.mem_singleton_self _⟩)
            by_cases hinherited : name ∈ (c.heritage o).inherited
            · obtain ⟨p, hp, h⟩ := hself.exists_parent hv hform hinherited
              exact hup p hp h
            · exact ⟨a, _, .refl, hform, mem_memberNames.2 ⟨⟨o', hsource, hname⟩, hinherited⟩⟩
          | parent hs' hp hpointer h =>
            obtain rfl := Except.ok.inj (hs.symm.trans hs')
            exact hup _ (hself.climbs hv hform hp hpointer) h
        · obtain ⟨hproperties, hallOf⟩ := hself.bare o hat (not_exists.1 hinterface)
          cases h with
          | own hs' ho hname =>
            obtain rfl := Except.ok.inj (hs.symm.trans hs')
            rcases ho with rfl | ho
            · simp [Entries.keys, hproperties] at hname
            · simp [hallOf] at ho
          | parent hs' hp _ _ =>
            obtain rfl := Except.ok.inj (hs.symm.trans hs')
            simp [hallOf] at hp

/-- **Where all is plain and nothing inherits from itself**, the members are the properties. -/
theorem hasName_iff_of_plain (hform : Form.of? c.components component = some (.interface s))
    (hacc : Acc (fun p k => c.Climbs k p) component)
    (hplain : ∀ k, Relation.ReflTransGen c.Climbs component k → c.IsPlain k) :
    ∀ name, c.HasName component name ↔ c.Effective s name := by
  refine (members_iff hv hform).2 fun k hk => ⟨fun name hd => ?_, fun q hq => ?_⟩
  · have hself := hplain k hk
    cases hd with
    | @hidden s o hform _ _ hinherited =>
      obtain ⟨p, hp, hprovides⟩ := hself.exists_parent hv hform hinherited
      have hchain := hk.tail hp
      have hacc' : Acc (fun p k => c.Climbs k p) p := by
        clear hprovides hp
        induction hchain with
        | refl => exact hacc
        | tail _ hstep ih => exact ih.inv hstep
      exact .of_chain hchain (hasName_of_provides hv hacc' (fun k' hk' => hplain k' (hchain.trans hk'))
        hprovides)
    | @buried s o hform ho hname =>
      have hat := (at?_of_interface hform).1
      rcases cases_of_mem_sources ho with ho | ⟨hunion, pointer, p, hp, hpointer, -, hs⟩
      · have hnone := hself.members s o hat ho
        exact absurd hname (not_effective rfl hnone)
      · exact absurd hunion (by simp [(hself.parents s pointer p o hat hp hpointer hs).2])
    | enumerated hform hname =>
      obtain ⟨s, hs, hname⟩ := hname
      obtain ⟨x, hat, hx⟩ := Option.map_eq_some_iff.1 hform
      cases x with
      | ref pointer => cases hx
      | inline o =>
        obtain rfl := Except.ok.inj ((schema_of_at? hat).symm.trans hs)
        obtain ⟨hproperties, hallOf⟩ := hself.bare o hat fun s h => by cases hx.symm.trans h
        exact absurd hname (not_effective hproperties hallOf)
    | foreign hform hp ht _ =>
      exact absurd ht (by simp [hself.renames _ ⟨_, renames_of_synonym hform, hp⟩])
  · exact absurd hq ((hplain k hk).wraps q)

end Plain

/-- The component is an interface that is composed of components only, which are no choices and no
types of the client, and whose names are `parents`. -/
def extendsOnly (c : TypeContext) (component : String) (parents : List String) : Bool :=
  match Form.of? c.components component with
  | some (.interface s) => decide ((c.heritage s).parents = parents) && s.allOf.all fun
    | .inline _ => false
    | .ref pointer => match componentName pointer with
      | .ok p => match c.components.schema p with
        | .ok o => !c.transfers.has p && !Schema.isUnion o
        | .error _ => false
      | .error _ => false
  | _ => false

/-- Such a component is plain. -/
theorem IsPlain.of_extendsOnly {parents : List String}
    (h : c.extendsOnly component parents = true) :
    c.IsPlain component ∧ ∀ p, c.Climbs component p → p ∈ parents := by
  unfold extendsOnly at h
  split at h
  · next s hform =>
    have hat := (at?_of_interface hform).1
    have heq : ∀ {o}, c.components.schemas.at? component = some (.inline o) → o = s := fun ho =>
      Schema.inline.inj (Option.some.inj (ho.symm.trans hat))
    rw [Bool.and_eq_true, decide_eq_true_eq, List.all_eq_true] at h
    obtain ⟨hparents, hall⟩ := h
    refine ⟨⟨fun p hp => ?_, fun p hp => ?_, fun o ho hnot => ?_, fun o x ho hx => ?_,
      fun o pointer p u ho hp hname hu => ?_⟩, fun p hp => ?_⟩
    · obtain ⟨pointer, hat', -⟩ := hp
      cases hat.symm.trans hat'
    · obtain ⟨o, ho⟩ := hp.2
      cases hform.symm.trans ho
    · obtain rfl := heq ho
      exact absurd (by simpa [Form.of?, hat] using hform) (hnot o)
    · exact absurd (hall _ (heq ho ▸ hx)) (by simp)
    · have hpointer := hall _ (heq ho ▸ hp)
      simpa [hname, hu] using hpointer
    · obtain ⟨-, form, hform', habove⟩ := hp.1
      obtain rfl := Option.some.inj (hform.symm.trans hform')
      exact hparents ▸ habove
  · cases h

/-- The component is an interface without parents, and has a property of the name in an object that is
composed in place of one that is itself composed in place. -/
def composesDeep (c : TypeContext) (component name : String) : Bool :=
  match Form.of? c.components component with
  | some (.interface s) => decide ((c.heritage s).parents = []) && match s.allOf with
    | [.inline o] => match o.allOf with
      | [.inline o'] => decide (name ∈ Entries.keys o'.properties)
      | _ => false
    | _ => false
  | _ => false

/-- Such an object has the property. -/
theorem exists_of_composesDeep {component name : String} (h : c.composesDeep component name = true) :
    ∃ s, Form.of? c.components component = some (.interface s) ∧ (c.heritage s).parents = [] ∧
      c.Effective s name := by
  unfold composesDeep at h
  split at h
  · next s hform =>
    obtain ⟨hparents, hdeep⟩ := Bool.and_eq_true_iff.1 h
    refine ⟨s, hform, of_decide_eq_true hparents, ?_⟩
    split at hdeep
    · next o hallOf =>
      split at hdeep
      · next o' ho =>
        have hname : c.Effective o' name := .own (of_decide_eq_true hdeep)
        exact .member (o := o) (by simp [hallOf]) (.member (o := o') (by simp [ho]) hname)
      · cases hdeep
    · cases hdeep
  · cases h

end TypeContext

section Emitted

/-- The declaration of a component takes over the members of another one that has a model. -/
def ExtendsModel (c : TypeContext) (ms : Entries Model) (a b : String) : Prop :=
  b ∈ ms.keys ∧ ∃ form, Form.of? c.components a = some form ∧ b ∈ c.above form

/-- The emitted interface of a component, or one that it extends, has a member of the name. -/
def HasMember (c : TypeContext) (s : Sources) (ms : Entries Model) (component name : String) :
    Prop :=
  ∃ k m f i p, Relation.ReflTransGen (ExtendsModel c ms) component k ∧ (k, m) ∈ ms ∧
    s.at? m.file = some f ∧ f.declaration? m.identifier = some (.interface i) ∧
    p ∈ i.members ∧ p.name = name

variable {j : Job} {transfers : Entries TransferTarget} {roots ns : List String} {r : Run}
  {ms : Entries Model} {T : List Route}

/-- The members of an interface have the names that its form has. -/
theorem TypeContext.map_name_members {c : TypeContext} {b : Bindings} {s : SchemaObject}
    {members : List Property}
    (h : List.Forall₂ (fun e p => c.Declared b e.1 e.2.1 e.2.2 p) (c.ownProperties s) members) :
    members.map (·.name) = c.memberNames (.interface s) := by
  simp only [memberNames]
  generalize c.ownProperties s = es at h
  induction h with
  | nil => rfl
  | cons he _ ih => rw [List.map_cons, he.name, ih]; rfl

theorem mem_keys_of_chain {c : TypeContext} {a b : String} (ha : a ∈ ms.keys)
    (h : Relation.ReflTransGen (ExtendsModel c ms) a b) : b ∈ ms.keys := by
  rcases Relation.ReflTransGen.cases_tail h with rfl | ⟨_, -, hlast⟩
  · exact ha
  · exact hlast.1

/-- **Models extend the models that their components take over.** -/
theorem Run.Modelled.chain_iff (h : r.Modelled j transfers roots (identifiersOf ms) ns)
    (hall : ∀ n ∈ ns, ms.has n = true ∨ transfers.has n = true) {a b : String} (ha : a ∈ ms.keys) :
    Relation.ReflTransGen (ExtendsModel ⟨j.document.parts, transfers, none⟩ ms) a b ↔
      Relation.ReflTransGen (⟨j.document.parts, transfers, none⟩ : TypeContext).TakesOver a b := by
  constructor
  · refine Relation.ReflTransGen.mono (fun x y hstep => ⟨?_, hstep.2⟩) _ _
    exact (h.written y (keys_identifiersOf ms ▸ hstep.1)).free
  · intro hchain
    induction hchain with
    | refl => exact .refl
    | @tail x y _ hstep ih =>
      obtain ⟨free, form, hform, habove⟩ := hstep
      have hx := mem_keys_of_chain ha ih
      refine ih.tail ⟨?_, form, hform, habove⟩
      have free : transfers.has y = false := free
      rcases h.named x (keys_identifiersOf ms ▸ hx) form hform y
        (TypeContext.mention_of_mem_above habove) free with rfl | hnamed
      · exact hx
      · exact Entries.has_iff.1 ((hall y hnamed).resolve_right (by simp [free]))

/-- **The members of emitted interfaces** are those that the schemas tell. -/
theorem Run.Modelled.hasMember_iff (h : r.Modelled j transfers roots (identifiersOf ms) ns)
    (hs : r.Sound j T) (hms : Listed j.document.parts ms)
    (hall : ∀ n ∈ ns, ms.has n = true ∨ transfers.has n = true) {component name : String}
    (hcomponent : component ∈ ms.keys) :
    HasMember ⟨j.document.parts, transfers, none⟩ r.sources ms component name ↔
      (⟨j.document.parts, transfers, none⟩ : TypeContext).HasName component name := by
  constructor
  · rintro ⟨k, m, f, i, p, hk, hm, hf, hd, hp, rfl⟩
    obtain ⟨f', form, d, hf', hd', hform, hdeclares⟩ := h.declaration hs hms hm
    obtain rfl := Option.some.inj (hf.symm.trans hf')
    obtain rfl := Option.some.inj (hd.symm.trans hd')
    refine ⟨k, form, (h.chain_iff hall hcomponent).1 hk, hform, ?_⟩
    cases form with
    | interface s =>
      obtain ⟨parents, members, heq, -, hmembers⟩ := hdeclares
      obtain rfl := Declaration.interface.inj heq
      exact TypeContext.map_name_members hmembers ▸ List.mem_map.2 ⟨p, hp, rfl⟩
    | synonym => obtain ⟨_, _, -, heq, -⟩ := hdeclares; cases heq
    | enumeration => obtain ⟨_, heq⟩ := hdeclares; cases heq
    | type => obtain ⟨_, heq, -⟩ := hdeclares; cases heq
  · rintro ⟨k, form, hk, hform, hname⟩
    have hk := (h.chain_iff hall hcomponent).2 hk
    obtain ⟨⟨_, m⟩, hm, rfl⟩ := List.mem_map.1 (mem_keys_of_chain hcomponent hk)
    obtain ⟨f, form', d, hf, hd, hform', hdeclares⟩ := h.declaration hs hms hm
    obtain rfl := Option.some.inj (hform.symm.trans hform')
    cases form with
    | interface s =>
      obtain ⟨parents, members, rfl, -, hmembers⟩ := hdeclares
      have hname : name ∈ members.map (·.name) :=
        (TypeContext.map_name_members hmembers).symm ▸ hname
      obtain ⟨p, hp, rfl⟩ := List.mem_map.1 hname
      exact ⟨_, m, f, _, p, hk, hm, hf, hd, hp, rfl⟩
    | synonym | enumeration | type => cases hname

/-- **The members of an emitted interface, with those that it extends, are the properties of its
object** exactly if what is dropped on the way up comes by another way, and nothing comes from
elsewhere by a component that wraps another one. So they are where all that the component is
composed of is plain, and nothing in it inherits from itself. No interface has a name twice, and it
extends the parents of its component, as its file knows them. -/
theorem interfaceMembers_iff {d : Document} (hd : d.validate = .ok ()) {settings : Settings}
    {before : List Pass} (hbefore : ∀ p ∈ before, p = .transferTypes ∨ p = .backbone)
    {log : List LogLine} {r r' : Run}
    (hr : (executeAll ⟨d, settings⟩ before).run.run { Run.start settings with log } = (.ok (), r))
    (hr' : (Pass.model.execute ⟨d, settings⟩).run.run r = (.ok (), r')) :
    let c : TypeContext := ⟨d.parts, r.transfers, none⟩
    ∃ ms, r'.models = some ms ∧ ∀ e ∈ ms, ∀ f i, r'.sources.at? e.2.file = some f →
      f.declaration? e.2.identifier = some (.interface i) →
      ∃ s, d.parts.schemas.at? e.1 = some (.inline s) ∧
        (i.members.map (·.name)).Nodup ∧
        List.Forall₂ (fun p t => TypeContext.Applies { c with own := some (e.1, e.2.identifier) }
          f.bindings p [] t) (c.heritage s).parents i.parents ∧
        ((∀ name, HasMember c r'.sources ms e.1 name ↔ c.Effective s name) ↔
          ∀ k, Relation.ReflTransGen c.Climbs e.1 k →
            (∀ name, c.IsDropped k name → HasMember c r'.sources ms e.1 name) ∧
              ∀ q, c.Wraps k q → ∀ name, HasMember c r'.sources ms q name → c.Effective s name) ∧
        (Acc (fun p k => c.Climbs k p) e.1 →
          (∀ k, Relation.ReflTransGen c.Climbs e.1 k → c.IsPlain k) →
          ∀ name, HasMember c r'.sources ms e.1 name ↔ c.Effective s name) := by
  intro c
  have hv := Document.valid_of_validate hd
  obtain ⟨T, hs, hnone⟩ :=
    (executeAll_typeDeclarations (j := ⟨d, settings⟩) hv hbefore log).result hr
  obtain ⟨b, ms, ns, -, hms, hlisted, hm, -, hall⟩ :=
    (writeModels_modelled (j := ⟨d, settings⟩) hv hs hnone).result hr'
  obtain ⟨⟨T', hs', -⟩, -⟩ := (writeModels_sound (j := ⟨d, settings⟩) hv hs).result hr'
  refine ⟨ms, hms, fun e he f i hf hi => ?_⟩
  have hkey : e.1 ∈ ms.keys := List.mem_map.2 ⟨e, he, rfl⟩
  obtain ⟨f', form, declaration, hf', hi', hform, hdeclares⟩ := hm.declaration hs' hlisted he
  obtain rfl := Option.some.inj (hf.symm.trans hf')
  obtain rfl := Option.some.inj (hi.symm.trans hi')
  cases form with
  | synonym => obtain ⟨_, _, -, heq, -⟩ := hdeclares; cases heq
  | enumeration => obtain ⟨_, heq⟩ := hdeclares; cases heq
  | type => obtain ⟨_, heq, -⟩ := hdeclares; cases heq
  | interface s =>
    obtain ⟨parents, members, heq, hparents, hmembers⟩ := hdeclares
    obtain rfl := Declaration.interface.inj heq
    have hname : ∀ k ∈ ms.keys, ∀ name,
        HasMember c r'.sources ms k name ↔ c.HasName k name := fun k hk name =>
      hm.hasMember_iff hs' hlisted hall hk
    refine ⟨s, (TypeContext.at?_of_interface (c := c) hform).1, ?_, hparents, ?_,
      fun hacc hplain name => ?_⟩
    · have hnames := TypeContext.map_name_members hmembers
      exact hnames ▸ Entries.nodup_keys_firsts _
    · have hiff := TypeContext.members_iff (c := c) hv.parts hform
      have hself := hname e.1 hkey
      have hwrapped : ∀ k q, Relation.ReflTransGen c.Climbs e.1 k → c.Wraps k q → q ∈ ms.keys := by
        intro k q hk hq
        have hup : Relation.ReflTransGen c.TakesOver e.1 k :=
          Relation.ReflTransGen.mono (fun _ _ h => h.1) _ _ hk
        exact mem_keys_of_chain hkey ((hm.chain_iff hall hkey).2 (hup.tail hq.1))
      refine (forall_congr' fun name => iff_congr (hself name) Iff.rfl).trans (hiff.trans ?_)
      refine forall₂_congr fun k hk => and_congr ?_ ?_
      · exact forall₂_congr fun name _ => (hself name).symm
      · exact forall₂_congr fun q hq => forall_congr' fun name =>
          imp_congr (hname q (hwrapped k q hk hq) name).symm Iff.rfl
    · rw [hname e.1 hkey]
      exact TypeContext.hasName_iff_of_plain (c := c) hv.parts hform hacc hplain name

/-- A run on a component with a parent: its interface has the property that it adds, and that of the
parent by extending it. -/
theorem interfaceMembers_iff_oneParent :
    ∃ d r r' ms m f i s, Document.ofJson (operationsDocument [("/E/get", refTo "Cat")]
        [("Cat", objectWith "color" ["Animal"]), ("Animal", objectWith "name" [])]) = .ok d ∧
      d.validate = .ok () ∧
      (executeAll ⟨d, {}⟩ [.transferTypes, .backbone]).run.run (Run.start {}) = (.ok (), r) ∧
      (Pass.model.execute ⟨d, {}⟩).run.run r = (.ok (), r') ∧ r'.models = some ms ∧
      ("Cat", m) ∈ ms ∧ r'.sources.at? m.file = some f ∧
      f.declaration? m.identifier = some (.interface i) ∧ i.members.map (·.name) = ["color"] ∧
      d.parts.schemas.at? "Cat" = some (.inline s) ∧
      let c : TypeContext := ⟨d.parts, r.transfers, none⟩
      Acc (fun p k => c.Climbs k p) "Cat" ∧
        (∀ k, Relation.ReflTransGen c.Climbs "Cat" k → c.IsPlain k) ∧
        ∀ name, HasMember c r'.sources ms "Cat" name ↔ c.Effective s name := by
  obtain ⟨d, r, hd, hvalid, hr, htest⟩ := exists_of_runOf?
    (operationsDocument [("/E/get", refTo "Cat")]
      [("Cat", objectWith "color" ["Animal"]), ("Animal", objectWith "name" [])]) {}
    [.transferTypes, .backbone] (fun d r =>
      let c : TypeContext := ⟨d.parts, r.transfers, none⟩
      c.extendsOnly "Cat" ["Animal"] && c.extendsOnly "Animal" [] &&
        (r.after? (Pass.model.execute ⟨d, {}⟩)).any fun r' => r'.models.any fun ms => (ms.at? "Cat").any fun m =>
          (r'.interface? m).any fun i => decide (i.members.map (·.name) = ["color"])) (by decide +kernel)
  obtain ⟨hplain, htest⟩ := Bool.and_eq_true_iff.1 htest
  obtain ⟨hcat, hanimal⟩ := Bool.and_eq_true_iff.1 hplain
  obtain ⟨hcat, hcatUp⟩ :=
    TypeContext.IsPlain.of_extendsOnly (c := ⟨d.parts, r.transfers, none⟩) hcat
  obtain ⟨hanimal, hanimalUp⟩ :=
    TypeContext.IsPlain.of_extendsOnly (c := ⟨d.parts, r.transfers, none⟩) hanimal
  obtain ⟨r', hafter, htest⟩ := (Option.any_eq_true ..).1 htest
  have hr' := Run.of_after? hafter
  obtain ⟨ms, hms, htest⟩ := (Option.any_eq_true ..).1 htest
  obtain ⟨m, hm, htest⟩ := (Option.any_eq_true ..).1 htest
  obtain ⟨i, hi, hmembers⟩ := (Option.any_eq_true ..).1 htest
  obtain ⟨f, hf, hi⟩ := Run.of_interface? hi
  obtain ⟨ms', hms', hall⟩ :=
    @interfaceMembers_iff d hvalid {} [.transferTypes, .backbone] (by simp) [] r r' hr hr'
  obtain rfl := Option.some.inj (hms.symm.trans hms')
  have hmem := Entries.mem_of_at? hm
  obtain ⟨s, hs, -, -, -, hplainly⟩ := hall _ hmem f i hf hi
  have hacc : Acc (fun p k => (⟨d.parts, r.transfers, none⟩ : TypeContext).Climbs k p) "Cat" := by
    refine ⟨_, fun p hp => ⟨_, fun q hq => ?_⟩⟩
    rw [List.mem_singleton.1 (hcatUp p hp)] at hq
    cases hanimalUp q hq
  have hup : ∀ k, Relation.ReflTransGen (⟨d.parts, r.transfers, none⟩ : TypeContext).Climbs "Cat" k →
      (⟨d.parts, r.transfers, none⟩ : TypeContext).IsPlain k := fun k hk => by
    rcases Relation.ReflTransGen.cases_head hk with rfl | ⟨p, hp, hk⟩
    · exact hcat
    · rw [List.mem_singleton.1 (hcatUp p hp)] at hk
      rcases Relation.ReflTransGen.cases_head hk with rfl | ⟨q, hq, -⟩
      · exact hanimal
      · cases hanimalUp q hq
  exact ⟨d, r, r', ms, m, f, i, s, hd, hvalid, hr, hr', hms, hmem, hf, hi, of_decide_eq_true hmembers,
    hs, hacc, hup, hplainly hacc hup⟩

/-- **A property two levels deep is lost**: an object that is composed in place of one that is
itself composed in place has an interface without the property that stands there. -/
theorem not_interfaceMembers :
    ∃ d r r' ms m f i s, Document.ofJson (operationsDocument [("/E/get", refTo "Cat")]
        [("Cat", .object [("allOf", .array [.object [("allOf", .array [.object [
          ("properties", .object [("name", .object [("type", .string "string")])])]])]])])]) = .ok d ∧
      d.validate = .ok () ∧
      (executeAll ⟨d, {}⟩ [.transferTypes, .backbone]).run.run (Run.start {}) = (.ok (), r) ∧
      (Pass.model.execute ⟨d, {}⟩).run.run r = (.ok (), r') ∧ r'.models = some ms ∧
      ("Cat", m) ∈ ms ∧ r'.sources.at? m.file = some f ∧
      f.declaration? m.identifier = some (.interface i) ∧
      d.parts.schemas.at? "Cat" = some (.inline s) ∧
      let c : TypeContext := ⟨d.parts, r.transfers, none⟩
      ¬ ∀ name, HasMember c r'.sources ms "Cat" name ↔ c.Effective s name := by
  obtain ⟨d, r, hd, hvalid, hr, htest⟩ := exists_of_runOf?
    (operationsDocument [("/E/get", refTo "Cat")]
      [("Cat", .object [("allOf", .array [.object [("allOf", .array [.object [
        ("properties", .object [("name", .object [("type", .string "string")])])]])]])])]) {}
    [.transferTypes, .backbone] (fun d r =>
      (⟨d.parts, r.transfers, none⟩ : TypeContext).composesDeep "Cat" "name" &&
        (r.after? (Pass.model.execute ⟨d, {}⟩)).any fun r' => r'.models.any fun ms => (ms.at? "Cat").any fun m =>
          decide (ms.length = 1) && (r'.interface? m).any fun i => i.members.isEmpty) (by decide +kernel)
  obtain ⟨hdeep, htest⟩ := Bool.and_eq_true_iff.1 htest
  obtain ⟨s, hform, hparents, heffective⟩ := TypeContext.exists_of_composesDeep hdeep
  obtain ⟨r', hafter, htest⟩ := (Option.any_eq_true ..).1 htest
  obtain ⟨ms, hms, htest⟩ := (Option.any_eq_true ..).1 htest
  obtain ⟨m, hm, htest⟩ := (Option.any_eq_true ..).1 htest
  obtain ⟨hlength, htest⟩ := Bool.and_eq_true_iff.1 htest
  obtain ⟨i, hi, hmembers⟩ := (Option.any_eq_true ..).1 htest
  obtain ⟨f, hf, hi⟩ := Run.of_interface? hi
  have hmem := Entries.mem_of_at? hm
  refine ⟨d, r, r', ms, m, f, i, s, hd, hvalid, hr, Run.of_after? hafter, hms, hmem, hf, hi,
    (TypeContext.at?_of_interface (c := ⟨d.parts, r.transfers, none⟩) hform).1, fun hall => ?_⟩
  obtain ⟨k, m', f', i', p, hk, hm', hf', hi', hp, -⟩ := (hall "name").2 heffective
  rcases Relation.ReflTransGen.cases_head hk with rfl | ⟨b, ⟨-, form, hform', habove⟩, -⟩
  · obtain ⟨e, rfl⟩ := List.length_eq_one_iff.1 (of_decide_eq_true hlength)
    obtain rfl : m' = m := by
      rw [List.mem_singleton] at hmem hm'
      exact (Prod.mk.inj (hm'.trans hmem.symm)).2
    obtain rfl := Option.some.inj (hf.symm.trans hf')
    cases Option.some.inj (hi.symm.trans hi')
    rw [List.isEmpty_iff.1 hmembers] at hp
    cases hp
  · obtain rfl := Option.some.inj (hform.symm.trans hform')
    have habove : b ∈ (TypeContext.heritage ⟨d.parts, r.transfers, none⟩ s).parents := habove
    rw [hparents] at habove
    cases habove

end Emitted

end Client
end OpenApiClient
