/-
# Tags that tell leaves apart

The interface of a model is a literal in a property exactly if the schemas tell so: the last base that has
the component as a leaf and has the property tells its tag, and where there is none the schema of the
property itself (`Run.Pinned.hasLiteral_iff`).

From this it can be read off when tags do what discriminators are for. A tag that a base configures is
replaced where a later base has the leaf without a tag for it (`configuredTags_win`). Two leaves of a base
have one tag where they have one simple name, or where a later base says so (`leaves_toldApart`). And an
interface that extends another one has another literal where both are leaves (`literals_inherited`).
-/

import OpenApiClient.Proofs.Inheritance
import OpenApiClient.Proofs.Pinning

namespace OpenApiClient
namespace Client

open OpenApi TypeScript OpenApiClient.Module

/-- The tags that the discriminator of an object gives a leaf. -/
def configuredTags (s : SchemaObject) (leaf : String) : List String :=
  List.map (·.1) (((s.discriminator.map (·.mapping)).getD []).filter fun e =>
    (componentName e.2).toOption.getD e.2 == leaf)

/-- **The tag of a leaf** is the first one that the base gives it, and if there is none its simple name. -/
theorem tagOf_eq (s : SchemaObject) (leaf : String) :
    tagOf s leaf = (configuredTags s leaf).head?.getD (Naming.simpleName leaf) := by
  rw [tagOf, configuredTags, List.head?_map, List.head?_filter]
  split
  · next h => rw [h]; rfl
  · next h => rw [h]; rfl

theorem tagOf_cases (s : SchemaObject) (leaf : String) :
    tagOf s leaf ∈ configuredTags s leaf ∨
      configuredTags s leaf = [] ∧ tagOf s leaf = Naming.simpleName leaf := by
  rw [tagOf_eq]
  cases configuredTags s leaf with
  | nil => exact .inr ⟨rfl, rfl⟩
  | cons tag tags => exact .inl List.mem_cons_self

/-- A tag is given to one leaf, where no tag comes twice in the mapping. -/
theorem leaf_eq_of_configured {s : SchemaObject}
    (hkeys : ∀ d, s.discriminator = some d → d.mapping.keys.Nodup) {tag leaf leaf' : String}
    (h : tag ∈ configuredTags s leaf) (h' : tag ∈ configuredTags s leaf') : leaf = leaf' := by
  obtain ⟨e, he, rfl⟩ := List.mem_map.1 h
  obtain ⟨e', he', heq⟩ := List.mem_map.1 h'
  obtain ⟨hmem, htarget⟩ := List.mem_filter.1 he
  obtain ⟨hmem', htarget'⟩ := List.mem_filter.1 he'
  cases hd : s.discriminator with
  | none => simp [hd] at hmem
  | some d =>
    rw [hd] at hmem hmem'
    obtain rfl := List.inj_on_of_nodup_map (hkeys d hd) hmem' hmem heq
    exact (beq_iff_eq.1 htarget).symm.trans (beq_iff_eq.1 htarget')

/-- Of some leaves a base tells two the same tag only if one of them has no tag in its mapping, where no tag
comes twice in it. -/
theorem tagOf_ne_iff {s : SchemaObject} (hkeys : ∀ d, s.discriminator = some d → d.mapping.keys.Nodup)
    {P : String → Prop} :
    (∀ a, P a → ∀ b, P b → a ≠ b → tagOf s a ≠ tagOf s b) ↔
      ∀ a, P a → ∀ b, P b → a ≠ b → configuredTags s a = [] → Naming.simpleName a ≠ tagOf s b := by
  constructor
  · intro hdiffer a ha b hb hne hno
    have htag : tagOf s a = Naming.simpleName a := by rw [tagOf_eq, hno]; rfl
    exact htag ▸ hdiffer a ha b hb hne
  · intro hno a ha b hb hne heq
    rcases tagOf_cases s a with hgiven | ⟨hnone, hsimple⟩
    · rcases tagOf_cases s b with hgiven' | ⟨hnone, hsimple⟩
      · exact hne (leaf_eq_of_configured hkeys hgiven (heq ▸ hgiven'))
      · exact hno b hb a ha hne.symm hnone (hsimple.symm.trans heq.symm)
    · exact hno a ha b hb hne hnone (hsimple.symm.trans heq)

namespace TypeContext

variable (c : TypeContext)

/-- The literal that a property has in the interface of a component after the bases among some components
have pinned it. -/
def literalOf? (components : List String) (component property : String) : Option String :=
  match Form.of? c.components component with
  | some (.interface s) =>
    match (withProperty property (c.basesOf components component)).getLast? with
    | some base => some (tagOf base component)
    | none => (Entries.at? (c.ownProperties s) property).bind (·.1.literal?)
  | _ => none

variable {c} {components : List String} {component property : String}

theorem literalOf?_of_base {s base : SchemaObject}
    (hform : Form.of? c.components component = some (.interface s))
    (hbase : (withProperty property (c.basesOf components component)).getLast? = some base) :
    c.literalOf? components component property = some (tagOf base component) := by
  simp only [literalOf?, hform, hbase]

/-- **The order of the bases does not matter** exactly if they all give one tag. -/
theorem literalOf?_perm_iff {s : SchemaObject}
    (hform : Form.of? c.components component = some (.interface s)) :
    (∀ order : List String, order.Perm components →
      c.literalOf? order component property = c.literalOf? components component property) ↔
    ∀ a ∈ withProperty property (c.basesOf components component),
      ∀ b ∈ withProperty property (c.basesOf components component),
        tagOf a component = tagOf b component := by
  constructor
  · intro h
    -- Each base can be made the last one.
    have hlast : ∀ a ∈ withProperty property (c.basesOf components component),
        c.literalOf? components component property = some (tagOf a component) := fun a ha => by
      obtain ⟨ha, hproperty⟩ := mem_withProperty.1 ha
      obtain ⟨k, hk, leaves, hbase, hleaf⟩ := mem_basesOf.1 ha
      obtain ⟨before, after, rfl⟩ := List.mem_iff_append.1 hk
      have hperm : (before ++ after ++ [k]).Perm (before ++ k :: after) := by
        rw [List.append_assoc]
        exact (List.perm_append_singleton k after).append_left before
      rw [← h _ hperm]
      refine literalOf?_of_base hform ?_
      rw [basesOf_append, show c.basesOf [k] component = [a] by simp [basesOf, hbase, hleaf],
        getLast?_withProperty_concat, if_pos hproperty]
    intro a ha b hb
    exact Option.some.inj ((hlast a ha).symm.trans (hlast b hb))
  · intro h order hperm
    have hbases : (withProperty property (c.basesOf order component)).Perm
        (withProperty property (c.basesOf components component)) :=
      (hperm.filterMap _).filter _
    simp only [literalOf?, hform]
    cases hlast : (withProperty property (c.basesOf components component)).getLast? with
    | none =>
      rw [List.getLast?_eq_none_iff] at hlast
      rw [hlast] at hbases
      rw [hbases.eq_nil]
      rfl
    | some b =>
      have hb := List.mem_of_getLast? hlast
      cases hlast' : (withProperty property (c.basesOf order component)).getLast? with
      | none =>
        rw [List.getLast?_eq_none_iff] at hlast'
        rw [hlast'] at hbases
        rw [hbases.symm.eq_nil] at hb
        cases hb
      | some a => exact congrArg some (h a (hbases.mem_iff.1 (List.mem_of_getLast? hlast')) b hb)

end TypeContext

section Literals

variable {j : Job} {ms : Entries Model} {r₀ r : Run}

/-- What is literal among members is told by the properties that they read as. -/
theorem literal?_of_reads {es : Entries (Schema × Bool)} {members : List Property}
    (h : List.Forall₂ (fun e p => p.name = e.1 ∧ p.type.literal? = e.2.1.literal?) es members)
    (name : String) :
    (memberType? members name).bind Ty.literal? = (Entries.at? es name).bind (·.1.literal?) := by
  induction h with
  | nil => rfl
  | @cons e p es members he _ ih =>
    obtain ⟨n, x⟩ := e
    by_cases hname : n = name
    · simp [memberType?, Entries.at?, he.1, he.2, hname]
    · have hne : (name == n) = false := by simpa using fun heq => hname (Eq.symm heq)
      simpa [memberType?, Entries.at?, List.lookup_cons, he.1, hname, hne] using ih

/-- The interface of a model has the members that its component tells, pinned by all bases. -/
theorem Run.Pinned.interface (h : Run.Pinned j ms r₀ r) {e : String × Model} (he : e ∈ ms) {i : Interface}
    (hi : r.interface? e.2 = some i) :
    ∃ s members, Form.of? j.document.parts e.1 = some (.interface s) ∧
      (members.map (·.name)).Nodup ∧
      List.Forall₂ (fun e p => p.name = e.1 ∧ p.type.literal? = e.2.1.literal?)
        ((j.types r).ownProperties s) members ∧
      i.members = pinTags e.1 ((j.types r).basesOf ms.keys e.1) members := by
  rw [h.pins.interface e he] at hi
  obtain ⟨i₀, hi₀, rfl⟩ := Option.map_eq_some_iff.1 hi
  obtain ⟨f, hf, hd⟩ := Run.of_interface? hi₀
  obtain ⟨roots, ns, hm, -⟩ := h.modelled
  obtain ⟨T, hs⟩ := h.sound
  -- The interface is the declaration of its form, and the only type in its file.
  obtain ⟨f', form, d, hf', hd', hform, hdeclares⟩ := hm.declaration hs h.listed he
  obtain rfl := Option.some.inj (hf.symm.trans hf')
  obtain rfl := Option.some.inj (hd.symm.trans hd')
  obtain ⟨f', form', d', hf', htypes, -⟩ :=
    hm.declared (e.1, e.2.identifier) (List.mem_map.2 ⟨e, he, rfl⟩)
  obtain rfl := Option.some.inj (hf.symm.trans ((h.listed.file e he).symm ▸ hf'))
  obtain ⟨-, f', d, hf', hd', hreads⟩ := h.reads e he
  obtain rfl := Option.some.inj (hf.symm.trans hf')
  have hin : Declaration.interface i₀ ∈ f.typeDeclarations :=
    List.mem_filter.2 ⟨List.mem_of_find?_eq_some hd, rfl⟩
  rw [htypes] at hin hd'
  obtain rfl := (List.mem_singleton.1 hd').trans (List.mem_singleton.1 hin).symm
  obtain ⟨s, hform', hmembers⟩ := hreads i₀ rfl
  obtain rfl := Option.some.inj (hform.symm.trans hform')
  obtain ⟨parents, members, heq, -, hdeclared⟩ := hdeclares
  obtain rfl := Declaration.interface.inj heq
  refine ⟨s, members, hform, ?_, hmembers, rfl⟩
  exact TypeContext.map_name_members hdeclared ▸ Entries.nodup_keys_firsts _

/-- A model of the form of an interface is declared as one. -/
theorem Run.Pinned.exists_interface (h : Run.Pinned j ms r₀ r) {e : String × Model} (he : e ∈ ms)
    {s : SchemaObject} (hform : Form.of? j.document.parts e.1 = some (.interface s)) :
    ∃ i, r.interface? e.2 = some i := by
  obtain ⟨roots, ns, hm, -⟩ := h.modelled
  obtain ⟨T, hs⟩ := h.sound
  obtain ⟨f, form, d, hf, hd, hform', hdeclares⟩ := hm.declaration hs h.listed he
  obtain rfl := Option.some.inj (hform.symm.trans hform')
  obtain ⟨parents, members, rfl, -⟩ := hdeclares
  rw [h.pins.interface e he, interface?_of_at? hf, hd]
  exact ⟨_, rfl⟩

/-- **The literals of emitted interfaces** are those that the schemas tell. -/
theorem Run.Pinned.hasLiteral_iff (h : Run.Pinned j ms r₀ r) {e : String × Model} (he : e ∈ ms)
    {i : Interface} (hi : r.interface? e.2 = some i) {property literal : String} :
    i.HasLiteral property literal ↔
      (j.types r).literalOf? ms.keys e.1 property = some literal := by
  obtain ⟨s, members, hform, hnodup, hreads, hmembers⟩ := h.interface he hi
  have hform : Form.of? (j.types r).components e.1 = some (.interface s) := hform
  rw [TypeScript.hasLiteral_iff (hmembers ▸ nodup_pinTags _ _ hnodup), hmembers, memberType?_pinTags]
  simp only [TypeContext.literalOf?, hform]
  cases (withProperty property ((j.types r).basesOf ms.keys e.1)).getLast? with
  | some base => simp
  | none =>
    simp only [← literal?_of_reads hreads property, Option.bind_eq_some_iff, Ty.literal?_eq_some,
      exists_eq_right]

end Literals

/-- The interfaces of any two of the leaves have different literals for the property. -/
def Run.TellsApart (r : Run) (ms : Entries Model) (property : String) (leaves : List String) : Prop :=
  ∀ a ∈ ms, ∀ b ∈ ms, a.1 ∈ leaves → b.1 ∈ leaves → a.1 ≠ b.1 →
    ∀ i, r.interface? a.2 = some i → ∀ k, r.interface? b.2 = some k →
      ∃ x y, i.HasLiteral property x ∧ k.HasLiteral property y ∧ x ≠ y

/-- The component is one of the leaves, and a model with the form of an interface. -/
def IsInterfaceOf (c : TypeContext) (ms : Entries Model) (leaves : List String) (component : String) : Prop :=
  component ∈ leaves ∧ component ∈ ms.keys ∧ ∃ o, Form.of? c.components component = some (.interface o)

/-- **When configured tags win.**  If bases configure tags of a leaf for a property, then its interface has
one of them exactly if the last base with the leaf and the property configures one, or if its simple name
happens to be one. The literal does not depend on the order in which the bases became known exactly if they
all tell the same. -/
theorem configuredTags_win {d : Document} (hd : d.validate = .ok ()) {settings : Settings}
    {log : List LogLine} {r : Run}
    (hr : (executeAll ⟨d, settings⟩ Pass.usual).run.run { Run.start settings with log } = (.ok (), r)) :
    let c : TypeContext := ⟨d.parts, r.transfers, none⟩
    ∃ ms, r.models = some ms ∧ ∀ e ∈ ms, ∀ i, r.interface? e.2 = some i → ∀ property : String,
      let bases := withProperty property (c.basesOf ms.keys e.1)
      (∃ s ∈ bases, configuredTags s e.1 ≠ []) →
        ((∃ tag, i.HasLiteral property tag ∧ ∃ s ∈ bases, tag ∈ configuredTags s e.1) ↔
          ∃ s, bases.getLast? = some s ∧
            (configuredTags s e.1 ≠ [] ∨
              ∃ s' ∈ bases, Naming.simpleName e.1 ∈ configuredTags s' e.1)) ∧
        (∀ tag, i.HasLiteral property tag ↔ c.literalOf? ms.keys e.1 property = some tag) ∧
        ((∀ order : List String, order.Perm ms.keys →
            c.literalOf? order e.1 property = c.literalOf? ms.keys e.1 property) ↔
          ∀ a ∈ bases, ∀ b ∈ bases, tagOf a e.1 = tagOf b e.1) := by
  intro c
  obtain ⟨ms, r₀, h⟩ := (executeAll_pins (j := ⟨d, settings⟩) (Document.valid_of_validate hd) log).result hr
  refine ⟨ms, h.models, ?_⟩
  intro e he i hi property bases hsome
  have hliteral : ∀ tag, i.HasLiteral property tag ↔ c.literalOf? ms.keys e.1 property = some tag :=
    fun _ => h.hasLiteral_iff he hi
  obtain ⟨o, -, hform, -⟩ := h.interface he hi
  refine ⟨?_, hliteral, TypeContext.literalOf?_perm_iff (c := c) hform⟩
  obtain ⟨s₀, hs₀, -⟩ := hsome
  obtain ⟨last, hlast⟩ := Option.isSome_iff_exists.1 (List.getLast?_isSome.2 (List.ne_nil_of_mem hs₀))
  have htag : ∀ tag, i.HasLiteral property tag ↔ tagOf last e.1 = tag := fun tag => by
    rw [hliteral, TypeContext.literalOf?_of_base (c := c) hform hlast, Option.some.injEq]
  constructor
  · rintro ⟨tag, htagged, s, hs, hgives⟩
    obtain rfl := (htag tag).1 htagged
    refine ⟨last, hlast, ?_⟩
    rcases tagOf_cases last e.1 with hconfigured | ⟨-, hsimple⟩
    · exact .inl (List.ne_nil_of_mem hconfigured)
    · exact .inr ⟨s, hs, hsimple ▸ hgives⟩
  · rintro ⟨s, hs, hor⟩
    obtain rfl := Option.some.inj (hlast.symm.trans hs)
    refine ⟨tagOf last e.1, (htag _).2 rfl, ?_⟩
    rcases tagOf_cases last e.1 with hconfigured | ⟨hno, hsimple⟩
    · exact ⟨last, List.mem_of_getLast? hlast, hconfigured⟩
    · obtain hsome | ⟨s', hs', hgives⟩ := hor
      · exact absurd hno hsome
      · exact ⟨s', hs', hsimple.symm ▸ hgives⟩

/-- A choice between components, with the property that tells them apart and the tags that it maps. -/
def choiceOf (members : List String) (property : String) (mapping : List (String × String)) : Json :=
  .object [
    ("oneOf", .array (members.map refTo)),
    ("discriminator", .object [
      ("propertyName", .string property),
      ("mapping", .object (mapping.map fun (tag, leaf) =>
        (tag, .string ("#/components/schemas/" ++ leaf))))])]

/-- Two choices between cats and dogs, of which `A` maps a tag to cats and `B` none, with the endpoints
that give back the ones in the order that is told. -/
def petChoices (choices : List String) : Json :=
  operationsDocument (choices.map fun choice => ("/E/get" ++ choice, refTo choice))
    [("A", choiceOf ["Cat", "Dog"] "kind" [("cat", "Cat")]), ("B", choiceOf ["Cat", "Dog"] "kind" []),
      ("Cat", objectWith "name" []), ("Dog", objectWith "name" [])]

/-- A run in which the base that maps the tag is the last one. -/
theorem configuredTags_win_lastMaps :
    ∃ d r ms m i, Document.ofJson (petChoices ["B", "A"]) = .ok d ∧ d.validate = .ok () ∧
      (executeAll ⟨d, {}⟩ Pass.usual).run.run (Run.start {}) = (.ok (), r) ∧ r.models = some ms ∧
      ms.keys = ["B", "A", "Cat", "Dog"] ∧ ("Cat", m) ∈ ms ∧ r.interface? m = some i ∧
      i.HasLiteral "kind" "cat" ∧
      let bases := withProperty "kind" ((⟨d.parts, r.transfers, none⟩ : TypeContext).basesOf ms.keys "Cat")
      ∃ tag, i.HasLiteral "kind" tag ∧ ∃ s ∈ bases, tag ∈ configuredTags s "Cat" := by
  have hrun := exists_of_runOf? (petChoices ["B", "A"]) {} Pass.usual (fun d r =>
    r.models.any fun ms => decide (ms.keys = ["B", "A", "Cat", "Dog"]) && (ms.at? "Cat").any fun m =>
      (r.interface? m).any fun i => decide (i.HasLiteral "kind" "cat") &&
        (withProperty "kind" ((⟨d.parts, r.transfers, none⟩ : TypeContext).basesOf ms.keys "Cat")).getLast?.any
          fun s => decide (configuredTags s "Cat" ≠ [])) (by decide +kernel)
  obtain ⟨d, r, hd, hvalid, hr, htest⟩ := hrun
  obtain ⟨ms, hms, htest⟩ := (Option.any_eq_true ..).1 htest
  obtain ⟨hkeys, htest⟩ := Bool.and_eq_true_iff.1 htest
  obtain ⟨m, hm, htest⟩ := (Option.any_eq_true ..).1 htest
  obtain ⟨i, hi, htest⟩ := (Option.any_eq_true ..).1 htest
  obtain ⟨hliteral, htest⟩ := Bool.and_eq_true_iff.1 htest
  obtain ⟨s, hlast, hgiven⟩ := (Option.any_eq_true ..).1 htest
  have hgiven := of_decide_eq_true hgiven
  have hm := Entries.mem_of_at? hm
  obtain ⟨ms', hms', hall⟩ := @configuredTags_win d hvalid {} [] r hr
  obtain rfl := Option.some.inj (hms.symm.trans hms')
  obtain ⟨hwin, -⟩ := hall ("Cat", m) hm i hi "kind" ⟨s, List.mem_of_getLast? hlast, hgiven⟩
  exact ⟨d, r, ms, m, i, hd, hvalid, hr, hms, of_decide_eq_true hkeys, hm, hi, of_decide_eq_true hliteral,
    hwin.2 ⟨s, hlast, .inl hgiven⟩⟩

/-- **A configured tag is lost**: a base that maps no tag to the leaf, and is known later, gives it its
simple name. -/
theorem not_configuredTags_win :
    ∃ d r ms m i, Document.ofJson (petChoices ["A", "B"]) = .ok d ∧ d.validate = .ok () ∧
      (executeAll ⟨d, {}⟩ Pass.usual).run.run (Run.start {}) = (.ok (), r) ∧ r.models = some ms ∧
      ("Cat", m) ∈ ms ∧ r.interface? m = some i ∧ i.HasLiteral "kind" "Cat" ∧
      let bases := withProperty "kind" ((⟨d.parts, r.transfers, none⟩ : TypeContext).basesOf ms.keys "Cat")
      (∃ s ∈ bases, "cat" ∈ configuredTags s "Cat") ∧
        ¬ ∃ tag, i.HasLiteral "kind" tag ∧ ∃ s ∈ bases, tag ∈ configuredTags s "Cat" := by
  have hrun := exists_of_runOf? (petChoices ["A", "B"]) {} Pass.usual (fun d r =>
    let bases (ms : Entries Model) :=
      withProperty "kind" ((⟨d.parts, r.transfers, none⟩ : TypeContext).basesOf ms.keys "Cat")
    r.models.any fun ms => (ms.at? "Cat").any fun m => (r.interface? m).any fun i =>
      decide (i.HasLiteral "kind" "Cat") && decide (∃ s ∈ bases ms, "cat" ∈ configuredTags s "Cat") &&
        decide (∀ s ∈ bases ms, ∀ tag ∈ configuredTags s "Cat", ¬ i.HasLiteral "kind" tag))
    (by decide +kernel)
  obtain ⟨d, r, hd, hvalid, hr, htest⟩ := hrun
  obtain ⟨ms, hms, htest⟩ := (Option.any_eq_true ..).1 htest
  obtain ⟨m, hm, htest⟩ := (Option.any_eq_true ..).1 htest
  obtain ⟨i, hi, htest⟩ := (Option.any_eq_true ..).1 htest
  obtain ⟨htest, hno⟩ := Bool.and_eq_true_iff.1 htest
  obtain ⟨hliteral, hgiven⟩ := Bool.and_eq_true_iff.1 htest
  refine ⟨d, r, ms, m, i, hd, hvalid, hr, hms, Entries.mem_of_at? hm, hi, of_decide_eq_true hliteral,
    of_decide_eq_true hgiven, ?_⟩
  rintro ⟨tag, htag, s, hs, hmem⟩
  exact of_decide_eq_true hno s hs tag hmem htag

section Leaves

variable {j : Job} {ms : Entries Model} {r₀ r : Run} {s : SchemaObject} {leaves : List String}
  {property : String}

/-- A leaf of a base has the literal of the last base that has it and the property. -/
theorem literalOf?_leaf {c : TypeContext} {u : String} (hu : u ∈ ms.keys)
    (hbase : c.base? u = some (s, leaves)) {leaf : String} (hleaf : IsInterfaceOf c ms leaves leaf) :
    ∃ last, (withProperty (discriminatorProperty s) (c.basesOf ms.keys leaf)).getLast? = some last ∧
      c.literalOf? ms.keys leaf (discriminatorProperty s) = some (tagOf last leaf) := by
  obtain ⟨hmem, -, o, hform⟩ := hleaf
  have hin : s ∈ withProperty (discriminatorProperty s) (c.basesOf ms.keys leaf) :=
    mem_withProperty.2 ⟨TypeContext.mem_basesOf.2 ⟨u, hu, leaves, hbase, hmem⟩, rfl⟩
  obtain ⟨last, hlast⟩ := Option.isSome_iff_exists.1 (List.getLast?_isSome.2 (List.ne_nil_of_mem hin))
  exact ⟨last, hlast, TypeContext.literalOf?_of_base hform hlast⟩

/-- The models of leaves that are interfaces are those with that form. -/
theorem Run.Pinned.isInterfaceOf (h : Run.Pinned j ms r₀ r) {e : String × Model} (he : e ∈ ms)
    (hleaf : e.1 ∈ leaves) {i : Interface} (hi : r.interface? e.2 = some i) :
    IsInterfaceOf (j.types r) ms leaves e.1 :=
  have ⟨o, _, hform, _⟩ := h.interface he hi
  ⟨hleaf, List.mem_map.2 ⟨e, he, rfl⟩, o, hform⟩

/-- Leaves that all have a literal are told apart if the schemas tell different ones. -/
theorem Run.Pinned.tellsApart_iff (h : Run.Pinned j ms r₀ r)
    (hall : ∀ leaf, IsInterfaceOf (j.types r) ms leaves leaf →
      ∃ x, (j.types r).literalOf? ms.keys leaf property = some x) :
    r.TellsApart ms property leaves ↔
      ∀ a, IsInterfaceOf (j.types r) ms leaves a → ∀ b, IsInterfaceOf (j.types r) ms leaves b → a ≠ b →
        (j.types r).literalOf? ms.keys a property ≠ (j.types r).literalOf? ms.keys b property := by
  constructor
  · rintro htold _ ⟨hleafa, hkeya, o, hforma⟩ _ ⟨hleafb, hkeyb, o', hformb⟩ hne heq
    obtain ⟨ea, hea, rfl⟩ := List.mem_map.1 hkeya
    obtain ⟨eb, heb, rfl⟩ := List.mem_map.1 hkeyb
    obtain ⟨i, hi⟩ := h.exists_interface hea hforma
    obtain ⟨k, hk⟩ := h.exists_interface heb hformb
    obtain ⟨x, y, hx, hy, hxy⟩ := htold ea hea eb heb hleafa hleafb hne i hi k hk
    rw [h.hasLiteral_iff hea hi] at hx
    rw [h.hasLiteral_iff heb hk] at hy
    exact hxy (Option.some.inj ((hx.symm.trans heq).trans hy))
  · intro hdiffer a ha b hb hleafa hleafb hne i hi k hk
    have hia := h.isInterfaceOf ha hleafa hi
    have hib := h.isInterfaceOf hb hleafb hk
    obtain ⟨x, hx⟩ := hall _ hia
    obtain ⟨y, hy⟩ := hall _ hib
    refine ⟨x, y, (h.hasLiteral_iff ha hi).2 hx, (h.hasLiteral_iff hb hk).2 hy, fun heq => ?_⟩
    exact hdiffer _ hia _ hib hne (hx.trans ((congrArg some heq).trans hy.symm))

end Leaves

/-- **When leaves are told apart.**  The interface of each leaf of a base has a literal for the property of
the base, and the leaves are told apart exactly if the last bases that have them and the property give them
different tags. If no other base has one of its leaves and the property, and no tag comes twice in
its mapping, a leaf can be taken for another one only if it has no tag there, by its simple name. -/
theorem leaves_toldApart {d : Document} (hd : d.validate = .ok ()) {settings : Settings}
    {log : List LogLine} {r : Run}
    (hr : (executeAll ⟨d, settings⟩ Pass.usual).run.run { Run.start settings with log } = (.ok (), r)) :
    let c : TypeContext := ⟨d.parts, r.transfers, none⟩
    ∃ ms, r.models = some ms ∧ ∀ u ∈ ms.keys, ∀ s leaves, c.base? u = some (s, leaves) →
      let property := discriminatorProperty s
      (∀ e ∈ ms, e.1 ∈ leaves → ∀ i, r.interface? e.2 = some i →
        ∃ last, (withProperty property (c.basesOf ms.keys e.1)).getLast? = some last ∧
          i.HasLiteral property (tagOf last e.1)) ∧
      (r.TellsApart ms property leaves ↔
        ∀ a, IsInterfaceOf c ms leaves a → ∀ b, IsInterfaceOf c ms leaves b → a ≠ b →
          c.literalOf? ms.keys a property ≠ c.literalOf? ms.keys b property) ∧
      ((∀ leaf ∈ leaves, ∀ s' ∈ withProperty property (c.basesOf ms.keys leaf), s' = s) →
        (∀ δ, s.discriminator = some δ → δ.mapping.keys.Nodup) →
        (r.TellsApart ms property leaves ↔
          ∀ a, IsInterfaceOf c ms leaves a → ∀ b, IsInterfaceOf c ms leaves b → a ≠ b →
            configuredTags s a = [] → Naming.simpleName a ≠ tagOf s b)) := by
  intro c
  obtain ⟨ms, r₀, h⟩ := (executeAll_pins (j := ⟨d, settings⟩) (Document.valid_of_validate hd) log).result hr
  refine ⟨ms, h.models, ?_⟩
  intro u hu s leaves hbase property
  have hliteral : ∀ leaf, IsInterfaceOf c ms leaves leaf → ∃ last,
      (withProperty property (c.basesOf ms.keys leaf)).getLast? = some last ∧
        c.literalOf? ms.keys leaf property = some (tagOf last leaf) := fun _ => literalOf?_leaf hu hbase
  have happart : r.TellsApart ms property leaves ↔
      ∀ a, IsInterfaceOf c ms leaves a → ∀ b, IsInterfaceOf c ms leaves b → a ≠ b →
        c.literalOf? ms.keys a property ≠ c.literalOf? ms.keys b property :=
    h.tellsApart_iff fun leaf hleaf =>
      have ⟨_, _, htag⟩ := hliteral leaf hleaf
      ⟨_, htag⟩
  refine ⟨fun e he hleaf i hi => ?_, happart, fun honly hkeys => happart.trans ?_⟩
  · obtain ⟨last, hl, htag⟩ := hliteral _ (h.isInterfaceOf he hleaf hi)
    exact ⟨last, hl, (h.hasLiteral_iff he hi).2 htag⟩
  -- Where the base is the only one, it tells all tags.
  have htag : ∀ leaf, IsInterfaceOf c ms leaves leaf →
      c.literalOf? ms.keys leaf property = some (tagOf s leaf) := fun leaf hleaf => by
    obtain ⟨last, hl, heq⟩ := hliteral leaf hleaf
    rw [heq, honly leaf hleaf.1 last (List.mem_of_getLast? hl)]
  rw [← tagOf_ne_iff hkeys]
  refine forall₄_congr fun a ha b hb => forall_congr' fun _ => ?_
  rw [htag a ha, htag b hb, ne_eq, Option.some.injEq]

/-- A run in which the leaves of a base are told apart, one by a tag of the base and one by its name. -/
theorem leaves_toldApart_petChoices :
    ∃ d r ms s, Document.ofJson (petChoices ["A"]) = .ok d ∧ d.validate = .ok () ∧
      (executeAll ⟨d, {}⟩ Pass.usual).run.run (Run.start {}) = (.ok (), r) ∧ r.models = some ms ∧
      ms.keys = ["A", "Cat", "Dog"] ∧
      (⟨d.parts, r.transfers, none⟩ : TypeContext).base? "A" = some (s, ["Cat", "Dog"]) ∧
      r.TellsApart ms (discriminatorProperty s) ["Cat", "Dog"] := by
  have hrun := exists_of_runOf? (petChoices ["A"]) {} Pass.usual (fun d r =>
    let c : TypeContext := ⟨d.parts, r.transfers, none⟩
    r.models.any fun ms => decide (ms.keys = ["A", "Cat", "Dog"]) && (c.base? "A").any fun base =>
      decide (base.2 = ["Cat", "Dog"]) && decide (∀ a ∈ ["Cat", "Dog"], ∀ b ∈ ["Cat", "Dog"], a ≠ b →
        c.literalOf? ms.keys a (discriminatorProperty base.1) ≠
          c.literalOf? ms.keys b (discriminatorProperty base.1))) (by decide +kernel)
  obtain ⟨d, r, hd, hvalid, hr, htest⟩ := hrun
  obtain ⟨ms, hms, htest⟩ := (Option.any_eq_true ..).1 htest
  obtain ⟨hkeys, htest⟩ := Bool.and_eq_true_iff.1 htest
  obtain ⟨⟨s, leaves⟩, hbase, htest⟩ := (Option.any_eq_true ..).1 htest
  obtain ⟨hleaves, hdiffer⟩ := Bool.and_eq_true_iff.1 htest
  obtain rfl : leaves = ["Cat", "Dog"] := of_decide_eq_true hleaves
  have hkeys := of_decide_eq_true hkeys
  obtain ⟨ms', hms', hall⟩ := @leaves_toldApart d hvalid {} [] r hr
  obtain rfl := Option.some.inj (hms.symm.trans hms')
  obtain ⟨-, hapart, -⟩ := hall "A" (by simp [hkeys]) s ["Cat", "Dog"] hbase
  refine ⟨d, r, ms, s, hd, hvalid, hr, hms, hkeys, hbase, hapart.2 fun a ha b hb hne => ?_⟩
  exact of_decide_eq_true hdiffer a ha.1 b hb.1 hne

/-- A choice between two components of one simple name. -/
def namesakes : Json :=
  operationsDocument [("/E/get", refTo "U")]
    [("U", .object [("oneOf", .array [refTo "a.Cat", refTo "b.Cat"])]), ("a.Cat", objectWith "name" []),
      ("b.Cat", objectWith "name" [])]

/-- **Two leaves have one tag**, the simple name that both have. -/
theorem not_leaves_toldApart :
    ∃ d r ms s, Document.ofJson namesakes = .ok d ∧ d.validate = .ok () ∧
      (executeAll ⟨d, {}⟩ Pass.usual).run.run (Run.start {}) = (.ok (), r) ∧ r.models = some ms ∧
      "U" ∈ ms.keys ∧
      (⟨d.parts, r.transfers, none⟩ : TypeContext).base? "U" = some (s, ["a.Cat", "b.Cat"]) ∧
      ¬ r.TellsApart ms (discriminatorProperty s) ["a.Cat", "b.Cat"] := by
  have hrun := exists_of_runOf? namesakes {} Pass.usual (fun d r => r.models.any fun ms =>
    decide ("U" ∈ ms.keys) && ((⟨d.parts, r.transfers, none⟩ : TypeContext).base? "U").any fun base =>
      decide (base.2 = ["a.Cat", "b.Cat"]) && (ms.at? "a.Cat").any fun m => (ms.at? "b.Cat").any fun n =>
        (r.interface? m).any fun i => (r.interface? n).any fun k =>
          decide (∀ p ∈ i.members ++ k.members, p.name = discriminatorProperty base.1 →
            p.type = .literal "Cat")) (by decide +kernel)
  obtain ⟨d, r, hd, hvalid, hr, htest⟩ := hrun
  obtain ⟨ms, hms, htest⟩ := (Option.any_eq_true ..).1 htest
  obtain ⟨hkey, htest⟩ := Bool.and_eq_true_iff.1 htest
  obtain ⟨⟨s, leaves⟩, hbase, htest⟩ := (Option.any_eq_true ..).1 htest
  obtain ⟨hleaves, htest⟩ := Bool.and_eq_true_iff.1 htest
  obtain rfl : leaves = ["a.Cat", "b.Cat"] := of_decide_eq_true hleaves
  obtain ⟨m, hm, htest⟩ := (Option.any_eq_true ..).1 htest
  obtain ⟨n, hn, htest⟩ := (Option.any_eq_true ..).1 htest
  obtain ⟨i, hi, htest⟩ := (Option.any_eq_true ..).1 htest
  obtain ⟨k, hk, htest⟩ := (Option.any_eq_true ..).1 htest
  refine ⟨d, r, ms, s, hd, hvalid, hr, hms, of_decide_eq_true hkey, hbase, fun htold => ?_⟩
  obtain ⟨x, y, ⟨p, hp, hname, hx⟩, ⟨q, hq, hname', hy⟩, hne⟩ :=
    htold ("a.Cat", m) (Entries.mem_of_at? hm) ("b.Cat", n) (Entries.mem_of_at? hn) (by simp) (by simp)
      (by simp) i hi k hk
  have hp := of_decide_eq_true htest p (List.mem_append_left _ hp) hname
  have hq := of_decide_eq_true htest q (List.mem_append_right _ hq) hname'
  exact hne ((Ty.literal.inj (hx.symm.trans hp)).trans (Ty.literal.inj (hy.symm.trans hq)).symm)

/-- **When literals respect inheritance.**  No interface has another literal for a property than one that it
extends exactly if the schemas tell none: neither the bases, nor the properties that no base has pinned. -/
theorem literals_inherited {d : Document} (hd : d.validate = .ok ()) {settings : Settings}
    {log : List LogLine} {r : Run}
    (hr : (executeAll ⟨d, settings⟩ Pass.usual).run.run { Run.start settings with log } = (.ok (), r)) :
    let c : TypeContext := ⟨d.parts, r.transfers, none⟩
    ∃ ms, r.models = some ms ∧
      ((∀ a ∈ ms, ∀ b ∈ ms, Relation.ReflTransGen (ExtendsModel c ms) a.1 b.1 →
          ∀ i, r.interface? a.2 = some i → ∀ k, r.interface? b.2 = some k →
            ∀ property x y, i.HasLiteral property x → k.HasLiteral property y → x = y) ↔
        ∀ a ∈ ms.keys, ∀ b, Relation.ReflTransGen c.TakesOver a b → ∀ property x y,
          c.literalOf? ms.keys a property = some x → c.literalOf? ms.keys b property = some y → x = y) := by
  intro c
  obtain ⟨ms, r₀, h⟩ := (executeAll_pins (j := ⟨d, settings⟩) (Document.valid_of_validate hd) log).result hr
  obtain ⟨roots, ns, hm, hall⟩ := h.modelled
  have hchain : ∀ a ∈ ms.keys, ∀ b, Relation.ReflTransGen (ExtendsModel c ms) a b ↔
      Relation.ReflTransGen c.TakesOver a b := fun a ha b => hm.chain_iff hall ha
  have hform : ∀ k property x, c.literalOf? ms.keys k property = some x →
      ∃ s, Form.of? d.parts k = some (.interface s) := fun k property x hx => by
    unfold TypeContext.literalOf? at hx
    split at hx
    · next s hs => exact ⟨s, hs⟩
    · cases hx
  refine ⟨ms, h.models, fun hrespects a ha b hab property x y hx hy => ?_,
    fun hrespects a ha b hb hab i hi k hk property x y hx hy => ?_⟩
  · have hab := (hchain a ha b).2 hab
    obtain ⟨ea, hea, rfl⟩ := List.mem_map.1 ha
    obtain ⟨eb, heb, rfl⟩ := List.mem_map.1 (mem_keys_of_chain ha hab)
    obtain ⟨s, hs⟩ := hform _ _ _ hx
    obtain ⟨s', hs'⟩ := hform _ _ _ hy
    obtain ⟨i, hi⟩ := h.exists_interface hea hs
    obtain ⟨k, hk⟩ := h.exists_interface heb hs'
    exact hrespects ea hea eb heb hab i hi k hk property x y ((h.hasLiteral_iff hea hi).2 hx)
      ((h.hasLiteral_iff heb hk).2 hy)
  · have hkey : a.1 ∈ ms.keys := List.mem_map.2 ⟨a, ha, rfl⟩
    exact hrespects a.1 hkey b.1 ((hchain a.1 hkey b.1).1 hab) property x y
      ((h.hasLiteral_iff ha hi).1 hx) ((h.hasLiteral_iff hb hk).1 hy)

/-- A choice between some components, of which dogs are animals. -/
def animalChoice (members : List String) : Json :=
  operationsDocument [("/E/get", refTo "U")]
    [("U", .object [("oneOf", .array (members.map refTo))]), ("Animal", objectWith "name" []),
      ("Cat", objectWith "name" []), ("Dog", objectWith "bark" ["Animal"])]

/-- A run in which a leaf extends an interface that is none. -/
theorem literals_inherited_otherParent :
    ∃ d r ms m i, Document.ofJson (animalChoice ["Dog", "Cat"]) = .ok d ∧ d.validate = .ok () ∧
      (executeAll ⟨d, {}⟩ Pass.usual).run.run (Run.start {}) = (.ok (), r) ∧ r.models = some ms ∧
      ms.keys = ["U", "Dog", "Cat", "Animal"] ∧ ("Dog", m) ∈ ms ∧ r.interface? m = some i ∧
      i.HasLiteral "@type" "Dog" ∧
      ∀ a ∈ ms, ∀ b ∈ ms,
        Relation.ReflTransGen (ExtendsModel ⟨d.parts, r.transfers, none⟩ ms) a.1 b.1 →
        ∀ i, r.interface? a.2 = some i → ∀ k, r.interface? b.2 = some k →
          ∀ property x y, i.HasLiteral property x → k.HasLiteral property y → x = y := by
  have hrun := exists_of_runOf? (animalChoice ["Dog", "Cat"]) {} Pass.usual (fun d r =>
    let c : TypeContext := ⟨d.parts, r.transfers, none⟩
    r.models.any fun ms => decide (ms.keys = ["U", "Dog", "Cat", "Animal"]) &&
      (ms.at? "Dog").any fun m => (r.interface? m).any fun i => decide (i.HasLiteral "@type" "Dog") &&
        -- Only animals are extended, and have no literals.
        decide (∀ k ∈ d.parts.schemas.keys, ∀ form ∈ Form.of? c.components k,
          ∀ b ∈ c.above form, b = "Animal") &&
        decide (c.basesOf ms.keys "Animal" = []) && (c.components.schema "Animal").toOption.all fun s =>
          (c.ownProperties s).all fun e => decide (e.2.1.literal? = none)) (by decide +kernel)
  obtain ⟨d, r, hd, hvalid, hr, htest⟩ := hrun
  obtain ⟨ms, hms, htest⟩ := (Option.any_eq_true ..).1 htest
  obtain ⟨hkeys, htest⟩ := Bool.and_eq_true_iff.1 htest
  obtain ⟨m, hm, htest⟩ := (Option.any_eq_true ..).1 htest
  obtain ⟨i, hi, htest⟩ := (Option.any_eq_true ..).1 htest
  obtain ⟨htest, hplain⟩ := Bool.and_eq_true_iff.1 htest
  obtain ⟨htest, hnone⟩ := Bool.and_eq_true_iff.1 htest
  obtain ⟨hliteral, habove⟩ := Bool.and_eq_true_iff.1 htest
  have habove := of_decide_eq_true habove
  have hnone := of_decide_eq_true hnone
  obtain ⟨ms', hms', hiff⟩ := @literals_inherited d hvalid {} [] r hr
  obtain rfl := Option.some.inj (hms.symm.trans hms')
  refine ⟨d, r, ms, m, i, hd, hvalid, hr, hms, of_decide_eq_true hkeys, Entries.mem_of_at? hm, hi,
    of_decide_eq_true hliteral, hiff.2 fun a _ b hab property x y hx hy => ?_⟩
  rcases Relation.ReflTransGen.cases_tail hab with rfl | ⟨k, -, -, form, hform, hb⟩
  · exact Option.some.inj (hx.symm.trans hy)
  · obtain ⟨z, hz, -⟩ := Option.map_eq_some_iff.1 hform
    have hk : k ∈ d.parts.schemas.keys := List.mem_map.2 ⟨_, Entries.mem_of_at? hz, rfl⟩
    obtain rfl : b = "Animal" := habove k hk form hform b hb
    unfold TypeContext.literalOf? at hy
    split at hy
    · next s hanimal =>
      rw [TypeContext.schema_of_interface hanimal] at hplain
      rw [hnone] at hy
      obtain ⟨e, he, hliteral⟩ := Option.bind_eq_some_iff.1 hy
      have hno := of_decide_eq_true (List.all_eq_true.1 hplain _ (Entries.mem_of_at? he))
      rw [hno] at hliteral
      cases hliteral
    · cases hy

/-- **A leaf that extends another leaf** has another tag than it. -/
theorem not_literals_inherited :
    ∃ d r ms m n i k, Document.ofJson (animalChoice ["Animal", "Dog"]) = .ok d ∧ d.validate = .ok () ∧
      (executeAll ⟨d, {}⟩ Pass.usual).run.run (Run.start {}) = (.ok (), r) ∧ r.models = some ms ∧
      ("Dog", m) ∈ ms ∧ ("Animal", n) ∈ ms ∧ r.interface? m = some i ∧ r.interface? n = some k ∧
      ExtendsModel ⟨d.parts, r.transfers, none⟩ ms "Dog" "Animal" ∧
      i.HasLiteral "@type" "Dog" ∧ k.HasLiteral "@type" "Animal" ∧
      ¬ ∀ a ∈ ms, ∀ b ∈ ms,
        Relation.ReflTransGen (ExtendsModel ⟨d.parts, r.transfers, none⟩ ms) a.1 b.1 →
        ∀ i, r.interface? a.2 = some i → ∀ k, r.interface? b.2 = some k →
          ∀ property x y, i.HasLiteral property x → k.HasLiteral property y → x = y := by
  have hrun := exists_of_runOf? (animalChoice ["Animal", "Dog"]) {} Pass.usual (fun d r =>
    let c : TypeContext := ⟨d.parts, r.transfers, none⟩
    r.models.any fun ms => (ms.at? "Dog").any fun m => (ms.at? "Animal").any fun n =>
      (r.interface? m).any fun i => (r.interface? n).any fun k =>
        decide (i.HasLiteral "@type" "Dog") && decide (k.HasLiteral "@type" "Animal") &&
          (Form.of? c.components "Dog").any fun form => decide ("Animal" ∈ c.above form))
    (by decide +kernel)
  obtain ⟨d, r, hd, hvalid, hr, htest⟩ := hrun
  obtain ⟨ms, hms, htest⟩ := (Option.any_eq_true ..).1 htest
  obtain ⟨m, hm, htest⟩ := (Option.any_eq_true ..).1 htest
  obtain ⟨n, hn, htest⟩ := (Option.any_eq_true ..).1 htest
  obtain ⟨i, hi, htest⟩ := (Option.any_eq_true ..).1 htest
  obtain ⟨k, hk, htest⟩ := (Option.any_eq_true ..).1 htest
  obtain ⟨htest, hform⟩ := Bool.and_eq_true_iff.1 htest
  obtain ⟨hdog, hanimal⟩ := Bool.and_eq_true_iff.1 htest
  obtain ⟨form, hform, habove⟩ := (Option.any_eq_true ..).1 hform
  have hm := Entries.mem_of_at? hm
  have hn := Entries.mem_of_at? hn
  have hdog := of_decide_eq_true hdog
  have hanimal := of_decide_eq_true hanimal
  have hextends : ExtendsModel ⟨d.parts, r.transfers, none⟩ ms "Dog" "Animal" :=
    ⟨List.mem_map.2 ⟨_, hn, rfl⟩, form, hform, of_decide_eq_true habove⟩
  refine ⟨d, r, ms, m, n, i, k, hd, hvalid, hr, hms, hm, hn, hi, hk, hextends, hdog, hanimal,
    fun hall => ?_⟩
  have heq := hall ("Dog", m) hm ("Animal", n) hn (.single hextends) i hi k hk "@type" "Dog" "Animal" hdog
    hanimal
  revert heq
  decide

end Client
end OpenApiClient
