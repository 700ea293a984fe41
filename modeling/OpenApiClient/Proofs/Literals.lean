/-
# Empty values fit their interfaces

The empty value of a component that reads as an object is an object literal. It should have a key for
each member that the component's interface, or one that it extends, does not let be missing, and no key
twice. The literal and the interface are made by different ways through the schema: they take other
schemas for parents, and ask for the properties of composed objects differently.

`TypeContext.Requires` tells from the schemas alone which members must be there, as `TypeContext.Brought`
tells which keys a literal has. `literalFits_iff` says that a literal fits its interface exactly if both
tell the same names and no parent brings a name again. They do for a component that is not composed of
others (`IsRoot.brought_iff`); `not_literalFits` is one with two parents that bring the same name.
-/

import OpenApiClient.Proofs.LiteralKeys
import OpenApiClient.Proofs.Models

namespace OpenApiClient
namespace Client

open OpenApi TypeScript OpenApiClient.Module

namespace TypeContext

variable (c : TypeContext)

/-- The components whose members a declaration of the form takes over: those whose interfaces it
extends, or the one that it is another name for. -/
def above : Form → List String
  | .synonym pointer => (componentName pointer).toOption.toList
  | .enumeration _ => []
  | .interface s => (c.heritage s).parents
  | .type s =>
    if s.typeVariable.isSome then []
    else ((s.wrapped? Schema.pointer?).bind fun p => (componentName p).toOption).toList

/-- The names of the members that a declaration of the form does not let be missing. -/
def requiredNames : Form → List String
  | .interface s => Entries.keys ((c.ownProperties s).filter fun e => e.2.2 && !e.2.1.isNullable)
  | _ => []

/-- The interface of the component, or one that it extends, has a member of the name that must be
there. -/
inductive Requires : String → String → Prop
  | own {component name : String} {form : Form} (free : c.transfers.has component = false)
      (hform : Form.of? c.components component = some form) (hname : name ∈ c.requiredNames form) :
      Requires component name
  | inherited {component parent name : String} {form : Form}
      (free : c.transfers.has component = false)
      (hform : Form.of? c.components component = some form) (hparent : parent ∈ c.above form)
      (h : Requires parent name) : Requires component name

variable {c}

/-- The members that an interface does not let be missing are those of its form. -/
theorem mem_requiredNames {b : Bindings} {s : SchemaObject} {members : List Property}
    (h : List.Forall₂ (fun e p => c.Declared b e.1 e.2.1 e.2.2 p) (c.ownProperties s) members)
    {name : String} :
    name ∈ c.requiredNames (.interface s) ↔
      ∃ p ∈ members, p.isOptional = false ∧ p.name = name := by
  simp only [requiredNames]
  generalize c.ownProperties s = es at h
  induction h with
  | nil => simp [Entries.keys]
  | @cons e p es ps he _ ih =>
    have hself : (e.2.2 && !e.2.1.isNullable) = !p.isOptional := by
      rw [he.isOptional, Bool.not_or, Bool.not_not]
    rw [List.filter_cons, hself]
    simp only [List.mem_cons, exists_eq_or_imp, ← ih, he.name]
    cases hp : p.isOptional with
    | false => simp [Entries.keys, eq_comm (a := name)]
    | true => simp [Entries.keys]

/-- A declaration of the form takes the components above it by name. -/
theorem mention_of_mem_above {form : Form} {p : String} (h : p ∈ c.above form) :
    .component p ∈ c.mentionsOf form := by
  have hpointer : ∀ {pointer : String}, p ∈ (componentName pointer).toOption.toList →
      .component p ∈ mentionAt pointer := fun {pointer} hp => by
    cases hn : componentName pointer with
    | error e => simp [hn, Except.toOption] at hp
    | ok n =>
      rw [hn] at hp
      obtain rfl : p = n := by simpa [Except.toOption] using hp
      simp [mentionAt, hn]
  cases form with
  | synonym pointer => exact hpointer h
  | enumeration values => cases h
  | interface s => exact List.mem_append_left _ (List.mem_map.2 ⟨p, h, rfl⟩)
  | type s =>
    simp only [above] at h
    split at h
    · cases h
    · next hv =>
      cases hw : s.wrapped? Schema.pointer? with
      | none => simp [hw] at h
      | some pointer =>
        rw [hw] at h
        rw [mentionsOf, Schema.mentions_inline, Option.not_isSome_iff_eq_none.1 hv, hw]
        exact List.mem_append_right _ (hpointer h)

theorem Requires.free {component name : String} (h : c.Requires component name) :
    c.transfers.has component = false := by
  cases h <;> assumption

section Roots

variable {component : String} {s : SchemaObject}

/-- The schema says nothing but what properties an object has. -/
structure IsRoot (s : SchemaObject) : Prop where
  allOf : s.allOf = []
  oneOf : s.oneOf = []
  anyOf : s.anyOf = []
  enumeration : s.enumeration = []
  typeVariable : s.typeVariable = none
  type : s.singleType? = none ∨ s.singleType? = some .object

theorem IsRoot.wrapped? (h : IsRoot s) : s.wrapped? Schema.pointer? = none := by
  simp [SchemaOf.wrapped?, SchemaOf.onlyMember?, h.allOf, h.oneOf, h.anyOf]

theorem IsRoot.isUnion (h : IsRoot s) : Schema.isUnion s = false := by
  simp [Schema.isUnion, h.oneOf, h.anyOf]

theorem IsRoot.sources (h : IsRoot s) (hs : c.components.schema component = .ok s)
    (free : c.transfers.has component = false) : c.sources component = [.object s] := by
  have hobject : Source.ofObject s = Source.ofSchema (.inline s) := by
    rcases h.type with ht | ht <;>
      simp [Source.ofObject, h.enumeration, h.typeVariable, h.wrapped?, h.isUnion, ht]
  rw [TypeContext.sources, free, hs]
  simp [hobject, Source.ofSchema_inline, h.allOf]

theorem IsRoot.mem_requiredNames (h : IsRoot s) {name : String} :
    name ∈ c.requiredNames (.interface s) ↔ s.asks name = true := by
  have hown : c.ownProperties s = Entries.firsts
      (s.properties.map fun e => (e.1, e.2, s.required.contains e.1 || s.required.contains e.1)) := by
    simp [ownProperties, Inheritance.ownProperties, heritage, h.allOf]
  have hmem : ∀ e, e ∈ c.ownProperties s ↔
      (Entries.at? s.properties e.1).map (fun x => (x, s.required.contains e.1)) = some e.2 := fun e => by
    rw [hown, Entries.mem_firsts, ← Entries.at?_map fun n x => (x, s.required.contains n)]
    simp only [Bool.or_self]
  simp only [requiredNames, Entries.keys, List.mem_map, List.mem_filter, hmem, SchemaOf.asks]
  constructor
  · rintro ⟨⟨n, x, required⟩, ⟨hat, hrequired⟩, rfl⟩
    dsimp only at hat hrequired ⊢
    obtain ⟨y, hy, heq⟩ := Option.map_eq_some_iff.1 hat
    obtain ⟨rfl, hrequires⟩ := Prod.mk.inj heq
    rwa [hy, hrequires]
  · intro hasks
    obtain ⟨hrequired, hany⟩ := Bool.and_eq_true_iff.1 hasks
    obtain ⟨x, hx, hnull⟩ := (Option.any_eq_true ..).1 hany
    exact ⟨(name, x, true), ⟨by rw [hx, Option.map_some, hrequired], hnull⟩, rfl⟩

/-- **The literal of an object that is not composed of others is made of what its interface requires.** -/
theorem IsRoot.brought_iff (h : IsRoot s) (hat : c.components.schemas.at? component = some (.inline s))
    (free : c.transfers.has component = false) :
    Acc c.Inherits component ∧ c.BroughtOnce component ∧
      ∀ n, c.Brought component n ↔ c.Requires component n := by
  have hs : c.components.schema component = .ok s := by
    simp [Components.schema, Components.follow, hat]
  have hsources := h.sources hs free
  have hnone : ∀ p, ¬ c.Inherits p component := fun p hp => by
    simp [Inherits, hsources] at hp
  have hform : Form.of? c.components component = some (Form.ofObject s) := by simp [Form.of?, hat]
  have hobject : Form.ofObject s = .interface s ∨ Form.ofObject s = .type s ∧ s.properties = [] := by
    by_cases hp : s.properties = []
    · by_cases hlike : Schema.isObjectLike s
      · exact .inl (by simp [Form.ofObject, enumerationValues?, h.enumeration, hlike, h.isUnion])
      · exact .inr ⟨by simp [Form.ofObject, enumerationValues?, h.enumeration, hlike], hp⟩
    · exact .inl (by
        simp [Form.ofObject, enumerationValues?, h.enumeration, Schema.isObjectLike, hp, h.isUnion])
  refine ⟨⟨_, fun p hp => absurd hp (hnone p)⟩, fun a ha => ?_, fun n => ?_⟩
  · rcases Relation.ReflTransGen.cases_tail ha with rfl | ⟨p, -, hp⟩
    · simp [hsources]
    · exact absurd hp (hnone p)
  · have hbrought : c.Brought component n ↔ s.asks n = true := by
      rw [Client.brought_iff, hsources]
      simp [Source.Brings]
    have habove : c.above (Form.ofObject s) = [] := by
      rcases hobject with ho | ⟨ho, -⟩ <;> simp [ho, above, heritage, h.allOf, h.typeVariable, h.wrapped?]
    rw [hbrought]
    constructor
    · intro hasks
      refine .own free hform ?_
      rcases hobject with ho | ⟨-, hp⟩
      · rwa [ho, h.mem_requiredNames]
      · simp [SchemaOf.asks, hp, Entries.at?] at hasks
    · rintro (⟨-, hform', hname⟩ | ⟨-, hform', hparent, -⟩)
      · obtain rfl := Option.some.inj (hform.symm.trans hform')
        rcases hobject with ho | ⟨ho, -⟩
        · rwa [ho, h.mem_requiredNames] at hname
        · rw [ho] at hname
          cases hname
      · obtain rfl := Option.some.inj (hform.symm.trans hform')
        rw [habove] at hparent
        cases hparent

end Roots

end TypeContext

section Emitted

/-- The interface of a model, or one that it extends and that is a model's, has a member of the name
that is not optional. -/
inductive RequiresMember (c : TypeContext) (s : Sources) (ms : Entries Model) : String → String → Prop
  | own {component : String} {m : Model} {f : File} {i : Interface} {p : Property}
      (hm : (component, m) ∈ ms) (hf : s.at? m.file = some f)
      (hd : f.declaration? m.identifier = some (.interface i)) (hp : p ∈ i.members)
      (hrequired : p.isOptional = false) : RequiresMember c s ms component p.name
  | inherited {component parent name : String} {form : Form} (hm : component ∈ ms.keys)
      (hform : Form.of? c.components component = some form) (hparent : parent ∈ c.above form)
      (h : RequiresMember c s ms parent name) : RequiresMember c s ms component name

/-- The recorded empty value of a component has a key for each member that must be there, and no key
twice. -/
def LiteralFits (c : TypeContext) (s : Sources) (ms : Entries Model) (component : String) (m : Model) :
    Prop :=
  m.emptyValue.keys.Nodup ∧
    ∀ n, n ∈ m.emptyValue.keys ↔ RequiresMember c s ms component n

variable {j : Job} {transfers : Entries TransferTarget} {roots ns : List String} {r : Run}
  {ms : Entries Model} {T : List Route}

/-- A model has the declaration of its form. -/
theorem Run.Modelled.declaration (h : r.Modelled j transfers roots (identifiersOf ms) ns)
    (hs : r.Sound j T) (hms : Listed j.document.parts ms) {component : String} {m : Model}
    (hm : (component, m) ∈ ms) :
    ∃ f form d, r.sources.at? m.file = some f ∧ f.declaration? m.identifier = some d ∧
      Form.of? j.document.parts component = some form ∧
      (⟨j.document.parts, transfers, some (component, m.identifier)⟩ : TypeContext).Declares
        f.bindings m.identifier form d := by
  obtain ⟨f, form, d, hf, htypes, hform, hdeclares⟩ :=
    h.declared (component, m.identifier) (List.mem_map.2 ⟨_, hm, rfl⟩)
  have hdeclares := hdeclares f.bindings (.refl _)
  have hd : d ∈ f.declarations := (List.mem_filter.1 (htypes ▸ List.mem_singleton_self d)).1
  have hfound := declaration?_of_mem (hs.serves _ f hf).names hd
  rw [hdeclares.name] at hfound
  exact ⟨f, form, d, (hms.file _ hm).symm ▸ hf, hfound, hform, hdeclares⟩

theorem Needed.free {c : Components} {n : String} (h : Needed c transfers roots n) :
    transfers.has n = false := by
  cases h <;> assumption

/-- **The members of emitted interfaces** that must be there are those that the components require. -/
theorem Run.Modelled.requiresMember_iff (h : r.Modelled j transfers roots (identifiersOf ms) ns)
    (hs : r.Sound j T) (hms : Listed j.document.parts ms)
    (hall : ∀ n ∈ ns, ms.has n = true ∨ transfers.has n = true) {component name : String}
    (hcomponent : component ∈ ms.keys) :
    RequiresMember ⟨j.document.parts, transfers, none⟩ r.sources ms component name ↔
      (⟨j.document.parts, transfers, none⟩ : TypeContext).Requires component name := by
  have hfree : ∀ k ∈ ms.keys, transfers.has k = false := fun k hk =>
    (h.written k (keys_identifiersOf ms ▸ hk)).free
  constructor
  · intro hr
    clear hcomponent
    induction hr with
    | @own component m f i p hm hf hd hp hrequired =>
      obtain ⟨f', form, d, hf', hd', hform, hdeclares⟩ := h.declaration hs hms hm
      obtain rfl := Option.some.inj (hf.symm.trans hf')
      obtain rfl := Option.some.inj (hd.symm.trans hd')
      refine .own (hfree _ (List.mem_map.2 ⟨_, hm, rfl⟩)) hform ?_
      cases form with
      | interface s =>
        obtain ⟨parents, members, heq, -, hmembers⟩ := hdeclares
        obtain rfl := Declaration.interface.inj heq
        exact (TypeContext.mem_requiredNames hmembers).2 ⟨p, hp, hrequired, rfl⟩
      | synonym => obtain ⟨_, _, -, heq, -⟩ := hdeclares; cases heq
      | enumeration => obtain ⟨_, heq⟩ := hdeclares; cases heq
      | type => obtain ⟨_, heq, -⟩ := hdeclares; cases heq
    | inherited hk hform hparent _ ih => exact .inherited (hfree _ hk) hform hparent ih
  · intro hr
    induction hr with
    | @own component name form _ hform hname =>
      obtain ⟨⟨_, m⟩, hm, rfl⟩ := List.mem_map.1 hcomponent
      obtain ⟨f, form', d, hf, hd, hform', hdeclares⟩ := h.declaration hs hms hm
      obtain rfl := Option.some.inj (hform.symm.trans hform')
      cases form with
      | interface s =>
        obtain ⟨parents, members, rfl, -, hmembers⟩ := hdeclares
        obtain ⟨p, hp, hrequired, rfl⟩ := (TypeContext.mem_requiredNames hmembers).1 hname
        exact .own hm hf hd hp hrequired
      | synonym | enumeration | type => cases hname
    | @inherited component parent name form _ hform hparent hr ih =>
      refine .inherited hcomponent hform hparent (ih ?_)
      have hnamed := h.named component (keys_identifiersOf ms ▸ hcomponent) form hform parent
        (TypeContext.mention_of_mem_above hparent) hr.free
      rcases hnamed with rfl | hnamed
      · exact hcomponent
      · exact Entries.has_iff.1 ((hall parent hnamed).resolve_right (by simp [hr.free]))

/-- **An empty value fits its interface exactly if it is made of what the interface requires**, once each,
unless the component inherits from one that inherits from itself. The empty value of a component that is
not composed of others always fits. -/
theorem literalFits_iff {d : Document} (hd : d.validate = .ok ()) {settings : Settings}
    {before : List Pass} (hbefore : ∀ p ∈ before, p = .transferTypes ∨ p = .backbone)
    {log : List LogLine} {r r' : Run}
    (hr : (executeAll ⟨d, settings⟩ before).run.run { Run.start settings with log } = (.ok (), r))
    (hr' : (Pass.model.execute ⟨d, settings⟩).run.run r = (.ok (), r')) :
    let c : TypeContext := ⟨d.parts, r.transfers, none⟩
    ∃ ms, r'.models = some ms ∧ ∀ e ∈ ms,
      (Acc c.Inherits e.1 → (LiteralFits c r'.sources ms e.1 e.2 ↔
        c.BroughtOnce e.1 ∧ ∀ n, c.Brought e.1 n ↔ c.Requires e.1 n)) ∧
      ∀ s, d.parts.schemas.at? e.1 = some (.inline s) → TypeContext.IsRoot s →
        LiteralFits c r'.sources ms e.1 e.2 := by
  intro c
  have hv := Document.valid_of_validate hd
  obtain ⟨T, hs, hnone⟩ := (executeAll_typeDeclarations (j := ⟨d, settings⟩) hv hbefore log).result hr
  obtain ⟨b, ms, ns, -, hms, hlisted, hm, hvalues, hall⟩ :=
    (writeModels_modelled (j := ⟨d, settings⟩) hv hs hnone).result hr'
  obtain ⟨⟨T', hs', -⟩, -⟩ := (writeModels_sound (j := ⟨d, settings⟩) hv hs).result hr'
  have hfits : ∀ e ∈ ms, Acc c.Inherits e.1 → (LiteralFits c r'.sources ms e.1 e.2 ↔
      c.BroughtOnce e.1 ∧ ∀ n, c.Brought e.1 n ↔ c.Requires e.1 n) := fun e he hacc => by
    have hleads := hlisted.leads e he
    have hkeys : c.literalKeys e.1 = e.2.emptyValue.keys := by
      rw [TypeContext.literalKeys, hvalues e he]
    refine and_congr ?_ (forall_congr' fun n => iff_congr ?_ ?_)
    · rw [← hkeys]
      exact nodup_literalKeys hv.parts hleads hacc
    · rw [← hkeys]
      exact mem_literalKeys hv.parts hleads hacc
    · exact hm.requiresMember_iff hs' hlisted hall (List.mem_map.2 ⟨e, he, rfl⟩)
  refine ⟨ms, hms, fun e he => ⟨hfits e he, fun s hat hroot => ?_⟩⟩
  have hfree : c.transfers.has e.1 = false :=
    (hm.written e.1 (keys_identifiersOf ms ▸ List.mem_map.2 ⟨e, he, rfl⟩)).free
  obtain ⟨hacc, hagrees⟩ := hroot.brought_iff hat hfree
  exact (hfits e he hacc).2 hagrees

/-- The parents among sources. -/
def parentsOf (xs : List Source) : List String := xs.filterMap fun
  | .parent component => some component
  | .object _ => none

theorem mem_parentsOf {xs : List Source} {component : String} :
    component ∈ parentsOf xs ↔ .parent component ∈ xs := by
  rw [parentsOf, List.mem_filterMap]
  constructor
  · rintro ⟨_ | _, hx, heq⟩
    · cases heq
      exact hx
    · cases heq
  · exact fun h => ⟨_, h, rfl⟩

/-- A schema of an object that requires its only property, a string, and inherits from components. -/
def objectWith (name : String) (parents : List String) : Json := .object [
  ("allOf", .array (parents.map refTo)),
  ("properties", .object [(name, .object [("type", .string "string")])]),
  ("required", .array [.string name])]

/-- A run on a component with a parent. Its literal has the key of the parent and its own. -/
theorem literalFits_iff_oneParent :
    ∃ d r r' ms m, Document.ofJson (operationsDocument [("/E/get", refTo "Cat")]
        [("Cat", objectWith "color" ["Animal"]), ("Animal", objectWith "name" [])]) = .ok d ∧
      d.validate = .ok () ∧
      (executeAll ⟨d, {}⟩ [.transferTypes, .backbone]).run.run (Run.start {}) = (.ok (), r) ∧
      (Pass.model.execute ⟨d, {}⟩).run.run r = (.ok (), r') ∧ r'.models = some ms ∧
      ("Cat", m) ∈ ms ∧ m.emptyValue.keys = ["name", "color"] ∧
      let c : TypeContext := ⟨d.parts, r.transfers, none⟩
      Acc c.Inherits "Cat" ∧ (LiteralFits c r'.sources ms "Cat" m ↔
        c.BroughtOnce "Cat" ∧ ∀ n, c.Brought "Cat" n ↔ c.Requires "Cat" n) := by
  obtain ⟨d, r, hd, hvalid, hr, htest⟩ := exists_of_runOf?
    (operationsDocument [("/E/get", refTo "Cat")]
      [("Cat", objectWith "color" ["Animal"]), ("Animal", objectWith "name" [])]) {}
    [.transferTypes, .backbone] (fun d r =>
      let c : TypeContext := ⟨d.parts, r.transfers, none⟩
      decide (parentsOf (c.sources "Cat") = ["Animal"] ∧ parentsOf (c.sources "Animal") = []) &&
        (r.after? (Pass.model.execute ⟨d, {}⟩)).any fun r' => r'.models.any fun ms => (ms.at? "Cat").any fun m =>
          decide (m.emptyValue.keys = ["name", "color"])) (by decide +kernel)
  obtain ⟨hparents, htest⟩ := Bool.and_eq_true_iff.1 htest
  obtain ⟨hcat, hanimal⟩ := of_decide_eq_true hparents
  obtain ⟨r', hafter, htest⟩ := (Option.any_eq_true ..).1 htest
  have hr' := Run.of_after? hafter
  obtain ⟨ms, hms, hall⟩ :=
    @literalFits_iff d hvalid {} [.transferTypes, .backbone] (by simp) [] r r' hr hr'
  rw [hms, Option.any_some] at htest
  obtain ⟨m, hm, hkeys⟩ := (Option.any_eq_true ..).1 htest
  have hmem := Entries.mem_of_at? hm
  have hacc : Acc (⟨d.parts, r.transfers, none⟩ : TypeContext).Inherits "Cat" := by
    refine ⟨_, fun p hp => ⟨_, fun q hq => ?_⟩⟩
    rw [TypeContext.Inherits, ← mem_parentsOf, hcat] at hp
    rw [List.mem_singleton.1 hp, TypeContext.Inherits, ← mem_parentsOf, hanimal] at hq
    cases hq
  exact ⟨d, r, r', ms, m, hd, hvalid, hr, hr', hms, hmem, of_decide_eq_true hkeys, hacc,
    (hall _ hmem).1 hacc⟩

/-- **A property that two parents have** comes twice in the literal of an interface that extends both. -/
theorem not_literalFits :
    ∃ d r r' ms m f i es, Document.ofJson (operationsDocument [("/E/get", refTo "Cat")]
        [("Cat", objectWith "color" ["Animal", "Pet"]), ("Animal", objectWith "name" []),
          ("Pet", objectWith "name" [])]) = .ok d ∧ d.validate = .ok () ∧
      (executeAll ⟨d, {}⟩ [.transferTypes, .backbone]).run.run (Run.start {}) = (.ok (), r) ∧
      (Pass.model.execute ⟨d, {}⟩).run.run r = (.ok (), r') ∧ r'.models = some ms ∧
      ("Cat", m) ∈ ms ∧ r'.sources.at? m.file = some f ∧
      f.declaration? m.identifier = some (.interface i) ∧ m.emptyValue = .object es ∧
      ¬ LiteralFits ⟨d.parts, r.transfers, none⟩ r'.sources ms "Cat" m := by
  obtain ⟨d, r, hd, hvalid, hr, htest⟩ := exists_of_runOf?
    (operationsDocument [("/E/get", refTo "Cat")]
      [("Cat", objectWith "color" ["Animal", "Pet"]), ("Animal", objectWith "name" []),
        ("Pet", objectWith "name" [])]) {} [.transferTypes, .backbone] (fun d r =>
      (r.after? (Pass.model.execute ⟨d, {}⟩)).any fun r' => r'.models.any fun ms => (ms.at? "Cat").any fun m =>
        (r'.interface? m).isSome && decide (m.emptyValue.keys = ["name", "name", "color"]))
    (by decide +kernel)
  obtain ⟨r', hafter, htest⟩ := (Option.any_eq_true ..).1 htest
  obtain ⟨ms, hms, htest⟩ := (Option.any_eq_true ..).1 htest
  obtain ⟨m, hm, htest⟩ := (Option.any_eq_true ..).1 htest
  obtain ⟨hsome, hkeys⟩ := Bool.and_eq_true_iff.1 htest
  obtain ⟨i, hi⟩ := Option.isSome_iff_exists.1 hsome
  obtain ⟨f, hf, hdeclared⟩ := Run.of_interface? hi
  have hkeys := of_decide_eq_true hkeys
  obtain ⟨es, hvalue⟩ := Expr.eq_object_of_keys (hkeys ▸ List.cons_ne_nil _ _)
  refine ⟨d, r, r', ms, m, f, i, es, hd, hvalid, hr, Run.of_after? hafter, hms, Entries.mem_of_at? hm, hf,
    hdeclared, hvalue, fun hfits => ?_⟩
  have hnodup := hfits.1
  rw [hkeys] at hnodup
  simp at hnodup

end Emitted

end Client
end OpenApiClient
