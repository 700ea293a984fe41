/-
# Components of a valid document can be declared

In a valid document no reference stops the declaration of a component: what it inherits can be
followed, and its type be told. The form of a component says what its declaration is: an alias of
another component, an enumeration, an interface, or an alias of a type. `declarationOf_gives` says of
each form what is declared: the members of an interface and the parents that it extends, and that the
declaration refers to what the form takes by name.
-/

import OpenApiClient.Client.Model.Declaration
import OpenApiClient.Proofs.Types

namespace OpenApiClient
namespace Client

open OpenApi TypeScript OpenApiClient.Module

section Inheritance

variable {c : Components}

/-- What a component inherits can be followed. -/
theorem Ancestry.with_ok (hc : c.Valid) :
    ∀ (fuel : Nat) (a : Ancestry) (component : String), c.Leads component →
      ∃ a', Ancestry.with c fuel a component = .ok a'
  | 0, a, _, _ => ⟨a, rfl⟩
  | fuel + 1, a, component, ⟨s, hs⟩ => by
    unfold Ancestry.with
    split
    · exact ⟨a, rfl⟩
    rw [hs]
    refine exists_foldlM_eq_ok (fun x hx b => ?_) _
    have hx := Components.closed_inline.1 (hc.closed_of_schema hs) x
      (SchemaOf.mem_children.2 (by tauto))
    cases x with
    | inline o => exact ⟨_, rfl⟩
    | ref pointer =>
      obtain ⟨parent, hp, hl⟩ := Components.closed_ref.1 hx
      simp only [hp]
      change ∃ b', (if c.hasSchema parent = true then _ else _) = _
      split
      · exact Ancestry.with_ok hc fuel b parent hl
      · exact ⟨b, rfl⟩

theorem inheritedNames_ok (hc : c.Valid) {component : String} (h : c.Leads component) :
    ∃ names, inheritedNames c component = .ok names := by
  obtain ⟨a, ha⟩ := Ancestry.with_ok hc (c.schemas.length + 1) {} component h
  exact ⟨a.names, by rw [inheritedNames, ha]; rfl⟩

end Inheritance

/-- What an object inherits, told without types. -/
structure Heritage where
  /-- The components whose interfaces are extended. -/
  parents : List String := []
  /-- The names of the properties of the parents that are no types of the client. -/
  inherited : List String := []
  /-- The objects whose properties are the object's own. -/
  sources : List SchemaObject := []

/-- How a component is declared. -/
inductive Form where
  /-- An alias of the component that a pointer points at. -/
  | synonym (pointer : String)
  | enumeration (values : List String)
  | interface (object : SchemaObject)
  /-- An alias of the type of an object. -/
  | type (object : SchemaObject)

/-- The form of a schema that is written in place. -/
def Form.ofObject (s : SchemaObject) : Form :=
  match enumerationValues? s with
  | some values => .enumeration values
  | none => if Schema.isObjectLike s && !Schema.isUnion s then .interface s else .type s

/-- The form of a component. -/
def Form.of? (c : Components) (component : String) : Option Form :=
  (c.schemas.at? component).map fun
    | .ref pointer => .synonym pointer
    | .inline s => .ofObject s

/-- The type parameters of a declaration of the form. -/
def Form.typeParameters : Form → List String
  | .synonym _ => []
  | .enumeration _ => []
  | .interface s => s.typeParameters
  | .type s => s.typeParameters

/-- A property that an interface declares is one of an object that gives it properties. -/
theorem mem_ownProperties {i : Inheritance} {s : SchemaObject} {e : String × Schema × Bool}
    (h : e ∈ i.ownProperties s) : ∃ o ∈ i.sources ++ [s], (e.1, e.2.1) ∈ o.properties := by
  have hmem := Entries.mem_of_at? (Entries.mem_firsts.1 h)
  obtain ⟨o, ho, h⟩ := List.mem_flatMap.1 (List.mem_filter.1 hmem).1
  obtain ⟨⟨name, p⟩, hp, rfl⟩ : ∃ x ∈ o.properties, _ = e := List.mem_map.1 h
  exact ⟨o, ho, hp⟩

namespace TypeContext

variable (c : TypeContext)

/-- What is inherited from a schema. -/
def inheritedFrom : Schema → Heritage
  | .inline o => { sources := [o] }
  | .ref pointer => match componentName pointer with
    | .error _ => {}
    | .ok parent =>
      if c.transfers.has parent then { parents := [parent] }
      else match c.components.schema parent with
        | .error _ => {}
        | .ok s =>
          if Schema.isUnion s then { sources := [s] }
          else {
            parents := [parent]
            inherited := (inheritedNames c.components parent).toOption.getD [] }

/-- What an object inherits. -/
def heritage (s : SchemaObject) : Heritage where
  parents := s.allOf.flatMap fun x => (c.inheritedFrom x).parents
  inherited := s.allOf.flatMap fun x => (c.inheritedFrom x).inherited
  sources := s.allOf.flatMap fun x => (c.inheritedFrom x).sources

/-- The properties that the interface of an object declares: name, schema and whether it is
required. -/
def ownProperties (s : SchemaObject) : Entries (Schema × Bool) :=
  Inheritance.ownProperties ⟨[], (c.heritage s).inherited, (c.heritage s).sources⟩ s

/-- What a declaration of the form takes by name. -/
def mentionsOf : Form → List Mention
  | .synonym pointer => mentionAt pointer
  | .enumeration _ => []
  | .interface s =>
    (c.heritage s).parents.map .component ++ (c.ownProperties s).flatMap fun e => e.2.1.mentions
  | .type s => (Schema.inline s).mentions

/-- The declaration is of the form, under the bindings of its file. -/
def Declares (b : Bindings) (identifier : String) : Form → Declaration → Prop
  | .synonym pointer, d => ∃ component t, componentName pointer = .ok component ∧
    d = .alias { name := identifier, type := t } ∧ c.Applies b component [] t
  | .enumeration values, d => ∃ doc,
    d = .enumeration { doc, name := identifier, members := values.map enumerationMember }
  | .interface s, d => ∃ parents members,
    d = .interface {
      doc := s.description, name := identifier, typeParameters := s.typeParameters,
      parents, members } ∧
    List.Forall₂ (fun n t => c.Applies b n [] t) (c.heritage s).parents parents ∧
    List.Forall₂ (fun e p => c.Declared b e.1 e.2.1 e.2.2 p) (c.ownProperties s) members
  | .type s, d => ∃ t,
    d = .alias {
      doc := s.description, name := identifier, typeParameters := s.typeParameters, type := t } ∧
    c.Spells b t.references (Schema.inline s).mentions

variable {c} {b : Bindings} {identifier : String} {form : Form} {d : Declaration}

theorem Declares.name (h : c.Declares b identifier form d) : d.name = identifier := by
  cases form with
  | synonym pointer => obtain ⟨component, t, -, rfl, -⟩ := h; rfl
  | enumeration values => obtain ⟨doc, rfl⟩ := h; rfl
  | interface s => obtain ⟨parents, members, rfl, -⟩ := h; rfl
  | type s => obtain ⟨t, rfl, -⟩ := h; rfl

theorem Declares.ne_function (h : c.Declares b identifier form d) (g : Function) :
    d ≠ .function g := by
  rintro rfl
  cases form with
  | synonym pointer => obtain ⟨component, t, -, h, -⟩ := h; cases h
  | enumeration values => obtain ⟨doc, h⟩ := h; cases h
  | interface s => obtain ⟨parents, members, h, -⟩ := h; cases h
  | type s => obtain ⟨t, h, -⟩ := h; cases h

theorem Declares.typeParameters (h : c.Declares b identifier form d) :
    d.typeParameters = form.typeParameters := by
  cases form with
  | synonym pointer => obtain ⟨component, t, -, rfl, -⟩ := h; rfl
  | enumeration values => obtain ⟨doc, rfl⟩ := h; rfl
  | interface s => obtain ⟨parents, members, rfl, -⟩ := h; rfl
  | type s => obtain ⟨t, rfl, -⟩ := h; rfl

/-- **A declaration refers to what its form takes by name.** -/
theorem Declares.spells (h : c.Declares b identifier form d) :
    c.Spells b d.references (c.mentionsOf form) := by
  cases form with
  | synonym pointer =>
    obtain ⟨component, t, hp, rfl, ht⟩ := h
    simpa [mentionsOf, mentionAt, hp, Declaration.references] using ht.spells .nil
  | enumeration values =>
    obtain ⟨doc, rfl⟩ := h
    exact .nil
  | interface s =>
    obtain ⟨parents, members, rfl, hparents, hmembers⟩ := h
    simp only [Declaration.references, Ty.referencesOfAll_eq, Ty.referencesOfMembers_eq, mentionsOf]
    refine .append ?_ (.flatMap (hmembers.imp fun _ _ hp => hp.spells))
    rw [List.map_eq_flatMap]
    exact .flatMap (hparents.imp fun _ _ ht => by simpa using ht.spells .nil)
  | type s =>
    obtain ⟨t, rfl, ht⟩ := h
    exact ht

/-- An object that gives an interface properties is its own, one that it is composed of, or what a
reference in it leads to. -/
theorem mem_sources {s o : SchemaObject} (ho : o ∈ (c.heritage s).sources ++ [s]) :
    o = s ∨ .inline o ∈ s.children ∨ ∃ pointer name, .ref pointer ∈ s.children ∧
      componentName pointer = .ok name ∧ c.components.schema name = .ok o := by
  rcases List.mem_append.1 ho with ho | ho
  · obtain ⟨x, hx, ho⟩ := List.mem_flatMap.1 ho
    cases x with
    | inline o' =>
      obtain rfl := List.mem_singleton.1 ho
      exact .inr (.inl (SchemaOf.mem_children.2 (by tauto)))
    | ref pointer =>
      unfold inheritedFrom at ho
      dsimp only at ho
      split at ho
      · cases ho
      next name hname =>
      split at ho
      · cases ho
      split at ho
      · cases ho
      · next hs =>
        split at ho
        · exact .inr (.inr ⟨pointer, name, SchemaOf.mem_children.2 (by tauto), hname,
            List.mem_singleton.1 ho ▸ hs⟩)
        · cases ho
  · exact .inl (List.mem_singleton.1 ho)

/-- A parent is what a reference points at. -/
theorem mem_parents {x : Schema} {parent : String} (h : parent ∈ (c.inheritedFrom x).parents) :
    ∃ pointer, x = .ref pointer ∧ componentName pointer = .ok parent := by
  cases x with
  | inline o => cases h
  | ref pointer =>
    refine ⟨pointer, rfl, ?_⟩
    unfold inheritedFrom at h
    dsimp only at h
    split at h
    · cases h
    next name hname =>
    suffices heq : parent = name from heq ▸ hname
    split at h
    · exact List.mem_singleton.1 h
    split at h
    · cases h
    split at h
    · cases h
    · exact List.mem_singleton.1 h

/-- **What a declaration takes by name is among names that refer to no others**, if the component is. -/
theorem mem_of_mentionsOf {names : String → Prop} (hnames : c.components.SelfContained names)
    {component : String} {form : Form} (hcomponent : names component)
    (hform : Form.of? c.components component = some form) {n : String}
    (hn : .component n ∈ c.mentionsOf form) : names n := by
  obtain ⟨x, hat, rfl⟩ := Option.map_eq_some_iff.1 hform
  have hmention : ∀ {x' : Schema}, x'.pointers ⊆ x.pointers → .component n ∈ x'.mentions → names n :=
    fun hsub => hnames.of_mention hcomponent hat hsub
  cases x with
  | ref pointer => exact hmention (List.Subset.refl _) (by rwa [Schema.mentions_ref])
  | inline s =>
    have hinside : ∀ {pointer name}, .ref pointer ∈ s.children → componentName pointer = .ok name →
        names name := fun hmem hname =>
      hnames component _ hcomponent hat _ (Schema.pointers_subset hmem (by simp)) _ hname
    simp only [Form.ofObject] at hn
    split at hn
    · cases hn
    split at hn
    · rcases List.mem_append.1 hn with hn | hn
      · obtain ⟨parent, hparent, heq⟩ := List.mem_map.1 hn
        obtain rfl := Mention.component.inj heq
        obtain ⟨y, hy, hparent⟩ := List.mem_flatMap.1 hparent
        obtain ⟨pointer, rfl, hname⟩ := mem_parents hparent
        exact hinside (SchemaOf.mem_children.2 (by tauto)) hname
      · obtain ⟨e, he, hproperty⟩ := List.mem_flatMap.1 hn
        obtain ⟨o, ho, hp⟩ := mem_ownProperties he
        have hsub : e.2.1.pointers ⊆ (Schema.inline o).pointers :=
          Schema.pointers_subset (SchemaOf.mem_children.2 (.inl ⟨_, hp⟩))
        rcases mem_sources ho with rfl | ho | ⟨pointer, name, hmem, hname, ho⟩
        · exact hmention hsub hproperty
        · exact hmention (List.Subset.trans hsub (Schema.pointers_subset ho)) hproperty
        · obtain ⟨k, hk, hat'⟩ := hnames.exists_of_follow (hinside hmem hname) ho
          exact hnames.of_mention hk hat' hsub hproperty
    · exact hmention (List.Subset.refl _) hn

variable (hc : c.components.Valid)
include hc

/-- **What is inherited from schemas** is added to what is inherited already. -/
theorem foldlM_inherit_gives {xs : List Schema} (hxs : ∀ x ∈ xs, c.components.Closed x)
    (i : Inheritance) :
    c.Gives (xs.foldlM c.inherit i)
      ((xs.flatMap fun x => (c.inheritedFrom x).parents).map .component) fun b i' =>
      ∃ types, i' = ⟨i.parents ++ types,
          i.inherited ++ xs.flatMap fun x => (c.inheritedFrom x).inherited,
          i.sources ++ xs.flatMap fun x => (c.inheritedFrom x).sources⟩ ∧
        List.Forall₂ (fun n t => c.Applies b n [] t)
          (xs.flatMap fun x => (c.inheritedFrom x).parents) types := by
  induction xs generalizing i with
  | nil => exact .pure fun b => ⟨[], by simp, .nil⟩
  | cons x xs ih =>
    have inherit_gives : c.Gives (c.inherit i x) ((c.inheritedFrom x).parents.map .component)
        fun b i' => ∃ types, i' = ⟨i.parents ++ types, i.inherited ++ (c.inheritedFrom x).inherited,
          i.sources ++ (c.inheritedFrom x).sources⟩ ∧
        List.Forall₂ (fun n t => c.Applies b n [] t) (c.inheritedFrom x).parents types := by
      have hx := hxs x (by simp)
      cases x with
      | inline o => exact .pure fun b => ⟨[], by simp [inheritedFrom], .nil⟩
      | ref pointer =>
        obtain ⟨parent, hp, hl⟩ := Components.closed_ref.1 hx
        obtain ⟨schema, hs⟩ := id hl
        have htype : c.Gives (c.typeOf (.ref pointer)) [.component parent] fun b t =>
            c.Applies b parent [] t := by
          have hnil : c.Gives (pure []) [] fun _ (ts : List Ty) => ts = [] := .pure fun _ => rfl
          rw [typeOf, Schema.para_ref]
          refine ((pointee_gives hp hl hnil).congr (by simp [mentionAt, hp])).mono fun b t => ?_
          rintro ⟨_, rfl, ht⟩
          exact ht
        unfold inherit inheritedFrom
        simp only [hp, hs]
        refine .lift rfl ?_
        by_cases ht : c.transfers.has parent = true
        · simp only [ht, if_true]
          exact htype.map fun b t ht => ⟨[t], by simp, .cons ht .nil⟩
        · simp only [ht]
          refine .lift hs ?_
          by_cases hu : Schema.isUnion schema = true
          · simp only [hu, if_true]
            exact .pure fun b => ⟨[], by simp, .nil⟩
          · simp only [hu]
            obtain ⟨names, hn⟩ := inheritedNames_ok hc hl
            refine (htype.bind (S := fun t _ i' => i' = Inheritance.mk (i.parents ++ [t])
              (i.inherited ++ names) i.sources) (fun t _ _ => .lift hn ?_) fun t b i' ht hi => ?_).congr
                (List.append_nil _)
            · exact .pure fun _ => rfl
            · exact ⟨[t], by simp [hi, hn, Except.toOption], .cons ht .nil⟩
    rw [List.foldlM_cons, List.flatMap_cons, List.map_append]
    refine inherit_gives.bind (fun i' _ _ => ih (fun x hx => hxs x (by simp [hx])) i') ?_
    rintro i' b i'' ⟨types, rfl, htypes⟩ ⟨types', rfl, htypes'⟩
    exact ⟨types ++ types', by simp, List.rel_append htypes htypes'⟩

theorem closed_of_mem_ownProperties {s : SchemaObject} (hs : c.components.Closed (.inline s))
    {e : String × Schema × Bool} (he : e ∈ c.ownProperties s) : c.components.Closed e.2.1 := by
  obtain ⟨o, ho, hp⟩ := mem_ownProperties he
  have hclosed : c.components.Closed (.inline o) := by
    rcases mem_sources ho with rfl | ho | ⟨-, name, -, -, ho⟩
    · exact hs
    · exact Components.closed_inline.1 hs _ ho
    · exact hc.closed_of_schema ho
  exact Components.closed_inline.1 hclosed _ (SchemaOf.mem_children.2 (.inl ⟨_, hp⟩))

theorem interfaceOf_gives {s : SchemaObject} (hs : c.components.Closed (.inline s))
    (identifier : String) :
    c.Gives (c.interfaceOf identifier s) (c.mentionsOf (.interface s)) fun b i =>
      c.Declares b identifier (.interface s) (.interface i) := by
  have hx := Components.closed_inline.1 hs
  unfold interfaceOf
  refine (@foldlM_inherit_gives _ hc s.allOf
    (fun x hxs => hx x (SchemaOf.mem_children.2 (by tauto))) {}).bind
    (S := fun i b j => ∃ members, j = {
        doc := s.description, name := identifier, typeParameters := s.typeParameters,
        parents := i.parents, members } ∧
      List.Forall₂ (fun e p => c.Declared b e.1 e.2.1 e.2.2 p) (c.ownProperties s) members) ?_ ?_
  · rintro i b ⟨types, rfl, -⟩
    have hproperty : ∀ e ∈ c.ownProperties s, c.Gives (c.property e.1 e.2.1 e.2.2) e.2.1.mentions
        fun b p => c.Declared b e.1 e.2.1 e.2.2 p := fun e he =>
      propertyOf_gives (p := c.typed e.2.1) (typeOf_gives (closed_of_mem_ownProperties hc hs he))
    exact (Gives.mapM hproperty).map fun b members hmembers => ⟨members, rfl, hmembers⟩
  · rintro i b j ⟨types, rfl, htypes⟩ ⟨members, rfl, hmembers⟩
    exact ⟨types, members, by simp, htypes, hmembers⟩

/-- **The declaration of a component of a valid document** can be made, and is of the component's
form. -/
theorem declarationOf_gives {component : String} {form : Form}
    (hform : Form.of? c.components component = some form) (identifier : String) :
    c.Gives (c.declarationOf component identifier) (c.mentionsOf form) fun b d =>
      c.Declares b identifier form d := by
  obtain ⟨x, hat, rfl⟩ := Option.map_eq_some_iff.1 hform
  have hclosed := hc.closed _ (Entries.mem_of_at? hat)
  unfold declarationOf
  cases x with
  | ref pointer =>
    obtain ⟨target, hp, hl⟩ := Components.closed_ref.1 hclosed
    have hnil : c.Gives (pure []) [] fun _ (ts : List Ty) => ts = [] := .pure fun _ => rfl
    simp only [hat, typeOf, Schema.para_ref]
    refine (pointee_gives hp hl hnil).map fun b t => ?_
    rintro ⟨_, rfl, ht⟩
    exact ⟨target, t, hp, rfl, ht⟩
  | inline s =>
    have hs : c.components.schema component = .ok s := by
      simp [Components.schema, Components.follow, hat]
    simp only [hat, hs, Form.ofObject]
    refine .lift rfl ?_
    cases hv : enumerationValues? s with
    | some values => exact .pure fun b => ⟨_, rfl⟩
    | none =>
      simp only
      split
      · exact (interfaceOf_gives hc hclosed identifier).map fun b i hi => hi
      · exact (typeOf_gives hclosed).map fun b t ht => ⟨t, rfl, ht⟩

/-- What a declaration takes by name leads to schemas. -/
theorem leads_of_mentionsOf {component : String} {form : Form}
    (hform : Form.of? c.components component = some form) {n : String}
    (hn : .component n ∈ c.mentionsOf form) : c.components.Leads n := by
  obtain ⟨x, hat, -⟩ := Option.map_eq_some_iff.1 hform
  refine mem_of_mentionsOf (fun name s _ hs p hp target htarget => ?_)
    (hc.leads _ (Entries.mem_of_at? hat)) hform hn
  obtain ⟨n', hn', hl⟩ := hc.closed _ (Entries.mem_of_at? hs) p hp
  exact Except.ok.inj (htarget.symm.trans hn') ▸ hl

omit hc in
/-- A name that a declaration takes as it stands is one of a schema, but for that of binary data. -/
theorem exists_of_plain_mem_mentionsOf {component : String} {form : Form}
    (hform : Form.of? c.components component = some form) {name : String}
    (hn : .plain name ∈ c.mentionsOf form) :
    name = "Blob" ∨ ∃ e ∈ c.components.schemas, name ∈ e.2.typeVariables := by
  obtain ⟨x, hat, rfl⟩ := Option.map_eq_some_iff.1 hform
  have hmem := Entries.mem_of_at? hat
  have hplain : ∀ x : Schema, (component, x) ∈ c.components.schemas → .plain name ∈ x.mentions →
      name = "Blob" ∨ ∃ e ∈ c.components.schemas, name ∈ e.2.typeVariables := fun x hx hn =>
    (Schema.mem_typeVariables_of_mention hn).imp_right fun h => ⟨_, hx, h⟩
  cases x with
  | ref pointer => exact hplain _ hmem (by rwa [Schema.mentions_ref])
  | inline s =>
    simp only [Form.ofObject] at hn
    split at hn
    · cases hn
    split at hn
    · rcases List.mem_append.1 hn with hn | hn
      · obtain ⟨parent, -, heq⟩ := List.mem_map.1 hn
        cases heq
      · obtain ⟨e, he, hn⟩ := List.mem_flatMap.1 hn
        refine (Schema.mem_typeVariables_of_mention hn).imp_right fun hn => ?_
        obtain ⟨o, ho, hp⟩ := mem_ownProperties he
        have hno : name ∈ (Schema.inline o).typeVariables :=
          Schema.typeVariables_subset (SchemaOf.mem_children.2 (.inl ⟨_, hp⟩)) hn
        rcases mem_sources ho with rfl | ho | ⟨-, n, -, -, ho⟩
        · exact ⟨_, hmem, hno⟩
        · exact ⟨_, hmem, Schema.typeVariables_subset ho hno⟩
        · obtain ⟨n', hn'⟩ := Components.mem_of_follow ho
          exact ⟨_, hn', hno⟩
    · exact hplain _ hmem hn

omit hc in
/-- A component that leads to a schema has a form. -/
theorem exists_form {c : Components} {component : String} (h : c.Leads component) :
    ∃ form, Form.of? c component = some form := by
  obtain ⟨s, hs⟩ := h
  unfold Form.of?
  cases hat : c.schemas.at? component with
  | none => simp [Components.schema, Components.follow, hat] at hs
  | some x => exact ⟨_, rfl⟩

end TypeContext

end Client
end OpenApiClient
