/-
# What types name

Telling the type of a schema writes to the file's bindings. What it writes is told here from the
schema. `Schema.mentions` lists what the type of a schema takes by name: components, and names as they
stand. `typeOf_gives` says that in a valid document the type can always be told; that the components
named are noted and the defaults of their modules imported, and no other default is; and that the
references of the type are those names as the file knows them, each component with at least as many
arguments as its schema has type parameters.

`Gives m ms Q` says this of any computation, with `Q` for its result under the bindings of the file
then and later. It follows the steps of computations (`Gives.bind`, `Gives.mapM`), so that it is proved
of types along the definition of `ofObject`.
-/

import OpenApiClient.Client.TypeMapping
import OpenApiClient.Proofs.Ends
import OpenApiClient.Proofs.Imports
import OpenApiClient.Proofs.References
import OpenApiClient.Proofs.Valid

namespace OpenApiClient

namespace OpenApi

/-- What a type takes by name. -/
inductive Mention where
  | component (name : String)
  /-- A name that is written as it stands. -/
  | plain (name : String)
deriving DecidableEq, Repr

/-- The component that a pointer points at. -/
def mentionAt (pointer : String) : List Mention :=
  match componentName pointer with
  | .ok component => [.component component]
  | .error _ => []

/-- What the type of an object takes by name, given that of the schemas inside it. -/
def mentionsInside (s : SchemaOf (Schema × List Mention)) : List Mention :=
  match s.typeVariable, s.wrapped? fun p => p.1.pointer? with
  | some name, _ => [.plain name]
  | none, some pointer => (s.typeArguments.getD []).flatMap (·.2) ++ mentionAt pointer
  | none, none =>
    if !(s.oneOf.isEmpty && s.anyOf.isEmpty) then
      ((s.oneOf ++ s.anyOf).filter fun p => !p.1.isNull).flatMap (·.2)
    else if !s.allOf.isEmpty then s.allOf.flatMap (·.2) ++ s.properties.flatMap (·.2.2)
    else if !s.enumeration.isEmpty then []
    else match s.singleType? with
      | some .string => if s.format == some "binary" then [.plain "Blob"] else []
      | some .array => s.items.toList.flatMap (·.2)
      | some .object | none =>
        if !s.properties.isEmpty then s.properties.flatMap (·.2.2)
        else (s.additionalProperties.bind Additional.schema?).toList.flatMap (·.2)
      | _ => []

/-- What the type of a schema takes by name. -/
def Schema.mentions : Schema → List Mention := Schema.para mentionAt mentionsInside

theorem Schema.mentions_ref (p : String) : (Schema.ref p).mentions = mentionAt p := by
  simp [mentions]

/-- What the type of an object takes by name, layer by layer. -/
theorem Schema.mentions_inline (s : SchemaObject) :
    (Schema.inline s).mentions = match s.typeVariable, s.wrapped? Schema.pointer? with
      | some name, _ => [.plain name]
      | none, some pointer => (s.typeArguments.getD []).flatMap mentions ++ mentionAt pointer
      | none, none =>
        if !(s.oneOf.isEmpty && s.anyOf.isEmpty) then
          ((s.oneOf ++ s.anyOf).filter (!·.isNull)).flatMap mentions
        else if !s.allOf.isEmpty then
          s.allOf.flatMap mentions ++ s.properties.flatMap fun e => e.2.mentions
        else if !s.enumeration.isEmpty then []
        else match s.singleType? with
          | some .string => if s.format == some "binary" then [.plain "Blob"] else []
          | some .array => s.items.toList.flatMap mentions
          | some .object | none =>
            if !s.properties.isEmpty then s.properties.flatMap fun e => e.2.mentions
            else (s.additionalProperties.bind Additional.schema?).toList.flatMap mentions
          | _ => [] := by
  have h : (Schema.inline s).mentions = mentionsInside (s.map fun x => (x, x.mentions)) :=
    Schema.para_inline ..
  rw [h, mentionsInside, SchemaOf.wrapped?_map]
  change (match s.typeVariable, s.wrapped? Schema.pointer? with
    | some _, _ => _
    | none, some pointer => _
    | none, none => _) = _
  have hi : ∀ t : Option Schema, (t.map fun x => (x, x.mentions)).toList.flatMap (·.2) =
      t.toList.flatMap mentions := by rintro (_ | x) <;> rfl
  have ha : ((s.additionalProperties.map (·.map fun x => (x, x.mentions))).bind
      Additional.schema?).toList.flatMap (·.2) =
        (s.additionalProperties.bind Additional.schema?).toList.flatMap mentions := by
    rcases s.additionalProperties with _ | (b | x) <;> rfl
  have ht : ((s.typeArguments.map (·.map fun x => (x, x.mentions))).getD []).flatMap (·.2) =
      (s.typeArguments.getD []).flatMap mentions := by
    cases s.typeArguments with
    | none => rfl
    | some args => simp only [Option.map_some, Option.getD_some, List.flatMap_map]
  simp only [SchemaOf.map, ht, hi, ha, List.isEmpty_map, ← List.map_append, List.filter_map,
    List.flatMap_map]
  rfl

/-- What the type of an object takes by name stands in it, or is taken by the schemas inside it. -/
theorem Schema.mem_mentions_inline {s : SchemaObject} {m : Mention}
    (hm : m ∈ (Schema.inline s).mentions) :
    (∃ x ∈ s.children, m ∈ x.mentions) ∨ m = .plain "Blob" ∨
      ∃ name, s.typeVariable = some name ∧ m = .plain name := by
  rw [mentions_inline] at hm
  have hl : ∀ xs : List Schema, (∀ x ∈ xs, x ∈ s.children) → m ∈ xs.flatMap mentions →
      ∃ x ∈ s.children, m ∈ x.mentions := fun xs hxs h => by
    obtain ⟨x, hx, h⟩ := List.mem_flatMap.1 h
    exact ⟨x, hxs x hx, h⟩
  have hp : m ∈ (s.properties.flatMap fun e => e.2.mentions) → ∃ x ∈ s.children, m ∈ x.mentions :=
    fun h => by
      obtain ⟨⟨name, x⟩, hx, h⟩ := List.mem_flatMap.1 h
      exact ⟨x, SchemaOf.mem_children.2 (.inl ⟨name, hx⟩), h⟩
  split at hm
  · next hv => exact .inr (.inr ⟨_, hv, List.mem_singleton.1 hm⟩)
  · next pointer _ hw =>
    refine .inl ?_
    rcases List.mem_append.1 hm with h | h
    · refine hl _ (fun x hx => SchemaOf.mem_children.2 ?_) h
      cases ha : s.typeArguments <;> simp_all
    · exact ⟨.ref pointer, Schema.ref_mem_children hw, by rwa [mentions_ref]⟩
  split at hm
  · refine .inl (hl _ (fun x hx => SchemaOf.mem_children.2 ?_) hm)
    have hx := List.mem_append.1 (List.mem_filter.1 hx).1
    tauto
  split at hm
  · refine .inl ?_
    rcases List.mem_append.1 hm with h | h
    · exact hl _ (fun x hx => SchemaOf.mem_children.2 (by tauto)) h
    · exact hp h
  split at hm
  · simp at hm
  have hk : m ∈ (if !s.properties.isEmpty then s.properties.flatMap fun e => e.2.mentions
      else (s.additionalProperties.bind Additional.schema?).toList.flatMap mentions) →
        ∃ x ∈ s.children, m ∈ x.mentions := by
    intro h
    split at h
    · exact hp h
    · refine hl _ (fun x hx => ?_) h
      simp only [SchemaOf.children, List.mem_append]
      tauto
  split at hm
  · split at hm
    · exact .inr (.inl (List.mem_singleton.1 hm))
    · simp at hm
  · refine .inl (hl _ (fun x hx => SchemaOf.mem_children.2 ?_) hm)
    exact .inr (.inl (by simpa using hx))
  · exact .inl (hk hm)
  · exact .inl (hk hm)
  · simp at hm

/-- The names of the type parameters that a schema stands for, or has inside. -/
def Schema.typeVariables : Schema → List String :=
  fold (fun _ => []) fun s => s.typeVariable.toList ++ s.children.flatten

theorem Schema.typeVariables_inline (s : SchemaObject) :
    (Schema.inline s).typeVariables = s.typeVariable.toList ++ s.children.flatMap typeVariables := by
  rw [typeVariables, fold_inline, SchemaOf.children_map, List.flatMap]
  rfl

/-- The type parameters in a schema inside an object are in the object. -/
theorem Schema.typeVariables_subset {s : SchemaObject} {x : Schema} (hx : x ∈ s.children) :
    x.typeVariables ⊆ (Schema.inline s).typeVariables := fun name hname => by
  rw [typeVariables_inline]
  exact List.mem_append_right _ (List.mem_flatMap.2 ⟨x, hx, hname⟩)

/-- A name that a type takes as it stands is one of the schema, but for that of binary data. -/
theorem Schema.mem_typeVariables_of_mention {s : Schema} {name : String}
    (h : .plain name ∈ s.mentions) : name = "Blob" ∨ name ∈ s.typeVariables := by
  induction s using Schema.induct with
  | ref p =>
    rw [mentions_ref, mentionAt] at h
    split at h
    · cases List.mem_singleton.1 h
    · cases h
  | inline s ih =>
    rw [typeVariables_inline, List.mem_append]
    rcases mem_mentions_inline h with ⟨x, hx, h⟩ | h | ⟨v, hv, h⟩
    · exact (ih x hx h).imp_right fun h => .inr (List.mem_flatMap.2 ⟨x, hx, h⟩)
    · exact .inl (Mention.plain.inj h)
    · obtain rfl := Mention.plain.inj h
      exact .inr (.inl (by simp [hv]))

/-- The number of type parameters of the schema that a component leads to. -/
def Components.arity (c : Components) (component : String) : Nat :=
  match c.schema component with
  | .ok s => s.typeParameters.length
  | .error _ => 0

/-- A reference in the schema points at a component that the type of the schema takes by name. -/
theorem Schema.exists_pointer_of_mention {s : Schema} {component : String}
    (h : .component component ∈ s.mentions) : ∃ p ∈ s.pointers, componentName p = .ok component := by
  induction s using Schema.induct with
  | ref p =>
    rw [mentions_ref, mentionAt] at h
    split at h
    · next n hp =>
      cases List.mem_singleton.1 h
      exact ⟨p, by simp, hp⟩
    · cases h
  | inline s ih =>
    rcases mem_mentions_inline h with ⟨x, hx, h⟩ | h | ⟨name, -, h⟩
    · obtain ⟨p, hp, hname⟩ := ih x hx h
      exact ⟨p, pointers_subset hx hp, hname⟩
    · cases h
    · cases h

/-- The components that the type of a closed schema takes by name lead to schemas. -/
theorem Components.leads_of_mention {c : Components} {s : Schema} (hs : c.Closed s)
    {component : String} (h : .component component ∈ s.mentions) : c.Leads component := by
  obtain ⟨p, hp, hname⟩ := Schema.exists_pointer_of_mention h
  obtain ⟨n, hn, hl⟩ := hs p hp
  obtain rfl := Except.ok.inj (hname.symm.trans hn)
  exact hl

/-- What a type takes by name of a schema, which is that of a name or stands inside it, is among names
that refer to no others. -/
theorem Components.SelfContained.of_mention {c : Components} {names : String → Prop}
    (h : c.SelfContained names) {name : String} {s x : Schema} (hname : names name)
    (hs : c.schemas.at? name = some s) (hx : x.pointers ⊆ s.pointers) {n : String}
    (hn : .component n ∈ x.mentions) : names n := by
  obtain ⟨p, hp, htarget⟩ := Schema.exists_pointer_of_mention hn
  exact h name s hname hs p (hx hp) n htarget

end OpenApi

namespace Client

open OpenApi TypeScript OpenApiClient.Module

/-- The components `ns` were named on the way from one state to another, and no defaults imported
but those of their modules and of the modules `ms`. -/
structure TypeState.Moves (ns ms : List String) (s t : TypeState) : Prop where
  adds : Bindings.Adds (ns.map Naming.modelModule ++ ms) s.bindings t.bindings
  referenced : t.referenced = insertAll s.referenced ns

namespace TypeState

variable {s t u : TypeState} {ns ns' ms ms' : List String}

theorem Moves.refl (s : TypeState) : Moves [] [] s s := ⟨.refl _, rfl⟩

theorem Moves.trans (h : Moves ns ms s t) (h' : Moves ns' ms' t u) :
    Moves (ns ++ ns') (ms ++ ms') s u where
  adds := (h.adds.trans h'.adds).congr fun m => by
    simp only [List.mem_append, List.map_append]
    tauto
  referenced := by
    rw [h'.referenced, h.referenced, insertAll, insertAll, insertAll, List.foldl_append]

/-- A default of any module is imported, or a named export. -/
theorem Moves.of_adds {b : Bindings} (h : Bindings.Adds ms s.bindings b) :
    Moves [] ms s { s with bindings := b } := ⟨h, rfl⟩

end TypeState

namespace Mapping

theorem importNamed_spec (module id : String) (isType : Bool) (s : TypeState) :
    Ends (importNamed module id isType) s
      (fun name t => s.Moves [] [] t ∧ ∀ b, t.bindings.Grows b →
        b.imports.namedName? (b.site.specifier module) id = some name)
      fun _ _ => False := by
  have ⟨hadds, hname⟩ := s.bindings.importNamed_spec module id isType
  refine ⟨.of_adds hadds, fun b hb => ?_⟩
  have hsite : b.site = s.bindings.site := hb.site.trans hadds.site
  rw [hsite]
  exact hb.keptNamed _ _ _ hname

theorem importDefault_spec (module id : String) (isType : Bool) (s : TypeState) :
    Ends (importDefault module id isType) s
      (fun name t => s.Moves [] [module] t ∧ ∀ b, t.bindings.Grows b →
        b.imports.defaultName? (b.site.specifier module) = some name)
      fun _ _ => False := by
  have ⟨hadds, hname⟩ := s.bindings.importDefault_spec module id isType
  refine ⟨.of_adds hadds, fun b hb => ?_⟩
  have hsite : b.site = s.bindings.site := hb.site.trans hadds.site
  rw [hsite]
  exact hb.kept _ _ hname

end Mapping

namespace TypeContext

variable (c : TypeContext)

/-- What naming a component notes: the component, unless a type of the client stands for it or the
file itself declares it. -/
def noted (component : String) : List String :=
  if c.transfers.has component || c.own.any (·.1 == component) then [] else [component]

/-- What naming the component of a pointer notes. -/
def notedAt (pointer : String) : List String :=
  match componentName pointer with
  | .ok component => c.noted component
  | .error _ => []

/-- The components that the type of an object names, given those of the schemas inside it. -/
def namedInside (s : SchemaOf (Schema × List String)) : List String :=
  match s.typeVariable, s.wrapped? fun p => p.1.pointer? with
  | some _, _ => []
  | none, some pointer => (s.typeArguments.getD []).flatMap (·.2) ++ c.notedAt pointer
  | none, none =>
    if !(s.oneOf.isEmpty && s.anyOf.isEmpty) then
      ((s.oneOf ++ s.anyOf).filter fun p => !p.1.isNull).flatMap (·.2)
    else if !s.allOf.isEmpty then s.allOf.flatMap (·.2) ++ s.properties.flatMap (·.2.2)
    else if !s.enumeration.isEmpty then []
    else match s.singleType? with
      | some .array => s.items.toList.flatMap (·.2)
      | some .object | none =>
        if !s.properties.isEmpty then s.properties.flatMap (·.2.2)
        else (s.additionalProperties.bind Additional.schema?).toList.flatMap (·.2)
      | _ => []

/-- The components that the type of a schema names, in the order in which they are noted. -/
def named : Schema → List String := Schema.para c.notedAt c.namedInside

/-- What taking a name notes. -/
def notedBy : Mention → List String
  | .component component => c.noted component
  | .plain _ => []

/-- The reference is what a mention becomes in a file with the bindings. A component has at least as
many arguments as its schema has type parameters. -/
def Spelling (b : Bindings) : Mention → Reference → Prop
  | .plain name, r => r.1 = name
  | .component component, r => match c.transfers.at? component with
    | some target => match target.module with
      | some module => b.imports.namedName? (b.site.specifier module) target.name = some r.1
      | none => r.1 = target.name
    | none => c.components.arity component ≤ r.2 ∧ match c.own.filter (·.1 == component) with
      | some (_, name) => r.1 = name
      | none =>
        b.imports.defaultName? (b.site.specifier (Naming.modelModule component)) = some r.1

/-- The references are what mentions become: each stands for a mention, and each mention for one. -/
structure Spells (b : Bindings) (rs : List Reference) (ms : List Mention) : Prop where
  origin : ∀ r ∈ rs, ∃ m ∈ ms, c.Spelling b m r
  spelled : ∀ m ∈ ms, ∃ r ∈ rs, c.Spelling b m r

namespace Spells

variable {c} {b : Bindings} {rs rs' : List Reference} {ms ms' : List Mention}

theorem nil : c.Spells b [] [] := ⟨by simp, by simp⟩

theorem append (h : c.Spells b rs ms) (h' : c.Spells b rs' ms') :
    c.Spells b (rs ++ rs') (ms ++ ms') where
  origin r hr := by
    rcases List.mem_append.1 hr with hr | hr
    · exact (h.origin r hr).imp fun m hm => ⟨List.mem_append_left _ hm.1, hm.2⟩
    · exact (h'.origin r hr).imp fun m hm => ⟨List.mem_append_right _ hm.1, hm.2⟩
  spelled m hm := by
    rcases List.mem_append.1 hm with hm | hm
    · exact (h.spelled m hm).imp fun r hr => ⟨List.mem_append_left _ hr.1, hr.2⟩
    · exact (h'.spelled m hm).imp fun r hr => ⟨List.mem_append_right _ hr.1, hr.2⟩

/-- The order of references, and how often they come, does not matter. -/
theorem congr (h : c.Spells b rs ms) (hr : ∀ r, r ∈ rs' ↔ r ∈ rs) : c.Spells b rs' ms where
  origin r hrs := h.origin r ((hr r).1 hrs)
  spelled m hm := (h.spelled m hm).imp fun r hrs => ⟨(hr r).2 hrs.1, hrs.2⟩

theorem flatMap {α β : Type} {xs : List α} {ys : List β} {f : α → List Mention}
    {g : β → List Reference} (h : List.Forall₂ (fun x y => c.Spells b (g y) (f x)) xs ys) :
    c.Spells b (ys.flatMap g) (xs.flatMap f) := by
  induction h with
  | nil => exact nil
  | cons hxy _ ih => exact hxy.append ih

end Spells

/-- The computation does not fail; it notes what the mentions say and imports their defaults, and `Q`
holds of its result under the bindings then and later. -/
def Gives {α : Type} (m : Mapping α) (ms : List Mention) (Q : Bindings → α → Prop) : Prop :=
  ∀ s, Ends m s
    (fun a t => s.Moves (ms.flatMap c.notedBy) [] t ∧ ∀ b, t.bindings.Grows b → Q b a)
    fun _ _ => False

namespace Gives

variable {c} {α β : Type} {m : Mapping α} {f : α → Mapping β} {ms ms' : List Mention}
  {Q Q' : Bindings → α → Prop} {R : Bindings → β → Prop}

theorem pure {a : α} (h : ∀ b, Q b a) : c.Gives (pure a) [] Q := fun s => ⟨.refl s, fun b _ => h b⟩

theorem mono (hm : c.Gives m ms Q) (h : ∀ b a, Q b a → Q' b a) : c.Gives m ms Q' := fun s =>
  (hm s).imp fun a _ ht => ⟨ht.1, fun b hb => h b a (ht.2 b hb)⟩

theorem congr (hm : c.Gives m ms Q) (h : ms = ms') : c.Gives m ms' Q := h ▸ hm

/-- **Steps are read one after another.** -/
theorem bind {S : α → Bindings → β → Prop} (hm : c.Gives m ms Q)
    (hf : ∀ a b, Q b a → c.Gives (f a) ms' (S a)) (h : ∀ a b y, Q b a → S a b y → R b y) :
    c.Gives (m >>= f) (ms ++ ms') R := fun s =>
  ends_bind.2 <| (hm s).imp fun a t ⟨ht, hQ⟩ =>
    (hf a t.bindings (hQ _ (.refl _)) t).imp fun y u ⟨hu, hS⟩ => by
      refine ⟨by simpa using ht.trans hu, fun b hb => h a b y (hQ b ?_) (hS b hb)⟩
      exact hu.adds.grows.trans hb

/-- What follows a computation only looks at its result. -/
theorem map {g : α → β} (hm : c.Gives m ms Q) (h : ∀ b a, Q b a → R b (g a)) :
    c.Gives (do return g (← m)) ms R :=
  (hm.bind (S := fun a _ y => y = g a) (fun _ _ _ => .pure fun _ => rfl)
    fun a b _ hq hy => hy ▸ h b a hq).congr (List.append_nil ms)

/-- The result of a check that succeeds. -/
theorem lift {x : Except ReferenceError α} {a : α} (h : x = .ok a) (hf : c.Gives (f a) ms R) :
    c.Gives (ExceptT.mk (Pure.pure x) >>= f) ms R := fun s => by
  subst h
  exact ends_bind.2 (hf s)

theorem mapM {xs : List α} {g : α → List Mention} {S : α → Bindings → β → Prop}
    (h : ∀ x ∈ xs, c.Gives (f x) (g x) (S x)) :
    c.Gives (xs.mapM f) (xs.flatMap g) fun b ys => List.Forall₂ (fun x y => S x b y) xs ys := by
  induction xs with
  | nil => exact .pure fun _ => .nil
  | cons x xs ih =>
    rw [List.mapM_cons]
    refine (h x (by simp)).bind (S := fun y b ys => ∃ zs, ys = y :: zs ∧
      List.Forall₂ (fun x y => S x b y) xs zs) (fun y _ _ => ?_) ?_
    · exact (ih fun x hx => h x (by simp [hx])).map fun b zs hzs => ⟨zs, rfl, hzs⟩
    · rintro y b _ hy ⟨zs, rfl, hzs⟩
      exact .cons hy hzs

end Gives

variable {c} {component : String}

theorem referencesOfAll_padded (args : List Ty) (n : Nat) :
    Ty.referencesOfAll (padded args n) = Ty.referencesOfAll args := by
  have h : ∀ k, (List.replicate k (Ty.basic .unknown)).flatMap Ty.references = [] := by
    intro k
    induction k with
    | zero => rfl
    | succ k ih => simp [List.replicate_succ, ih, Ty.references]
  simp [padded, Ty.referencesOfAll_eq, h]

theorem le_length_padded (args : List Ty) (n : Nat) : n ≤ (padded args n).length := by
  simp only [padded, List.length_append, List.length_replicate]
  omega

/-- The type is the component applied to arguments, as the file knows it. -/
def Applies (c : TypeContext) (b : Bindings) (component : String) (args : List Ty) (t : Ty) : Prop :=
  ∃ name args', t = .named name args' ∧ Ty.referencesOfAll args' = Ty.referencesOfAll args ∧
    c.Spelling b (.component component) (name, args'.length)

/-- **Naming a component** notes it or nothing. -/
theorem reference_gives (h : c.components.Leads component) (args : List Ty) :
    c.Gives (c.reference component args) [.component component] fun b t =>
      c.Applies b component args t := by
  unfold Applies Spelling
  intro s
  unfold reference
  simp only [List.flatMap_cons, List.flatMap_nil, List.append_nil, notedBy, noted]
  cases ht : c.transfers.at? component with
  | some target =>
    simp only [Entries.has, ht, Option.isSome_some, Bool.true_or, if_true]
    cases hm : target.module with
    | some module =>
      refine ends_bind.2 ((Mapping.importNamed_spec module target.name true s).imp fun name t h => ?_)
      exact ⟨h.1, fun b hb => ⟨name, args, rfl, rfl, h.2 b hb⟩⟩
    | none => exact ⟨.refl s, fun b _ => ⟨_, args, rfl, rfl, rfl⟩⟩
  | none =>
    obtain ⟨schema, hs⟩ := h
    have harity : c.components.arity component = schema.typeParameters.length := by
      simp [Components.arity, hs]
    simp only [Entries.has, ht, Option.isSome_none, Bool.false_or]
    rw [hs]
    refine ends_bind.2 (ends_mk.2 ⟨fun _ hok => ?_, fun _ herror => by cases herror⟩)
    cases hok
    have hargs := referencesOfAll_padded args schema.typeParameters.length
    have hlength : c.components.arity component ≤
        (padded args schema.typeParameters.length).length := harity ▸ le_length_padded ..
    cases ho : c.own.filter (·.1 == component) with
    | some own =>
      have : c.own.any (·.1 == component) = true := by
        obtain ⟨h, h'⟩ := Option.filter_eq_some_iff.1 ho
        simp [h, h']
      rw [if_pos this]
      exact ⟨.refl s, fun b _ => ⟨_, _, rfl, hargs, hlength, rfl⟩⟩
    | none =>
      have : c.own.any (·.1 == component) = false := by
        cases hown : c.own with
        | none => rfl
        | some own => simpa [hown, Option.filter_some] using ho
      rw [this]
      refine ends_bind.2 ((Mapping.importDefault_spec (Naming.modelModule component)
        (Naming.simpleName component) true s).imp fun name t h => ?_)
      obtain ⟨hmoves, hname⟩ := h
      refine ⟨⟨hmoves.adds, ?_⟩, fun b hb => ⟨name, _, rfl, hargs, hlength, hname b hb⟩⟩
      exact congrArg (insertNew · component) hmoves.referenced

theorem Applies.spells {b : Bindings} {args : List Ty} {t : Ty} {ms : List Mention}
    (h : c.Applies b component args t) (hargs : c.Spells b (Ty.referencesOfAll args) ms) :
    c.Spells b t.references (ms ++ [.component component]) := by
  obtain ⟨name, args', rfl, hrefs, hspelling⟩ := h
  have hself : c.Spells b [(name, args'.length)] [.component component] :=
    ⟨by simpa using hspelling, by simpa using hspelling⟩
  refine (hargs.append hself).congr fun r => ?_
  simp only [Ty.references, hrefs, List.mem_cons, List.mem_append, List.not_mem_nil, or_false]
  exact or_comm

/-- **Naming what a pointer points at.** -/
theorem pointee_gives {pointer : String} {args : Mapping (List Ty)} {ms : List Mention}
    {Q : Bindings → List Ty → Prop} (hp : componentName pointer = .ok component)
    (hl : c.components.Leads component) (ha : c.Gives args ms Q) :
    c.Gives (c.pointee pointer args) (ms ++ mentionAt pointer) fun b t =>
      ∃ ts, Q b ts ∧ c.Applies b component ts t := by
  unfold pointee mentionAt
  simp only [hp]
  exact .lift rfl (ha.bind (fun ts _ _ => reference_gives hl ts) fun ts b t hts ht => ⟨ts, hts, ht⟩)

theorem orNothing_gives {p : Nested} {ms : List Mention}
    (h : c.Gives p.2 ms fun b t => c.Spells b t.references ms) :
    c.Gives (orNothing p) ms fun b t => c.Spells b t.references ms :=
  h.map fun b t ht => by
    split
    · exact ht.congr fun _ => Ty.mem_references_orUndefined
    · exact ht

/-- The property declares what it is asked for. -/
structure Declared (c : TypeContext) (b : Bindings) (name : String) (s : Schema) (required : Bool)
    (p : Property) : Prop where
  name : p.name = name
  isOptional : p.isOptional = (!required || s.isNullable)
  spells : c.Spells b p.type.references s.mentions

theorem propertyOf_gives {name : String} {p : Nested} {required : Bool}
    (h : c.Gives p.2 p.1.mentions fun b t => c.Spells b t.references p.1.mentions) :
    c.Gives (propertyOf name p required) p.1.mentions fun b q => c.Declared b name p.1 required q :=
  h.map fun _ _ ht => ⟨rfl, rfl, ht⟩

/-- The schemas inside an object with their types. -/
def typed (c : TypeContext) (x : Schema) : Nested := (x, c.typeOf x)

section Objects

variable {s : SchemaObject} (h : ∀ x ∈ s.children,
  c.Gives (c.typeOf x) x.mentions fun b t => c.Spells b t.references x.mentions)
include h

/-- The types of some of the schemas inside an object. -/
theorem mapM_typeOf_gives (xs : List Schema) (hxs : ∀ x ∈ xs, x ∈ s.children) :
    c.Gives (xs.mapM c.typeOf) (xs.flatMap Schema.mentions) fun b ts =>
      c.Spells b (Ty.referencesOfAll ts) (xs.flatMap Schema.mentions) :=
  (Gives.mapM fun x hx => h x (hxs x hx)).mono fun _ ts hts =>
    Ty.referencesOfAll_eq ts ▸ .flatMap hts

theorem propertiesOf_gives :
    c.Gives (propertiesOf (s.map c.typed)) (s.properties.flatMap fun e => e.2.mentions) fun b ps =>
      c.Spells b (Ty.referencesOfMembers ps) (s.properties.flatMap fun e => e.2.mentions) := by
  have hall : c.Gives (propertiesOf (s.map c.typed))
      ((s.map c.typed).properties.flatMap fun e => e.2.1.mentions) _ :=
    Gives.mapM (g := fun e : String × Nested => e.2.1.mentions)
      (S := fun (e : String × Nested) b p => c.Spells b p.type.references e.2.1.mentions) fun e he => by
        obtain ⟨⟨name, x⟩, hx, rfl⟩ := List.mem_map.1 he
        have hx := h x (SchemaOf.mem_children.2 (.inl ⟨name, hx⟩))
        exact (propertyOf_gives (p := c.typed x) hx).mono fun _ _ hp => hp.spells
  have hmentions : ((s.map c.typed).properties.flatMap fun e => e.2.1.mentions) =
      s.properties.flatMap fun e => e.2.mentions := by
    simp only [SchemaOf.map, List.flatMap_map, typed]
  refine (hall.congr hmentions).mono fun b ps hps => ?_
  rw [Ty.referencesOfMembers_eq, ← hmentions]
  exact .flatMap hps

theorem ofObjectKeyword_gives {ms : List Mention}
    (hms : ms = if !s.properties.isEmpty then s.properties.flatMap fun e => e.2.mentions
      else (s.additionalProperties.bind Additional.schema?).toList.flatMap Schema.mentions) :
    c.Gives (ofObjectKeyword (s.map c.typed)) ms fun b t => c.Spells b t.references ms := by
  subst hms
  unfold ofObjectKeyword
  have he : (s.map c.typed).properties.isEmpty = s.properties.isEmpty := by simp [SchemaOf.map]
  rw [he]
  split
  · exact (propertiesOf_gives h).map fun b ps hps => hps
  · rw [show (s.map c.typed).additionalProperties =
      s.additionalProperties.map (·.map c.typed) from rfl]
    rcases ha : s.additionalProperties with _ | (_ | x)
    · exact .pure fun b => by split <;> exact .nil
    · exact .pure fun b => .nil
    · have hx := orNothing_gives (p := c.typed x) (h x (by simp [SchemaOf.mem_children, ha]))
      refine Gives.congr (hx.map fun b t ht => ?_) (by simp [Additional.schema?])
      simpa [Additional.schema?, Ty.references] using ht

theorem ofKeyword_gives {ms : List Mention} (hms : ms = match s.singleType? with
      | some .string => if s.format == some "binary" then [.plain "Blob"] else []
      | some .array => s.items.toList.flatMap Schema.mentions
      | some .object | none =>
        if !s.properties.isEmpty then s.properties.flatMap fun e => e.2.mentions
        else (s.additionalProperties.bind Additional.schema?).toList.flatMap Schema.mentions
      | _ => []) :
    c.Gives (ofKeyword (s.map c.typed)) ms fun b t => c.Spells b t.references ms := by
  unfold ofKeyword
  rw [show (s.map c.typed).singleType? = s.singleType? from rfl,
    show (s.map c.typed).format = s.format from rfl]
  rcases hs : s.singleType? with _ | (_ | _ | _ | _ | _ | _ | _) <;> rw [hs] at hms
  case some.string =>
    subst hms
    dsimp only
    split
    · exact fun t => ⟨.refl t, fun b _ => ⟨by simp [Ty.ref, Ty.references, Ty.referencesOfAll, Spelling],
        by simp [Ty.ref, Ty.references, Ty.referencesOfAll, Spelling]⟩⟩
    · exact .pure fun b => .nil
  case some.array =>
    subst hms
    rw [show (s.map c.typed).items = s.items.map c.typed from rfl]
    cases hi : s.items with
    | none => exact .pure fun b => .nil
    | some x =>
      have hx := orNothing_gives (p := c.typed x) (h x (by simp [SchemaOf.mem_children, hi]))
      refine Gives.congr (hx.map fun b t ht => ?_) (by simp)
      simpa [Ty.references] using ht
  case none | some.object => exact ofObjectKeyword_gives h hms
  all_goals
    subst hms
    exact .pure fun b => .nil

theorem ofAll_gives :
    c.Gives (ofAll (s.map c.typed))
      (s.allOf.flatMap Schema.mentions ++ s.properties.flatMap fun e => e.2.mentions) fun b t =>
      c.Spells b t.references
        (s.allOf.flatMap Schema.mentions ++ s.properties.flatMap fun e => e.2.mentions) := by
  unfold ofAll
  have hparts : c.Gives ((s.map c.typed).allOf.mapM (·.2)) (s.allOf.flatMap Schema.mentions) fun b ts =>
      c.Spells b (Ty.referencesOfAll ts) (s.allOf.flatMap Schema.mentions) := by
    have := mapM_typeOf_gives h s.allOf fun x hx => SchemaOf.mem_children.2 (by tauto)
    rwa [show ((s.map c.typed).allOf.mapM (·.2)) = s.allOf.mapM c.typeOf from List.mapM_map ..]
  refine hparts.bind (S := fun parts b t => ∃ own : List Property,
      t.references = Ty.referencesOfAll (parts ++ if own.isEmpty then [] else [.object own]) ∧
      c.Spells b (Ty.referencesOfMembers own) (s.properties.flatMap fun e => e.2.mentions))
    (fun parts _ _ => ?_) ?_
  · refine Gives.congr ((propertiesOf_gives h).bind
      (S := fun own _ t => t.references =
        Ty.referencesOfAll (parts ++ if own.isEmpty then [] else [.object own]))
      (fun own _ _ => ?_) fun own b t hown ht => ⟨own, ht, hown⟩) (List.append_nil _)
    generalize parts ++ (if own.isEmpty then [] else [.object own]) = ts
    match ts with
    | [t] => exact .pure fun _ => by simp [Ty.referencesOfAll]
    | [] => exact .pure fun _ => rfl
    | t :: u :: ts => exact .pure fun _ => rfl
  · rintro parts b t hparts ⟨own, ht, hown⟩
    refine (hparts.append hown).congr fun r => ?_
    rw [ht, Ty.referencesOfAll_eq, List.flatMap_append, Ty.referencesOfAll_eq]
    cases own <;> simp [Ty.references, Ty.referencesOfMembers]

end Objects

variable (c)

/-- The type of an object, told from the types of the schemas inside it. -/
theorem typeOf_inline (s : SchemaObject) :
    c.typeOf (.inline s) = match s.typeVariable with
      | some name => pure (.ref name)
      | none => match s.wrapped? Schema.pointer? with
        | some pointer => c.pointee pointer ((s.typeArguments.getD []).mapM c.nullableTypeOf)
        | none =>
          if !(s.oneOf.isEmpty && s.anyOf.isEmpty) then
            Ty.unite <$> ((s.oneOf ++ s.anyOf).filter (!·.isNull)).mapM c.typeOf
          else if !s.allOf.isEmpty then ofAll (s.map c.typed)
          else if !s.enumeration.isEmpty then pure (.unite (s.enumeration.map ofValue))
          else ofKeyword (s.map c.typed) := by
  rw [typeOf, Schema.para_inline]
  change c.ofObject (s.map c.typed) = _
  unfold ofObject
  rw [SchemaOf.wrapped?_map]
  cases ht : s.typeVariable with
  | some name => simp only [SchemaOf.map, ht]
  | none =>
    change (match (s.map c.typed).typeVariable with
      | some name => _
      | none => match s.wrapped? Schema.pointer? with
        | some pointer => _
        | none => _) = _
    simp only [SchemaOf.map, ht]
    cases s.wrapped? Schema.pointer? with
    | some pointer =>
      cases s.typeArguments with
      | none => rfl
      | some args => simp only [Option.map_some, Option.getD_some, List.mapM_map]; rfl
    | none =>
      simp only [List.isEmpty_map, ← List.map_append, List.filter_map, List.mapM_map]
      rw [map_eq_pure_bind]
      rfl

/-- The components that the type of an object names, layer by layer. -/
theorem named_inline (s : SchemaObject) :
    c.named (.inline s) = match s.typeVariable, s.wrapped? Schema.pointer? with
      | some _, _ => []
      | none, some pointer => (s.typeArguments.getD []).flatMap c.named ++ c.notedAt pointer
      | none, none =>
        if !(s.oneOf.isEmpty && s.anyOf.isEmpty) then
          ((s.oneOf ++ s.anyOf).filter (!·.isNull)).flatMap c.named
        else if !s.allOf.isEmpty then
          s.allOf.flatMap c.named ++ s.properties.flatMap fun e => c.named e.2
        else if !s.enumeration.isEmpty then []
        else match s.singleType? with
          | some .array => s.items.toList.flatMap c.named
          | some .object | none =>
            if !s.properties.isEmpty then s.properties.flatMap fun e => c.named e.2
            else (s.additionalProperties.bind Additional.schema?).toList.flatMap c.named
          | _ => [] := by
  have h : c.named (.inline s) = c.namedInside (s.map fun x => (x, c.named x)) :=
    Schema.para_inline ..
  rw [h, namedInside, SchemaOf.wrapped?_map]
  change (match s.typeVariable, s.wrapped? Schema.pointer? with
    | some _, _ => _
    | none, some pointer => _
    | none, none => _) = _
  have hi : ∀ t : Option Schema, (t.map fun x => (x, c.named x)).toList.flatMap (·.2) =
      t.toList.flatMap c.named := by rintro (_ | x) <;> rfl
  have ha : ((s.additionalProperties.map (·.map fun x => (x, c.named x))).bind
      Additional.schema?).toList.flatMap (·.2) =
        (s.additionalProperties.bind Additional.schema?).toList.flatMap c.named := by
    rcases s.additionalProperties with _ | (b | x) <;> rfl
  have ht : ((s.typeArguments.map (·.map fun x => (x, c.named x))).getD []).flatMap (·.2) =
      (s.typeArguments.getD []).flatMap c.named := by
    cases s.typeArguments with
    | none => rfl
    | some args => simp only [Option.map_some, Option.getD_some, List.flatMap_map]
  simp only [SchemaOf.map, ht, hi, ha, List.isEmpty_map, ← List.map_append, List.filter_map,
    List.flatMap_map]
  rfl

variable {c}

/-- **The type of a schema whose references lead somewhere can be told**, and takes by name what the
schema says. -/
theorem typeOf_gives {s : Schema} (hs : c.components.Closed s) :
    c.Gives (c.typeOf s) s.mentions fun b t => c.Spells b t.references s.mentions := by
  induction s using Schema.induct with
  | ref p =>
    obtain ⟨component, hp, hl⟩ := Components.closed_ref.1 hs
    rw [Schema.mentions_ref, typeOf, Schema.para_ref]
    have hnil : c.Gives (pure []) [] fun _ (ts : List Ty) => ts = [] := .pure fun _ => rfl
    refine (pointee_gives hp hl hnil).mono fun b t => ?_
    rintro ⟨_, rfl, ht⟩
    simpa [mentionAt, hp] using ht.spells .nil
  | inline s ih =>
    have hc := Components.closed_inline.1 hs
    have h := fun x hx => ih x hx (hc x hx)
    rw [Schema.mentions_inline, typeOf_inline]
    cases s.typeVariable with
    | some name =>
      exact fun t => ⟨.refl t, fun b _ => ⟨by simp [Ty.ref, Ty.references, Ty.referencesOfAll, Spelling],
        by simp [Ty.ref, Ty.references, Ty.referencesOfAll, Spelling]⟩⟩
    | none =>
      cases hw : s.wrapped? Schema.pointer? with
      | some pointer =>
        obtain ⟨component, hp, hl⟩ := Components.closed_ref.1 (hc _ (Schema.ref_mem_children hw))
        have hargs : c.Gives ((s.typeArguments.getD []).mapM c.nullableTypeOf)
            ((s.typeArguments.getD []).flatMap Schema.mentions) fun b ts =>
              c.Spells b (Ty.referencesOfAll ts)
                ((s.typeArguments.getD []).flatMap Schema.mentions) := by
          refine (Gives.mapM (S := fun x b t => c.Spells b t.references x.mentions)
            fun x hx => ?_).mono fun b ts hts => Ty.referencesOfAll_eq ts ▸ .flatMap hts
          refine orNothing_gives (p := c.typed x) (h x ?_)
          cases ha : s.typeArguments <;> simp_all [SchemaOf.mem_children]
        refine (pointee_gives hp hl hargs).mono fun b t => ?_
        rintro ⟨ts, hts, ht⟩
        simpa [mentionAt, hp] using ht.spells hts
      | none =>
        simp only
        split
        · rw [map_eq_pure_bind]
          refine (mapM_typeOf_gives h _ fun x hx => ?_).map fun b ts hts => ?_
          · have hx := List.mem_append.1 (List.mem_filter.1 hx).1
            exact SchemaOf.mem_children.2 (by tauto)
          · exact hts.congr fun r => by rw [Ty.mem_references_unite, Ty.referencesOfAll_eq]
        split
        · exact ofAll_gives h
        split
        · refine .pure fun b => Spells.nil.congr fun r => ?_
          have hvalue : ∀ v, (ofValue v).references = [] := fun v => by
            cases v <;> rfl
          simp [Ty.mem_references_unite, hvalue]
        · exact ofKeyword_gives h rfl

variable (c) in
/-- What the type of a schema names is noted for what it takes by name. -/
theorem named_eq (s : Schema) : c.named s = s.mentions.flatMap c.notedBy := by
  have hat : ∀ p, c.notedAt p = (mentionAt p).flatMap c.notedBy := fun p => by
    unfold notedAt mentionAt
    cases componentName p <;> simp [notedBy]
  induction s using Schema.induct with
  | ref p => rw [named, Schema.para_ref, Schema.mentions_ref, hat]
  | inline s ih =>
    have hl : ∀ xs : List Schema, (∀ x ∈ xs, x ∈ s.children) →
        xs.flatMap c.named = (xs.flatMap Schema.mentions).flatMap c.notedBy := fun xs hxs => by
      rw [List.flatMap_assoc]
      exact List.flatMap_congr fun x hx => ih x (hxs x hx)
    have hp : (s.properties.flatMap fun e => c.named e.2) =
        (s.properties.flatMap fun e => e.2.mentions).flatMap c.notedBy := by
      rw [List.flatMap_assoc]
      exact List.flatMap_congr fun e he => ih e.2 (SchemaOf.mem_children.2 (.inl ⟨e.1, he⟩))
    have harguments := hl (s.typeArguments.getD []) fun x hx => by
      cases ha : s.typeArguments <;> simp_all [SchemaOf.mem_children]
    have hall := hl s.allOf fun x hx => SchemaOf.mem_children.2 (by tauto)
    have hchoice := hl ((s.oneOf ++ s.anyOf).filter (!·.isNull)) fun x hx => by
      have hx := List.mem_append.1 (List.mem_filter.1 hx).1
      exact SchemaOf.mem_children.2 (by tauto)
    have hitems := hl s.items.toList fun x hx =>
      SchemaOf.mem_children.2 (.inr (.inl (by simpa using hx)))
    have hadditional := hl (s.additionalProperties.bind Additional.schema?).toList fun x hx => by
      simp only [SchemaOf.children, List.mem_append]
      tauto
    rw [named_inline, Schema.mentions_inline, harguments, hall, hchoice, hitems, hadditional, hp]
    cases s.typeVariable with
    | some name => simp [notedBy]
    | none =>
      cases s.wrapped? Schema.pointer? with
      | some p => simp only [List.flatMap_append, hat]
      | none =>
        simp only
        split
        · rfl
        split
        · simp only [List.flatMap_append]
        split
        · rfl
        rcases s.singleType? with _ | (_ | _ | _ | _ | _ | _ | _)
        all_goals first
          | rfl
          | (dsimp only; split <;> rfl)

/-- The type of a schema that may be missing. -/
theorem nullableTypeOf_gives {s : Schema} (hs : c.components.Closed s) :
    c.Gives (c.nullableTypeOf s) s.mentions fun b t => c.Spells b t.references s.mentions :=
  orNothing_gives (typeOf_gives hs)

/-- Where a reference comes from: it is a component as the file knows it, or a named export of another
module, or one of the names `vs`, or one of those that generated code takes for known. -/
def Refers (c : TypeContext) (b : Bindings) (vs : List String) (r : Reference) : Prop :=
  (∃ component, c.components.Leads component ∧ c.Spelling b (.component component) r) ∨
    (∃ sp id, b.imports.namedName? sp id = some r.1) ∨ r.1 = "Promise" ∨ r.1 = "Blob" ∨ r.1 ∈ vs

theorem Refers.mono {b : Bindings} {vs vs' : List String} {r : Reference} (h : c.Refers b vs r)
    (hvs : vs ⊆ vs') : c.Refers b vs' r :=
  h.imp_right (Or.imp_right (Or.imp_right (Or.imp_right fun hr => hvs hr)))

theorem Refers.of_spelling {b : Bindings} {vs : List String} {m : Mention} {r : Reference}
    (h : c.Spelling b m r) (hcomponent : ∀ n, m = .component n → c.components.Leads n)
    (hplain : ∀ name, m = .plain name → name = "Blob" ∨ name ∈ vs) : c.Refers b vs r := by
  cases m with
  | component n => exact .inl ⟨n, hcomponent n rfl, h⟩
  | plain name =>
    obtain rfl : r.1 = name := h
    exact .inr (.inr (.inr (hplain _ rfl)))

/-- The references of the type of a closed schema come from the schema. -/
theorem Spells.refers {b : Bindings} {rs : List Reference} {s : Schema}
    (h : c.Spells b rs s.mentions) (hs : c.components.Closed s) {r : Reference} (hr : r ∈ rs) :
    c.Refers b s.typeVariables r := by
  obtain ⟨m, hm, hspelling⟩ := h.origin r hr
  refine .of_spelling hspelling ?_ ?_
  · rintro n rfl
    exact Components.leads_of_mention hs hm
  · rintro name rfl
    exact Schema.mem_typeVariables_of_mention hm

/-- A component that a file may need the module of: it leads to a schema, and no type of the client
stands for it. -/
structure Open (c : TypeContext) (component : String) : Prop where
  leads : c.components.Leads component
  free : c.transfers.has component = false

/-- What is noted for mentions that lead to schemas is open. -/
theorem open_of_mem_noted {ms : List Mention}
    (h : ∀ component, .component component ∈ ms → c.components.Leads component) {n : String}
    (hn : n ∈ ms.flatMap c.notedBy) : c.Open n := by
  obtain ⟨m, hm, hn⟩ := List.mem_flatMap.1 hn
  cases m with
  | plain name => cases hn
  | component component =>
    simp only [notedBy, noted] at hn
    split at hn
    · simp at hn
    · next ht =>
      obtain rfl := List.mem_singleton.1 hn
      exact ⟨h n hm, by simp_all⟩

/-- What is noted for mentions: the components among them, but for the file's own and those that a type
of the client stands for. -/
theorem mem_notedBy {ms : List Mention} {n : String} :
    n ∈ ms.flatMap c.notedBy ↔
      .component n ∈ ms ∧ c.transfers.has n = false ∧ c.own.any (·.1 == n) = false := by
  simp only [List.mem_flatMap]
  constructor
  · rintro ⟨m, hm, hn⟩
    cases m with
    | plain name => cases hn
    | component component =>
      simp only [notedBy, noted] at hn
      split at hn
      · simp at hn
      · next ht =>
        obtain rfl := List.mem_singleton.1 hn
        simp_all
  · rintro ⟨hm, ht, ho⟩
    exact ⟨_, hm, by simp [notedBy, noted, ht, ho]⟩

end TypeContext

end Client
end OpenApiClient
