/-
# Which types are literals

The type of a schema is the type of one string if the schema enumerates this string alone, or is made of
schemas with this type in a way that adds nothing: as a choice between them, or as one of them that stands
alone where schemas must hold together. `Schema.literal?` reads this off the schema, and `typeOf_reads` says
that it does. A union of types is a literal exactly if all of them are that literal; for this no type may be
a union of less than two types, or have unions as members (`Ty.Neat`).

`interfaceOf_reads` and `writeModels_reads` bring this to the members of the interfaces that are written.
-/

import OpenApiClient.Proofs.Flattening
import OpenApiClient.Proofs.Literals
import OpenApiClient.Proofs.Yields

namespace OpenApiClient

namespace TypeScript
namespace Ty

/-- The string whose type the type is, if it is that of one string. -/
def literal? : Ty → Option String
  | .literal l => some l
  | _ => none

theorem literal?_eq_some {t : Ty} {l : String} : t.literal? = some l ↔ t = .literal l := by
  cases t <;> simp [literal?]

/-- The type is a union only of different types, two at least, that are no unions themselves. -/
structure Neat (t : Ty) : Prop where
  flat : t.Flat
  nodup : t.unionMembers.Nodup
  ne_nil : t.unionMembers ≠ []
  single : ∀ m, t.unionMembers = [m] → t = m

theorem Neat.of_single {t : Ty} (h : t.unionMembers = [t]) : t.Neat :=
  ⟨.of_single h, by simp [h], by simp [h], fun m hm => by simpa [h] using hm⟩

variable {ts : List Ty}

theorem neat_unite (h : ∀ t ∈ ts, t.Neat) : (unite ts).Neat := by
  have hflat : ∀ t ∈ ts, t.Flat := fun t ht => (h t ht).flat
  have hmembers := unionMembers_unite hflat
  refine ⟨flat_unite hflat, ?_, ?_, fun m hm => ?_⟩
  · rw [hmembers]
    split
    · simp
    · exact nodup_distinct _
  · rw [hmembers]
    split
    · simp
    · next hne =>
      obtain ⟨m, hm⟩ := List.exists_mem_of_ne_nil _ hne
      exact List.ne_nil_of_mem (mem_distinct.2 hm)
  · rw [unite] at hm ⊢
    rcases hd : distinct (ts.flatMap unionMembers) with _ | ⟨t, _ | ⟨t', rest⟩⟩ <;> rw [hd] at hm
    · exact List.singleton_inj.1 hm
    · obtain ⟨u, hu, ht⟩ := List.mem_flatMap.1 (mem_distinct.1 (hd ▸ List.mem_singleton_self t))
      exact List.singleton_inj.1 ((hflat u hu t ht).symm.trans hm)
    · cases hm

/-- **A union is a literal** exactly if all its types are that literal. -/
theorem unite_eq_literal (h : ∀ t ∈ ts, t.Neat) {l : String} :
    unite ts = .literal l ↔ ts ≠ [] ∧ ∀ t ∈ ts, t = .literal l := by
  have hmembers := unionMembers_unite fun t ht => (h t ht).flat
  constructor
  · intro hunite
    have hsingle : distinct (ts.flatMap unionMembers) = [.literal l] := by
      rw [hunite] at hmembers
      split at hmembers
      · cases hmembers
      · exact hmembers.symm
    have hmem : ∀ m ∈ ts.flatMap unionMembers, m = .literal l := fun m hm =>
      List.mem_singleton.1 (hsingle ▸ mem_distinct.2 hm)
    refine ⟨fun hnil => by simp [hnil, distinct, insertAll] at hsingle, fun t ht => ?_⟩
    refine (h t ht).single _ ?_
    have hnodup := (h t ht).nodup
    have hne := (h t ht).ne_nil
    have hall : ∀ m ∈ t.unionMembers, m = .literal l := fun m hm =>
      hmem m (List.mem_flatMap.2 ⟨t, ht, hm⟩)
    cases hcases : t.unionMembers with
    | nil => exact absurd hcases hne
    | cons m ms =>
      rw [hcases] at hnodup hall
      obtain rfl := hall m List.mem_cons_self
      cases ms with
      | nil => rfl
      | cons m' ms =>
        obtain rfl := hall m' (by simp)
        simp at hnodup
  · rintro ⟨hne, hall⟩
    have hmem : ∀ m, m ∈ ts.flatMap unionMembers ↔ m = .literal l := fun m => by
      obtain ⟨t, ht⟩ := List.exists_mem_of_ne_nil _ hne
      rw [List.mem_flatMap]
      constructor
      · rintro ⟨t, ht, hm⟩
        rw [hall t ht] at hm
        exact List.mem_singleton.1 hm
      · rintro rfl
        exact ⟨t, ht, by rw [hall t ht]; exact List.mem_singleton_self _⟩
    refine (neat_unite h).single _ ?_
    rw [hmembers, if_neg (List.ne_nil_of_mem ((hmem _).2 rfl))]
    exact List.perm_singleton.1 ((List.perm_ext_iff_of_nodup (nodup_distinct _) (by simp)).2 fun m => by
      rw [mem_distinct, hmem, List.mem_singleton])

/-- The type is neat, and is the literal that is told, if there is one. -/
structure Reads (l? : Option String) (t : Ty) : Prop where
  neat : t.Neat
  literal : t.literal? = l?

theorem Reads.of_single {l? : Option String} {t : Ty} (h : t.unionMembers = [t]) (hl : t.literal? = l?) :
    Reads l? t := ⟨.of_single h, hl⟩

theorem Reads.of_isPlain {t : Ty} (h : t.isPlain = true) : Reads none t := by
  refine .of_single (unionMembers_of_isPlain h) ?_
  cases t with
  | literal => cases h
  | _ => rfl

end Ty
end TypeScript

namespace OpenApi

/-- The string that all of some schemas have, if there is one. -/
def common? : List (Option String) → Option String
  | [] => none
  | x :: xs => if xs.all (· == x) then x else none

theorem common?_eq_some {xs : List (Option String)} {l : String} :
    common? xs = some l ↔ xs ≠ [] ∧ ∀ x ∈ xs, x = some l := by
  cases xs with
  | nil => simp [common?]
  | cons x xs =>
    simp only [common?, ne_eq, List.cons_ne_nil, not_false_eq_true, true_and, List.forall_mem_cons]
    split
    · next h =>
      simp only [List.all_eq_true, beq_iff_eq] at h
      exact ⟨fun hx => ⟨hx, fun y hy => (h y hy).trans hx⟩, fun hx => hx.1⟩
    · next h =>
      simp only [reduceCtorEq, false_iff]
      rintro ⟨rfl, hall⟩
      exact h (List.all_eq_true.2 fun y hy => by simp [hall y hy])

/-- The string whose type the type of an object is, given those of the schemas inside it. -/
def literalInside? (s : SchemaOf (Schema × Option String)) : Option String :=
  match s.typeVariable, s.wrapped? fun p => p.1.pointer? with
  | some _, _ => none
  | none, some _ => none
  | none, none =>
    if !(s.oneOf.isEmpty && s.anyOf.isEmpty) then
      common? (((s.oneOf ++ s.anyOf).filter fun p => !p.1.isNull).map (·.2))
    else if !s.allOf.isEmpty then
      match s.allOf with
      | [p] => if s.properties.isEmpty then p.2 else none
      | _ => none
    else common? (s.enumeration.map Json.string?)

/-- The string whose type the type of a schema is, if it is that of one string. -/
def Schema.literal? : Schema → Option String := Schema.para (fun _ => none) literalInside?

@[simp] theorem Schema.literal?_ref (p : String) : (Schema.ref p).literal? = none := by
  simp [literal?]

/-- Whether the type of an object is that of a string, layer by layer. -/
theorem Schema.literal?_inline (s : SchemaObject) :
    (Schema.inline s).literal? = match s.typeVariable, s.wrapped? Schema.pointer? with
      | some _, _ => none
      | none, some _ => none
      | none, none =>
        if !(s.oneOf.isEmpty && s.anyOf.isEmpty) then
          common? (((s.oneOf ++ s.anyOf).filter (!·.isNull)).map literal?)
        else if !s.allOf.isEmpty then
          match s.allOf with
          | [x] => if s.properties.isEmpty then x.literal? else none
          | _ => none
        else common? (s.enumeration.map Json.string?) := by
  have h : (Schema.inline s).literal? = literalInside? (s.map fun x => (x, x.literal?)) :=
    Schema.para_inline ..
  rw [h, literalInside?, SchemaOf.wrapped?_map]
  change (match s.typeVariable, s.wrapped? Schema.pointer? with
    | some _, _ => _
    | none, some _ => _
    | none, none => _) = _
  have hall : (match s.allOf.map fun x => (x, x.literal?) with
      | [p] => if s.properties.isEmpty then p.2 else none
      | _ => none) = match s.allOf with
        | [x] => if s.properties.isEmpty then x.literal? else none
        | _ => none := by
    rcases s.allOf with _ | ⟨x, _ | ⟨y, xs⟩⟩ <;> rfl
  simp only [SchemaOf.map, List.isEmpty_map, ← List.map_append, List.filter_map, List.map_map, hall]
  rfl

end OpenApi

namespace TypeScript

open OpenApi

/-- The union of types is read as they are. -/
theorem Ty.Reads.unite {α : Type} {xs : List α} {l? : α → Option String} {ts : List Ty}
    (h : List.Forall₂ (fun x t => Ty.Reads (l? x) t) xs ts) :
    Ty.Reads (common? (xs.map l?)) (Ty.unite ts) := by
  have hneat : ∀ t ∈ ts, t.Neat := by
    induction h with
    | nil => simp
    | cons hx _ ih => exact List.forall_mem_cons.2 ⟨hx.neat, ih⟩
  have hliteral : ts.map Ty.literal? = xs.map l? := by
    clear hneat
    induction h with
    | nil => rfl
    | cons hx _ ih => rw [List.map_cons, List.map_cons, hx.literal, ih]
  refine ⟨Ty.neat_unite hneat, Option.ext fun l => ?_⟩
  rw [← hliteral, Ty.literal?_eq_some, Ty.unite_eq_literal hneat, common?_eq_some]
  simp [Ty.literal?_eq_some]

end TypeScript

namespace Client

open OpenApi TypeScript OpenApiClient.Module

namespace TypeContext

variable (c : TypeContext)

/-- A value of an enumeration is a literal if it is a string. -/
theorem ofValue_reads (v : Json) : Ty.Reads v.string? (ofValue v) := by
  cases v <;> exact .of_single rfl rfl

/-- What must hold together is a literal if it is one schema that is. -/
theorem ofAll_reads {s : SchemaObject} (h : ∀ x ∈ s.allOf, (c.typeOf x).Yields (Ty.Reads x.literal?))
    (hne : s.allOf ≠ []) :
    (ofAll (s.map c.typed)).Yields (Ty.Reads (match s.allOf with
      | [x] => if s.properties.isEmpty then x.literal? else none
      | _ => none)) := by
  refine (c.ofAll_yields h hne).mono fun t ht => ?_
  rcases ht with ⟨x, hx, hempty, ht⟩ | ⟨hno, ht⟩
  · simpa [hx, hempty] using ht
  · split
    · next x hx => simpa [hno x hx] using Ty.Reads.of_isPlain ht
    · exact .of_isPlain ht

/-- **The type of a schema is a literal exactly if the schema reads as one.** -/
theorem typeOf_reads (x : Schema) : (c.typeOf x).Yields (Ty.Reads x.literal?) := by
  induction x using Schema.induct with
  | ref p =>
    rw [Schema.literal?_ref, typeOf, Schema.para_ref]
    exact (c.pointee_isPlain _ _).mono fun _ => .of_isPlain
  | inline s ih =>
    rw [Schema.literal?_inline, typeOf_inline]
    cases s.typeVariable with
    | some name => exact .pure (.of_single rfl rfl)
    | none =>
      cases hw : s.wrapped? Schema.pointer? with
      | some pointer => exact (c.pointee_isPlain _ _).mono fun _ => .of_isPlain
      | none =>
        dsimp only
        split
        · refine (Mapping.Yields.mapM fun x hx => ?_).map fun ts hts => Ty.Reads.unite hts
          have hx := List.mem_append.1 (List.mem_filter.1 hx).1
          exact ih x (SchemaOf.mem_children.2 (by tauto))
        split
        · next hne =>
          refine c.ofAll_reads (fun x hx => ih x (SchemaOf.mem_children.2 (by tauto))) ?_
          simpa using hne
        split
        · refine .pure (.unite ?_)
          rw [List.forall₂_map_right_iff]
          exact List.forall₂_same.2 fun v _ => ofValue_reads v
        · next he =>
          have hnil : s.enumeration = [] := by simpa using he
          rw [hnil]
          refine (ofKeyword_isPlain (s.map c.typed)).mono fun t ht => ?_
          split at ht
          · obtain rfl := ht
            exact .of_single rfl rfl
          · exact .of_isPlain ht

/-- What is inherited from a schema is told by the schema. -/
theorem inherit_yields (i : Inheritance) (x : Schema) :
    (c.inherit i x).Yields fun i' => i'.inherited = i.inherited ++ (c.inheritedFrom x).inherited ∧
      i'.sources = i.sources ++ (c.inheritedFrom x).sources := by
  cases x with
  | inline o => exact .pure (by simp [inheritedFrom])
  | ref pointer =>
    refine .lift fun parent hparent => ?_
    unfold inheritedFrom
    simp only [hparent]
    split
    · exact (Mapping.Yields.of_any _).bind fun _ _ => .pure (by simp)
    refine .lift fun s hs => ?_
    simp only [hs]
    split
    · exact .pure (by simp)
    · refine (Mapping.Yields.of_any _).bind fun _ _ => .lift fun names hnames => ?_
      exact .pure (by simp [hnames, Except.toOption])

/-- The members of the interface read as the properties that the object of the component declares. -/
def ReadsInterface (component : String) (i : Interface) : Prop :=
  ∃ s, Form.of? c.components component = some (.interface s) ∧
    List.Forall₂ (fun e p => p.name = e.1 ∧ p.type.literal? = e.2.1.literal?) (c.ownProperties s) i.members

/-- **The members of an interface are literals where their schemas read as such.** -/
theorem interfaceOf_reads (identifier : String) (s : SchemaObject) :
    (c.interfaceOf identifier s).Yields fun i =>
      List.Forall₂ (fun e p => p.name = e.1 ∧ p.type.literal? = e.2.1.literal?) (c.ownProperties s)
        i.members := by
  have hinherit : (s.allOf.foldlM c.inherit {}).Yields fun i =>
      i.inherited = (c.heritage s).inherited ∧ i.sources = (c.heritage s).sources := by
    suffices h : ∀ (xs : List Schema) i, (xs.foldlM c.inherit i).Yields fun i' =>
        i'.inherited = i.inherited ++ xs.flatMap (fun x => (c.inheritedFrom x).inherited) ∧
        i'.sources = i.sources ++ xs.flatMap (fun x => (c.inheritedFrom x).sources) by
      exact (h s.allOf {}).mono fun i' hi' => by simpa [heritage] using hi'
    intro xs
    induction xs with
    | nil => exact fun i => .pure (by simp)
    | cons x xs ih =>
      intro i
      rw [List.foldlM_cons]
      refine (c.inherit_yields i x).bind fun i₁ h₁ => (ih i₁).mono fun i₂ h₂ => ?_
      simp [h₂, h₁]
  refine hinherit.bind fun i hi => ?_
  have hown : i.ownProperties s = c.ownProperties s := by
    rw [ownProperties, Inheritance.ownProperties, Inheritance.ownProperties, hi.1, hi.2]
  rw [hown]
  refine (Mapping.Yields.mapM fun e _ => ?_).bind fun members hmembers => .pure hmembers
  exact (c.typeOf_reads e.2.1).bind fun t ht => .pure ⟨rfl, ht.literal⟩

/-- The declaration of a component is none of a function, and if it is an interface, it reads as the
component does. -/
theorem declarationOf_reads (component identifier : String) :
    (c.declarationOf component identifier).Yields fun d =>
      d.isFunction = false ∧ ∀ i, d = .interface i → c.ReadsInterface component i := by
  unfold declarationOf
  split
  · exact (Mapping.Yields.of_any _).bind fun _ _ => .pure ⟨rfl, fun _ h => by cases h⟩
  · next hat =>
    refine .lift fun s hs => ?_
    have hinline : c.components.schemas.at? component = some (.inline s) := by
      rw [Components.schema, Components.follow] at hs
      cases hfound : c.components.schemas.at? component with
      | none => simp [hfound] at hs
      | some x =>
        cases x with
        | inline s' => simpa [hfound] using hs
        | ref pointer => exact (hat pointer hfound).elim
    split
    · exact .pure ⟨rfl, fun _ h => by cases h⟩
    · next hvalues =>
      split
      · next hobject =>
        refine (c.interfaceOf_reads identifier s).bind fun i hi => .pure ⟨rfl, fun i' heq => ?_⟩
        obtain rfl := Declaration.interface.inj heq
        refine ⟨s, ?_, hi⟩
        rw [Form.of?, hinline, Option.map_some]
        simp only [Form.ofObject, hvalues, hobject, if_true]
      · exact (Mapping.Yields.of_any _).bind fun _ _ => .pure ⟨rfl, fun _ h => by cases h⟩

end TypeContext

section Runs

variable {j : Job} {r : Run}

/-- What types are told for a file, if they are. -/
theorem inFile_yields {α : Type} {m : Mapping α} {P : α → Prop} (h : m.Yields P) {f f' : File} {a : α}
    {names : List String} (hm : m.inFile f = .ok (a, f', names)) :
    P a ∧ ∃ bindings, f' = { f with bindings } := by
  unfold Mapping.inFile at hm
  split at hm
  · next a' t hrun =>
    obtain ⟨rfl, rfl, rfl⟩ : a' = a ∧ _ = f' ∧ _ = names := by simpa using hm
    exact ⟨(h _).result hrun, _, rfl⟩
  · cases hm

/-- The file of a model declares an interface as its component does, or no interface. -/
def Run.ReadsModel (j : Job) (transfers : Entries TransferTarget) (e : String × Model) (r : Run) : Prop :=
  e.2.file = Naming.modelFile e.1 ∧ ∃ f d, r.sources.at? e.2.file = some f ∧ d ∈ f.typeDeclarations ∧
    ∀ i, d = .interface i → (⟨j.document.parts, transfers, none⟩ : TypeContext).ReadsInterface e.1 i

/-- A model is written. -/
theorem writeModel_reads (component : String) :
    Ends (writeModel j component) r (fun p r' => r'.transfers = r.transfers ∧
      Run.ReadsModel j r.transfers (component, p.1) r' ∧
      ∀ path ≠ p.1.file, r'.sources.at? path = r.sources.at? path) fun _ _ => True := by
  unfold writeModel
  dsimp only
  rw [ends_bind, ends_get]
  refine ends_mapError_bind (fun p hp => ?_) fun _ _ => trivial
  obtain ⟨d, f, names⟩ := p
  obtain ⟨⟨hd, hreads⟩, bindings, rfl⟩ := inFile_yields
    (TypeContext.declarationOf_reads (j.types r (some (component, _))) component _) hp
  have hpath : (r.sources.openFile (Naming.modelFile component) Pass.model.path).path =
      Naming.modelFile component :=
    Sources.openFile_cases (P := fun f => f.path = Naming.modelFile component) Pass.model.path
      (fun _ => Sources.path_of_at?) fun _ => rfl
  have hwrites : ∀ {g : File} {log : List LogLine},
      r.Writes g { r with sources := r.sources.put g, log } := ⟨_, rfl⟩
  refine ⟨rfl, ⟨rfl, _, d, (hwrites.at? _).trans (if_pos hpath.symm), ?_, hreads⟩,
    fun path hne => (hwrites.at? path).trans (if_neg fun heq => hne (heq.trans hpath))⟩
  exact List.mem_filter.2 ⟨List.mem_append_right _ (List.mem_singleton_self d), by simp [hd]⟩

/-- **The models that are needed are written**, and each reads as its component. -/
theorem writeNeeded_reads (transfers : Entries TransferTarget) :
    ∀ (fuel : Nat) (queue : List String) (models : Entries Model) (r : Run),
      r.transfers = transfers → (∀ e ∈ models, Run.ReadsModel j transfers e r) →
      Ends (writeNeeded j transfers fuel queue models) r
        (fun models' r' => ∀ e ∈ models', Run.ReadsModel j transfers e r') fun _ _ => True
  | 0, _, _, _, _, h => h
  | fuel + 1, queue, models, r, ht, h => by
    unfold writeNeeded
    cases queue.dropWhile fun n => models.has n || transfers.has n with
    | nil => exact h
    | cons component queue =>
      dsimp only
      cases howner : models.find? (·.2.file == Naming.modelFile component) with
      | some e => exact trivial
      | none =>
        rw [ends_bind]
        refine (writeModel_reads component).imp fun p r₁ hwritten => ?_
        obtain ⟨ht₁, hreads, hothers⟩ := hwritten
        refine writeNeeded_reads transfers fuel _ _ r₁ (ht₁.trans ht)
          (List.forall_mem_append.2 ⟨fun e he => ?_, List.forall_mem_singleton.2 (ht ▸ hreads)⟩)
        -- The file of the component is none of those before.
        obtain ⟨hfile, f, d, hf, hd⟩ := h e he
        have hno : ¬ (e.2.file == Naming.modelFile component) = true :=
          List.find?_eq_none.1 howner e he
        have hne : e.2.file ≠ p.1.file := fun heq => hno (beq_iff_eq.2 (heq.trans hreads.1))
        exact ⟨hfile, f, d, (hothers _ hne).trans hf, hd⟩

/-- **The pass that writes models** leaves models that read as their components. -/
theorem writeModels_reads :
    Ends (writeModels j) r (fun _ r' => ∀ ms, r'.models = some ms →
      ∀ e ∈ ms, Run.ReadsModel j r.transfers e r') fun _ _ => True := by
  unfold writeModels Action.backbone
  rw [ends_bind, ends_bind, ends_get]
  cases r.backbone with
  | none => exact trivial
  | some b =>
    rw [ends_pure, ends_bind, ends_get, ends_bind]
    refine (writeNeeded_reads (j := j) r.transfers _ b.referenced [] r rfl (by simp)).imp
      fun models r₁ h => ?_
    -- Only empty values are added to the models.
    rw [ends_bind]
    refine (ends_mapM (fun _ ms r' => r' = r₁ ∧ ∀ e ∈ ms, Run.ReadsModel j r.transfers e r₁)
      ⟨rfl, by simp⟩ ?_).imp ?_
    · rintro done e rest ys _ hsplit ⟨rfl, hys⟩
      refine ends_mapError_bind (fun x _ => ⟨rfl, ?_⟩) fun _ _ => trivial
      exact List.forall_mem_append.2 ⟨hys, List.forall_mem_singleton.2 (h e (by simp [← hsplit]))⟩
    · rintro ms _ ⟨rfl, hms⟩ ms' hms'
      obtain rfl := Option.some.inj hms'
      exact hms

end Runs

end Client
end OpenApiClient
