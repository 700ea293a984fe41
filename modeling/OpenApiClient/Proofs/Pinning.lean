/-
# What pins the properties of leaves

Each polymorphic base pins a property of the interfaces of its leaves to a tag, whatever the property was
before. A component may be a leaf of many bases, so an interface in the end has, of each property, what the
last base with it has written (`memberType?_pinTags`), where bases are taken in the order of the models.

`Run.Pins` says of two runs that the interfaces of models differ by the pins of some bases. It is shown of
one tag, of one base, of the pass over all, and of the passes after it; `executeAll_pins` is what the usual
passes come to.
-/

import OpenApiClient.Proofs.LiteralTypes

namespace OpenApiClient

namespace TypeScript

/-- The type of the first of some members that has the name. -/
def memberType? (members : List Property) (name : String) : Option Ty :=
  (members.find? (·.name == name)).map (·.type)

/-- The interface that a declaration is, if it is one. -/
def Declaration.interface? : Declaration → Option Interface
  | .interface i => some i
  | _ => none

/-- A member of the interface with the name is the literal. -/
def Interface.HasLiteral (i : Interface) (name literal : String) : Prop :=
  ∃ p ∈ i.members, p.name = name ∧ p.type = .literal literal

instance (i : Interface) (name literal : String) : Decidable (i.HasLiteral name literal) :=
  inferInstanceAs (Decidable (∃ p ∈ i.members, p.name = name ∧ p.type = .literal literal))

/-- Where no two members have one name, the first of a name is the one. -/
theorem hasLiteral_iff {i : Interface} (h : (i.members.map (·.name)).Nodup) {name literal : String} :
    i.HasLiteral name literal ↔ memberType? i.members name = some (.literal literal) := by
  unfold Interface.HasLiteral memberType?
  constructor
  · rintro ⟨p, hp, rfl, htype⟩
    cases hfind : i.members.find? (·.name == p.name) with
    | none => simpa using List.find?_eq_none.1 hfind p hp
    | some q =>
      have hname : q.name = p.name := by simpa using List.find?_some hfind
      obtain rfl := List.inj_on_of_nodup_map h (List.mem_of_find?_eq_some hfind) hp hname
      rw [Option.map_some, htype]
  · intro h
    obtain ⟨p, hfind, htype⟩ := Option.map_eq_some_iff.1 h
    exact ⟨p, List.mem_of_find?_eq_some hfind, by simpa using List.find?_some hfind, htype⟩

end TypeScript

namespace Client

open OpenApi TypeScript OpenApiClient.Module

section Members

variable (property tag : String) (members : List Property)

/-- A property is pinned where it stands first, or in front of all members. -/
theorem pinTag_cases :
    ((∀ p ∈ members, p.name ≠ property) ∧
      pinTag property tag members = { name := property, type := .literal tag } :: members) ∨
    ∃ before m after, members = before ++ m :: after ∧ (∀ p ∈ before, p.name ≠ property) ∧
      m.name = property ∧
      pinTag property tag members =
        before ++ { m with type := .literal tag, isOptional := false } :: after := by
  unfold pinTag
  cases hi : members.findIdx? (·.name == property) with
  | none => exact .inl ⟨fun p hp => by simpa using List.findIdx?_eq_none_iff.1 hi p hp, rfl⟩
  | some i =>
    obtain ⟨hlt, hname, hfirst⟩ := List.findIdx?_eq_some_iff_getElem.1 hi
    refine .inr ⟨members.take i, members[i], members.drop (i + 1), ?_, fun p hp => ?_, by simpa using hname,
      List.modify_eq_take_cons_drop hlt⟩
    · rw [List.getElem_cons_drop, List.take_append_drop]
    · obtain ⟨k, hk, rfl⟩ := List.mem_iff_getElem.1 hp
      rw [List.length_take] at hk
      rw [List.getElem_take]
      simpa using hfirst k (by omega)

/-- **A pinned property is the tag**, and no other one has changed. -/
theorem memberType?_pinTag (name : String) :
    memberType? (pinTag property tag members) name =
      if name = property then some (.literal tag) else memberType? members name := by
  unfold memberType?
  rcases pinTag_cases property tag members with ⟨-, heq⟩ | ⟨before, m, after, rfl, hbefore, hm, heq⟩
  · rw [heq, List.find?_cons]
    by_cases hname : name = property
    · simp [hname]
    · have hne : (property == name) = false := by simpa using fun h => hname (Eq.symm h)
      simp [hname, hne]
  · rw [heq]
    by_cases hname : name = property
    · have hnone : before.find? (·.name == property) = none :=
        List.find?_eq_none.2 fun p hp => by simpa using hbefore p hp
      simp [List.find?_append, hnone, hname, hm]
    · have hne : m.name ≠ name := fun h => hname (h.symm.trans hm)
      simp [List.find?_append, hname, hne]

theorem nodup_pinTag (h : (members.map (·.name)).Nodup) :
    ((pinTag property tag members).map (·.name)).Nodup := by
  rcases pinTag_cases property tag members with ⟨hnew, heq⟩ | ⟨before, m, after, rfl, -, -, heq⟩
  · rw [heq, List.map_cons, List.nodup_cons]
    refine ⟨fun hin => ?_, h⟩
    obtain ⟨p, hp, hname⟩ := List.mem_map.1 hin
    exact hnew p hp hname
  · simpa [heq] using h

end Members

/-- The members of the interface of a leaf, after bases have pinned it one after another. -/
def pinTags (leaf : String) (bases : List SchemaObject) (members : List Property) : List Property :=
  bases.foldl (fun members s => pinTag (discriminatorProperty s) (tagOf s leaf) members) members

/-- The bases among some that have the property. -/
def withProperty (property : String) (bases : List SchemaObject) : List SchemaObject :=
  bases.filter (discriminatorProperty · == property)

theorem mem_withProperty {property : String} {bases : List SchemaObject} {s : SchemaObject} :
    s ∈ withProperty property bases ↔ s ∈ bases ∧ discriminatorProperty s = property := by
  simp [withProperty]

theorem getLast?_withProperty_concat (property : String) (bases : List SchemaObject) (s : SchemaObject) :
    (withProperty property (bases ++ [s])).getLast? =
      if discriminatorProperty s = property then some s else (withProperty property bases).getLast? := by
  by_cases h : discriminatorProperty s = property <;> simp [withProperty, List.filter_append, h]

theorem pinTags_append (leaf : String) (bases more : List SchemaObject) (members : List Property) :
    pinTags leaf (bases ++ more) members = pinTags leaf more (pinTags leaf bases members) :=
  List.foldl_append

/-- **The last base with a property tells its tag**; a property that no base has is as it was. -/
theorem memberType?_pinTags (leaf : String) (bases : List SchemaObject) (members : List Property)
    (property : String) :
    memberType? (pinTags leaf bases members) property =
      match (withProperty property bases).getLast? with
      | some s => some (.literal (tagOf s leaf))
      | none => memberType? members property := by
  induction bases using List.reverseRecOn with
  | nil => rfl
  | append_singleton bases s ih =>
    rw [pinTags_append, getLast?_withProperty_concat]
    change memberType? (pinTag (discriminatorProperty s) (tagOf s leaf) _) property = _
    rw [memberType?_pinTag, ih]
    by_cases h : discriminatorProperty s = property
    · rw [if_pos h.symm, if_pos h]
    · rw [if_neg fun heq => h heq.symm, if_neg h]

theorem nodup_pinTags (leaf : String) (bases : List SchemaObject) {members : List Property}
    (h : (members.map (·.name)).Nodup) : ((pinTags leaf bases members).map (·.name)).Nodup := by
  induction bases using List.reverseRecOn with
  | nil => exact h
  | append_singleton bases s ih =>
    rw [pinTags_append]
    exact nodup_pinTag _ _ _ ih

namespace TypeContext

variable (c : TypeContext)

/-- The object and the leaves of a component that is a polymorphic base. -/
def base? (component : String) : Option (SchemaObject × List String) :=
  match c.components.schema component with
  | .error _ => none
  | .ok s =>
    if Schema.isUnion s then
      match leavesOf c component s with
      | .error _ => none
      | .ok found => found.map (s, ·)
    else none

/-- The polymorphic bases among the components that have the leaf. -/
def basesOf (components : List String) (leaf : String) : List SchemaObject :=
  components.filterMap fun component => ((c.base? component).filter (leaf ∈ ·.2)).map (·.1)

variable {c}

theorem base?_eq_some {component : String} {s : SchemaObject} {leaves : List String} :
    c.base? component = some (s, leaves) ↔ c.components.schema component = .ok s ∧
      Schema.isUnion s = true ∧ leavesOf c component s = .ok (some leaves) := by
  unfold base?
  cases c.components.schema component with
  | error e => simp
  | ok s' =>
    simp only [Except.ok.injEq]
    by_cases hu : Schema.isUnion s' = true
    · rw [if_pos hu]
      cases hleaves : leavesOf c component s' with
      | error e =>
        simp only [reduceCtorEq, false_iff]
        rintro ⟨rfl, -, h⟩
        rw [hleaves] at h
        cases h
      | ok found =>
        simp only [Option.map_eq_some_iff, Prod.mk.injEq]
        constructor
        · rintro ⟨_, rfl, rfl, rfl⟩
          exact ⟨rfl, hu, hleaves⟩
        · rintro ⟨rfl, -, h⟩
          exact ⟨leaves, Except.ok.inj (hleaves.symm.trans h), rfl, rfl⟩
    · rw [if_neg hu]
      simp only [reduceCtorEq, false_iff]
      rintro ⟨rfl, h, -⟩
      exact hu h

theorem mem_basesOf {components : List String} {leaf : String} {s : SchemaObject} :
    s ∈ c.basesOf components leaf ↔
      ∃ component ∈ components, ∃ leaves, c.base? component = some (s, leaves) ∧ leaf ∈ leaves := by
  simp only [basesOf, List.mem_filterMap, Option.map_eq_some_iff, Option.filter_eq_some_iff]
  constructor
  · rintro ⟨component, hcomponent, ⟨_, leaves⟩, ⟨hbase, hleaf⟩, rfl⟩
    exact ⟨component, hcomponent, leaves, hbase, by simpa using hleaf⟩
  · rintro ⟨component, hcomponent, leaves, hbase, hleaf⟩
    exact ⟨component, hcomponent, (s, leaves), ⟨hbase, by simpa using hleaf⟩, rfl⟩

/-- The bases among some components, and those among others. -/
theorem basesOf_append (components more : List String) (leaf : String) :
    c.basesOf (components ++ more) leaf = c.basesOf components leaf ++ c.basesOf more leaf :=
  List.filterMap_append

/-- What leaves are found does not depend on the component that a file declares. -/
theorem leavesOf_own (own : Option (String × String)) (component : String) (s : SchemaObject) :
    leavesOf { c with own } component s = leavesOf c component s := by
  have hwith : ∀ fuel, Leaves.with { c with own } fuel = Leaves.with c fuel := fun fuel => by
    induction fuel with
    | zero => rfl
    | succ fuel ih =>
      funext l s
      simp only [Leaves.with, ih]
  simp only [leavesOf, hwith]

theorem isBase_iff {own : Option (String × String)} {component : String} {leaves : List String} :
    IsBase { c with own } component leaves ↔ ∃ s, c.base? component = some (s, leaves) := by
  simp only [IsBase, base?_eq_some, leavesOf_own]

end TypeContext

/-- The interface with its members pinned by the bases of a leaf. -/
def pinInterface (leaf : String) (bases : List SchemaObject) (i : Interface) : Interface :=
  { i with members := pinTags leaf bases i.members }

/-- The files of the models are there, and their interfaces are those of the run before, pinned by the
bases that are told for the component of each. -/
structure Run.Pins (ms : Entries Model) (bases : String → List SchemaObject) (r r' : Run) : Prop where
  files : ∀ e ∈ ms, ∃ f, r'.sources.at? e.2.file = some f
  interface : ∀ e ∈ ms, r'.interface? e.2 = (r.interface? e.2).map (pinInterface e.1 (bases e.1))

section Steps

variable {ms : Entries Model} {bases bases' : String → List SchemaObject} {r r₁ r₂ : Run} {f g : File}

theorem pinInterface_nil (leaf : String) : pinInterface leaf [] = id := rfl

theorem Run.Pins.refl (h : ∀ e ∈ ms, ∃ f, r.sources.at? e.2.file = some f) :
    Run.Pins ms (fun _ => []) r r :=
  ⟨h, fun _ _ => by rw [pinInterface_nil, Option.map_id, id]⟩

/-- What is pinned by some bases, and then by others, is pinned by both. -/
theorem Run.Pins.trans (h : Run.Pins ms bases r r₁) (h' : Run.Pins ms bases' r₁ r₂) :
    Run.Pins ms (fun leaf => bases leaf ++ bases' leaf) r r₂ := by
  refine ⟨h'.files, fun e he => ?_⟩
  rw [h'.interface e he, h.interface e he, Option.map_map]
  congr 1
  funext i
  simp only [Function.comp_apply, pinInterface, pinTags_append]

theorem Run.Pins.congr (h : Run.Pins ms bases r r₁) (heq : ∀ leaf, bases leaf = bases' leaf) :
    Run.Pins ms bases' r r₁ :=
  ⟨h.files, fun e he => heq e.1 ▸ h.interface e he⟩

/-- What is logged does not matter. -/
theorem Run.Pins.log (h : Run.Pins ms bases r r₁) (log : List LogLine) :
    Run.Pins ms bases r { r₁ with log } :=
  ⟨h.files, h.interface⟩

theorem interface?_of_at? {m : Model} (hf : r.sources.at? m.file = some f) :
    r.interface? m = (f.declaration? m.identifier).bind Declaration.interface? := by
  rw [Run.interface?, hf, Option.bind_some]
  cases f.declaration? m.identifier with
  | none => rfl
  | some d => cases d <;> rfl

/-- **A declaration has changed in the file of a model.**  If it is the declaration of the model, the
interfaces of the others stay as they are. -/
theorem Run.Writes.pins {c : Components} (hlisted : Listed c ms)
    (hfiles : ∀ e ∈ ms, ∃ f, r.sources.at? e.2.file = some f) {e : String × Model} (he : e ∈ ms)
    (hpath : g.path = e.2.file) (hpins : (g.declaration? e.2.identifier).bind Declaration.interface? =
      (r.interface? e.2).map (pinInterface e.1 (bases e.1)))
    (hothers : ∀ e' ∈ ms, e' ≠ e → bases e'.1 = []) (h : r.Writes g r₁) : Run.Pins ms bases r r₁ := by
  have hat := h.at?
  rw [hpath] at hat
  refine ⟨fun e' he' => ?_, fun e' he' => ?_⟩
  · obtain ⟨f', hf'⟩ := hfiles e' he'
    rw [hat]
    split
    · exact ⟨_, rfl⟩
    · exact ⟨f', hf'⟩
  · by_cases heq : e' = e
    · subst heq
      rw [interface?_of_at? ((hat _).trans (if_pos rfl)), hpins]
    · have hne : e'.2.file ≠ e.2.file := fun hfile => heq (hlisted.eq_of_file he' he hfile)
      rw [hothers e' he' heq, pinInterface_nil, Option.map_id, id, Run.interface?, Run.interface?, hat,
        if_neg hne]

/-- A declaration that is changed, and keeps its name. -/
theorem interface?_adjust {change : Declaration → Declaration} (hchange : Keeps change) {m : Model}
    (hf : r.sources.at? m.file = some f) {pin : Interface → Interface} (b : Bindings)
    (hpin : ∀ d, (change d).interface? = d.interface?.map pin) :
    ((({ f with bindings := b } : File).adjust m.identifier change).declaration? m.identifier).bind
      Declaration.interface? = (r.interface? m).map pin := by
  rw [interface?_of_at? hf, declaration?_adjust fun d _ hd => (hchange.name d).trans hd, if_pos rfl,
    show ({ f with bindings := b } : File).declaration? m.identifier = f.declaration? m.identifier from rfl]
  cases f.declaration? m.identifier with
  | none => rfl
  | some d => exact hpin d

/-- **The tag of one leaf is pinned.** -/
theorem tagLeaf_pins {c : Components} (hlisted : Listed c ms)
    (hfiles : ∀ e ∈ ms, ∃ f, r.sources.at? e.2.file = some f) (s : SchemaObject) (leaf : String) :
    Ends (tagLeaf ms s leaf) r (fun _ r' => Run.Pins ms (fun k => if k = leaf then [s] else []) r r')
      fun _ _ => False := by
  unfold tagLeaf
  cases hm : ms.at? leaf with
  | none =>
    refine ⟨hfiles, fun e he => ?_⟩
    have hne : e.1 ≠ leaf := fun heq =>
      Entries.at?_eq_none.1 hm (heq ▸ List.mem_map.2 ⟨e, he, rfl⟩)
    rw [if_neg hne]
    exact (Run.Pins.refl hfiles).interface e he
  | some m =>
    have he : (leaf, m) ∈ ms := Entries.mem_of_at? hm
    obtain ⟨f, hf⟩ := hfiles _ he
    have hf : r.sources.at? m.file = some f := hf
    simp only
    rw [ends_bind, ends_get, hf]
    let g := f.adjust m.identifier (withTag (discriminatorProperty s) (tagOf s leaf))
    have hwrites : r.Writes g { r with sources := r.sources.put g } := ⟨r.log, rfl⟩
    have hpath : f.path = m.file := Sources.path_of_at? hf
    refine hwrites.pins (g := g) hlisted hfiles he hpath ?_ fun e' he' hne => ?_
    · refine interface?_adjust (withTag_keeps _ _) hf f.bindings fun d => ?_
      rw [if_pos rfl]
      cases d <;> rfl
    · refine if_neg fun heq => hne ?_
      exact List.inj_on_of_nodup_map hlisted.nodup he' he heq

/-- **The tags of leaves are pinned** one after another. -/
theorem tagLeaves_pins {c : Components} (hlisted : Listed c ms)
    (hfiles : ∀ e ∈ ms, ∃ f, r.sources.at? e.2.file = some f) (s : SchemaObject)
    {leaves : List String} (hleaves : leaves.Nodup) :
    Ends (leaves.forM (tagLeaf ms s)) r
      (fun _ r' => Run.Pins ms (fun k => if k ∈ leaves then [s] else []) r r') fun _ _ => False := by
  refine ends_forM (fun done r' => Run.Pins ms (fun k => if k ∈ done then [s] else []) r r')
    ((Run.Pins.refl hfiles).congr (by simp)) ?_
  rintro done leaf rest r₁ hsplit hpins
  have hnew : leaf ∉ done := fun hin => by
    rw [← hsplit] at hleaves
    exact (List.nodup_append.1 hleaves).2.2 leaf hin leaf List.mem_cons_self rfl
  refine (tagLeaf_pins hlisted hpins.files s leaf).imp fun _ r₂ hpins₂ =>
    (hpins.trans hpins₂).congr fun k => ?_
  by_cases hk : k = leaf
  · simp [hk, hnew]
  · simp [hk]

variable {j : Job} (hv : j.document.Valid)
include hv

/-- **A base pins the tags of its leaves.** -/
theorem flatten_pins (hlisted : Listed j.document.parts ms)
    (hfiles : ∀ e ∈ ms, ∃ f, r.sources.at? e.2.file = some f) {e : String × Model} (he : e ∈ ms) :
    Ends (flatten j ms e.1 e.2) r (fun _ r' => Run.Pins ms ((j.types r).basesOf [e.1]) r r')
      fun _ _ => False := by
  refine ends_flatten hv (hlisted.leads e he) (fun hno => ?_)
    fun s leaves f types b hs hbase hf _ => ?_
  · refine (Run.Pins.refl hfiles).congr fun leaf => ?_
    have hno : (j.types r).base? e.1 = none := Option.eq_none_iff_forall_ne_some.2 fun (s, leaves) h => by
      rcases hno with hno | hnone
      · exact hno leaves ((TypeContext.isBase_iff (c := j.types r)).2 ⟨s, h⟩)
      · obtain ⟨f, hf⟩ := hfiles e he
        rw [hnone] at hf
        cases hf
    simp [TypeContext.basesOf, hno]
  · obtain ⟨s', hbase⟩ := (TypeContext.isBase_iff (c := j.types r)).1 hbase
    obtain ⟨hs', -, hfound⟩ := TypeContext.base?_eq_some.1 hbase
    obtain rfl := Except.ok.inj (hs.symm.trans hs')
    have hleaves : leaves.Nodup := by
      obtain ⟨-, found, hfound', hfinds⟩ := leavesOf_finds (c := j.types r) hv.parts hs
      exact hfinds.nodup leaves (Except.ok.inj (hfound'.symm.trans hfound))
    let g := ({ f with bindings := b } : File).adjust e.2.identifier (withType (.unite types))
    have hwrites : r.Writes g { r with sources := r.sources.put g } := ⟨r.log, rfl⟩
    have hpath : f.path = e.2.file := Sources.path_of_at? hf
    -- The union itself is no interface.
    have hunited : Run.Pins ms (fun _ => []) r { r with sources := r.sources.put g } := by
      refine hwrites.pins (g := g) hlisted hfiles he hpath ?_ fun _ _ _ => rfl
      refine interface?_adjust (withType_keeps _) hf b fun d => ?_
      rw [pinInterface_nil, Option.map_id, id]
      cases d <;> rfl
    refine (tagLeaves_pins hlisted hunited.files s hleaves).imp fun _ r' hpins =>
      (hunited.trans hpins).congr fun leaf => ?_
    by_cases hleaf : leaf ∈ leaves <;> simp [TypeContext.basesOf, hbase, hleaf]

/-- **The pass over polymorphic bases** pins the tags of the leaves of all models that are such bases. -/
theorem flattenUnions_pins {T : List Route} (hs : r.Sound j T) (hms : r.models = some ms)
    (hfiles : ∀ e ∈ ms, ∃ f, r.sources.at? e.2.file = some f) :
    Ends (flattenUnions j) r (fun _ r' => Run.Pins ms ((j.types r).basesOf ms.keys) r r')
      fun _ _ => False := by
  have hlisted := hs.models ms hms
  unfold flattenUnions Action.models
  rw [ends_bind, ends_bind, ends_get, hms]
  simp only [ends_pure]
  rw [ends_bind]
  -- The models that are done have pinned the tags of their leaves.
  refine (ends_mapM (fun done _ r' => (r'.Sound j T ∧ r.Frame r') ∧
    Run.Pins ms ((j.types r).basesOf (Entries.keys done)) r r')
    ⟨⟨hs, .refl r⟩, (Run.Pins.refl hfiles).congr fun _ => rfl⟩ ?_).imp fun _ r' h => ?_
  · rintro done e rest - r₁ hsplit ⟨⟨hs₁, hframe⟩, hpins⟩
    have he : e ∈ ms := by simp [← hsplit]
    refine ((flatten_spec hv (I := fun r' => r'.Sound j T ∧ r.Frame r')
      (fun _ _ h hedit => ⟨h.1.edits hedit, h.2.trans hedit.frame⟩) he (hlisted.leads e he)
      ⟨hs₁, hframe⟩).and (flatten_pins hv hlisted hpins.files he)).mono ?_ fun _ _ h => h.1
    rintro _ r₂ ⟨hs₂, hpins₂⟩
    refine ⟨hs₂, (hpins.trans hpins₂).congr fun leaf => ?_⟩
    rw [types_of_frame hframe, Entries.keys_append, TypeContext.basesOf_append]
    rfl
  · exact ⟨h.2.files, h.2.interface⟩

omit hv in
/-- Replacing the wrapper of a method changes no interface. -/
theorem Run.Replaces.pins {κ : Type} {w : Replacement κ} {late : κ → Schema → List String} {e : Endpoint}
    {m : Method} (h : r.Replaces w j late e m r₁)
    (hfiles : ∀ e ∈ ms, ∃ f, r.sources.at? e.2.file = some f) : Run.Pins ms (fun _ => []) r r₁ := by
  obtain ⟨_, _, f, g, g', b, -, -, hf, hg, hname, -, -, -, -, hwrites⟩ := h
  have hat := hwrites.at?
  have hplaced : f.path = e.file := Sources.path_of_at? hf
  have hpath : (({ f with bindings := b } : File).adjust m.localName fun _ => .function g').path =
      e.file := hplaced
  rw [hpath] at hat
  have hdeclared (n : String) :
      (({ f with bindings := b } : File).adjust m.localName fun _ => .function g').declaration? n =
        if n = m.localName then (f.declaration? m.localName).map fun _ => .function g'
        else f.declaration? n := by
    refine declaration?_adjust ?_ n
    exact fun _ _ _ => hname
  refine ⟨fun e' he' => ?_, fun e' he' => ?_⟩
  · obtain ⟨f', hf'⟩ := hfiles e' he'
    rw [hat]
    split
    · exact ⟨_, rfl⟩
    · exact ⟨f', hf'⟩
  · rw [pinInterface_nil, Option.map_id, id]
    by_cases hfile : e'.2.file = e.file
    · rw [interface?_of_at? ((hat _).trans (if_pos hfile)), interface?_of_at? (hfile ▸ hf), hdeclared]
      split
      · next hlocal =>
        rw [hlocal, hg]
        rfl
      · rfl
    · rw [Run.interface?, Run.interface?, hat, if_neg hfile]

omit hv in
/-- The passes over subscriptions and signals change no interface. -/
theorem execute_pins {T : List Route} {p : Pass} (hp : p = .push ∨ p = .signals) (hs : r.Sound j T)
    (hfiles : ∀ e ∈ ms, ∃ f, r.sources.at? e.2.file = some f) :
    Ends (p.execute j) r
      (fun _ r' => r'.Sound j T ∧ r.Frame r' ∧ Run.Pins ms (fun _ => []) r r') fun _ _ => True := by
  have replaces {κ : Type} (w : Replacement κ) (late : κ → Schema → List String) (b : Backbone)
      (e : Endpoint) (m : Method) (r₁ r₂ : Run) (_ : r.backbone = some b) (_ : e ∈ b.endpoints)
      (_ : m ∈ e.methods) (_ : r₁.Sound j T) (_ : r.Frame r₁) (hpins : Run.Pins ms (fun _ => []) r r₁)
      (hr : r₁.Replaces w j late e m r₂) : Run.Pins ms (fun _ => []) r r₂ :=
    hpins.trans (hr.pins hpins.files)
  have log : ∀ (r' : Run) log, Run.Pins ms (fun _ => []) r r' →
      Run.Pins ms (fun _ => []) r { r' with log } := fun _ log h => h.log log
  rcases hp with rfl | rfl
  · exact (replacement_keeps (I := Run.Pins ms (fun _ => []) r)
      (subscriptions_lawful j.settings.pushClasses (j.types r)) rfl hs (replaces _ _) log
      (.refl hfiles)).mono (fun _ _ h => h) fun _ _ _ => trivial
  · have hdo : Pass.execute j .signals =
      (get >>= fun r => (signalConstructions r.models).run j : Action Unit) := rfl
    rw [hdo, ends_bind, ends_get]
    exact (replacement_keeps (I := Run.Pins ms (fun _ => []) r)
      (signalConstructions_lawful hs.plain (j.types r)) rfl hs (replaces _ _) log
      (.refl hfiles)).mono (fun _ _ h => h) fun _ _ _ => trivial

/-- What the usual passes come to: a run `r₀` after the models were written, whose interfaces read as their
components, and a run `r` in the end, whose interfaces are those of `r₀`, pinned by all bases that are
models. -/
structure Run.Pinned (j : Job) (ms : Entries Model) (r₀ r : Run) : Prop where
  models : r.models = some ms
  listed : Listed j.document.parts ms
  sound : ∃ T, r₀.Sound j T
  modelled : ∃ roots ns, r₀.Modelled j r.transfers roots (identifiersOf ms) ns ∧
    ∀ n ∈ ns, ms.has n = true ∨ r.transfers.has n = true
  reads : ∀ e ∈ ms, Run.ReadsModel j r.transfers e r₀
  pins : Run.Pins ms ((j.types r).basesOf ms.keys) r₀ r

/-- **After the usual passes** the interfaces of models are pinned by the bases among the models. -/
theorem executeAll_pins (log : List LogLine) :
    Ends (executeAll j Pass.usual) { Run.start j.settings with log }
      (fun _ r => ∃ ms r₀, Run.Pinned j ms r₀ r) fun _ _ => True := by
  have husual : Pass.usual =
      ([Pass.transferTypes] ++ [Pass.backbone]) ++ [Pass.model, .subtypes, .push, .signals] := rfl
  rw [husual, executeAll_append, ends_bind]
  refine (executeAll_typeDeclarations hv (by simp) log).imp fun _ r ⟨T, hs, hnone⟩ => ?_
  refine executeAll_cons hv hs (P := fun r₀ => ∃ ms, r₀.models = some ms ∧ (∃ T, r₀.Sound j T) ∧
    Listed j.document.parts ms ∧ (∃ roots ns, r₀.Modelled j r₀.transfers roots (identifiersOf ms) ns ∧
      ∀ n ∈ ns, ms.has n = true ∨ r₀.transfers.has n = true) ∧
    ∀ e ∈ ms, Run.ReadsModel j r₀.transfers e r₀) (fun log => ?_) ?_
  · have hs := hs.log log
    refine ((writeModels_modelled hv hs hnone).and ((writeModels_sound hv hs).and
      writeModels_reads)).mono ?_ fun _ _ _ => trivial
    rintro _ r₀ ⟨⟨b, ms, ns, -, hms, hlisted, hm, -, hall⟩, ⟨⟨T', hs', -⟩, -⟩, hreads⟩
    have ht := hm.targets
    exact ⟨ms, hms, ⟨_, hs'⟩, hlisted, ⟨b.referenced, ns, ht.symm ▸ hm, ht.symm ▸ hall⟩,
      fun e he => ht.symm ▸ hreads ms hms e he⟩
  rintro T₀ r₀ hs₀ ⟨ms, hms, hsound, hlisted, hmodelled, hreads⟩
  have hfiles : ∀ e ∈ ms, ∃ f, r₀.sources.at? e.2.file = some f := fun e he =>
    have ⟨_, f, _, hf, _⟩ := hreads e he
    ⟨f, hf⟩
  -- The pass over bases pins, and the others leave what is pinned alone.
  refine executeAll_cons hv hs₀ (P := fun r => r.models = some ms ∧ r.transfers = r₀.transfers ∧
    Run.Pins ms ((j.types r₀).basesOf ms.keys) r₀ r) (fun log => ?_) fun T₁ r₁ hs₁ ⟨hms₁, ht₁, h₁⟩ => ?_
  · have hs₀ := hs₀.log log
    refine ((flattenUnions_keeps (I := fun _ => True) hv hs₀ (by simp) (by simp) trivial).and
      (flattenUnions_pins hv hs₀ hms hfiles)).mono ?_ fun _ _ _ => trivial
    exact fun _ r' ⟨⟨_, hframe, _⟩, hpins⟩ => ⟨hframe.models.trans hms, hframe.transfers,
      ⟨hpins.files, hpins.interface⟩⟩
  have late : ∀ {p : Pass} {T : List Route} {r : Run}, p = .push ∨ p = .signals → r.Sound j T →
      r.models = some ms ∧ r.transfers = r₀.transfers ∧
        Run.Pins ms ((j.types r₀).basesOf ms.keys) r₀ r →
      ∀ log, Ends (p.execute j) { r with log }
        (fun _ r' => r'.models = some ms ∧ r'.transfers = r₀.transfers ∧
          Run.Pins ms ((j.types r₀).basesOf ms.keys) r₀ r') fun _ _ => True :=
    fun hp hs ⟨hms, ht, h⟩ log => (execute_pins hp (hs.log log) h.files).imp
      fun _ _ ⟨_, hframe, hpins⟩ => ⟨hframe.models.trans hms, hframe.transfers.trans ht,
        ((h.log log).trans hpins).congr fun _ => List.append_nil _⟩
  refine executeAll_cons hv hs₁ (late (.inl rfl) hs₁ ⟨hms₁, ht₁, h₁⟩) fun T₂ r₂ hs₂ h₂ => ?_
  refine executeAll_cons hv hs₂ (late (.inr rfl) hs₂ h₂) fun T₃ r₃ hs₃ ⟨hms₃, ht₃, h₃⟩ => ?_
  refine ⟨ms, r₀, hms₃, hlisted, hsound, ht₃ ▸ hmodelled, ht₃ ▸ hreads, ?_⟩
  rw [Job.types, ht₃]
  exact h₃

end Steps

end Client
end OpenApiClient
