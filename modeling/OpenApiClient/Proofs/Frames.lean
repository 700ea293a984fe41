/-
# What rewriting leaves alone

The passes after the models are made rewrite what is there. They make no files and no declarations: each
file keeps its path and the pass that made it, its exports, the names of its declarations in their order,
and what it knows its imports by (`Run.Reworks`). Of the declarations only some are changed, and each is
the first of its name: the functions of selected methods (`IsSelected`), and the aliases of bases and the
interfaces of their leaves (`IsFlattened`), in which one property after another is pinned (`Pinned`).

A single write does this (`Run.Reworks.write`), and since it is told of the state at the start, so does
every sequence of writes. Nothing is asked of the document, or of the files and results that passes find:
where references lead nowhere they fail, and else this is what they do (`execute_reworks`).
-/

import Mathlib.Data.List.Forall2
import OpenApiClient.Proofs.Flattening
import OpenApiClient.Proofs.Pinning
import OpenApiClient.Proofs.SourcedFiles

namespace OpenApiClient

namespace Entries

variable {α β : Type} {R : String → α → β → Prop} {es : Entries α} {es' : Entries β} {k : String} {v : α}
  {w : β}

/-- Two maps have the same keys in one order, and their values are related. -/
def Relates (R : String → α → β → Prop) : Entries α → Entries β → Prop :=
  List.Forall₂ fun e e' => e'.1 = e.1 ∧ R e.1 e.2 e'.2

theorem Relates.at? (h : Relates R es es') (hw : es'.at? k = some w) :
    ∃ v, es.at? k = some v ∧ R k v w := by
  induction h with
  | nil => cases hw
  | @cons e e' es es' he _ ih =>
    rw [at?_cons] at hw ⊢
    rw [he.1] at hw
    split at hw
    · next hk =>
      obtain rfl := Option.some.inj hw
      exact ⟨e.2, if_pos hk, hk ▸ he.2⟩
    · next hk =>
      rw [if_neg hk]
      exact ih hw

theorem Relates.put (h : Relates R es es') (hv : es.at? k = some v) (hR : R k v w) :
    Relates R es (es'.put k w) := by
  induction h with
  | nil => cases hv
  | @cons e e' es es' he hes ih =>
    rw [at?_cons] at hv
    rw [Entries.put]
    split at hv
    · next hk =>
      obtain rfl := Option.some.inj hv
      rw [if_pos (he.1.trans hk.symm)]
      exact .cons ⟨hk, hk ▸ hR⟩ hes
    · next hk =>
      rw [if_neg fun h' => hk (he.1.symm.trans h').symm]
      exact .cons he (ih hv)

end Entries

namespace Module

open TypeScript

section Declarations

variable {name : String} {change : Declaration → Declaration} {C : Declaration → Declaration → Prop}
  {ds ds' ds'' : List Declaration} {d d' : Declaration} {i : Nat}

/-- The declarations `ds'` are `ds`, of which some were changed as `C` tells, each the first of its
name. -/
structure Reworks (C : Declaration → Declaration → Prop) (ds ds' : List Declaration) : Prop where
  names : ds'.map (·.name) = ds.map (·.name)
  changed : ∀ i d d', ds[i]? = some d → ds'[i]? = some d' →
    d' = d ∨ d.name ∉ (ds.map (·.name)).take i ∧ C d d'

theorem Reworks.refl (C : Declaration → Declaration → Prop) (ds : List Declaration) :
    Reworks C ds ds :=
  ⟨rfl, fun _ _ _ h h' => .inl (Option.some.inj (h'.symm.trans h))⟩

theorem Reworks.trans (hC : ∀ {a b c}, C a b → C b c → C a c) (h : Reworks C ds ds')
    (h' : Reworks C ds' ds'') : Reworks C ds ds'' := by
  refine ⟨h'.names.trans h.names, fun i d d'' hd hd'' => ?_⟩
  have hname : (ds'.map (·.name))[i]? = some d.name := by
    rw [h.names, List.getElem?_map, hd]
    rfl
  rw [List.getElem?_map] at hname
  obtain ⟨d', hd', hname⟩ := Option.map_eq_some_iff.1 hname
  have hfirst := h'.changed i d' d'' hd' hd''
  rw [hname, h.names] at hfirst
  rcases h.changed i d d' hd hd' with rfl | ⟨hnew, hC₁⟩
  · exact hfirst
  · rcases hfirst with rfl | ⟨-, hC₂⟩
    · exact .inr ⟨hnew, hC₁⟩
    · exact .inr ⟨hnew, hC hC₁ hC₂⟩

/-- **A change of the first declaration of a name** leaves the others alone. -/
theorem getElem?_adjustFirst (hd : ds[i]? = some d)
    (hd' : (File.adjustFirst name change ds)[i]? = some d') :
    d' = d ∨ d.name ∉ (ds.map (·.name)).take i ∧ ds.find? (·.name == name) = some d ∧
      d' = change d := by
  induction ds generalizing i with
  | nil => cases hd
  | cons e ds ih =>
    rw [File.adjustFirst] at hd'
    by_cases he : e.name = name
    · have hfound : (e.name == name) = true := beq_iff_eq.2 he
      rw [if_pos hfound] at hd'
      cases i with
      | zero =>
        obtain rfl := Option.some.inj hd
        obtain rfl := Option.some.inj hd'
        exact .inr ⟨List.not_mem_nil, List.find?_cons_of_pos hfound, rfl⟩
      | succ i => exact .inl (Option.some.inj (hd'.symm.trans hd))
    · have hfound : ¬ (e.name == name) = true := fun h => he (beq_iff_eq.1 h)
      rw [if_neg hfound] at hd'
      cases i with
      | zero => exact .inl (Option.some.inj (hd'.symm.trans hd))
      | succ i =>
        rcases ih hd hd' with heq | ⟨hnew, hfind, heq⟩
        · exact .inl heq
        · have hname : d.name = name := by simpa using List.find?_some hfind
          refine .inr ⟨?_, by simpa [he] using hfind, heq⟩
          rw [List.map_cons, List.take_succ_cons, List.mem_cons, not_or]
          exact ⟨fun h => he (h.symm.trans hname), hnew⟩

end Declarations

/-- The file `f'` is `f` with declarations changed as `C` tells, and perhaps with more imports. -/
structure File.Reworks (C : Declaration → Declaration → Prop) (f f' : File) : Prop where
  path : f'.path = f.path
  origin : f'.origin = f.origin
  exports : f'.bindings.exports = f.bindings.exports
  grows : f.bindings.Grows f'.bindings
  declarations : Module.Reworks C f.declarations f'.declarations

section Files

variable {C : Declaration → Declaration → Prop} {f f' f'' : File}

theorem File.Reworks.refl (C : Declaration → Declaration → Prop) (f : File) : f.Reworks C f :=
  ⟨rfl, rfl, rfl, .refl _, .refl C _⟩

theorem File.Reworks.trans (hC : ∀ {a b c}, C a b → C b c → C a c) (h : f.Reworks C f')
    (h' : f'.Reworks C f'') : f.Reworks C f'' where
  path := h'.path.trans h.path
  origin := h'.origin.trans h.origin
  exports := h'.exports.trans h.exports
  grows := h.grows.trans h'.grows
  declarations := h.declarations.trans hC h'.declarations

/-- **More is imported, and the declaration of a name is changed.** -/
theorem File.reworks_adjust {b : Bindings} {ms : List String} (hb : Bindings.Adds ms f.bindings b)
    {name : String} {change : Declaration → Declaration}
    (hname : ∀ d, d.name = name → (change d).name = name)
    (hchange : ∀ d, f.declaration? name = some d → change d = d ∨ C d (change d)) :
    f.Reworks C ({ f with bindings := b }.adjust name change) where
  path := rfl
  origin := rfl
  exports := hb.exports
  grows := hb.grows
  declarations := by
    refine ⟨map_name_adjustFirst fun d _ => hname d, fun i d d' hd hd' => ?_⟩
    rcases getElem?_adjustFirst hd hd' with rfl | ⟨hnew, hfind, rfl⟩
    · exact .inl rfl
    · exact (hchange d hfind).imp_right fun hC => ⟨hnew, hC⟩

end Files

end Module

namespace Client

open OpenApi TypeScript OpenApiClient.Module

/-- The run `r'` has the files, results and targets of `r`, of which declarations at paths were changed as
`C` tells. -/
structure Run.Reworks (C : String → Declaration → Declaration → Prop) (r r' : Run) : Prop where
  transfers : r'.transfers = r.transfers
  backbone : r'.backbone = r.backbone
  models : r'.models = r.models
  files : Entries.Relates (fun path => File.Reworks (C path)) r.sources.files r'.sources.files

section Runs

variable {C : String → Declaration → Declaration → Prop} {r r' : Run} {f f' : File} {path : String}

theorem Run.Reworks.refl (C : String → Declaration → Declaration → Prop) (r : Run) : r.Reworks C r :=
  ⟨rfl, rfl, rfl, List.forall₂_same.2 fun _ _ => ⟨rfl, .refl _ _⟩⟩

theorem Run.Reworks.log (h : r.Reworks C r') (log : List LogLine) : r.Reworks C { r' with log } :=
  ⟨h.transfers, h.backbone, h.models, h.files⟩

theorem Run.Reworks.at? (h : r.Reworks C r') (hf : r'.sources.at? path = some f') :
    ∃ f, r.sources.at? path = some f ∧ f.Reworks (C path) f' :=
  h.files.at? hf

/-- **A file is written** that reworks the one that was at its path at the start. -/
theorem Run.Reworks.write (h : r.Reworks C r') (hf : r.sources.at? path = some f)
    (hf' : f.Reworks (C path) f') : r.Reworks C { r' with sources := r'.sources.put f' } := by
  have hpath : f'.path = path := hf'.path.trans (Sources.path_of_at? hf)
  refine ⟨h.transfers, h.backbone, h.models, ?_⟩
  change Entries.Relates _ _ (r'.sources.files.put f'.path f')
  rw [hpath]
  exact h.files.put hf hf'

end Runs

section Types

variable {b : Bindings} {c : TypeContext}

/-- The bindings come from `b` by imports. -/
def TypeState.Extends (b : Bindings) (t : TypeState) : Prop := ∃ ms, Bindings.Adds ms b t.bindings

namespace TypeContext

theorem importNamed_extends (module id : String) (isType : Bool) :
    Steady (TypeState.Extends b) (Mapping.importNamed module id isType) := fun t ⟨_, ht⟩ =>
  ⟨⟨_, ht.trans (t.bindings.importNamed_spec module id isType).1⟩, trivial⟩

theorem importDefault_extends (module id : String) (isType : Bool) :
    Steady (TypeState.Extends b) (Mapping.importDefault module id isType) := fun t ⟨_, ht⟩ =>
  ⟨⟨_, ht.trans (t.bindings.importDefault_spec module id isType).1⟩, trivial⟩

/-- **Naming a component imports**, and nothing else is done to the bindings. -/
theorem reference_extends (component : String) (args : List Ty) :
    Steady (TypeState.Extends b) (c.reference component args) :=
  reference_maintains (fun _ _ _ _ => importNamed_extends _ _ _)
    (fun _ _ _ => importDefault_extends _ _ _) (.modify fun _ h => h) args

end TypeContext

/-- What is told for a file adds to its imports. -/
theorem adds_of_inFile {α : Type} {m : Mapping α} {f f' : File} {a : α} {names : List String}
    (hm : TypeContext.Steady (TypeState.Extends f.bindings) m) (hin : m.inFile f = .ok (a, f', names)) :
    ∃ ms b, Bindings.Adds ms f.bindings b ∧ f' = { f with bindings := b } := by
  obtain ⟨t, ⟨ms, hadds⟩, -, rfl⟩ := TypeContext.of_inFile hm ⟨[], .refl _⟩ hin
  exact ⟨ms, t.bindings, hadds, rfl⟩

end Types

section Steps

variable {C : String → Declaration → Declaration → Prop} {r : Run} {f f' : File} {path : String} {j : Job}

theorem write_reworks (hf : r.sources.at? path = some f) (hf' : f.Reworks (C path) f') :
    Maintains (r.Reworks C) (fun _ => True) (Action.write f') :=
  .modify fun _ h => h.write hf hf'

theorem note_reworks (pass : Pass) (level : Level) (message : String) :
    Maintains (r.Reworks C) (fun _ => True) (j.note pass level message) :=
  .modify fun _ h => h.log _

end Steps

section Replacements

variable {κ : Type} {w : Replacement κ} {j : Job} {r : Run}

/-- The function of a selected method, in the file of its endpoint, becomes another function. -/
def IsSelected (w : Replacement κ) (r : Run) (path : String) (d d' : Declaration) : Prop :=
  ∃ b e m g g', r.backbone = some b ∧ e ∈ b.endpoints ∧ e.file = path ∧ m ∈ e.methods ∧
    w.Selects m ∧ d.name = m.localName ∧ d = .function g ∧ d' = .function g'

theorem IsSelected.trans {path : String} {d d' d'' : Declaration} (h : IsSelected w r path d d')
    (h' : IsSelected w r path d' d'') : IsSelected w r path d d'' := by
  obtain ⟨b, e, m, g, -, hb, he, hpath, hm, hselects, hname, hd, -⟩ := h
  obtain ⟨-, -, -, -, g'', -, -, -, -, -, -, -, hd''⟩ := h'
  exact ⟨b, e, m, g, g'', hb, he, hpath, hm, hselects, hname, hd, hd''⟩

variable (hbuild : ∀ k c v endpoint method response arguments b,
  TypeContext.Steady (TypeState.Extends b) (w.build k c v endpoint method response arguments))
include hbuild

/-- **The function of a method is replaced.** -/
theorem replaceSelected_reworks {b : Backbone} (hb : r.backbone = some b) {e : Endpoint}
    (he : e ∈ b.endpoints) {m : Method} (hm : m ∈ e.methods) :
    Maintains (r.Reworks (IsSelected w r)) (fun _ => True) (w.replaceSelected j e m) := by
  unfold Replacement.replaceSelected
  cases hresponse : m.response with
  | none => exact .pure trivial
  | some response =>
    refine .get_bind fun r' hr' => ?_
    cases hf : r'.sources.at? e.file with
    | none => exact .pure trivial
    | some f =>
      obtain ⟨f₀, hf₀, hreworks⟩ := hr'.at? hf
      refine Maintains.bind (Q := fun k => w.select response = .ok k) (.mapError fun _ h => h)
        fun k hk => ?_
      cases k with
      | none => exact .pure trivial
      | some k =>
        refine Maintains.bind (Q := fun _ => True) ?_ fun _ _ => .pure trivial
        refine Maintains.bind (Q := fun _ => ∃ g, f.declaration? m.localName = some (.function g))
          (.mapError fun _ h => (declaration?_of_inFile h).imp fun _ h => h.1) fun wrapper ⟨g, hg⟩ => ?_
        refine .get_bind fun _ _ => Maintains.bind (.mapError fun p h => adds_of_inFile
          (hbuild _ _ _ _ _ _ _ _) h) fun p hp => ?_
        obtain ⟨⟨result, returned⟩, f', _⟩ := p
        obtain ⟨ms, b', hadds, hf'⟩ := hp
        refine Maintains.bind (Q := f.Reworks (IsSelected w r e.file)) (.mapError fun f'' h => ?_)
          fun f'' hf'' => ?_
        · obtain rfl : f' = { f with bindings := b' } := hf'
          unfold replaceFunction at h
          split at h
          · obtain rfl := Except.ok.inj h
            refine File.reworks_adjust hadds (fun _ _ => rfl) fun d hd => .inr ?_
            have hd' : f.declaration? m.localName = some d := hd
            have hname : d.name = m.localName := by simpa using List.find?_some hd'
            exact ⟨b, e, m, g, _, hb, he, rfl, hm, ⟨response, k, hresponse, hk⟩, hname,
              Option.some.inj (hd.symm.trans hg), rfl⟩
          · cases h
        · have hwrite := write_reworks hf₀ (hreworks.trans IsSelected.trans hf'')
          exact hwrite.bind fun _ _ => note_reworks _ _ _

theorem replacement_reworks :
    Maintains (r.Reworks (IsSelected w r)) (fun _ => True) (w.run j) := by
  unfold Replacement.run
  refine Maintains.bind (Q := fun b => r.backbone = some b) ?_ fun b hb => ?_
  · refine .get_bind fun r' hr' => ?_
    rw [hr'.backbone]
    cases hb : r.backbone with
    | none => exact .throw _
    | some b => exact .pure rfl
  · refine Maintains.bind (.mapM fun e he => .mapM fun m hm =>
      replaceSelected_reworks hbuild hb he hm) fun _ _ => note_reworks _ _ _

end Replacements

section Unions

variable {j : Job} {r : Run}

/-- The component of a model is made the union of its leaves: it is a polymorphic base, and the file of
the model is there. -/
structure Flattens (j : Job) (r : Run) (models : Entries Model) (component : String) (m : Model)
    (s : SchemaObject) (leaves : List String) : Prop where
  mem : (component, m) ∈ models
  schema : j.document.parts.schema component = .ok s
  isUnion : Schema.isUnion s = true
  leaves : leavesOf (j.types r) component s = .ok (some leaves)
  file : (r.sources.at? m.file).isSome

/-- The property is pinned to the tag: the first that has the name gets another type and must be there, or
there is one more in front. -/
inductive Pinned (property tag : String) : List Property → List Property → Prop where
  | changed {before after : List Property} {p : Property} : (∀ q ∈ before, q.name ≠ property) →
      p.name = property → Pinned property tag (before ++ p :: after)
        (before ++ { p with type := .literal tag, isOptional := false } :: after)
  | inserted {members : List Property} : (∀ q ∈ members, q.name ≠ property) →
      Pinned property tag members ({ name := property, type := .literal tag } :: members)

theorem pinned_pinTag (property tag : String) (members : List Property) :
    Pinned property tag members (pinTag property tag members) := by
  rcases pinTag_cases property tag members with ⟨hnew, heq⟩ | ⟨before, p, after, rfl, hbefore, hp, heq⟩
  · exact heq ▸ .inserted hnew
  · exact heq ▸ .changed hbefore hp

/-- The discriminator of a base is pinned in the interface of one of its leaves. -/
def IsTagged (j : Job) (r : Run) (models : Entries Model) (path name : String)
    (members members' : List Property) : Prop :=
  ∃ component m s leaves leaf leafModel, Flattens j r models component m s leaves ∧
    leaf ∈ leaves ∧ models.at? leaf = some leafModel ∧ leafModel.file = path ∧
    leafModel.identifier = name ∧
    Pinned (discriminatorProperty s) (tagOf s leaf) members members'

/-- The alias of a base gets another type, or the interface of a leaf other members: discriminators of
its bases are pinned one after another. -/
inductive IsFlattened (j : Job) (r : Run) (models : Entries Model) (path : String) :
    Declaration → Declaration → Prop where
  | base {component : String} {m : Model} {s : SchemaObject} {leaves : List String} {a : Alias}
      {type : Ty} : Flattens j r models component m s leaves → m.file = path → m.identifier = a.name →
        IsFlattened j r models path (.alias a) (.alias { a with type })
  | leaf {i : Interface} {members : List Property} :
      Relation.ReflTransGen (IsTagged j r models path i.name) i.members members →
        IsFlattened j r models path (.interface i) (.interface { i with members })

variable {models : Entries Model}

theorem IsFlattened.trans {path : String} {d d' d'' : Declaration}
    (h : IsFlattened j r models path d d') (h' : IsFlattened j r models path d' d'') :
    IsFlattened j r models path d d'' := by
  cases h with
  | base hbase hpath hname =>
    cases h'
    exact .base hbase hpath hname
  | leaf htagged =>
    cases h' with
    | leaf htagged' => exact .leaf (htagged.trans htagged')

/-- **The interface of a leaf is tagged.** -/
theorem tagLeaf_reworks {component : String} {m : Model} {s : SchemaObject} {leaves : List String}
    (hflattens : Flattens j r models component m s leaves) {leaf : String} (hleaf : leaf ∈ leaves) :
    Maintains (r.Reworks (IsFlattened j r models)) (fun _ => True) (tagLeaf models s leaf) := by
  unfold tagLeaf
  cases hm : models.at? leaf with
  | none => exact .pure trivial
  | some leafModel =>
    refine .get_bind fun r' hr' => ?_
    cases hf : r'.sources.at? leafModel.file with
    | none => exact .pure trivial
    | some f =>
      obtain ⟨f₀, hf₀, hreworks⟩ := hr'.at? hf
      refine write_reworks hf₀ (hreworks.trans IsFlattened.trans ?_)
      refine File.reworks_adjust (.refl _) (fun d hd => ?_) fun d hd => ?_
      · exact ((withTag_keeps _ _).name d).trans hd
      · have hname : d.name = leafModel.identifier := by simpa using List.find?_some hd
        cases d with
        | interface i =>
          exact .inr (.leaf (.single ⟨component, m, s, leaves, leaf, leafModel, hflattens, hleaf, hm, rfl,
            hname.symm, pinned_pinTag _ _ _⟩))
        | function | «alias» | enumeration => exact .inl rfl

/-- **A base is made the union of its leaves**, and they are tagged. -/
theorem flatten_reworks {component : String} {m : Model} (hmem : (component, m) ∈ models) :
    Maintains (r.Reworks (IsFlattened j r models)) (fun _ => True) (flatten j models component m) := by
  unfold flatten
  refine Maintains.bind (Q := fun s => j.document.parts.schema component = .ok s)
    (.mapError fun _ h => h) fun s hs => ?_
  split
  · exact .pure trivial
  next hunion =>
  refine .get_bind fun r' hr' => ?_
  have htypes : leavesOf (j.types r' (some (component, m.identifier))) component s =
      leavesOf (j.types r) component s := by
    rw [← TypeContext.leavesOf_own (c := j.types r) (some (component, m.identifier)), Job.types, Job.types,
      hr'.transfers]
  refine Maintains.bind (Q := fun leaves => leavesOf (j.types r) component s = .ok leaves)
    (.mapError fun _ h => htypes.symm.trans h) fun leaves hleaves => ?_
  cases leaves with
  | none => exact .pure trivial
  | some leaves =>
    cases hf : r'.sources.at? m.file with
    | none => exact .pure trivial
    | some f =>
      obtain ⟨f₀, hf₀, hreworks⟩ := hr'.at? hf
      have hflattens : Flattens j r models component m s leaves :=
        ⟨hmem, hs, by simpa using hunion, hleaves, Option.isSome_of_eq_some hf₀⟩
      refine Maintains.bind (.mapError fun p h => adds_of_inFile
        (.mapM fun leaf _ => TypeContext.reference_extends leaf []) h) fun p hp => ?_
      obtain ⟨types, f', _⟩ := p
      obtain ⟨ms, b, hadds, hf'⟩ := hp
      obtain rfl : f' = { f with bindings := b } := hf'
      refine Maintains.bind (write_reworks hf₀ (hreworks.trans IsFlattened.trans
        (File.reworks_adjust hadds (fun d hd => ?_) fun d hd => ?_))) fun _ _ => ?_
      · exact ((withType_keeps _).name d).trans hd
      · have hname : d.name = m.identifier := by simpa using List.find?_some hd
        cases d with
        | «alias» a => exact .inr (.base hflattens rfl hname.symm)
        | function | interface | enumeration => exact .inl rfl
      · exact Maintains.bind (.forM fun leaf hleaf => tagLeaf_reworks hflattens hleaf)
          fun _ _ => .pure trivial

theorem flattenUnions_reworks : Maintains (r.Reworks (IsFlattened j r (r.models.getD [])))
    (fun _ => True) (flattenUnions j) := by
  unfold flattenUnions
  refine Maintains.bind (Q := fun ms => r.models.getD [] = ms) ?_ fun ms hms => ?_
  · refine .get_bind fun r' hr' => ?_
    rw [hr'.models]
    cases hms : r.models with
    | none => exact .throw _
    | some ms => exact .pure rfl
  · subst hms
    exact Maintains.bind (.mapM fun e he => flatten_reworks he) fun _ _ => note_reworks _ _ _

end Unions

/-- **The passes that rewrite touch what they are for.**  From whatever files and results, if it ends well,
the pass for subscriptions changes the functions of the methods whose responses are pushed, the one for
signals those of the methods that give back signals, and the one for subtypes the types of the aliases of
bases and the discriminators in the interfaces of their leaves. Each file keeps its path, its origin, its
exports, the names of its declarations in their order, all other declarations, and the names by which it
knows what it imports. -/
theorem execute_reworks (j : Job) (r r' : Run) :
    ((Pass.execute j .push).run.run r = (.ok (), r') →
      r.Reworks (IsSelected (subscriptions j.settings.pushClasses) r) r') ∧
    ((Pass.execute j .signals).run.run r = (.ok (), r') →
      r.Reworks (IsSelected (signalConstructions r.models) r) r') ∧
    ((Pass.execute j .subtypes).run.run r = (.ok (), r') →
      r.Reworks (IsFlattened j r (r.models.getD [])) r') := by
  refine ⟨fun h => ?_, fun h => ?_, fun h => ?_⟩
  · have hpass : Maintains (r.Reworks (IsSelected (subscriptions j.settings.pushClasses) r))
        (fun _ => True) (Pass.execute j .push) :=
      replacement_reworks fun _ _ _ _ _ _ _ _ => TypeContext.subscriptions_steady
        TypeContext.reference_extends (TypeContext.importNamed_extends _ _ _)
          (TypeContext.importDefault_extends _ _ _) _ _ _ _ _
    exact ((hpass r (.refl _ r)).result h).1
  · have hpass : Maintains (r.Reworks (IsSelected (signalConstructions r.models) r))
        (fun _ => True) (Pass.execute j .signals) :=
      .get_bind fun r₁ hr₁ => by
        rw [hr₁.models]
        exact replacement_reworks fun _ _ _ _ _ _ _ _ => TypeContext.signalConstructions_steady
          TypeContext.reference_extends (fun _ => TypeContext.importNamed_extends _ _ _)
            (TypeContext.importDefault_extends _ _ _) _ _ _ _ _
    exact ((hpass r (.refl _ r)).result h).1
  · exact ((flattenUnions_reworks r (.refl _ r)).result h).1

/-- A stream of cats, next to a choice that has them as a leaf. -/
def streamedCats : Json :=
  let named := Json.object [("properties", .object [("name", .object [("type", .string "string")])])]
  operationsDocument
    [("/E/watch", .object [("x-class-name", .string "reactor.core.publisher.Flux"), ("items", refTo "Cat")]),
      ("/E/choose", refTo "Pet")]
    [("Pet", .object [("oneOf", .array [refTo "Cat", refTo "Dog"])]), ("Cat", named), ("Dog", named)]

/-- What the declarations of a file refer to. -/
def Run.uses (r : Run) (path : String) : Option (List (List String)) :=
  (r.sources.at? path).map (·.declarations.map (·.identifiers))

/-- The members of the interface of a component. -/
def Run.memberNames (r : Run) (component : String) : Option (List String) := do
  let i ← r.interface? (← (← r.models).at? component)
  return i.members.map (·.name)

/-- A run in which the first of two functions is replaced, and an interface gets a member. -/
theorem execute_reworks_streamedCats :
    ∃ d r r₁ r₂, Document.ofJson streamedCats = .ok d ∧ d.validate = .ok () ∧
      (executeAll ⟨d, {}⟩ [.transferTypes, .backbone, .model]).run.run (Run.start {}) = (.ok (), r) ∧
      r.uses "E.ts" = some [["EndpointRequestInit", "Promise", "client", "init"],
        ["EndpointRequestInit", "Promise", "Pet", "client", "init"]] ∧
      r.memberNames "Cat" = some ["name"] ∧
      ((Pass.execute ⟨d, {}⟩ .push).run.run r = (.ok (), r₁) ∧
        r₁.uses "E.ts" = some [["Subscription", "Cat", "client"],
          ["EndpointRequestInit", "Promise", "Pet", "client", "init"]] ∧
        r.Reworks (IsSelected (subscriptions (Settings.pushClasses {})) r) r₁) ∧
      ((Pass.execute ⟨d, {}⟩ .subtypes).run.run r = (.ok (), r₂) ∧
        r₂.memberNames "Cat" = some ["@type", "name"] ∧
        r.Reworks (IsFlattened ⟨d, {}⟩ r (r.models.getD [])) r₂) := by
  have hrun := exists_of_runOf? streamedCats {} [.transferTypes, .backbone, .model] (fun d r =>
    (r.after? (Pass.execute ⟨d, {}⟩ .push)).any fun r₁ =>
      (r.after? (Pass.execute ⟨d, {}⟩ .subtypes)).any fun r₂ => decide (
        r.uses "E.ts" = some [["EndpointRequestInit", "Promise", "client", "init"],
          ["EndpointRequestInit", "Promise", "Pet", "client", "init"]] ∧
        r.memberNames "Cat" = some ["name"] ∧
        r₁.uses "E.ts" = some [["Subscription", "Cat", "client"],
          ["EndpointRequestInit", "Promise", "Pet", "client", "init"]] ∧
        r₂.memberNames "Cat" = some ["@type", "name"])) (by decide +kernel)
  obtain ⟨d, r, hd, hvalid, hr, htest⟩ := hrun
  obtain ⟨r₁, hr₁, htest⟩ := (Option.any_eq_true ..).1 htest
  obtain ⟨r₂, hr₂, htest⟩ := (Option.any_eq_true ..).1 htest
  obtain ⟨huses, hmembers, huses', hmembers'⟩ := of_decide_eq_true htest
  have hr₁ := Run.of_after? hr₁
  have hr₂ := Run.of_after? hr₂
  have hpush := (execute_reworks ⟨d, {}⟩ r r₁).1 hr₁
  have hsubtypes := (execute_reworks ⟨d, {}⟩ r r₂).2.2 hr₂
  exact ⟨d, r, r₁, r₂, hd, hvalid, hr, huses, hmembers, ⟨hr₁, huses', hpush⟩, hr₂, hmembers', hsubtypes⟩

end Client
end OpenApiClient
