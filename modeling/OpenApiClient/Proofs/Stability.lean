/-
# Types that are told again

A file never forgets what it knows something by. Telling a type once more asks for nothing that it does not
know, so it gives the same type and leaves everything as it is (`Mapping.Repeats`); telling the type of any
schema is of this kind, because naming a component is (`TypeContext.nameOf_repeats`).

What is done to a file in between is told by `File.Edit`: imports, declarations and exports, types that are
told, also when this fails, functions that are replaced by subscriptions and signals, bases that become the
union of their leaves and the tags of these. Each leaves the names that the file knows (`File.Edit.grows`).
`TypeContext.told_again` puts both together.

What the file declares matters for one component only (`TypeContext.nameOf_of_declaredName?_eq`). It has the
name of its declaration where it is told as what the file declares, and elsewhere that of its import. A file
may know it by both (`TypeContext.not_namedOnce`).
-/

import OpenApiClient.Client.Union
import OpenApiClient.Proofs.Frames
import OpenApiClient.Proofs.Generation
import OpenApiClient.Proofs.ImportHistory
import OpenApiClient.Proofs.Telling
import Mathlib.Logic.Relation

namespace OpenApiClient

namespace Entries

/-- Writing what stands at a key changes nothing. -/
theorem put_of_at? {α : Type} {es : Entries α} {k : String} {v : α} (h : es.at? k = some v) :
    es.put k v = es := by
  induction es with
  | nil => simp at h
  | cons e es ih =>
    rw [at?_cons] at h
    rw [put]
    by_cases hk : e.1 = k
    · rw [if_pos hk.symm] at h
      rw [if_pos hk, ← hk, ← Option.some.inj h]
    · rw [if_neg (Ne.symm hk)] at h
      rw [if_neg hk, ih h]

end Entries

namespace Module

/-- A further use as a type changes nothing. -/
theorem Binding.used_true (b : Binding) : b.used true = b := by
  rw [used, Bool.and_true]

namespace Imports

variable {i : Imports} {sp id : String}

theorem putDefault_of_default {e : String × Binding} (h : (i.ofModule sp).default = some e) :
    i.putDefault sp e.1 e.2 = i := by
  have hat : i.modules.at? sp = some (i.ofModule sp) := at?_of_ofModule_ne fun h' => by simp [h'] at h
  have hself : { i.ofModule sp with default := some (e.1, e.2) } = i.ofModule sp := by rw [← h]
  rw [putDefault, hself, Entries.put_of_at? hat]

theorem putNamed_of_named? {b : Binding} (h : i.named? sp id = some b) : i.putNamed sp id b = i := by
  have hat : i.modules.at? sp = some (i.ofModule sp) :=
    at?_of_ofModule_ne fun h' => by simp [named?, h'] at h
  rw [putNamed, Entries.put_of_at? (show (i.ofModule sp).named.at? id = some b from h),
    Entries.put_of_at? hat]

end Imports

namespace Bindings

variable {b : Bindings} {module id name : String}

/-- The type of what is known is imported under the name that it is known by, and nothing changes. -/
theorem importDefault_of_defaultName?
    (h : b.imports.defaultName? (b.site.specifier module) = some name) :
    b.importDefault module id true = (name, b) := by
  obtain ⟨e, he, rfl⟩ := (b.imports.defaultName?_eq_some _).1 h
  rw [importDefault_of_some he, Binding.used_true, Imports.putDefault_of_default he]

theorem importNamed_of_namedName?
    (h : b.imports.namedName? (b.site.specifier module) id = some name) :
    b.importNamed module id true = (name, b) := by
  obtain ⟨e, he, rfl⟩ := Option.map_eq_some_iff.1 h
  rw [importNamed_of_some he, Binding.used_true, Imports.putNamed_of_named? he]

/-- No step makes a file forget. -/
theorem grows_perform (b : Bindings) (step : Step) : b.Grows (b.perform step).2 := by
  cases hr : step.request? b.site with
  | some r =>
    obtain ⟨given, -, ⟨ms, hadds⟩, -⟩ := perform_request hr
    exact hadds.grows
  | none =>
    exact (Grows.refl b).congr rfl rfl (site_perform b step) (imports_perform hr)

end Bindings
end Module

namespace Client

open OpenApi TypeScript OpenApiClient.Module

/-- What the computation does to bindings makes them forget nothing, also when it fails. Once it has given a
result, it gives the same one in bindings that have forgotten nothing since, and leaves them alone. -/
def Mapping.Repeats {α : Type} (m : Mapping α) : Prop :=
  ∀ s : TypeState, Ends m s
    (fun a t => s.bindings.Grows t.bindings ∧ ∃ ns, t.referenced = insertAll s.referenced ns ∧
      ∀ s' : TypeState, t.bindings.Grows s'.bindings → Ends m s'
        (fun a' t' => a' = a ∧ t' = { s' with referenced := insertAll s'.referenced ns })
        fun _ _ => False)
    fun _ t => s.bindings.Grows t.bindings

namespace Mapping

/-- **What repeats itself step by step repeats itself.** -/
theorem repeats_sequential : Sequential Repeats where
  lift x s := ends_mk.2 ⟨fun a ha => ⟨.refl _, [], rfl, fun s' _ =>
    ends_mk.2 ⟨fun a' ha' => ⟨Except.ok.inj (ha'.symm.trans ha), rfl⟩,
      fun e he => by rw [ha] at he; cases he⟩⟩, fun _ _ => .refl _⟩
  bind {α β m f} hm hf s := by
    refine ends_bind.2 ((hm s).mono (fun a t ⟨hst, ns, hns, hagain⟩ => ?_) fun _ _ h => h)
    refine (hf a t).mono (fun y u ⟨htu, ns', hns', hagain'⟩ => ?_) fun _ _ h => hst.trans h
    refine ⟨hst.trans htu, ns ++ ns', ?_, fun s' hs' => ?_⟩
    · rw [hns', hns, insertAll, insertAll, insertAll, List.foldl_append]
    · refine ends_bind.2 ((hagain s' (htu.trans hs')).imp ?_)
      rintro _ _ ⟨rfl, rfl⟩
      refine (hagain' { s' with referenced := insertAll s'.referenced ns } hs').imp ?_
      rintro _ _ ⟨rfl, rfl⟩
      refine ⟨rfl, ?_⟩
      rw [insertAll, insertAll, insertAll, List.foldl_append]

/-- A step of the bindings repeats itself if it gives the same in bindings that have forgotten nothing. -/
theorem bindings_repeats {step : Bindings → String × Bindings} (hgrows : ∀ b : Bindings, b.Grows (step b).2)
    (hagain : ∀ b b' : Bindings, (step b).2.Grows b' → step b' = ((step b).1, b')) :
    (bindings step).Repeats := fun s => by
  refine ⟨hgrows s.bindings, [], rfl, fun s' hs' => ?_⟩
  have hsame := hagain s.bindings s'.bindings hs'
  have hname : (step s'.bindings).1 = (step s.bindings).1 := by rw [hsame]
  have hbindings : (step s'.bindings).2 = s'.bindings := by rw [hsame]
  exact ⟨hname, congrArg (fun b => { s' with bindings := b }) hbindings⟩

theorem importDefault_repeats (module id : String) : (importDefault module id true).Repeats :=
  bindings_repeats (fun b => (b.importDefault_spec module id true).1.grows) fun b b' hb' => by
    obtain ⟨hadds, hname⟩ := b.importDefault_spec module id true
    have hsite : b'.site = b.site := hb'.site.trans hadds.site
    exact Bindings.importDefault_of_defaultName? (hsite ▸ hb'.kept _ _ hname)

theorem importNamed_repeats (module id : String) : (importNamed module id true).Repeats :=
  bindings_repeats (fun b => (b.importNamed_spec module id true).1.grows) fun b b' hb' => by
    obtain ⟨hadds, hname⟩ := b.importNamed_spec module id true
    have hsite : b'.site = b.site := hb'.site.trans hadds.site
    exact Bindings.importNamed_of_namedName? (hsite ▸ hb'.keptNamed _ _ _ hname)

theorem noteReference_repeats (component : String) : (noteReference component).Repeats := fun _ =>
  ⟨.refl _, [component], rfl, fun _ _ => ⟨rfl, rfl⟩⟩

/-- **What repeats itself in a file** gives the same for the file as it is later, and leaves it alone. -/
theorem Repeats.inFile {α : Type} {m : Mapping α} (hm : m.Repeats) {f f₁ f₂ : File} {a : α}
    {names : List String} (h : m.inFile f = .ok (a, f₁, names)) (hgrows : f₁.bindings.Grows f₂.bindings) :
    m.inFile f₂ = .ok (a, f₂, names) := by
  unfold Mapping.inFile at h
  split at h
  · next a' t hrun =>
    obtain ⟨rfl, hfile⟩ := Prod.mk.inj (Except.ok.inj h)
    obtain ⟨rfl, rfl⟩ := Prod.mk.inj hfile
    obtain ⟨-, ns, hns, hagain⟩ := (hm _).result hrun
    have hends := hagain { bindings := f₂.bindings } hgrows
    unfold Ends at hends
    unfold Mapping.inFile
    split at hends
    · next hrun' =>
      obtain ⟨rfl, rfl⟩ := hends
      rw [hrun', hns]
    · exact hends.elim
  · cases h

/-- What is made of a result in a file. -/
theorem inFile_map {α β : Type} {m : Mapping α} {g : α → β} {f : File} :
    Mapping.inFile (do return g (← m)) f = (m.inFile f).map fun p => (g p.1, p.2) := by
  unfold Mapping.inFile
  have hrun : ExceptT.run (do return g (← m)) =
      (m.run >>= ExceptT.bindCont fun a => pure (g a) : StateM TypeState _) := rfl
  rw [hrun, StateT.run_bind]
  rcases m.run.run { bindings := f.bindings } with ⟨_ | a, t⟩ <;> rfl

/-- The file after a computation on its bindings, which may have failed. -/
def after {α : Type} (m : Mapping α) (f : File) : File :=
  { f with bindings := (m.run.run { bindings := f.bindings }).2.bindings }

theorem Repeats.grows {α : Type} {m : Mapping α} (hm : m.Repeats) (f : File) :
    f.bindings.Grows (m.after f).bindings := by
  have h := hm { bindings := f.bindings }
  unfold Ends at h
  unfold after
  split at h
  · next hrun => rw [hrun]; exact h.1
  · next hrun => rw [hrun]; exact h

end Mapping

namespace TypeContext

variable (c : TypeContext) (component : String)

/-- The name that a component is declared under, if it is what the file declares and no type of the client
stands for it. -/
def declaredName? : Option String :=
  if c.transfers.has component then none else (c.own.filter (·.1 == component)).map (·.2)

/-- The name of a component in the file. -/
def nameOf : Mapping String := do
  match c.transfers.at? component with
  | some target => match target.module with
    | some module => Mapping.importNamed module target.name true
    | none => return target.name
  | none =>
    let _ ← c.components.schema component
    match c.declaredName? component with
    | some name => return name
    | none =>
      let name ← Mapping.importDefault (Naming.modelModule component) (Naming.simpleName component) true
      Mapping.noteReference component
      return name

/-- The arguments that a component is applied to: as many as it has type parameters, unless a type of the
client stands for it. -/
def argumentsOf (args : List Ty) : List Ty :=
  if c.transfers.has component then args else padded args (c.components.arity component)

/-- **A component is named**, and then applied. -/
theorem reference_eq (args : List Ty) : c.reference component args = do
    return .named (← c.nameOf component) (c.argumentsOf component args) := by
  unfold reference nameOf argumentsOf declaredName? Entries.has
  cases c.transfers.at? component with
  | some target =>
    dsimp only
    cases target.module <;> rfl
  | none =>
    dsimp only
    cases hs : c.components.schema component with
    | error e => rfl
    | ok schema =>
      have harity : c.components.arity component = schema.typeParameters.length := by
        simp [Components.arity, hs]
      rw [harity]
      cases c.own.filter (·.1 == component) <;> rfl

/-- **Naming a component** repeats itself. -/
theorem nameOf_repeats : (c.nameOf component).Repeats := by
  unfold nameOf
  cases c.transfers.at? component with
  | some target =>
    dsimp only
    cases target.module with
    | some module => exact Mapping.importNamed_repeats module target.name
    | none => exact Mapping.repeats_sequential.pure target.name
  | none =>
    refine Mapping.repeats_sequential.bind (Mapping.repeats_sequential.lift _) fun _ => ?_
    split
    · exact Mapping.repeats_sequential.pure _
    · refine Mapping.repeats_sequential.bind (Mapping.importDefault_repeats _ _) fun name => ?_
      refine Mapping.repeats_sequential.bind (Mapping.noteReference_repeats component) fun _ => ?_
      exact Mapping.repeats_sequential.pure name

theorem reference_repeats (args : List Ty) : (c.reference component args).Repeats := by
  rw [reference_eq]
  exact Mapping.repeats_sequential.map (c.nameOf_repeats component) _

variable {c component} {own : Option (String × String)}

/-- **What the file declares matters for its own name only.** -/
theorem nameOf_of_declaredName?_eq
    (h : { c with own }.declaredName? component = c.declaredName? component) :
    { c with own }.nameOf component = c.nameOf component := by
  unfold nameOf
  rw [h]

/-- A component that has a name in a file has the name of its declaration where it is what the file declares. -/
theorem nameOf_of_declaredName? {f f₁ f₂ : File} {name declared : String} {names : List String}
    (hnamed : (c.nameOf component).inFile f = .ok (name, f₁, names))
    (h : { c with own }.declaredName? component = some declared) :
    ({ c with own }.nameOf component).inFile f₂ = .ok (declared, f₂, []) := by
  unfold nameOf at hnamed ⊢
  rw [h]
  cases ht : c.transfers.at? component with
  | some target => simp [declaredName?, Entries.has, ht] at h
  | none =>
    rw [ht] at hnamed
    cases hs : c.components.schema component with
    | error e => rw [hs] at hnamed; cases hnamed
    | ok s => rfl

end TypeContext

/-- A file after something was done to it: a step of its bindings; telling the type of a schema or naming a
component, which may fail; a further declaration; a function that is replaced by a subscription or the
construction of a signal; a declaration that becomes the union of what refers to leaves, or gets a tag. -/
inductive File.Edit : File → File → Prop where
  | step (f : File) (step : Bindings.Step) : Edit f { f with bindings := (f.bindings.perform step).2 }
  | told (f : File) (c : TypeContext) (s : Schema) : Edit f ((c.typeOf s).after f)
  | named (f : File) (c : TypeContext) (component : String) (args : List Ty) :
      Edit f ((c.reference component args).after f)
  | pushed (f : File) (d : Declaration) : Edit f (f.push d)
  | subscribed {f g f' : File} {c : TypeContext} {v : Conventions} {classes : List String}
      {endpoint method : String} {response : Schema} {arguments : Expr} {built : Ty × Expr}
      {names : List String} {h : Function} :
      ((subscriptions classes).build () c v endpoint method response arguments).inFile f =
        .ok (built, g, names) →
      replaceFunction g h = .ok f' → Edit f f'
  | constructed {f g f' : File} {c : TypeContext} {v : Conventions} {models : Option (Entries Model)}
      {s : Signal} {endpoint method : String} {response : Schema} {arguments : Expr} {built : Ty × Expr}
      {names : List String} {h : Function} :
      ((signalConstructions models).build s c v endpoint method response arguments).inFile f =
        .ok (built, g, names) →
      replaceFunction g h = .ok f' → Edit f f'
  | united {f g : File} {c : TypeContext} {leaves : List String} {types : List Ty} {names : List String}
      {name : String} :
      (leaves.mapM fun leaf => c.reference leaf []).inFile f = .ok (types, g, names) →
      Edit f (g.adjust name (withType (.unite types)))
  | tagged (f : File) (name property tag : String) : Edit f (f.adjust name (withTag property tag))

/-- A replaced function leaves the bindings alone. -/
theorem bindings_replaceFunction {f f' : File} {h : Function} (hreplaced : replaceFunction f h = .ok f') :
    f'.bindings = f.bindings := by
  unfold replaceFunction at hreplaced
  split at hreplaced
  · obtain rfl := Except.ok.inj hreplaced
    rfl
  · cases hreplaced

/-- **Nothing that is done to a file makes it forget** what it knows something by. -/
theorem File.Edit.grows {f f' : File} (h : File.Edit f f') : f.bindings.Grows f'.bindings := by
  have hadded : ∀ {α : Type} {m : Mapping α} {a : α} {g : File} {names : List String},
      m.inFile f = .ok (a, g, names) → TypeContext.Steady (TypeState.Extends f.bindings) m →
      f.bindings.Grows g.bindings := fun hin hm => by
    obtain ⟨ms, b, hadds, rfl⟩ := adds_of_inFile hm hin
    exact hadds.grows
  cases h with
  | step step => exact f.bindings.grows_perform step
  | told c s => exact (Mapping.repeats_sequential.typeOf c.reference_repeats s).grows f
  | named c component args => exact (c.reference_repeats component args).grows f
  | pushed d => exact .refl _
  | subscribed hin hreplaced =>
    rw [bindings_replaceFunction hreplaced]
    exact hadded hin (TypeContext.subscriptions_steady TypeContext.reference_extends
      (TypeContext.importNamed_extends _ _ _) (TypeContext.importDefault_extends _ _ _) _ _ _ _ _)
  | constructed hin hreplaced =>
    rw [bindings_replaceFunction hreplaced]
    exact hadded hin (TypeContext.signalConstructions_steady TypeContext.reference_extends
      (fun _ => TypeContext.importNamed_extends _ _ _) (TypeContext.importDefault_extends _ _ _)
      _ _ _ _ _)
  | united hin =>
    have hgrows := hadded hin (.mapM fun leaf _ => TypeContext.reference_extends leaf [])
    exact hgrows
  | tagged name property tag => exact .refl _

theorem File.grows_of_edits {f f' : File} (h : Relation.ReflTransGen File.Edit f f') :
    f.bindings.Grows f'.bindings := by
  induction h with
  | refl => exact .refl _
  | tail _ hedit ih => exact ih.trans hedit.grows

/-- **Types are stable within a file.** After the type of a schema was told for a file, and then anything was
done to the file, telling it again gives the same type and the same components, and leaves the file as it is:
no name is bound, nothing is imported, and no import becomes one of a value. The same holds of types with
nothing, of properties, and of a component, which keeps its name, whatever it is applied to and whatever else
the file declares. Only where it is what the file declares, it has the name of its declaration. -/
theorem TypeContext.told_again (c : TypeContext) {f f₁ f₂ : File}
    (hedits : Relation.ReflTransGen File.Edit f₁ f₂) :
    (∀ s t names, (c.typeOf s).inFile f = .ok (t, f₁, names) →
      (c.typeOf s).inFile f₂ = .ok (t, f₂, names)) ∧
    (∀ s t names, (c.nullableTypeOf s).inFile f = .ok (t, f₁, names) →
      (c.nullableTypeOf s).inFile f₂ = .ok (t, f₂, names)) ∧
    (∀ name s required p names, (c.property name s required).inFile f = .ok (p, f₁, names) →
      (c.property name s required).inFile f₂ = .ok (p, f₂, names)) ∧
    ∀ component args t names, (c.reference component args).inFile f = .ok (t, f₁, names) →
      ∃ localName, t = .named localName (c.argumentsOf component args) ∧
        ∀ own args', let c' : TypeContext := { c with own }
          (c'.declaredName? component = c.declaredName? component →
            (c'.reference component args').inFile f₂ =
              .ok (.named localName (c.argumentsOf component args'), f₂, names)) ∧
          ∀ declared, c'.declaredName? component = some declared →
            (c'.reference component args').inFile f₂ =
              .ok (.named declared (c.argumentsOf component args'), f₂, []) := by
  have hgrows := File.grows_of_edits hedits
  have hc := c.reference_repeats
  refine ⟨fun s _ _ h => ?_, fun s _ _ h => ?_, fun name s required _ _ h => ?_,
    fun component args t names h => ?_⟩
  · exact (Mapping.repeats_sequential.typeOf hc s).inFile h hgrows
  · exact (Mapping.repeats_sequential.nullableTypeOf hc s).inFile h hgrows
  · exact (Mapping.repeats_sequential.property hc name s required).inFile h hgrows
  · -- The name that was given does not depend on the arguments.
    rw [TypeContext.reference_eq, Mapping.inFile_map] at h
    obtain ⟨⟨localName, _, _⟩, hnamed, h⟩ := map_eq_ok.1 h
    cases h
    refine ⟨localName, rfl, fun own args' => ⟨fun hsame => ?_, fun declared hdeclared => ?_⟩⟩
    · rw [TypeContext.reference_eq, Mapping.inFile_map, nameOf_of_declaredName?_eq hsame,
        (c.nameOf_repeats component).inFile hnamed hgrows]
      rfl
    · rw [TypeContext.reference_eq, Mapping.inFile_map, nameOf_of_declaredName? hnamed hdeclared]
      rfl

/-- The items of a list are told, then imported as a value, another `Item` is declared, and the list is
wrapped by an alias. The list still is one of `Item`, other than where `Item_1` is what the file declares. -/
theorem TypeContext.told_again_items :
    let c : TypeContext := { components := { schemas := [("com.example.Item", .inline {})] }, transfers := [] }
    let s : Schema := .inline {
      type := some (.single .array), items := some (.ref "#/components/schemas/com.example.Item") }
    let f : File := ⟨"Endpoint.ts", "backbone", .ofFile "Endpoint.ts" ".js" .whenTaken, []⟩
    let f₁ := (c.typeOf s).after f
    let f₂ := { f₁ with
      bindings := (f₁.bindings.perform (.importDefault "./com/example/Item" "Other" false)).2 }
    let f₃ := { f₂ with bindings := (f₂.bindings.perform (.declare "Item")).2 }
    let f₄ := f₃.push (.alias { name := "Item_1", type := .array (.ref "Item") })
    let items : Ty := .array (.ref "Item")
    (c.typeOf s).inFile f = .ok (items, f₁, ["com.example.Item"]) ∧
      Relation.ReflTransGen File.Edit f₁ f₄ ∧
      (c.typeOf s).inFile f₄ = .ok (items, f₄, ["com.example.Item"]) ∧
      ({ c with own := some ("com.example.Item", "Item_1") }.reference "com.example.Item" []).inFile f₄ =
        .ok (.ref "Item_1", f₄, []) := by
  intro c s f f₁ f₂ f₃ f₄ items
  have htold : (c.typeOf s).inFile f = .ok (items, f₁, ["com.example.Item"]) := by rfl
  have hnamed : (c.reference "com.example.Item" []).inFile f =
      .ok (.ref "Item", f₁, ["com.example.Item"]) := by rfl
  have hedits : Relation.ReflTransGen File.Edit f₁ f₄ :=
    ((Relation.ReflTransGen.single (.step f₁ _)).tail (.step f₂ _)).tail (.pushed f₃ _)
  obtain ⟨hagain, -, -, hnames⟩ := c.told_again hedits
  obtain ⟨localName, -, hname⟩ := hnames _ _ _ _ hnamed
  exact ⟨htold, hedits, hagain s _ _ htold, (hname _ []).2 "Item_1" rfl⟩

/-- An operation of `E` gives back a component that has the name of the endpoint and holds itself. -/
def selfService : Json :=
  operationsDocument [("/E/get", refTo "E")]
    [("E", .object [("properties", .object [("next", refTo "E")])])]

/-- A wrapper and an interface that are all that is declared. -/
def wrapperAndInterface? : List Declaration → Option (Function × Interface)
  | [.function g, .interface h] => some (g, h)
  | _ => none

theorem eq_of_wrapperAndInterface? {ds : List Declaration} {p : Function × Interface}
    (h : wrapperAndInterface? ds = some p) : ds = [.function p.1, .interface p.2] := by
  unfold wrapperAndInterface? at h
  split at h
  · rw [← Option.some.inj h]
  · cases h

/-- **A component that has two names in a file**: the file of the endpoint is that of the component. What the
wrapper gives back is imported, and the component is declared under another name, which it calls itself. -/
theorem TypeContext.not_namedOnce :
    ∃ d r f g h, Document.ofJson selfService = .ok d ∧ d.validate = .ok () ∧
      (executeAll ⟨d, {}⟩ Pass.usual).run.run (Run.start {}) = (.ok (), r) ∧
      r.sources.at? "E.ts" = some f ∧ f.declarations = [.function g, .interface h] ∧
      g.result = .named "Promise" [.ref "E"] ∧ h.name = "E_1" ∧ h.members.map (·.type) = [.ref "E_1"] ∧
      let j : Job := ⟨d, {}⟩
      (((j.types r).reference "E" []).inFile f).map Prod.fst = .ok (.ref "E") ∧
        (((j.types r (some ("E", "E_1"))).reference "E" []).inFile f).map Prod.fst = .ok (.ref "E_1") := by
  have hrun := exists_of_runOf? selfService {} Pass.usual (fun d r => (r.sources.at? "E.ts").any fun f =>
    let j : Job := ⟨d, {}⟩
    (wrapperAndInterface? f.declarations).any (fun p => decide (
      p.1.result = .named "Promise" [.ref "E"] ∧ p.2.name = "E_1" ∧ p.2.members.map (·.type) = [.ref "E_1"])) &&
    decide ((((j.types r).reference "E" []).inFile f).map Prod.fst = .ok (.ref "E") ∧
      (((j.types r (some ("E", "E_1"))).reference "E" []).inFile f).map Prod.fst = .ok (.ref "E_1")))
    (by decide +kernel)
  obtain ⟨d, r, hd, hvalid, hr, htest⟩ := hrun
  obtain ⟨f, hf, htest⟩ := (Option.any_eq_true ..).1 htest
  obtain ⟨htypes, hnames⟩ := Bool.and_eq_true_iff.1 htest
  obtain ⟨⟨g, h⟩, hdeclarations, htypes⟩ := (Option.any_eq_true ..).1 htypes
  obtain ⟨hresult, hname, hmembers⟩ := of_decide_eq_true htypes
  exact ⟨d, r, f, g, h, hd, hvalid, hr, hf, eq_of_wrapperAndInterface? hdeclarations, hresult, hname,
    hmembers, of_decide_eq_true hnames⟩

end Client
end OpenApiClient
