/-
# What the steps of passes do

Each step of a pass changes one file of the run, and perhaps the log. What becomes of the file is
said here once for every step, together with the errors that stop it; what passes keep is read off
from these lemmas.

Steps are taken in a valid document, where no reference stops them.
-/

import OpenApiClient.Client.Generation
import OpenApiClient.Proofs.EmptyValues
import OpenApiClient.Proofs.FreshName
import OpenApiClient.Proofs.Leaves
import OpenApiClient.Proofs.Methods
import OpenApiClient.Proofs.Wrappers

namespace OpenApiClient
namespace Client

open OpenApi TypeScript OpenApiClient.Module

/-- The run `r'` comes from `r` by writing a file and perhaps to the log. -/
def Run.Writes (f : File) (r r' : Run) : Prop :=
  ∃ log, r' = { r with sources := r.sources.put f, log }

section Results

variable {α β ε : Type} {r : Run} {Q : β → Run → Prop} {E : PassError → Run → Prop}
  {f : α → Action β}

/-- The result of another computation, as a step. -/
theorem ends_mapError_bind {g : ε → PassError} {x : Except ε α}
    (hok : ∀ a, x = .ok a → Ends (f a) r Q E) (herr : ∀ e, x = .error e → E (g e) r) :
    Ends ((ExceptT.mk (pure (x.mapError g)) : Action α) >>= f) r Q E := by
  cases x with
  | ok a => exact ends_bind.2 (hok a rfl)
  | error e => exact ends_bind.2 (herr e rfl)

/-- A result that is there, as a step. -/
theorem ends_ok_bind {g : ε → PassError} {x : Except ε α} {a : α} (h : x = .ok a)
    (hf : Ends (f a) r Q E) : Ends ((ExceptT.mk (pure (x.mapError g)) : Action α) >>= f) r Q E :=
  ends_mapError_bind (fun b hb => by rw [h] at hb; cases hb; exact hf) fun e he => by
    rw [h] at he; cases he

/-- What types are told for a file that cannot fail. -/
theorem inFile_spec {m : Mapping α} {g : File} {P : α → TypeState → Prop}
    (h : Ends m { bindings := g.bindings } P fun _ _ => False) :
    ∃ a t, m.inFile g = .ok (a, { g with bindings := t.bindings }, t.referenced) ∧ P a t := by
  unfold Ends at h
  unfold Mapping.inFile
  split at h
  · next a t hr => exact ⟨a, t, by rw [hr], h⟩
  · exact h.elim

end Results

/-- The components that were noted, and those whose modules were imported, are the same. -/
theorem moves_referenced {s t : TypeState} {ns ms : List String} (h : s.Moves ns ms t)
    (hs : s.referenced = []) :
    (∀ n, n ∈ t.referenced ↔ n ∈ ns) ∧
      Bindings.Adds (t.referenced.map Naming.modelModule ++ ms) s.bindings t.bindings := by
  have hmem : ∀ n, n ∈ t.referenced ↔ n ∈ ns := by simp [h.referenced, hs]
  refine ⟨hmem, h.adds.congr fun m => ?_⟩
  simp only [List.mem_append, List.mem_map, hmem]

section Endpoints

variable (j : Job)

/-- The function `g` is written for a method of a call: it forwards the arguments of the method through
the client that the bindings know, and `names` are the components that the types of the method name. -/
def WrittenFor (c : TypeContext) (v : Conventions) (b : Bindings) (endpoint : String) (call : Call)
    (names : List String) (g : Function) : Prop :=
  ∃ (m : Method) (client : String), m.IsOf c.components call ∧
    (∀ n, n ∈ names ↔ n ∈ m.mentions.flatMap c.notedBy) ∧
    clientOf? v b = some client ∧ Forwards client endpoint call.name (m.arguments.map (·.name)) g

/-- The file `f'` is `f` with the wrapper of a call, which is exported under the name of the call;
`names` are the components that the wrapper needs. -/
def AddsMethod (c : TypeContext) (v : Conventions) (endpoint : String) (call : Call)
    (localName : String) (names : List String) (f f' : File) : Prop :=
  ∃ g b exports, g.name = localName ∧ Wraps v b endpoint call.name g ∧
    WrittenFor c v b endpoint call names g ∧
    (∀ b', b.Grows b' → ∀ r ∈ (Declaration.function g).references,
      c.Refers b' (variablesOf c.components call.operation) r) ∧
    Bindings.Adds (names.map Naming.modelModule ++ [v.clientModule]) f.bindings b ∧
    f.bindings.exports.add localName call.name = .ok exports ∧
    f' = { f with
      declarations := f.declarations ++ [.function g], bindings := { b with exports } }

theorem AddsMethod.place {c : TypeContext} {v : Conventions} {endpoint localName : String}
    {call : Call} {names : List String} {f f' : File}
    (h : AddsMethod c v endpoint call localName names f f') :
    f'.path = f.path ∧ f'.bindings.site = f.bindings.site := by
  obtain ⟨g, b, exports, -, -, -, -, hadds, -, rfl⟩ := h
  exact ⟨rfl, hadds.site⟩

/-- **A method is written**, unless its name is exported already. -/
theorem writeMethod_spec (endpoint file : String) {call : Call} (localName : String)
    (ho : j.document.parts.ValidOperation call.operation) (r : Run) :
    Ends (writeMethod j endpoint file call localName) r
      (fun p r' => p.1.IsOf j.document.parts call ∧ p.1.localName = localName ∧
        (∀ s, p.1.response = some s →
          j.document.parts.Closed s ∧ s.typeVariables ⊆ variablesOf j.document.parts call.operation) ∧
        (∀ n ∈ p.2, (j.types r).Open n) ∧
        ∃ f', AddsMethod (j.types r) j.settings.conventions endpoint call localName p.2
          (r.sources.openFile file Pass.backbone.path) f' ∧ r.Writes f' r')
      (fun e _ => ∃ d, e = .duplicateExport d) := by
  obtain ⟨arguments, harguments, hclosed⟩ := argumentsOf_ok ho
  obtain ⟨response, hresponse, hclosed'⟩ := responseOf_ok ho
  have hm : Method.Closed (j.types r).components ⟨call.name, localName, arguments, response⟩ :=
    ⟨hclosed, hclosed'⟩
  have his : Method.IsOf j.document.parts call ⟨call.name, localName, arguments, response⟩ :=
    ⟨rfl, harguments, hresponse⟩
  have hvariables : (⟨call.name, localName, arguments, response⟩ : Method).typeVariables =
      variablesOf j.document.parts call.operation := by
    rw [variablesOf, harguments, hresponse]
    rfl
  obtain ⟨g, t, hwrapper, hname, hwraps, ⟨client, hclient, hforwards⟩, hrefers, hmoves⟩ := inFile_spec
    (TypeContext.wrapper_spec (c := j.types r) j.settings.conventions endpoint call hm
      { bindings := (r.sources.openFile file Pass.backbone.path).bindings })
  obtain ⟨hmem, hadds⟩ := moves_referenced hmoves rfl
  rw [hvariables] at hrefers
  unfold writeMethod
  refine ends_ok_bind harguments (ends_ok_bind hresponse ?_)
  rw [ends_bind, ends_get]
  refine ends_ok_bind hwrapper (ends_mapError_bind (fun b hb => ?_) fun d _ => ⟨d, rfl⟩)
  obtain ⟨exports, hexports, rfl⟩ := map_eq_ok.1 hb
  refine ⟨his, rfl, fun s hs => ⟨hclosed' s hs, fun name hn => ?_⟩, fun n hn => ?_, _,
    ⟨g, t.bindings, exports, hname, hwraps, ⟨_, client, his, hmem, hclient, hforwards⟩, hrefers, hadds, ?_,
      rfl⟩, _, rfl⟩
  · rw [← hvariables]
    exact List.mem_append_right _ (List.mem_flatMap.2 ⟨s, by simpa using hs, hn⟩)
  · exact TypeContext.open_of_mem_noted (fun _ h => hm.leads_of_mention h) ((hmem n).1 hn)
  · rw [← hadds.exports]
    exact hexports

/-- The file with more names bound. -/
def bindNames (f : File) (names : List String) : File :=
  { f with bindings := { f.bindings with scope := ⟨f.bindings.scope.taken ++ names⟩ } }

/-- **Names are declared** for the wrappers of an endpoint. -/
theorem declareAll_spec (file : String) (names : List String) (r : Run) :
    Ends (declareAll file names) r
      (fun locals r' => locals.length = names.length ∧
        (r.sources.openFile file Pass.backbone.path).bindings.scope.Fresh locals ∧
          r.Writes (bindNames (r.sources.openFile file Pass.backbone.path) locals) r')
      fun _ _ => False := by
  have ⟨hlength, htaken, hfresh⟩ :=
    (r.sources.openFile file Pass.backbone.path).bindings.scope.bindAll_spec names
  refine ⟨hlength, hfresh, r.log, ?_⟩
  rw [bindNames, ← htaken]

end Endpoints

/-- The name of a new declaration is fresh, and bound. -/
theorem declare_spec (b : Bindings) (id : String) :
    ∃ identifier b', b.declare id = (identifier, b') ∧ b.scope.Fresh [identifier] ∧
      b' = { b with scope := ⟨b.scope.taken ++ [identifier]⟩ } :=
  ⟨_, _, rfl, b.scope.fresh_bind id false, rfl⟩

section Models

variable {j : Job} (hv : j.document.Valid)
include hv

/-- The file `f'` is `f` with the declaration of a component, which is its default export; `names` are
the components that the declaration needs. -/
def AddsModel (c : TypeContext) (component identifier : String) (names : List String) (f f' : File) :
    Prop :=
  ∃ form d b, Form.of? c.components component = some form ∧
    (∀ b', b.Grows b' → c.Declares b' identifier form d) ∧
    (∀ n, n ∈ names ↔ n ∈ (c.mentionsOf form).flatMap c.notedBy) ∧
    f.bindings.scope.Fresh [identifier] ∧
    Bindings.Adds (names.map Naming.modelModule)
      { f.bindings with scope := ⟨f.bindings.scope.taken ++ [identifier]⟩ } b ∧
    f' = { f with
      declarations := f.declarations ++ [d], bindings := b.exportDefault identifier }

omit hv in
theorem AddsModel.place {c : TypeContext} {component identifier : String} {names : List String}
    {f f' : File} (h : AddsModel c component identifier names f f') :
    f'.path = f.path ∧ f'.bindings.site = f.bindings.site := by
  obtain ⟨form, d, b, -, -, -, -, hadds, rfl⟩ := h
  exact ⟨rfl, hadds.site⟩

/-- **A model is written.** -/
theorem writeModel_spec {component : String} (h : j.document.parts.Leads component) (r : Run) :
    Ends (writeModel j component) r
      (fun p r' => p.1.file = Naming.modelFile component ∧ p.1.emptyValue.references = [] ∧
        (∀ n ∈ p.2, (j.types r).Open n) ∧
        ∃ f', AddsModel (j.types r (some (component, p.1.identifier))) component p.1.identifier p.2
          (r.sources.openFile (Naming.modelFile component) Pass.model.path) f' ∧ r.Writes f' r')
      fun _ _ => False := by
  obtain ⟨f, hf⟩ : ∃ f, r.sources.openFile (Naming.modelFile component) Pass.model.path = f :=
    ⟨_, rfl⟩
  obtain ⟨identifier, bindings, hdeclare, hfresh, hbindings⟩ :=
    declare_spec f.bindings (Naming.simpleName component)
  obtain ⟨form, hform⟩ := TypeContext.exists_form h
  obtain ⟨d, t, hdeclaration, hmoves, hdeclares⟩ :=
    inFile_spec (g := { f with bindings })
      (TypeContext.declarationOf_gives (c := j.types r (some (component, identifier))) hv.parts hform
        identifier { bindings })
  obtain ⟨hmem, hadds⟩ := moves_referenced hmoves rfl
  unfold writeModel
  rw [ends_bind, ends_get, hf]
  simp only [hdeclare]
  refine ends_ok_bind hdeclaration ⟨rfl, rfl, fun n hn => ?_, _,
    ⟨form, d, t.bindings, hform, hdeclares, hmem, hfresh, ?_, rfl⟩, _, rfl⟩
  · have hopen := TypeContext.open_of_mem_noted (c := j.types r (some (component, identifier)))
      (fun _ hn => TypeContext.leads_of_mentionsOf hv.parts hform hn) ((hmem n).1 hn)
    exact ⟨hopen.leads, hopen.free⟩
  · simpa [← hbindings] using hadds

end Models

section Unions

/-- The change leaves the name and the type parameters of a declaration alone, and functions
altogether. -/
structure Keeps (change : Declaration → Declaration) : Prop where
  name : ∀ d, (change d).name = d.name
  typeParameters : ∀ d, (change d).typeParameters = d.typeParameters
  function : ∀ g, change (.function g) = .function g
  isFunction : ∀ d g, change d = .function g → d = .function g

theorem withType_keeps (type : Ty) : Keeps (withType type) :=
  ⟨fun d => by cases d <;> rfl, fun d => by cases d <;> rfl, fun _ => rfl,
    fun d g h => by cases d <;> simp_all [withType]⟩

theorem withTag_keeps (property tag : String) : Keeps (withTag property tag) :=
  ⟨fun d => by cases d <;> rfl, fun d => by cases d <;> rfl, fun _ => rfl,
    fun d g h => by cases d <;> simp_all [withTag]⟩

/-- A declaration with another type refers to what the type refers to. -/
theorem references_withType {type : Ty} {d : Declaration} {r : Reference}
    (h : r ∈ (withType type d).references) : r ∈ d.references ∨ r ∈ type.references := by
  cases d with
  | «alias» a => exact .inr h
  | function | interface | enumeration => exact .inl h

/-- Pinning a property to a tag adds no reference. -/
theorem references_withTag {property tag : String} {d : Declaration} {r : Reference}
    (h : r ∈ (withTag property tag d).references) : r ∈ d.references := by
  cases d with
  | function | «alias» | enumeration => exact h
  | interface i =>
    simp only [withTag, Declaration.references, Ty.referencesOfMembers_eq, List.mem_append] at h ⊢
    refine h.imp_right fun h => ?_
    obtain ⟨p, hp, hr⟩ := List.mem_flatMap.1 h
    unfold pinTag at hp
    split at hp
    · obtain ⟨k, hk, rfl⟩ := List.mem_iff_getElem.1 hp
      rw [List.getElem_modify] at hr
      split at hr
      · simp [Ty.references] at hr
      · exact List.mem_flatMap.2 ⟨_, List.getElem_mem _, hr⟩
    · rcases List.mem_cons.1 hp with rfl | hp
      · simp [Ty.references] at hr
      · exact List.mem_flatMap.2 ⟨p, hp, hr⟩

/-- The components that the union of the leaves of a component names. -/
def leafNames (c : TypeContext) (component : String) : List String :=
  match c.components.schema component with
  | .error _ => []
  | .ok s => if !Schema.isUnion s then [] else match leavesOf c component s with
    | .ok (some leaves) => leaves.flatMap c.noted
    | _ => []

/-- The run `r'` comes from `r` by a change of a declaration in the file of a model that keeps
functions. New references are to components that lead to schemas. -/
def Run.Edits (j : Job) (models : Entries Model) (r r' : Run) : Prop :=
  ∃ component m f name change b, ∃ ns : List String, (component, m) ∈ models ∧
    r.sources.at? m.file = some f ∧ Keeps change ∧
    (∀ b', b.Grows b' → ∀ d, ∀ ref ∈ (change d).references, ref ∈ d.references ∨
      (j.types r (some (component, m.identifier))).Refers b' [] ref) ∧
    (∀ n ∈ ns, n ∈ leafNames (j.types r (some (component, m.identifier))) component) ∧
    Bindings.Adds (ns.map Naming.modelModule) f.bindings b ∧
    r.Writes ({ f with bindings := b }.adjust name change) r'

/-- The modules of which a file may import the default for the sake of a union. -/
def leafModule (j : Job) (transfers : Entries TransferTarget) (models : Entries Model)
    (path module : String) : Prop :=
  ∃ component m n, (component, m) ∈ models ∧ m.file = path ∧
    n ∈ leafNames ⟨j.document.parts, transfers, some (component, m.identifier)⟩ component ∧
    module = Naming.modelModule n

variable {j : Job} (hv : j.document.Valid) {models : Entries Model} {r : Run} {I : Run → Prop}
  (edit : ∀ r r', I r → r.Edits j models r' → I r')
include edit

theorem tagLeaf_spec (base : SchemaObject) (leaf : String) (hI : I r) :
    Ends (tagLeaf models base leaf) r (fun _ r' => I r') fun _ _ => False := by
  unfold tagLeaf
  cases hm : models.at? leaf with
  | none => exact hI
  | some m =>
    simp only
    rw [ends_bind, ends_get]
    cases hf : r.sources.at? m.file with
    | none => exact hI
    | some f =>
      exact edit r _ hI ⟨leaf, m, f, m.identifier, _, f.bindings, [], Entries.mem_of_at? hm, hf,
        withTag_keeps _ _, fun _ _ _ _ h => .inl (references_withTag h), by simp, .refl _, r.log, rfl⟩

include hv

/-- **A component is made the union of its leaves** by changes that keep functions. -/
theorem flatten_spec {component : String} {m : Model} (hm : (component, m) ∈ models)
    (h : j.document.parts.Leads component) (hI : I r) :
    Ends (flatten j models component m) r (fun _ r' => I r') fun _ _ => False := by
  obtain ⟨s, hs⟩ := h
  obtain ⟨leaves, hleaves, hleads⟩ := leavesOf_ok (c := j.types r (some (component, m.identifier)))
    hv.parts component (hv.parts.closed_of_schema hs)
  unfold flatten
  refine ends_ok_bind hs ?_
  split
  · exact hI
  next hu =>
  rw [ends_bind, ends_get]
  refine ends_ok_bind hleaves ?_
  cases leaves with
  | none => exact hI
  | some leaves =>
    simp only
    cases hf : r.sources.at? m.file with
    | none => exact hI
    | some f =>
      have hleaf : leafNames (j.types r (some (component, m.identifier))) component =
          (leaves.flatMap fun leaf => [Mention.component leaf]).flatMap
            (j.types r (some (component, m.identifier))).notedBy := by
        unfold leafNames
        rw [show (j.types r (some (component, m.identifier))).components.schema component = .ok s
          from hs]
        simp only [hleaves, hu, List.flatMap_assoc, List.flatMap_cons, List.flatMap_nil,
          List.append_nil]
        rfl
      have hgives := TypeContext.Gives.mapM (c := j.types r (some (component, m.identifier)))
        fun leaf hleaf => TypeContext.reference_gives (hleads leaves rfl leaf hleaf) []
      obtain ⟨types, t, htypes, hmoves, hrefs⟩ := inFile_spec (hgives { bindings := f.bindings })
      have hrefers : ∀ b, t.bindings.Grows b → ∀ ref ∈ (Ty.unite types).references,
          (j.types r (some (component, m.identifier))).Refers b [] ref := by
        intro b hb ref href
        have hspells := TypeContext.Spells.flatMap (g := Ty.references) <|
          (hrefs b hb).imp fun leaf type (ht : TypeContext.Applies _ b leaf [] type) => ht.spells .nil
        obtain ⟨n, hn, hspelling⟩ := hspells.origin ref (Ty.mem_references_unite.1 href)
        obtain ⟨leaf, hleaf, hn⟩ := List.mem_flatMap.1 hn
        obtain rfl := List.mem_singleton.1 hn
        exact .inl ⟨leaf, hleads leaves rfl leaf hleaf, hspelling⟩
      refine ends_ok_bind htypes ?_
      have hedit := edit r { r with sources := r.sources.put _ } hI
        ⟨component, m, f, m.identifier, withType (.unite types), t.bindings, _, hm, hf,
          withType_keeps _, fun b hb d ref href => (references_withType href).imp_right (hrefers b hb ref),
          fun n hn => hleaf ▸ hn, by simpa using hmoves.adds, r.log, rfl⟩
      exact ends_bind.2 (ends_bind.2 ((ends_forM (fun _ => I) hedit fun _ leaf _ _ _ ht =>
        tagLeaf_spec edit s leaf ht).imp fun _ _ ht => ht))

end Unions

section Replacements

variable {κ : Type} {w : Replacement κ} {j : Job} {late : κ → Schema → List String}

/-- The run `r'` comes from `r` by giving another wrapper to a method of an endpoint, which keeps what is
found of the wrapper that it had. New references come from the response of the method, and the class of
what it constructs is imported. -/
def Run.Replaces (w : Replacement κ) (j : Job) (late : κ → Schema → List String) (e : Endpoint)
    (m : Method) (r r' : Run) : Prop :=
  ∃ response k f g g' b, m.response = some response ∧ w.select response = .ok (some k) ∧
    r.sources.at? e.file = some f ∧ f.declaration? m.localName = some (.function g) ∧
    g'.name = m.localName ∧ Wraps j.settings.conventions b e.name m.name g' ∧
    (∃ result x, g' = (Wrapper.ofFunction g).returning m.localName result x ∧
      Passes w.pass (Wrapper.ofFunction g).arguments x ∧ ImportsClass b x) ∧
    (∀ b', b.Grows b' → ∀ ref ∈ (Declaration.function g').references,
      ref ∈ (Declaration.function g).references ∨
        (j.types r).Refers b' response.typeVariables ref) ∧
    Bindings.Adds ((late k response).map Naming.modelModule ++ [j.settings.conventions.clientModule])
      f.bindings b ∧
    r.Writes ({ f with bindings := b }.adjust m.localName fun _ => .function g') r'

/-- What a wrapper keeps of the function that it was refers to nothing else. -/
theorem references_ofFunction {g : Function} {r : Reference}
    (h : r ∈ (Wrapper.ofFunction g).parameters.flatMap (·.type.references) ∨
      r ∈ (Wrapper.ofFunction g).arguments.references) :
    r ∈ (Declaration.function g).references := by
  simp only [Declaration.references, List.mem_append]
  rcases h with h | h
  · obtain ⟨p, hp, hr⟩ := List.mem_flatMap.1 h
    exact .inl (List.mem_flatMap.2 ⟨p, (List.mem_filter.1 hp).1, hr⟩)
  · refine .inr (.inr ?_)
    simp only [Wrapper.ofFunction] at h
    cases hx : g.body.findSome? objectArgument? with
    | none => simp [hx, Expr.references, Expr.referencesOfEntries] at h
    | some x =>
      obtain ⟨y, hy, hx'⟩ := List.exists_of_findSome?_eq_some hx
      rw [hx, Option.getD_some] at h
      cases y with
      | call f ts args =>
        have hmem := List.mem_of_find?_eq_some hx'
        refine Expr.mem_referencesOfAll.2 ⟨_, hy, ?_⟩
        simp only [Expr.references, List.mem_append]
        exact .inr (.inr (Expr.mem_referencesOfAll.2 ⟨x, hmem, h⟩))
      | _ => simp [objectArgument?] at hx'

theorem declaration?_of_inFile {f : File} {name : String} {wrapper : Wrapper}
    (h : Wrapper.inFile f name = .ok wrapper) :
    ∃ g, f.declaration? name = some (.function g) ∧ wrapper = .ofFunction g := by
  unfold Wrapper.inFile at h
  split at h
  · next g hg => exact ⟨g, hg, (Except.ok.inj h).symm⟩
  · cases h

/-- The replacement selects the method by its response. -/
def Replacement.Selects (w : Replacement κ) (m : Method) : Prop :=
  ∃ response k, m.response = some response ∧ w.select response = .ok (some k)

/-- **A wrapper is replaced**, if the method is selected. The only error is that there is none. -/
theorem replaceSelected_spec (e : Endpoint) {m : Method} {r : Run}
    (hw : w.Lawful (j.types r) late)
    (hm : ∀ s, m.response = some s → j.document.parts.Closed s) :
    Ends (w.replaceSelected j e m) r
      (fun _ r' => (r' = r ∧ (w.Selects m → r.sources.at? e.file = none)) ∨ r.Replaces w j late e m r')
      (fun err _ => ∃ f, r.sources.at? e.file = some f ∧
        (∀ g, f.declaration? m.localName ≠ some (.function g)) ∧
        err = .fault (.noFunction m.localName f.path)) := by
  unfold Replacement.replaceSelected
  cases hresponse : m.response with
  | none => exact .inl ⟨rfl, fun ⟨_, _, hr, _⟩ => by rw [hresponse] at hr; cases hr⟩
  | some response =>
    simp only
    rw [ends_bind, ends_get]
    cases hf : r.sources.at? e.file with
    | none => exact .inl ⟨rfl, fun _ => rfl⟩
    | some f =>
      obtain ⟨k, hk⟩ := hw.select response (hm response hresponse)
      simp only
      refine ends_ok_bind hk ?_
      cases k with
      | none =>
        refine .inl ⟨rfl, fun ⟨_, _, hr, hs⟩ => ?_⟩
        obtain rfl := Option.some.inj (hresponse.symm.trans hr)
        rw [hk] at hs
        cases hs
      | some k =>
        simp only
        unfold Replacement.replace
        rw [ends_bind]
        refine ends_mapError_bind (fun wrapper hwrapper => ?_) fun err herr => ?_
        · obtain ⟨g, hg, rfl⟩ := declaration?_of_inFile hwrapper
          let wrapper := Wrapper.ofFunction g
          obtain ⟨p, t, hbuild, hmoves, ⟨client, hcalls, hclient⟩, hpasses, hrefers⟩ := inFile_spec
            (hw.build k j.settings.conventions e.name m.name response wrapper.arguments
              (hm response hresponse) { bindings := f.bindings })
          have hreplace : replaceFunction { f with bindings := t.bindings }
              (wrapper.returning m.localName p.1 p.2) =
                .ok ({ f with bindings := t.bindings }.adjust m.localName fun _ =>
                  .function (wrapper.returning m.localName p.1 p.2)) := by
            have hdeclaration : ({ f with bindings := t.bindings } : File).declaration?
                (wrapper.returning m.localName p.1 p.2).name = some (.function g) := hg
            rw [replaceFunction, hdeclaration]
            rfl
          rw [ends_bind, ends_get]
          refine ends_ok_bind hbuild (ends_ok_bind hreplace (.inr ?_))
          refine ⟨response, k, f, g, _, t.bindings, hresponse, hk, hf, hg, rfl,
            ⟨client, p.2, rfl, hcalls, hclient⟩, ⟨_, _, rfl, hpasses⟩, fun b hb ref href => ?_, hmoves.adds,
            _, rfl⟩
          have href : ref ∈ wrapper.parameters.flatMap (·.type.references) ∨
              ref ∈ p.1.references ++ p.2.references := by
            simpa [Declaration.references, Wrapper.returning, Expr.referencesOfAll] using href
          rcases href with href | href
          · exact .inl (references_ofFunction (.inl href))
          · exact (hrefers b hb ref href).imp_left fun h => references_ofFunction (.inr h)
        · refine ⟨f, rfl, fun g hg => ?_, ?_⟩
          · rw [Wrapper.inFile, hg] at herr
            cases herr
          · rw [Wrapper.inFile] at herr
            split at herr
            · cases herr
            · exact (Except.error.inj herr).symm ▸ rfl

end Replacements

end Client
end OpenApiClient
