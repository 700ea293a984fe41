/-
# What passes do

A pass repeats steps. What holds after it is told by an invariant of its steps: the theorems of this
file take the invariant, and what each step must do to it, and say what the pass ends in.

The invariants of the passes that write endpoints and models speak of what was done so far: of the
*routes*, which are operations on their way to a function in a file, and of the components that were
named.
-/

import OpenApiClient.Proofs.Sources
import OpenApiClient.Proofs.Steps
import Mathlib.Data.List.TakeWhile

namespace OpenApiClient
namespace Client

open OpenApi TypeScript OpenApiClient.Module

/-- An operation of an endpoint, and the name of its wrapper. -/
structure Route where
  endpoint : String
  call : Call
  localName : String

/-- The file that the wrapper stands in. -/
def Route.file (t : Route) : String := Naming.qualifiedPath t.endpoint ++ ".ts"

section Endpoints

variable {j : Job} {I : List Route → List String → Run → Prop}

/-- The steps that write endpoints keep the invariant `I` of the routes so far, the components named
so far, and the run. -/
structure KeptByEndpoints (j : Job) (I : List Route → List String → Run → Prop) : Prop where
  files : ∀ {T ns r path f}, I T ns r → r.sources.at? path = some f →
    f.path = path ∧ f.bindings.Tidy (f.declarations.map (·.name))
  declares : ∀ {T ns r r' path locals}, I T ns r →
    r.Writes (bindNames (r.sources.openFile path Pass.backbone.path) locals) r' → I T ns r'
  method : ∀ {T ns r r' names f f'} {t : Route}, I T ns r → r.sources.at? t.file = some f →
    f.bindings.Tidy (f.declarations.map (·.name) ++ [t.localName]) →
    (∀ n ∈ names, (j.types r).Open n) → j.document.Has t.call.operation →
    AddsMethod (j.types r) j.settings.conventions t.endpoint t.call t.localName names f f' →
    r.Writes f' r' → I (T ++ [t]) (ns ++ names) r'

/-- The endpoint has the methods that the routes lead to. Their responses are closed, and have no other
type parameters than the document. -/
structure Endpoint.Follows (d : Document) (T : List Route) (e : Endpoint) : Prop where
  file : e.file = Naming.qualifiedPath e.name ++ ".ts"
  names : e.methods.map (·.name) = T.map (·.call.name)
  locals : e.methods.map (·.localName) = T.map (·.localName)
  methods : ∀ m ∈ e.methods, ∃ t ∈ T, t.localName = m.localName ∧ m.IsOf d.parts t.call
  closed : ∀ m ∈ e.methods, ∀ s, m.response = some s → d.parts.Closed s
  known : ∀ m ∈ e.methods, ∀ s, m.response = some s → s.typeVariables ⊆ d.typeVariables

/-- The methods with their endpoints. -/
def Backbone.methods (b : Backbone) : List (Endpoint × Method) :=
  b.endpoints.flatMap fun e => e.methods.map (e, ·)

theorem Backbone.mem_methods {b : Backbone} {p : Endpoint × Method} :
    p ∈ b.methods ↔ p.1 ∈ b.endpoints ∧ p.2 ∈ p.1.methods := by
  simp only [methods, List.mem_flatMap, List.mem_map]
  constructor
  · rintro ⟨e, he, m, hm, rfl⟩
    exact ⟨he, hm⟩
  · exact fun h => ⟨p.1, h.1, p.2, h.2, rfl⟩

/-- The endpoints are those of the document with the methods that are called there, and the routes lead
to these. -/
structure Backbone.Follows (d : Document) (T : List Route) (b : Backbone) : Prop where
  calls : b.endpoints.map (fun e => (e.name, e.methods.map (·.name))) =
    (callsByEndpoint d).map fun e => (e.1, e.2.map (·.name))
  locals : b.methods.map (fun p => (p.1.file, p.2.localName)) = T.map fun t => (t.file, t.localName)
  endpoints : ∀ e ∈ b.endpoints, ∃ T' ⊆ T, (∀ t ∈ T', t.endpoint = e.name) ∧ e.Follows d T'

theorem mem_of_repeated? {names : List String} {calls : List Call} {c : Call}
    (h : repeated? names calls = some c) : c ∈ calls := by
  induction calls generalizing names with
  | nil => simp [repeated?] at h
  | cons d calls ih =>
    rw [repeated?] at h
    split at h
    · exact Option.some.inj h ▸ List.mem_cons_self
    · exact List.mem_cons_of_mem _ (ih h)

/-- The names of the wrappers that are still to be written are tidy together with those in the file. -/
structure Pending (path : String) (locals : List String) (r : Run) : Prop where
  file : ∃ f, r.sources.at? path = some f ∧
    f.bindings.Tidy (f.declarations.map (·.name) ++ locals)

variable (hI : KeptByEndpoints j I) (hv : j.document.Valid)
include hI hv

theorem writeMethods_spec {T : List Route} {ns : List String} {r : Run} (name : String)
    {calls : List Call} {locals : List String} (hcalls : ∀ c ∈ calls, j.document.Has c.operation)
    (hlength : locals.length = calls.length)
    (hp : Pending (Naming.qualifiedPath name ++ ".ts") locals r) (h : I T ns r) :
    Ends ((calls.zip locals).mapM fun p =>
        writeMethod j name (Naming.qualifiedPath name ++ ".ts") p.1 p.2) r
      (fun ys r' => ∃ T' : List Route, T'.map (·.call) = calls ∧ (∀ t ∈ T', t.endpoint = name) ∧
        (Endpoint.mk name (Naming.qualifiedPath name ++ ".ts") (ys.map (·.1))).Follows
          j.document T' ∧ I (T ++ T') (ns ++ ys.flatMap (·.2)) r')
      (fun e _ => ∃ d, e = .duplicateExport d) := by
  let route (p : Call × String) : Route := ⟨name, p.1, p.2⟩
  have hlocals : (calls.zip locals).map Prod.snd = locals := List.map_snd_zip (by omega)
  refine (ends_mapM (fun done ys r' =>
    Pending (Naming.qualifiedPath name ++ ".ts") (locals.drop done.length) r' ∧
    ys.map (·.1.localName) = done.map (·.2) ∧ ys.map (·.1.name) = done.map (·.1.name) ∧
    (∀ y ∈ ys, ∃ p ∈ done, p.2 = y.1.localName ∧ y.1.IsOf j.document.parts p.1) ∧
    (∀ y ∈ ys, ∀ s, y.1.response = some s →
      j.document.parts.Closed s ∧ s.typeVariables ⊆ j.document.typeVariables) ∧
    I (T ++ done.map route) (ns ++ ys.flatMap (·.2)) r') ?_ ?_).imp ?_
  · exact ⟨hp, rfl, rfl, by simp, by simp, by simpa using h⟩
  · rintro done ⟨call, localName⟩ rest ys r₁ hd ⟨⟨f, hf, htidy⟩, hys, hnames, hrecords, hresponses, h⟩
    have hmem : (call, localName) ∈ calls.zip locals := by simp [← hd]
    have hsplit : locals = done.map (·.2) ++ localName :: rest.map (·.2) := by
      rw [← hlocals, ← hd]
      simp
    have hrest : locals.drop done.length = localName :: rest.map (·.2) := by
      rw [hsplit]
      exact List.drop_left' (by simp)
    have hnext : locals.drop (done ++ [(call, localName)]).length = rest.map (·.2) := by
      rw [List.length_append, ← List.drop_drop, hrest]
      rfl
    rw [hrest] at htidy
    have hhas := hcalls call (List.of_mem_zip hmem).1
    refine (writeMethod_spec j name _ localName (hv.operation_of_has hhas) r₁).imp ?_
    rintro ⟨m, names⟩ r₂ ⟨his, hlocal, hresponse, hopen, f', hadds, hwrites⟩
    rw [Sources.openFile_of_at? _ hf] at hadds
    have hpath := (hI.files h hf).1
    refine ⟨⟨f', ?_, ?_⟩, ?_, ?_, ?_, ?_, ?_⟩
    · obtain ⟨g, b, exports, -, -, -, -, -, -, rfl⟩ := hadds
      obtain ⟨log, rfl⟩ := hwrites
      rw [Sources.at?_put, if_pos hpath.symm]
    · obtain ⟨g, b, exports, hg, -, -, -, hadds, -, rfl⟩ := hadds
      have ⟨apart, bound, unreserved⟩ := htidy.adds hadds
      rw [hnext]
      simpa [Declaration.name, hg] using Bindings.Tidy.mk (b := { b with exports })
        apart bound unreserved
    · simp only [List.map_append, hys, List.map_cons, List.map_nil]
      rw [show m.localName = localName from hlocal]
    · simp only [List.map_append, hnames, List.map_cons, List.map_nil]
      rw [show m.name = call.name from his.name]
    · intro y hy
      rcases List.mem_append.1 hy with hy | hy
      · obtain ⟨p, hp, hrecord⟩ := hrecords y hy
        exact ⟨p, List.mem_append_left _ hp, hrecord⟩
      · obtain rfl := List.mem_singleton.1 hy
        exact ⟨(call, localName), by simp, hlocal.symm, his⟩
    · intro y hy
      rcases List.mem_append.1 hy with hy | hy
      · exact hresponses y hy
      · obtain rfl := List.mem_singleton.1 hy
        exact fun s hs => (hresponse s hs).imp_right fun hsub =>
          List.Subset.trans hsub (Document.variablesOf_subset hhas)
    · have := hI.method (t := route (call, localName)) h hf
        (htidy.sublist (List.Sublist.append_left (by simp [route]) _)) hopen hhas hadds hwrites
      simpa [route] using this
  · rintro ys r' ⟨-, hys, hnames, hrecords, hresponses, h⟩
    have hresponses : ∀ m ∈ ys.map (·.1), ∀ s, m.response = some s →
        j.document.parts.Closed s ∧ s.typeVariables ⊆ j.document.typeVariables := by
      simpa using hresponses
    refine ⟨(calls.zip locals).map route, ?_, ?_, ⟨rfl, ?_, ?_, ?_, ?_, ?_⟩, h⟩
    · rw [List.map_map]
      exact List.map_fst_zip (by omega)
    · intro t ht
      obtain ⟨p, -, rfl⟩ := List.mem_map.1 ht
      rfl
    · simpa [Function.comp_def, route] using hnames
    · simpa [Function.comp_def, route] using hys
    · intro m hm
      obtain ⟨y, hy, rfl⟩ := List.mem_map.1 hm
      obtain ⟨p, hp, hrecord⟩ := hrecords y hy
      exact ⟨route p, List.mem_map.2 ⟨p, hp, rfl⟩, hrecord⟩
    · exact fun m hm s hs => (hresponses m hm s hs).1
    · exact fun m hm s hs => (hresponses m hm s hs).2

/-- **The module of an endpoint is written**: a route is taken by each of its operations. -/
theorem writeEndpoint_spec {T : List Route} {ns : List String} {r : Run} (name : String)
    {calls : List Call} (hcalls : ∀ c ∈ calls, j.document.Has c.operation) (h : I T ns r) :
    Ends (writeEndpoint j name calls) r
      (fun p r' => ∃ T' : List Route, T'.map (·.call) = calls ∧ (∀ t ∈ T', t.endpoint = name) ∧
        p.1.name = name ∧ p.1.Follows j.document T' ∧ I (T ++ T') (ns ++ p.2) r')
      (fun e _ => (∃ d, e = .duplicateExport d) ∨
        ∃ c ∈ calls, e = .fault (.repeatedMethod name c.name c.verb c.path)) := by
  unfold writeEndpoint
  cases hr : repeated? [] calls with
  | some c => exact .inr ⟨c, mem_of_repeated? hr, rfl⟩
  | none =>
    simp only
    rw [ends_bind]
    have hdeclare := declareAll_spec (Naming.qualifiedPath name ++ ".ts") (calls.map (·.name)) r
    refine hdeclare.mono ?_ fun _ _ h => h.elim
    rintro locals r₁ ⟨hlength, hfresh, hwrites⟩
    have hf := Sources.openFile_cases Pass.backbone.path
      (P := fun f => f.path = Naming.qualifiedPath name ++ ".ts" ∧
        f.bindings.Tidy (f.declarations.map (·.name)))
      (fun f hf => hI.files h hf) fun _ => ⟨rfl, .ofFile ..⟩
    have hp : Pending (Naming.qualifiedPath name ++ ".ts") locals r₁ := by
      obtain ⟨log, rfl⟩ := hwrites
      exact ⟨_, (Sources.at?_put ..).trans (if_pos hf.1.symm), hf.2.fresh hfresh⟩
    rw [ends_bind]
    have hmethods := writeMethods_spec hI hv name hcalls (by simpa using hlength) hp
      (hI.declares h hwrites)
    refine hmethods.mono ?_ fun _ _ h => .inl h
    rintro ys r₂ ⟨T', hT, hname, hfollows, h⟩
    exact ⟨T', hT, hname, rfl, hfollows, h⟩

omit hI hv

/-- The operation as a client calls it, with its endpoint. -/
def callOf (o : String × Verb × Operation) : String × Call :=
  let endpoint := o.2.2.endpoint o.1
  (endpoint, ⟨o.2.1, o.1, o.2.2, o.2.2.wireName endpoint o.2.1 o.1⟩)

/-- **Every operation is called through one endpoint.** -/
theorem perm_callsByEndpoint (d : Document) :
    (Entries.spread (callsByEndpoint d)).Perm (d.operations.map callOf) :=
  Entries.perm_group _

theorem has_of_mem_callsByEndpoint {d : Document} {e : String × List Call}
    (he : e ∈ callsByEndpoint d) {c : Call} (hc : c ∈ e.2) : d.Has c.operation := by
  have hmem : (e.1, c) ∈ Entries.spread (callsByEndpoint d) :=
    List.mem_flatMap.2 ⟨e, he, List.mem_map.2 ⟨c, hc, rfl⟩⟩
  obtain ⟨o, ho, hoc⟩ := List.mem_map.1 ((perm_callsByEndpoint d).mem_iff.1 hmem)
  obtain rfl := (Prod.mk.inj hoc).2
  exact ⟨o, ho, rfl⟩

include hI hv

/-- **The pass that writes endpoints**: a route is taken by each operation of the document, and the
endpoints found have the methods that the routes lead to. -/
theorem writeBackbone_spec {T : List Route} (ns : List String) {r : Run}
    (h : I T ns r) :
    Ends (writeBackbone j) r
      (fun _ r' => ∃ (T' : List Route) (b : Backbone) (r₁ : Run) (log : List LogLine)
          (ns' : List String),
        I (T ++ T') (ns ++ ns') r₁ ∧ r' = { r₁ with backbone := some b, log } ∧
        T'.map (fun t => (t.endpoint, t.call)) = Entries.spread (callsByEndpoint j.document) ∧
        b.Follows j.document T' ∧
        ∀ n, n ∈ b.referenced ↔ n ∈ ns')
      (fun e _ => (∃ d, e = .duplicateExport d) ∨
        ∃ (name : String) (c : Call), e = .fault (.repeatedMethod name c.name c.verb c.path)) := by
  unfold writeBackbone
  rw [ends_bind]
  refine (ends_mapM (fun done ys r' => ∃ T' : List Route,
    I (T ++ T') (ns ++ ys.flatMap (·.2)) r' ∧
    T'.map (fun t => (t.endpoint, t.call)) = Entries.spread done ∧
    ys.map (fun y => (y.1.name, y.1.methods.map (·.name))) =
      done.map (fun e => (e.1, e.2.map (·.name))) ∧
    (ys.flatMap fun y => y.1.methods.map fun m => (y.1.file, m.localName)) =
      T'.map (fun t => (t.file, t.localName)) ∧
    ∀ y ∈ ys, ∃ T'' ⊆ T', (∀ t ∈ T'', t.endpoint = y.1.name) ∧
      y.1.Follows j.document T'') ?_ ?_).imp ?_
  · exact ⟨[], by simpa using h, rfl, rfl, rfl, by simp⟩
  · rintro done ⟨name, calls⟩ rest ys r₁ hd ⟨T', h, hT', hmethods, hlocals, hys⟩
    have hcalls : ∀ c ∈ calls, j.document.Has c.operation := fun c hc =>
      has_of_mem_callsByEndpoint (e := (name, calls)) (by simp [← hd]) hc
    have hendpoint := writeEndpoint_spec hI hv name hcalls h
    refine hendpoint.mono ?_ ?_
    · rintro ⟨e, names⟩ r₂ ⟨T₂, hcalls, hnames, hname, hfollows, h⟩
      refine ⟨T' ++ T₂, by simpa using h, ?_, ?_, ?_, ?_⟩
      · rw [List.map_append, hT', Entries.spread, Entries.spread, List.flatMap_append]
        refine congrArg _ ?_
        simp only [List.flatMap_cons, List.flatMap_nil, List.append_nil, ← hcalls, List.map_map]
        exact List.map_congr_left fun t ht => by rw [hnames t ht]; rfl
      · have hnew : e.methods.map (·.name) = calls.map (·.name) := by
          rw [hfollows.names, ← hcalls, List.map_map]
          rfl
        simp [hmethods, hnew, show e.name = name from hname]
      · have hnew : e.methods.map (fun m => (e.file, m.localName)) =
            T₂.map fun t => (t.file, t.localName) := calc
          _ = (e.methods.map (·.localName)).map (e.file, ·) := by simp
          _ = (T₂.map (·.localName)).map (e.file, ·) := by rw [hfollows.locals]
          _ = T₂.map fun t => (e.file, t.localName) := by simp
          _ = T₂.map fun t => (t.file, t.localName) := List.map_congr_left fun t ht => by
            rw [Route.file, hnames t ht, hfollows.file, hname]
        simp [hlocals, hnew]
      · intro y hy
        rcases List.mem_append.1 hy with hy | hy
        · obtain ⟨T'', hsub, h⟩ := hys y hy
          exact ⟨T'', List.subset_append_of_subset_left _ hsub, h⟩
        · obtain rfl := List.mem_singleton.1 hy
          exact ⟨T₂, List.subset_append_right _ _, fun t ht => (hnames t ht).trans hname.symm,
            hfollows⟩
    · rintro e _ (h | ⟨c, -, h⟩)
      · exact .inl h
      · exact .inr ⟨name, c, h⟩
  · rintro ys r₁ ⟨T', h, hT', hmethods, hlocals, hys⟩
    refine ⟨T', _, r₁, _, _, h, rfl, hT', ⟨?_, ?_, ?_⟩, fun n => mem_distinct⟩
    · simpa [Function.comp_def] using hmethods
    · simpa [Backbone.methods, List.map_flatMap, List.flatMap_map, Function.comp_def] using hlocals
    intro e he
    obtain ⟨y, hy, rfl⟩ := List.mem_map.1 he
    exact hys y hy

end Endpoints

section Models

variable {j : Job} {I : Entries String → List String → Run → Prop}

/-- The steps that write models keep the invariant `I` of the components written so far with the names
of their declarations, the components named so far, and the run. A component is only written if it was
named, and if neither it nor its file was written before. -/
structure KeptByModels (j : Job) (I : Entries String → List String → Run → Prop) : Prop where
  model : ∀ {cs ns r r' component identifier names f'}, I cs ns r →
    j.document.parts.Leads component → component ∈ ns → r.transfers.has component = false →
    component ∉ cs.keys → Naming.modelFile component ∉ cs.keys.map Naming.modelFile →
    (∀ n ∈ names, (j.types r).Open n) →
    AddsModel (j.types r (some (component, identifier))) component identifier names
      (r.sources.openFile (Naming.modelFile component) Pass.model.path) f' →
    r.Writes f' r' → I (cs ++ [(component, identifier)]) (ns ++ names) r'

/-- Each model is of a component that leads to a schema, and has the file of the component, which is no
other's. Empty values have no types in them. -/
structure Listed (c : Components) (models : Entries Model) : Prop where
  files : (models.keys.map Naming.modelFile).Nodup
  leads : ∀ e ∈ models, c.Leads e.1
  file : ∀ e ∈ models, e.2.file = Naming.modelFile e.1
  plain : ∀ e ∈ models, e.2.emptyValue.references = []

theorem Listed.nil (c : Components) : Listed c [] := ⟨by simp [Entries.keys], by simp, by simp, by simp⟩

theorem Listed.files_eq {c : Components} {models : Entries Model} (h : Listed c models) :
    models.values.map (·.file) = models.keys.map Naming.modelFile := by
  simpa [Entries.values, Entries.keys] using h.file

/-- A component whose file is looked for in vain among the models has a file of its own. -/
theorem Listed.file_notMem {c : Components} {models : Entries Model} (h : Listed c models)
    {component : String} (hfree : ∀ owner m,
      models.find? (·.2.file == Naming.modelFile component) = some (owner, m) → False) :
    Naming.modelFile component ∉ models.keys.map Naming.modelFile := by
  intro hin
  obtain ⟨k, hk, heq⟩ := List.mem_map.1 hin
  obtain ⟨e, he, rfl⟩ := List.mem_map.1 hk
  cases hfound : models.find? (·.2.file == Naming.modelFile component) with
  | none => simpa [h.file e he, heq] using List.find?_eq_none.1 hfound e he
  | some owner => exact hfree owner.1 owner.2 hfound

theorem Listed.snoc {c : Components} {models : Entries Model} (h : Listed c models)
    {component : String} {m : Model}
    (hnew : Naming.modelFile component ∉ models.keys.map Naming.modelFile)
    (hleads : c.Leads component) (hfile : m.file = Naming.modelFile component)
    (hplain : m.emptyValue.references = []) : Listed c (models ++ [(component, m)]) where
  files := by
    rw [Entries.keys_append, List.map_append]
    exact nodup_snoc h.files hnew
  leads := List.forall_mem_append.2 ⟨h.leads, List.forall_mem_singleton.2 hleads⟩
  file := List.forall_mem_append.2 ⟨h.file, List.forall_mem_singleton.2 hfile⟩
  plain := List.forall_mem_append.2 ⟨h.plain, List.forall_mem_singleton.2 hplain⟩

/-- No component has two models. -/
theorem Listed.nodup {c : Components} {models : Entries Model} (h : Listed c models) :
    models.keys.Nodup := h.files.of_map _

/-- There are no more models than schemas. -/
theorem Listed.length_le {c : Components} {models : Entries Model} (h : Listed c models) :
    models.length ≤ c.schemas.length := by
  have hsub : models.keys ⊆ c.schemas.keys := fun n hn => by
    obtain ⟨e, he, rfl⟩ := List.mem_map.1 hn
    exact (h.leads e he).mem_keys
  simpa [Entries.keys] using (List.subperm_of_subset h.nodup hsub).length_le

/-- The components of models, with the names of their declarations. -/
def identifiersOf (models : Entries Model) : Entries String := models.map fun e => (e.1, e.2.identifier)

theorem keys_identifiersOf (models : Entries Model) : (identifiersOf models).keys = models.keys := by
  simp [identifiersOf, Entries.keys]

/-- What a queue starts with after its start is dropped. -/
theorem eq_append_of_dropWhile {α : Type} {p : α → Bool} {xs rest : List α} {x : α}
    (h : xs.dropWhile p = x :: rest) :
    p x = false ∧ ∃ done, xs = done ++ x :: rest ∧ ∀ y ∈ done, p y = true := by
  refine ⟨?_, xs.takeWhile p, ?_, fun y hy => List.mem_takeWhile_imp hy⟩
  · have := List.head_dropWhile_not p (l := xs) (by simp [h])
    simpa [h] using this
  · rw [← h, List.takeWhile_append_dropWhile]

section Worklist

variable (hv : j.document.Valid)
include hv

/-- **The worklist ends**: with as much fuel as there are schemas that have no model yet, and one more,
it comes to its end before the fuel does, and more fuel changes nothing. -/
theorem writeNeeded_fuel (transfers : Entries TransferTarget) (more : Nat) :
    ∀ (fuel : Nat) (queue : List String) (models : Entries Model) (r : Run),
      Listed j.document.parts models → (∀ n ∈ queue, j.document.parts.Leads n) →
      j.document.parts.schemas.length < models.length + fuel →
      (writeNeeded j transfers (fuel + more) queue models).run.run r =
        (writeNeeded j transfers fuel queue models).run.run r
  | 0, _, models, _, hl, _, hfuel => by
    have := hl.length_le
    omega
  | fuel + 1, queue, models, r, hl, hq, hfuel => by
    rw [Nat.add_right_comm]
    unfold writeNeeded
    cases hd : queue.dropWhile fun n => models.has n || transfers.has n with
    | nil => rfl
    | cons component rest =>
      obtain ⟨hnew, done, rfl, -⟩ := eq_append_of_dropWhile hd
      simp only [Bool.or_eq_false_iff] at hnew
      have hleads := hq component (by simp)
      simp only
      split
      · rfl
      next hfree =>
      rw [run_bind, run_bind]
      have hstep := writeModel_spec hv hleads r
      unfold Ends at hstep
      rcases hm : (writeModel j component).run.run r with ⟨e | ⟨m, names⟩, r₁⟩
      · rfl
      · rw [hm] at hstep
        obtain ⟨hfile, hplain, hopen, -⟩ := hstep
        refine writeNeeded_fuel transfers more fuel (rest ++ names) _ r₁
          (hl.snoc (hl.file_notMem hfree) hleads hfile hplain) (fun n hn => ?_) ?_
        · rcases List.mem_append.1 hn with hn | hn
          · exact hq n (by simp [hn])
          · exact (hopen n hn).leads
        · simp only [List.length_append, List.length_singleton]
          omega

end Worklist

variable (hI : KeptByModels j I) (hv : j.document.Valid)
include hI hv

/-- **The models that are needed are written**, and nothing that was named is left out. -/
theorem writeNeeded_spec (transfers : Entries TransferTarget)
    (htransfers : ∀ cs ns r, I cs ns r → r.transfers = transfers) :
    ∀ (fuel : Nat) (queue : List String) (models : Entries Model) (ns : List String) (r : Run),
      I (identifiersOf models) ns r → Listed j.document.parts models → queue ⊆ ns →
      (∀ n ∈ ns, j.document.parts.Leads n) →
      (∀ n ∈ ns, n ∈ queue ∨ models.has n = true ∨ transfers.has n = true) →
      j.document.parts.schemas.length < models.length + fuel →
      Ends (writeNeeded j transfers fuel queue models) r
        (fun models' r' => ∃ ns', I (identifiersOf models') ns' r' ∧ Listed j.document.parts models' ∧
          ∀ n ∈ ns', models'.has n = true ∨ transfers.has n = true)
        (fun e _ => ∃ owner component file, e = .fault (.sharedFile owner component file))
  | 0, _, models, _, _, _, hl, _, _, _, hfuel => by
    have := hl.length_le
    omega
  | fuel + 1, queue, models, ns, r, h, hl, hq, hns, hall, hfuel => by
    unfold writeNeeded
    cases hd : queue.dropWhile fun n => models.has n || transfers.has n with
    | nil =>
      refine ⟨ns, h, hl, fun n hn => (hall n hn).elim (fun hn => ?_) id⟩
      simpa using List.dropWhile_eq_nil_iff.1 hd n hn
    | cons component rest =>
      obtain ⟨hnew, done, rfl, hdone⟩ := eq_append_of_dropWhile hd
      simp only [Bool.or_eq_false_iff, Bool.or_eq_true] at hnew hdone
      have hwanted : component ∈ ns := hq (by simp)
      simp only
      split
      · next e he => exact ⟨_, _, _, rfl⟩
      next hfree =>
      rw [ends_bind]
      refine (writeModel_spec hv (hns component hwanted) r).mono ?_ fun _ _ h => h.elim
      rintro ⟨m, names⟩ r₁ ⟨hfile, hplain, hopen, f', hadds, hwrites⟩
      have hkeys : component ∉ (identifiersOf models).keys := by
        rw [keys_identifiersOf]
        exact Entries.has_eq_false.1 hnew.1
      have hfiles := hl.file_notMem hfree
      have h₁ := hI.model h (hns component hwanted) hwanted (htransfers _ _ _ h ▸ hnew.2) hkeys
        (by rwa [keys_identifiersOf]) hopen hadds hwrites
      refine writeNeeded_spec transfers htransfers fuel (rest ++ names) (models ++ [(component, m)])
        (ns ++ names) r₁ (by simpa [identifiersOf] using h₁)
        (hl.snoc hfiles (hns component hwanted) hfile hplain) ?_ ?_ ?_ ?_
      · exact List.append_subset.2 ⟨fun n hn => List.mem_append_left _ (hq (by simp [hn])),
          List.subset_append_right _ _⟩
      · exact List.forall_mem_append.2 ⟨hns, fun n hn => (hopen n hn).leads⟩
      · have hmore : ∀ n, models.has n = true → Entries.has (models ++ [(component, m)]) n = true :=
          fun n hn => Entries.has_iff.2 (by
            rw [Entries.keys_append]
            exact List.mem_append_left _ (Entries.has_iff.1 hn))
        have hself : Entries.has (models ++ [(component, m)]) component = true :=
          Entries.has_iff.2 (by simp [Entries.keys])
        intro n hn
        simp only [List.mem_append] at hn ⊢
        rcases hn with hn | hn
        · rcases hall n hn with hn | hn | hn
          · rcases List.mem_append.1 hn with hn | hn
            · exact .inr ((hdone n hn).imp_left (hmore n))
            · rcases List.mem_cons.1 hn with rfl | hn
              · exact .inr (.inl hself)
              · exact .inl (.inl hn)
          · exact .inr (.inl (hmore n hn))
          · exact .inr (.inr hn)
        · exact .inl (.inr hn)
      · simp only [List.length_append, List.length_singleton]
        omega

omit hI hv in
/-- Models with other empty values. -/
theorem Listed.congr {c : Components} {models models' : Entries Model} (h : Listed c models)
    (he : models'.map (fun e => (e.1, e.2.file)) = models.map fun e => (e.1, e.2.file))
    (hplain : ∀ e ∈ models', e.2.emptyValue.references = []) : Listed c models' := by
  have hk : models'.keys = models.keys := by
    simpa [Entries.keys, Function.comp_def] using congrArg (List.map Prod.fst) he
  have hmem : ∀ e ∈ models', ∃ e' ∈ models, e'.1 = e.1 ∧ e'.2.file = e.2.file := by
    intro e hm
    have : (e.1, e.2.file) ∈ models.map fun e => (e.1, e.2.file) :=
      he ▸ List.mem_map.2 ⟨e, hm, rfl⟩
    obtain ⟨e', he', heq⟩ := List.mem_map.1 this
    exact ⟨e', he', (Prod.mk.inj heq).1, (Prod.mk.inj heq).2⟩
  refine ⟨hk ▸ h.files, fun e he => ?_, fun e he => ?_, hplain⟩
  · obtain ⟨e', he', h₁, -⟩ := hmem e he
    exact h₁ ▸ h.leads e' he'
  · obtain ⟨e', he', h₁, h₂⟩ := hmem e he
    rw [← h₁, ← h₂]
    exact h.file e' he'

/-- **The pass that writes models** writes one for every component that the endpoints need, and for
those that the models name in turn, unless a type of the client stands for it. Each has the empty value
of its component. -/
theorem writeModels_spec {r : Run} (htransfers : ∀ cs ns r', I cs ns r' → r'.transfers = r.transfers)
    (h : ∀ b, r.backbone = some b → I [] b.referenced r)
    (hleads : ∀ b, r.backbone = some b → ∀ n ∈ b.referenced, j.document.parts.Leads n) :
    Ends (writeModels j) r
      (fun _ r' => ∃ (b : Backbone) (ms : Entries Model) (r₁ : Run) (log : List LogLine)
        (ns : List String), r.backbone = some b ∧ I (identifiersOf ms) ns r₁ ∧
        r' = { r₁ with models := some ms, log } ∧ Listed j.document.parts ms ∧
        (∀ e ∈ ms, emptyValueOf j.document.parts r.transfers e.1 = .ok e.2.emptyValue) ∧
        ∀ n ∈ ns, ms.has n = true ∨ r.transfers.has n = true)
      (fun e _ => (r.backbone = none ∧ e = .missingSlot .backbone .model) ∨
        ∃ owner component file, e = .fault (.sharedFile owner component file)) := by
  unfold writeModels Action.backbone
  rw [ends_bind, ends_bind, ends_get]
  cases hb : r.backbone with
  | none => exact .inl ⟨rfl, rfl⟩
  | some b =>
    simp only [ends_pure]
    rw [ends_bind, ends_get, ends_bind]
    refine (writeNeeded_spec hI hv r.transfers htransfers (j.document.parts.schemas.length + 1)
      b.referenced [] b.referenced r (h b hb) (.nil _) (List.Subset.refl _) (hleads b hb)
      (fun n hn => .inl hn) (by simp)).mono ?_ fun _ _ h => .inr h
    rintro ms r₁ ⟨ns, h₁, hl, hall⟩
    rw [ends_bind]
    refine (Ends.mono (ends_mapM (E := fun _ _ => False) (fun done ys r' => r' = r₁ ∧
      ys.map (fun e => (e.1, e.2.file, e.2.identifier)) =
        done.map (fun e => (e.1, e.2.file, e.2.identifier)) ∧
      ∀ e ∈ ys, emptyValueOf j.document.parts r.transfers e.1 = .ok e.2.emptyValue ∧
        e.2.emptyValue.references = []) ⟨rfl, rfl, by simp⟩ ?_) ?_ fun _ _ h => h.elim)
    · rintro done ⟨component, m⟩ rest ys t hd ⟨rfl, hys, hvalues⟩
      obtain ⟨x, hx, hplain⟩ := emptyValueOf_ok hv.parts r.transfers
        (hl.leads (component, m) (by simp [← hd]))
      refine ends_ok_bind hx ⟨rfl, by simp [hys], ?_⟩
      exact List.forall_mem_append.2 ⟨hvalues, List.forall_mem_singleton.2 ⟨hx, hplain.references_eq_nil⟩⟩
    · rintro ms' t ⟨rfl, hms', hvalues⟩
      have hl' : Listed j.document.parts ms' := hl.congr
        (by simpa [Function.comp_def] using congrArg (List.map fun e => (e.1, e.2.1)) hms')
        fun e he => (hvalues e he).2
      have hidentifiers : identifiersOf ms' = identifiersOf ms := by
        simpa [identifiersOf, Function.comp_def] using congrArg (List.map fun e => (e.1, e.2.2)) hms'
      have hk : Entries.keys ms' = ms.keys := by
        rw [← keys_identifiersOf, hidentifiers, keys_identifiersOf]
      refine ⟨b, ms', t, _, ns, rfl, hidentifiers ▸ h₁, rfl, hl', fun e he => (hvalues e he).1,
        fun n hn => (hall n hn).imp_left fun hn => ?_⟩
      exact Entries.has_iff.2 (hk ▸ Entries.has_iff.1 hn)

end Models

section Unions

variable {j : Job} (hv : j.document.Valid) {r : Run} {I : Run → Prop}
include hv

/-- **The pass over polymorphic bases** changes declarations in ways that keep functions. -/
theorem flattenUnions_spec
    (edit : ∀ ms r₁ r₂, r.models = some ms → I r₁ → r₁.Edits j ms r₂ → I r₂)
    (log : ∀ r log, I r → I { r with log })
    (hleads : ∀ ms, r.models = some ms → ∀ e ∈ ms, j.document.parts.Leads e.1) (hI : I r) :
    Ends (flattenUnions j) r (fun _ r' => I r')
      (fun e _ => r.models = none ∧ e = .missingSlot .models .subtypes) := by
  unfold flattenUnions Action.models
  rw [ends_bind, ends_bind, ends_get]
  cases hm : r.models with
  | none => exact ⟨rfl, rfl⟩
  | some ms =>
    simp only [ends_pure]
    rw [ends_bind]
    refine (Ends.mono (ends_mapM (E := fun _ _ => False) (fun _ _ => I) hI ?_) ?_ ?_)
    · intro done e rest ys t hd ht
      have he : e ∈ ms := by simp [← hd]
      exact flatten_spec hv (fun r₁ r₂ => edit ms r₁ r₂ hm) he (hleads ms hm e he) ht
    · exact fun _ t ht => log t _ ht
    · exact fun _ _ h => h.elim

end Unions

section Replacements

variable {κ : Type} {w : Replacement κ} {j : Job} {late : κ → Schema → List String}

/-- What a replacement does to a run for the sake of a method: it replaces the wrapper of the method, or
leaves all as it is. It only does the latter if it does not select the method, or there is no file. -/
def Run.Visits (w : Replacement κ) (j : Job) (late : κ → Schema → List String) (e : Endpoint)
    (m : Method) (r r' : Run) : Prop :=
  (r' = r ∧ (w.Selects m → r.sources.at? e.file = none)) ∨ r.Replaces w j late e m r'

/-- **The pass that replaces wrappers** visits the methods that endpoints have, one after another. It
fails if the endpoints were not found before, or the wrapper of a method is missing. -/
theorem Replacement.run_spec {r : Run} {I : List (Endpoint × Method) → Run → Prop}
    (visit : ∀ b done p rest r₁ r₂, r.backbone = some b → b.methods = done ++ p :: rest →
      I done r₁ → r₁.Visits w j late p.1 p.2 r₂ → I (done ++ [p]) r₂)
    (log : ∀ done r log, I done r → I done { r with log })
    (hw : ∀ done r', I done r' → w.Lawful (j.types r') late)
    (hclosed : ∀ b, r.backbone = some b → ∀ e ∈ b.endpoints, ∀ m ∈ e.methods, ∀ s,
      m.response = some s → j.document.parts.Closed s) (hI : I [] r) :
    Ends (w.run j) r (fun _ r' => ∃ b, r.backbone = some b ∧ I b.methods r')
      (fun err _ => (r.backbone = none ∧ err = .missingSlot .backbone w.pass) ∨
        ∃ b done r₁ e m f, r.backbone = some b ∧ e ∈ b.endpoints ∧ m ∈ e.methods ∧ I done r₁ ∧
          r₁.sources.at? e.file = some f ∧ (∀ g, f.declaration? m.localName ≠ some (.function g)) ∧
          err = .fault (.noFunction m.localName f.path)) := by
  unfold Replacement.run Action.backbone
  rw [ends_bind, ends_bind, ends_get]
  cases hb : r.backbone with
  | none => exact .inl ⟨rfl, rfl⟩
  | some b =>
    simp only [ends_pure]
    rw [ends_bind]
    let pairs (es : List Endpoint) : List (Endpoint × Method) :=
      es.flatMap fun e => e.methods.map (e, ·)
    refine (ends_mapM (fun done _ => I (pairs done)) hI fun done e rest _ t hd ht => ?_).imp
      fun _ t ht => ⟨b, rfl, log _ t _ ht⟩
    refine (ends_mapM (fun done' _ => I (pairs done ++ done'.map (e, ·))) (by simpa using ht)
      fun done' m rest' _ t hd' ht => ?_).imp fun _ t ht => by simpa [pairs] using ht
    have hsplit : b.methods = (pairs done ++ done'.map (e, ·)) ++ (e, m) ::
        (rest'.map (e, ·) ++ pairs rest) := by
      simp [Backbone.methods, ← hd, ← hd', pairs]
    obtain ⟨he, hm⟩ := Backbone.mem_methods.1 (hsplit ▸ List.mem_append_right _ List.mem_cons_self)
    refine (replaceSelected_spec e (hw _ t ht) (hclosed b hb e he m hm)).mono ?_ ?_
    · intro _ t' h
      simpa using visit b _ (e, m) _ t t' hb hsplit ht h
    · rintro err _ ⟨f, hf, hno, rfl⟩
      exact .inr ⟨b, _, t, e, m, f, rfl, he, hm, ht, hf, hno, rfl⟩

end Replacements

end Client
end OpenApiClient
