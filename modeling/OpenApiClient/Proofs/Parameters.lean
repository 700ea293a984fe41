/-
# Parameters of wrappers

The pass that writes endpoints gives each method a function of its own, which forwards its parameters to
the client. `Run.Forwarded` follows these functions through the steps of the pass; after it, the functions
in the files are those of the methods that the endpoints have (`executeAll_forwarded`).

`Faithful` says what a caller of such a function may rely on, whatever the names of the arguments are:
they are arbitrary texts, which are sanitized, may be reserved words, and may collide with each other,
with the client and with the name of the last parameter. Still the parameters have different names, and
each is passed under the name of its argument (`executeAll_faithful`).
-/

import OpenApiClient.Proofs.Operations

namespace OpenApiClient

/-- The function of a name in a file. -/
def Module.File.function? (f : Module.File) (name : String) : Option TypeScript.Function :=
  match f.declaration? name with
  | some (.function g) => some g
  | _ => none

namespace Client

open OpenApi TypeScript OpenApiClient.Module

/-- The function that the file of an endpoint has for a method. -/
def Run.wrapper? (r : Run) (p : Endpoint × Method) : Option Function :=
  (r.sources.at? p.1.file).bind (·.function? p.2.localName)

/-- The name by which the file of an endpoint knows the client. -/
def Run.client? (r : Run) (v : Conventions) (e : Endpoint) : Option String :=
  (r.sources.at? e.file).bind fun f => clientOf? v f.bindings

/-- The method of a run that has only one. -/
def Run.onlyMethod? (r : Run) : Option (Endpoint × Method) :=
  match r.backbone.map (·.methods) with
  | some [p] => some p
  | _ => none

theorem Run.of_onlyMethod? {r : Run} {p : Endpoint × Method} (h : r.onlyMethod? = some p) :
    ∃ b, r.backbone = some b ∧ b.methods = [p] := by
  unfold Run.onlyMethod? at h
  split at h
  · next p' hmethods =>
    obtain rfl := Option.some.inj h
    exact Option.map_eq_some_iff.1 hmethods
  · cases h

/-- The file has the function of a route, which forwards the arguments of the operation. -/
def Forwarded (j : Job) (t : Route) (f : File) : Prop :=
  ∃ (g : Function) (m : Method) (client : String), .function g ∈ f.declarations ∧
    g.name = t.localName ∧ m.IsOf j.document.parts t.call ∧
    clientOf? j.settings.conventions f.bindings = some client ∧
    Forwards client t.endpoint m.name (m.arguments.map (·.name)) g

/-- The files have the functions of the routes. -/
def Run.Forwarded (j : Job) (T : List Route) (r : Run) : Prop :=
  ∀ t ∈ T, ∃ f, r.sources.at? t.file = some f ∧ Client.Forwarded j t f

section Steps

variable {j : Job} {T : List Route} {r r' : Run}

/-- A file is written that has the functions of its routes as before. -/
theorem Run.Forwarded.write (h : r.Forwarded j T) {f : File} (hw : r.Writes f r')
    (hf : ∀ t ∈ T, ∀ f₀, t.file = f.path → r.sources.at? f.path = some f₀ →
      Client.Forwarded j t f₀ → Client.Forwarded j t f) : r'.Forwarded j T := by
  obtain ⟨log, rfl⟩ := hw
  intro t ht
  obtain ⟨f₀, hf₀, hforwarded⟩ := h t ht
  by_cases hp : t.file = f.path
  · have hat : (r.sources.put f).at? t.file = some f := (Sources.at?_put ..).trans (if_pos hp)
    exact ⟨f, hat, hf t ht f₀ hp (hp ▸ hf₀) hforwarded⟩
  · have hat : (r.sources.put f).at? t.file = some f₀ :=
      ((Sources.at?_put ..).trans (if_neg hp)).trans hf₀
    exact ⟨f₀, hat, hforwarded⟩

/-- **Each step that writes endpoints** keeps the functions that are there, and adds that of the new
route. -/
theorem keptByEndpoints_forwarded {I : List Route → List String → Run → Prop}
    (hI : KeptByEndpoints j I) :
    KeptByEndpoints j fun T₁ ns r => I T₁ ns r ∧ ∃ T₂, T₁ = T ++ T₂ ∧ r.Forwarded j T₂ where
  files h hf := hI.files h.1 hf
  declares := by
    intro T₁ ns r r' path locals ⟨h, T₂, hT, hforwarded⟩ hw
    refine ⟨hI.declares h hw, T₂, hT, hforwarded.write hw fun t _ f₀ _ hf₀ hheld => ?_⟩
    have hpath : (r.sources.openFile path Pass.backbone.path).path = path :=
      Sources.openFile_cases Pass.backbone.path (P := fun f => f.path = path)
        (fun f hf => (hI.files h hf).1) fun _ => rfl
    have hopen : r.sources.openFile path Pass.backbone.path = f₀ :=
      Sources.openFile_of_at? _ (hpath ▸ hf₀)
    rw [hopen]
    exact hheld
  method := by
    intro T₁ ns r r' names f f' t ⟨h, T₂, hT, hforwarded⟩ hf ht hopen hhas hadd hw
    refine ⟨hI.method h hf ht hopen hhas hadd hw, T₂ ++ [t], by simp [hT], ?_⟩
    have hpath : f'.path = t.file := hadd.place.1.trans (hI.files h hf).1
    obtain ⟨g, b, exports, hname, -, ⟨m, client, his, -, hclient, hforwards⟩, -, hadds, -, rfl⟩ := hadd
    refine List.forall_mem_append.2 ⟨?_, List.forall_mem_singleton.2 ?_⟩
    · refine hforwarded.write hw fun t' _ f₀ _ hf₀ ⟨g', m', client', hg', hheld⟩ => ?_
      obtain rfl : f = f₀ := Option.some.inj (hf.symm.trans (hpath ▸ hf₀))
      obtain ⟨hname', his', hclient', hforwards'⟩ := hheld
      have hclient' := clientOf?_of_adds hadds hclient'
      exact ⟨g', m', client', List.mem_append_left _ hg', hname', his', hclient', hforwards'⟩
    · obtain ⟨log, rfl⟩ := hw
      refine ⟨_, (Sources.at?_put ..).trans (if_pos hpath.symm), g, m, client, ?_, hname, his, hclient, ?_⟩
      · exact List.mem_append_right _ List.mem_cons_self
      · rw [his.name]
        exact hforwards

end Steps

section Runs

variable {j : Job} (hv : j.document.Valid)
include hv

/-- **The pass that writes endpoints** leaves a function for each of their methods, which forwards its
arguments. -/
theorem writeBackbone_forwarded {T : List Route} {r : Run} (hs : r.Sound j T) :
    Ends (writeBackbone j) r (fun _ r' => ∃ T' b, r'.Sound j (T ++ T') ∧ r'.backbone = some b ∧
        T'.map (fun t => (t.endpoint, t.call)) = Entries.spread (callsByEndpoint j.document) ∧
        b.Follows j.document T' ∧ r'.Forwarded j T') fun _ _ => True := by
  have hkept := keptByEndpoints_forwarded (T := T) (Run.Sound.keptByEndpoints (j := j) r)
  have hnone : r.Forwarded j [] := fun t ht => by cases ht
  refine (writeBackbone_spec hkept hv (T := T) []
    ⟨⟨hs, .refl r, by simp⟩, [], (List.append_nil T).symm, hnone⟩).mono ?_ fun _ _ _ => trivial
  rintro _ _ ⟨T', b, r₁, log, ns, ⟨⟨h₁, -, hns⟩, T₂, hT, hforwarded⟩, rfl, hcalls, hfollows, hreferenced⟩
  obtain rfl := List.append_cancel_left hT
  have hleads : ∀ n ∈ b.referenced, j.document.parts.Leads n := fun n hn =>
    hns n (by simpa using (hreferenced n).1 hn)
  exact ⟨T', b, h₁.found hfollows hleads log, rfl, hcalls, hfollows, hforwarded⟩

omit hv in
/-- No operation is written twice, so there was nothing to write before a pass that wrote them all. -/
theorem Run.Sound.eq_nil_of_append {T T' : List Route} {r : Run} (h : r.Sound j (T ++ T'))
    (hT : ∀ t ∈ T, ∃ t' ∈ T', t'.endpoint = t.endpoint ∧ t'.call = t.call) : T = [] := by
  refine List.eq_nil_iff_forall_not_mem.2 fun t ht => ?_
  obtain ⟨t', ht', hendpoint, hcall⟩ := hT t ht
  obtain ⟨f, hf⟩ := h.held t (List.mem_append_left _ ht)
  have hmethods := (h.serves _ f hf).methods
  rw [routesTo, List.filter_append, List.map_append] at hmethods
  have hfile : t'.file = t.file := by rw [Route.file, Route.file, hendpoint]
  refine (List.nodup_append.1 hmethods).2.2 t.call.name ?_ t.call.name ?_ rfl
  · exact List.mem_map.2 ⟨t, List.mem_filter.2 ⟨ht, by simp⟩, rfl⟩
  · exact List.mem_map.2 ⟨t', List.mem_filter.2 ⟨ht', by simp [hfile]⟩, by rw [hcall]⟩

/-- **The functions after the pass that writes endpoints** are those of the methods of the endpoints. Each
forwards the arguments of its method through the client that the file knows. -/
theorem executeAll_forwarded (before : List Pass) (log : List LogLine) :
    Ends (executeAll j (before ++ [.backbone])) { Run.start j.settings with log }
      (fun _ r => ∃ T b, r.Sound j T ∧ r.backbone = some b ∧ b.Follows j.document T ∧
        T.map (fun t => (t.endpoint, t.call)) = Entries.spread (callsByEndpoint j.document) ∧
        r.Forwarded j T)
      fun _ _ => True := by
  refine executeAll_snoc hv (Run.Sound.start j log) fun T r hs hcalls => ?_
  refine (writeBackbone_forwarded hv hs).imp ?_
  rintro _ r' ⟨T', b, hs', hb, hcalls', hfollows, hforwarded⟩
  have hmem : ∀ p, p ∈ T'.map (fun t => (t.endpoint, t.call)) ↔
      ∃ t' ∈ T', (t'.endpoint, t'.call) = p := fun p => List.mem_map
  obtain rfl : [] ++ T = [] := hs'.eq_nil_of_append fun t ht => by
    have ht : (t.endpoint, t.call) ∈ before.flatMap (·.calls j.document) :=
      hcalls ▸ List.mem_map.2 ⟨t, ht, rfl⟩
    obtain ⟨p, -, hp⟩ := List.mem_flatMap.1 ht
    have hspread : (t.endpoint, t.call) ∈ Entries.spread (callsByEndpoint j.document) := by
      cases p with
      | backbone => exact hp
      | _ => cases hp
    rw [← hcalls', hmem] at hspread
    obtain ⟨t', ht', heq⟩ := hspread
    exact ⟨t', ht', (Prod.mk.inj heq).1, (Prod.mk.inj heq).2⟩
  exact ⟨T', b, by simpa using hs', hb, hfollows, hcalls', hforwarded⟩

end Runs

section Wrappers

variable {j : Job} {T : List Route} {r : Run} {b : Backbone}

/-- A function that is found by its name in the file of an endpoint. -/
theorem Run.Sound.wrapper?_eq (h : r.Sound j T) {p : Endpoint × Method} {f : File} {g : Function}
    (hf : r.sources.at? p.1.file = some f) (hg : .function g ∈ f.declarations)
    (hname : g.name = p.2.localName) : r.wrapper? p = some g := by
  have hfound : f.declaration? p.2.localName = some (.function g) :=
    hname ▸ declaration?_of_mem (h.serves _ f hf).names hg
  rw [Run.wrapper?, hf, Option.bind_some, File.function?, hfound]

/-- The function that the file of an endpoint has for a method, after the pass that writes endpoints. -/
theorem Run.Forwarded.wrapper? (hs : r.Sound j T) (hb : r.backbone = some b) (h : r.Forwarded j T)
    {p : Endpoint × Method} (hp : p ∈ b.methods) :
    ∃ t ∈ T, ∃ g client, t.endpoint = p.1.name ∧ p.2.IsOf j.document.parts t.call ∧
      r.wrapper? p = some g ∧ r.client? j.settings.conventions p.1 = some client ∧
      isReserved client = false ∧ Forwards client p.1.name p.2.name (p.2.arguments.map (·.name)) g := by
  obtain ⟨he, hm⟩ := Backbone.mem_methods.1 hp
  obtain ⟨t, ht, hendpoint, hfile, hlocal, his⟩ := hs.exists_route hb he hm
  obtain ⟨f, hf, g, m, client, hg, hname, his', hclient, hforwards⟩ := h t ht
  rw [hfile] at hf
  have hreserved : isReserved client = false :=
    (hs.serves _ f hf).tidy.unreserved client
      (List.mem_append_left _ (Imports.mem_localNames_of_default hclient))
  have harguments : m.arguments = p.2.arguments :=
    Except.ok.inj (his'.arguments.symm.trans his.arguments)
  rw [hendpoint, his'.name, ← his.name, harguments] at hforwards
  refine ⟨t, ht, g, client, hendpoint, his, hs.wrapper?_eq hf hg (hname.trans hlocal), ?_, hreserved,
    hforwards⟩
  rw [Run.client?, hf]
  exact hclient

/-- Every function in a file is that of a method. -/
theorem Run.Sound.exists_method (hs : r.Sound j T) (hfollows : b.Follows j.document T) {f : File}
    (hf : f ∈ r.sources.files.values) {g : Function} (hg : .function g ∈ f.declarations) :
    ∃ p ∈ b.methods, p.1.file = f.path ∧ r.wrapper? p = some g := by
  have hat := hs.mem_values hf
  obtain ⟨t, ht, hlocal⟩ := (hs.serves _ f hat).only g hg
  obtain ⟨ht, hfile⟩ := mem_routesTo.1 ht
  have hmem : (t.file, t.localName) ∈ b.methods.map fun p => (p.1.file, p.2.localName) :=
    hfollows.locals ▸ List.mem_map.2 ⟨t, ht, rfl⟩
  obtain ⟨p, hp, heq⟩ := List.mem_map.1 hmem
  have hpath : p.1.file = f.path := (Prod.mk.inj heq).1.trans hfile
  refine ⟨p, hp, hpath, hs.wrapper?_eq (hpath ▸ hat) hg ?_⟩
  exact hlocal.symm.trans (Prod.mk.inj heq).2.symm

/-- Different methods have their functions in different places. -/
theorem Run.Sound.nodup_methods (hs : r.Sound j T) (hb : r.backbone = some b) :
    (b.methods.map fun q => (q.1.file, q.2.localName)).Nodup := by
  obtain ⟨T', hsub, hfollows⟩ := hs.follows b hb
  rw [hfollows.locals]
  have hfiles : ∀ t ∈ T, t.file ∈ r.sources.files.keys := fun t ht => by
    obtain ⟨f, hf⟩ := hs.held t ht
    exact List.mem_map.2 ⟨_, Entries.mem_of_at? hf, rfl⟩
  refine (nodup_of_routesTo hs.keys hfiles (·.localName) fun path hpath => ?_).sublist (hsub.map _)
  obtain ⟨e, he, rfl⟩ := List.mem_map.1 hpath
  exact (hs.serves _ e.2 (Entries.at?_of_mem hs.keys he)).locals

/-- The file of an endpoint is there. -/
theorem Run.Sound.exists_file (hs : r.Sound j T) (hb : r.backbone = some b)
    {q : Endpoint × Method} (hq : q ∈ b.methods) : ∃ f, r.sources.at? q.1.file = some f := by
  obtain ⟨he, hm⟩ := Backbone.mem_methods.1 hq
  obtain ⟨t, ht, -, hfile, -⟩ := hs.exists_route hb he hm
  exact hfile ▸ hs.held t ht

end Wrappers

/-- The function of a method is faithful to its arguments. -/
structure Faithful (client endpoint : String) (m : Method) (g : Function) : Prop where
  /-- The names of its parameters are different from each other, from reserved words, and from the name of
  the client. -/
  distinct : (g.parameters.map (·.name)).Nodup
  unreserved : ∀ p ∈ g.parameters, p.name ∉ reservedWords
  apart : ∀ p ∈ g.parameters, p.name ≠ client
  /-- It calls the client with an object, and last with the value for the request. The object has an entry
  for each argument, under its name, whose value is the parameter at that place. -/
  calls : ∃ parameters init entries, g.parameters = parameters ++ [init] ∧
    (∀ p ∈ parameters, p.isOptional = false) ∧ init.isOptional = true ∧
    g.body = [.call (.member (.ident client) "call") []
      [.string endpoint, .string m.name, .object entries, .ident init.name]] ∧
    entries.map (·.key) = m.arguments.map (·.name) ∧
    entries.map (·.value) = parameters.map fun p => .ident p.name

/-- **A function that forwards its parameters is faithful**, unless the client is known by a reserved
word. -/
theorem Forwards.faithful {client endpoint : String} {m : Method} {g : Function}
    (h : Forwards client endpoint m.name (m.arguments.map (·.name)) g)
    (hclient : isReserved client = false) : Faithful client endpoint m g := by
  have hfresh := parameterNames_fresh (m.arguments.map (·.name)) hclient
  rw [← h.names] at hfresh
  have hmem : ∀ p ∈ g.parameters, p.name ∈ g.parameters.map (·.name) := fun p hp =>
    List.mem_map.2 ⟨p, hp, rfl⟩
  refine ⟨hfresh.nodup, fun p hp hreserved => ?_, fun p hp heq => ?_, ?_⟩
  · have := hfresh.unreserved _ (hmem p hp)
    rw [isReserved, List.contains_eq_mem, decide_eq_false_iff_not] at this
    exact this hreserved
  · exact hfresh.fresh _ (hmem p hp) (by simp [heq])
  · obtain ⟨parameters, init, hsplit, hrequired, hinit, hnames, hname⟩ := h.exists_parameters
    have hlength := length_parameterNames client (m.arguments.map (·.name))
    refine ⟨parameters, init, _, hsplit, hrequired, hinit, hname ▸ h.body,
      keys_argumentEntries hlength, ?_⟩
    rw [values_argumentEntries hlength, ← hnames, List.map_map]
    rfl

/-- **The parameters of wrappers are faithful**, whatever passes came before the pass that writes
endpoints, and however imports get their suffixes: every function that is in a file after it is that of a
method, and every method has one, which passes the arguments of the operation under their names. -/
theorem executeAll_faithful {d : Document} (hd : d.validate = .ok ()) {settings : Settings}
    {before : List Pass} {log : List LogLine} {r : Run}
    (hr : (executeAll ⟨d, settings⟩ (before ++ [.backbone])).run.run
      { Run.start settings with log } = (.ok (), r)) :
    ∃ b, r.backbone = some b ∧
      (∀ f ∈ r.sources.files.values, ∀ g, .function g ∈ f.declarations →
        ∃ p ∈ b.methods, p.1.file = f.path ∧ r.wrapper? p = some g) ∧
      ∀ p ∈ b.methods, ∃ call g client,
        (p.1.name, call) ∈ Entries.spread (callsByEndpoint d) ∧ p.2.IsOf d.parts call ∧
        r.wrapper? p = some g ∧ r.client? settings.conventions p.1 = some client ∧
        Faithful client p.1.name p.2 g := by
  have hv := Document.valid_of_validate hd
  obtain ⟨T, b, hs, hb, hfollows, hcalls, hforwarded⟩ :=
    (executeAll_forwarded (j := ⟨d, settings⟩) hv before log).result hr
  refine ⟨b, hb, fun f hf g hg => hs.exists_method hfollows hf hg, fun p hp => ?_⟩
  obtain ⟨t, ht, g, client, hendpoint, his, hwrapper, hclient, hreserved, hforwards⟩ :=
    hforwarded.wrapper? hs hb hp
  have hcall : (p.1.name, t.call) ∈ Entries.spread (callsByEndpoint d) := by
    rw [← hcalls, ← hendpoint]
    exact List.mem_map.2 ⟨t, ht, rfl⟩
  exact ⟨t.call, g, client, hcall, his, hwrapper, hclient, hforwards.faithful hreserved⟩

/-- A method with a parameter that is called like the client, and with properties that are called by a
reserved word, like the last parameter, and like each other. -/
def collidingArguments : Json :=
  let properties := ["delete", "delete_1", "init", "page-size", "pageSize"].map fun name =>
    (name, Json.object [])
  let content := Json.object [("application/json", .object [
    ("schema", .object [("properties", .object properties)])])]
  .object [
    ("openapi", .string "3.0.1"),
    ("info", .object [("title", .string "t"), ("version", .string "1")]),
    ("paths", .object [("/E/purge", .object [("post", .object [
      ("parameters", .array [.object [("name", .string "client_1"), ("in", .string "query")]]),
      ("requestBody", .object [("content", content)])])])])]

/-- A run in which arguments collide, and in which imports always get suffixes. -/
theorem executeAll_faithful_collidingArguments :
    let settings : Settings := { suffixing := .always }
    ∃ d r b p g, Document.ofJson collidingArguments = .ok d ∧ d.validate = .ok () ∧
      (executeAll ⟨d, settings⟩ ([.transferTypes] ++ [.backbone])).run.run (Run.start settings) =
        (.ok (), r) ∧
      r.backbone = some b ∧ b.methods = [p] ∧ r.wrapper? p = some g ∧
      p.2.arguments.map (·.name) =
        ["client_1", "delete", "delete_1", "init", "page-size", "pageSize"] ∧
      g.parameters.map (·.name) =
        ["client_1_1", "delete_1", "delete_1_1", "init", "pageSize", "pageSize_1", "init_1"] ∧
      Faithful "client_1" "E" p.2 g := by
  intro settings
  have hrun := exists_of_runOf? collidingArguments settings
    ([.transferTypes] ++ [.backbone]) (fun _ r => r.onlyMethod?.any fun p =>
      decide (p.1.name = "E") && decide (r.client? settings.conventions p.1 = some "client_1") &&
        decide (p.2.arguments.map (·.name) =
          ["client_1", "delete", "delete_1", "init", "page-size", "pageSize"]) &&
        (r.wrapper? p).any fun g => decide (g.parameters.map (·.name) =
          ["client_1_1", "delete_1", "delete_1_1", "init", "pageSize", "pageSize_1", "init_1"]))
    (by decide +kernel)
  obtain ⟨d, r, hd, hvalid, hr, htest⟩ := hrun
  obtain ⟨p, honly, htest⟩ := (Option.any_eq_true ..).1 htest
  obtain ⟨b, hb, hp⟩ := Run.of_onlyMethod? honly
  obtain ⟨b', hb', -, hall⟩ := executeAll_faithful hvalid hr
  obtain rfl := Option.some.inj (hb.symm.trans hb')
  obtain ⟨call, g, client, -, -, hg, hclient, hfaithful⟩ := hall p (by simp [hp])
  simp only [hg, Option.any_some, Bool.and_eq_true, decide_eq_true_eq] at htest
  obtain ⟨⟨⟨hname, hknown⟩, harguments⟩, hparameters⟩ := htest
  obtain rfl := Option.some.inj (hclient.symm.trans hknown)
  rw [hname] at hfaithful
  exact ⟨d, r, b, p, g, hd, hvalid, hr, hb, hp, hg, harguments, hparameters, hfaithful⟩

end Client
end OpenApiClient
