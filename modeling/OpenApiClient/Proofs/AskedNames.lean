/-
# Names that are asked for

Every name in a file was given when some name was asked for: the name of a call or of a component,
that of a target, or one of those by which the modules of the client are known (`Asked`). The names
of parameters, which are given by themselves, come from those of arguments (`AskedParameter`), and
type parameters are those of components (`TypeParameter`).

Components are only asked for when operations reach them. The types of a file are therefore told from
the core of the document here; naming a component (`reference_steady`), and with it all that types
are told with, only asks for names that are listed (`wrapper_maintains`).
-/

import OpenApiClient.Proofs.GivenNames
import OpenApiClient.Proofs.Imports
import OpenApiClient.Proofs.Maintenance
import OpenApiClient.Proofs.Reach

namespace OpenApiClient

namespace Module.Bindings

/-- The names that are bound were given for names with `A`. -/
def From (A : String → Prop) (b : Bindings) : Prop := ∀ n ∈ b.scope.taken, ∃ a, A a ∧ Given a n

variable {A : String → Prop} {b : Bindings}

theorem From.ofFile (path extension : String) (suffixing : Suffixing) :
    From A (.ofFile path extension suffixing) := nofun

/-- Only the scope matters. -/
theorem From.congr {b' : Bindings} (h : b.From A) (hs : b'.scope = b.scope) : b'.From A := by
  intro n hn
  rw [hs] at hn
  exact h n hn

theorem From.bind (h : b.From A) {id : String} (ha : A id) (force : Bool) :
    From A { b with scope := (b.scope.bind id force).2 } := by
  intro n hn
  rcases List.mem_append.1 hn with hn | hn
  · exact h n hn
  · obtain rfl := List.mem_singleton.1 hn
    exact ⟨id, ha, b.scope.given_bind id force⟩

theorem From.bindAll (h : b.From A) {ids : List String} (ha : ∀ id ∈ ids, A id) :
    From A { b with scope := (b.scope.bindAll ids).2 } := by
  obtain ⟨-, htaken, -⟩ := b.scope.bindAll_spec ids
  intro n hn
  rw [htaken] at hn
  rcases List.mem_append.1 hn with hn | hn
  · exact h n hn
  · obtain ⟨id, hid, hgiven⟩ := b.scope.given_bindAll hn
    exact ⟨id, ha id hid, hgiven⟩

theorem From.importDefault (h : b.From A) (module : String) {id : String} (ha : A id)
    (isType : Bool) : (b.importDefault module id isType).2.From A := by
  cases hd : (b.imports.ofModule (b.site.specifier module)).default with
  | some e =>
    rw [importDefault_of_some hd]
    exact h.congr rfl
  | none =>
    rw [importDefault_of_none hd]
    exact (h.bind ha _).congr rfl

theorem From.importNamed (h : b.From A) (module : String) {id : String} (ha : A id)
    (isType : Bool) : (b.importNamed module id isType).2.From A := by
  cases hn : b.imports.named? (b.site.specifier module) id with
  | some e =>
    rw [importNamed_of_some hn]
    exact h.congr rfl
  | none =>
    rw [importNamed_of_none hn]
    exact (h.bind ha _).congr rfl

end Module.Bindings

namespace Client

open OpenApi TypeScript OpenApiClient.Module

section Targets

/-- The targets of a run with the settings. -/
def targetsOf (settings : Settings) : Entries TransferTarget :=
  registerAll (registerAll [] (builtInTargets settings.conventions)) settings.transferTypes

/-- What is registered is read first. -/
theorem at?_registerAll (ts more : Entries TransferTarget) (n : String) :
    (registerAll ts more).at? n = ((registerAll [] more).at? n).or (ts.at? n) := by
  induction more generalizing ts with
  | nil => rfl
  | cons e more ih =>
    have hstep : ∀ ts, registerAll ts (e :: more) = registerAll (ts.put e.1 e.2) more := fun _ => rfl
    rw [hstep, hstep, ih (ts.put e.1 e.2), ih (Entries.put [] e.1 e.2), Entries.at?_put,
      Entries.at?_put]
    split
    · simp
    · simp [Entries.at?]

/-- Registering the targets again changes nothing. -/
theorem at?_registerAll_targetsOf {settings : Settings} {ts : Entries TransferTarget} {n : String}
    (h : ts.at? n = none ∨ ts.at? n = (targetsOf settings).at? n) :
    (registerAll (registerAll ts (builtInTargets settings.conventions)) settings.transferTypes).at? n =
      (targetsOf settings).at? n := by
  have hread : ∀ ts : Entries TransferTarget,
      (registerAll (registerAll ts (builtInTargets settings.conventions)) settings.transferTypes).at? n =
        ((registerAll [] settings.transferTypes).at? n).or
          (((registerAll [] (builtInTargets settings.conventions)).at? n).or (ts.at? n)) := fun ts => by
    rw [at?_registerAll, at?_registerAll ts]
  rw [targetsOf, hread []] at h ⊢
  rw [hread ts]
  rcases h with h | h
  · rw [h]
    rfl
  · rw [h]
    cases (registerAll [] settings.transferTypes).at? n <;>
      cases (registerAll [] (builtInTargets settings.conventions)).at? n <;> rfl

theorem mem_of_at?_registerAll {ts more : Entries TransferTarget} {n : String} {t : TransferTarget}
    (h : (registerAll ts more).at? n = some t) : (n, t) ∈ more ∨ ts.at? n = some t := by
  induction more generalizing ts with
  | nil => exact .inr h
  | cons e more ih =>
    have hrest : (registerAll (ts.put e.1 e.2) more).at? n = some t := h
    rcases ih hrest with h | h
    · exact .inl (List.mem_cons_of_mem _ h)
    · rw [Entries.at?_put] at h
      split at h
      · next he =>
        obtain rfl := Option.some.inj h
        exact .inl (he ▸ List.mem_cons_self)
      · exact .inr h

/-- A target is configured or built in. -/
theorem mem_of_at?_targetsOf {settings : Settings} {n : String} {t : TransferTarget}
    (h : (targetsOf settings).at? n = some t) :
    (n, t) ∈ settings.transferTypes ∨ (n, t) ∈ builtInTargets settings.conventions := by
  refine (mem_of_at?_registerAll h).imp_right fun h => ?_
  rcases mem_of_at?_registerAll h with h | h
  · exact h
  · cases h

end Targets

section Asked

variable (d : Document) (settings : Settings)

/-- The names that the files of a client ask for. -/
inductive Asked : String → Prop
  | client : Asked clientName
  /-- The type of the value for a request. -/
  | request : Asked "EndpointRequestInit"
  | subscription : Asked "Subscription"
  /-- A signal, by the name of its target if it has one. -/
  | signal (s : Signal) :
    Asked ((((targetsOf settings).at? s.schema).map (·.name)).getD s.className)
  /-- A target that is imported from a module. -/
  | target {n module : String} {t : TransferTarget} (target : (targetsOf settings).at? n = some t)
    (imported : t.module = some module) : Asked t.name
  | call {e : String × Call} (call : e ∈ Entries.spread (callsByEndpoint d)) : Asked e.2.name
  /-- A component without a target. -/
  | component {n : String} (reached : d.Reaches .schemas n)
    (free : (targetsOf settings).at? n = none) : Asked (Naming.simpleName n)

/-- The names that wrappers ask for when they name their parameters. -/
inductive AskedParameter : String → Prop
  | init : AskedParameter "init"
  | argument {e : String × Call} {arguments : List Argument} {a : Argument}
    (call : e ∈ Entries.spread (callsByEndpoint d))
    (found : argumentsOf d.parts e.2.operation = .ok arguments) (passed : a ∈ arguments) :
    AskedParameter (parameterName a.name)

/-- The name of a type parameter of a component. -/
def TypeParameter (v : String) : Prop :=
  ∃ n s, d.Reaches .schemas n ∧ d.parts.schema n = .ok s ∧ v ∈ s.typeParameters

/-- The parameters of a function were named for names that wrappers ask for, and none by a reserved
word. -/
def ParametersFrom (g : Function) : Prop :=
  ∀ p ∈ g.parameters, (∃ a, AskedParameter d a ∧ Given a p.name) ∧ isReserved p.name = false

end Asked

section Core

variable {d : Document} {n : String}

theorem reaches_of_mem_keys_core (h : n ∈ d.core.parts.schemas.keys) : d.Reaches .schemas n := by
  obtain ⟨p, hp, hparts⟩ := d.core_parts
  rw [hparts] at h
  obtain ⟨e, he, rfl⟩ := List.mem_map.1 h
  exact (hp _ _).1 (Entries.mem_restrict.1 he).2

theorem core_extends_self (d : Document) : d.core.parts.Extends d.parts :=
  Document.core_extends fun s _ _ => by cases s <;> rfl

theorem typeParameter_of_core {s : SchemaObject} {v : String} (h : d.core.parts.schema n = .ok s)
    (hv : v ∈ s.typeParameters) : TypeParameter d v :=
  ⟨n, s, reaches_of_mem_keys_core (Components.Leads.mem_keys ⟨s, h⟩),
    Components.schema_upholds (core_extends_self d) n s h, hv⟩

end Core

section Types

variable {d : Document} {settings : Settings}

/-- Types are told from the core of the document and from the targets of the settings. -/
structure TypeContext.OfCore (d : Document) (settings : Settings) (c : TypeContext) : Prop where
  components : c.components = d.core.parts
  targets : ∀ n, c.transfers.at? n = (targetsOf settings).at? n

/-- The names that are bound come from those that are asked for. -/
abbrev TypeState.Sourced (d : Document) (settings : Settings) (s : TypeState) : Prop :=
  s.bindings.From (Asked d settings)

namespace TypeContext

variable {c : TypeContext} (hc : c.OfCore d settings)

theorem bindings_steady {f : Bindings → String × Bindings}
    (h : ∀ b, b.From (Asked d settings) → (f b).2.From (Asked d settings)) :
    Steady (TypeState.Sourced d settings) (Mapping.bindings f) :=
  fun s hs => ⟨h s.bindings hs, trivial⟩

theorem importDefault_steady (module : String) {id : String} (h : Asked d settings id)
    (isType : Bool) : Steady (TypeState.Sourced d settings) (Mapping.importDefault module id isType) :=
  bindings_steady fun _ hb => hb.importDefault module h isType

theorem importNamed_steady (module : String) {id : String} (h : Asked d settings id)
    (isType : Bool) : Steady (TypeState.Sourced d settings) (Mapping.importNamed module id isType) :=
  bindings_steady fun _ hb => hb.importNamed module h isType

include hc

/-- **Naming a component** asks for its name, or for that of its target. -/
theorem reference_steady (component : String) (args : List Ty) :
    Steady (TypeState.Sourced d settings) (c.reference component args) := by
  have htarget := hc.targets component
  refine reference_maintains (fun t module hat hm => importNamed_steady _ ?_ true)
    (fun s hat hs => importDefault_steady _ ?_ true) (.modify fun _ hs => hs) args
  · exact .target (htarget.symm.trans hat) hm
  · rw [hc.components] at hs
    exact .component (reaches_of_mem_keys_core (Components.Leads.mem_keys ⟨s, hs⟩))
      (htarget.symm.trans hat)

omit hc in
theorem given_parameterNames (client : String) (arguments : List String) :
    (∀ n ∈ (parameterNames client arguments).1, (∃ a ∈ arguments, Given (parameterName a) n) ∧
      isReserved n = false) ∧
    Given "init" (parameterNames client arguments).2 ∧
      isReserved (parameterNames client arguments).2 = false := by
  let scope : Scope := (({} : Scope).bind client false).2
  have hnames : ∀ n ∈ (scope.bindAll (arguments.map parameterName)).1,
      (∃ a ∈ arguments, Given (parameterName a) n) ∧ isReserved n = false := fun n hn => by
    obtain ⟨p, hp, hgiven⟩ := scope.given_bindAll hn
    obtain ⟨a, ha, rfl⟩ := List.mem_map.1 hp
    obtain ⟨-, -, hfresh⟩ := scope.bindAll_spec (arguments.map parameterName)
    exact ⟨⟨a, ha, hgiven⟩, hfresh.unreserved n hn⟩
  let rest := (scope.bindAll (arguments.map parameterName)).2
  exact ⟨hnames, rest.given_bind "init" false, rest.bind_unreserved "init" false⟩

/-- **The wrapper of a method** asks for the client and the type of requests, and for names of
parameters. -/
theorem wrapper_maintains (v : Conventions) (endpoint : String) (call : Call) (m : Method)
    (hm : ∀ a ∈ m.arguments, AskedParameter d (parameterName a.name)) :
    Maintains (TypeState.Sourced d settings) (fun g => g.typeParameters = [] ∧ ParametersFrom d g)
      (c.wrapper v endpoint call m) := by
  have htypes := reference_steady hc
  unfold wrapper
  refine Maintains.bind (.mapM fun a _ => argumentType_steady htypes a) fun types _ => ?_
  refine (responseType_steady htypes m.response).bind fun result _ => ?_
  refine (importNamed_steady _ .request true).bind fun request _ => ?_
  refine (importDefault_steady _ .client false).bind fun client _ => .pure ⟨rfl, fun p hp => ?_⟩
  obtain ⟨hnames, hinit, hunreserved⟩ := given_parameterNames client (m.arguments.map (·.name))
  rcases List.mem_append.1 hp with hp | hp
  · obtain ⟨⟨name, type⟩, hzip, rfl⟩ := List.mem_map.1 hp
    obtain ⟨⟨x, hx, hgiven⟩, hname⟩ := hnames name (List.of_mem_zip hzip).1
    obtain ⟨a, ha, rfl⟩ := List.mem_map.1 hx
    exact ⟨⟨_, hm a ha, hgiven⟩, hname⟩
  · obtain rfl := List.mem_singleton.1 hp
    exact ⟨⟨_, .init, hinit⟩, hunreserved⟩

theorem buildSubscription_steady (classes : List String) (v : Conventions)
    (endpoint method : String) (response : Schema) (arguments : Expr) :
    Steady (TypeState.Sourced d settings)
      ((subscriptions classes).build () c v endpoint method response arguments) :=
  subscriptions_steady (reference_steady hc) (importNamed_steady _ .subscription true)
    (importDefault_steady _ .client false) classes endpoint method response arguments

theorem buildSignal_steady (models : Option (Entries Model)) (s : Signal) (v : Conventions)
    (endpoint method : String) (response : Schema) (arguments : Expr) :
    Steady (TypeState.Sourced d settings)
      ((signalConstructions models).build s c v endpoint method response arguments) := by
  have hname : Asked d settings _ := .signal s
  rw [← hc.targets] at hname
  exact signalConstructions_steady (reference_steady hc) (fun _ => importNamed_steady _ hname false)
    (importDefault_steady _ .client false) models endpoint method response arguments

end TypeContext
end Types

end Client
end OpenApiClient
