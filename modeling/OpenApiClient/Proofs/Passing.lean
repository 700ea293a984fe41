/-
# What wrappers pass

A wrapper passes its arguments to the client in one object. As it is made first it forwards its
parameters (`Forwards`): it has one for each argument, and the object has an entry for each argument,
whose value is the parameter. The last parameter is for the request and is passed by itself.

A wrapper that is replaced keeps what `Wrapper.ofFunction` finds of it. The parameters are always found
again. The object is looked for in a call, so it is found again in a subscription, but not in the
construction of a signal (`Passes`).
-/

import OpenApiClient.Client.SignalConstruction
import OpenApiClient.Client.Subscription
import OpenApiClient.Proofs.FreshName
import OpenApiClient.Proofs.LiteralKeys

namespace OpenApiClient

namespace TypeScript

/-- The value of an entry. -/
def ObjectEntry.value : ObjectEntry → Expr
  | .shorthand key => .ident key
  | .entry _ value => value

end TypeScript

namespace Client

open TypeScript OpenApiClient.Module

/-- The object that an expression passes to the client: the third argument of a call, or the parameters
of the method that a signal is bound to, which a construction takes last. -/
def passedBy? : Expr → Option Expr
  | .call _ _ args => args[2]?
  | .construct _ _ args => args.getLast?.bind fun
    | .object entries => (entries.find? (·.key == "params")).map (·.value)
    | _ => none
  | _ => none

/-- The object that a function passes to the client. -/
def passed? (g : Function) : Option Expr := g.body.findSome? passedBy?

/-- The function forwards its parameters to the client in a call of the method: all but the last in one
object, under the names of the arguments. -/
structure Forwards (client endpoint method : String) (arguments : List String) (g : Function) :
    Prop where
  names : g.parameters.map (·.name) =
    (parameterNames client arguments).1 ++ [(parameterNames client arguments).2]
  optional : g.parameters.map (·.isOptional) = arguments.map (fun _ => false) ++ [true]
  body : g.body = [.call (.member (.ident client) "call") [] [.string endpoint, .string method,
    .object (List.zipWith argumentEntry arguments (parameterNames client arguments).1),
    .ident (parameterNames client arguments).2]]

/-- An expression that the pass puts in the place of another passes the object. It is found again, unless
the expression constructs a signal. -/
structure Passes (p : Pass) (object x : Expr) : Prop where
  passed : passedBy? x = some object
  found : ∀ entries, object = .object entries →
    objectArgument? x = if p = .signals then none else some object

section Names

variable (client : String) (arguments : List String)

/-- There is a name for each argument. -/
theorem length_parameterNames : (parameterNames client arguments).1.length = arguments.length := by
  obtain ⟨hlength, -, -⟩ :=
    (({} : Scope).bind client false).2.bindAll_spec (arguments.map parameterName)
  simpa [parameterNames] using hlength

variable {client}

/-- **The names of parameters** are pairwise different, and none is a reserved word or the name of the
client. -/
theorem parameterNames_fresh (hclient : isReserved client = false) :
    ((⟨[client]⟩ : Scope)).Fresh
      ((parameterNames client arguments).1 ++ [(parameterNames client arguments).2]) := by
  have hbind : (({} : Scope).bind client false).2 = ⟨[client]⟩ := by
    simp [Scope.bind, Scope.available, Scope.isTaken, hclient]
  obtain ⟨-, htaken, hnames⟩ := (⟨[client]⟩ : Scope).bindAll_spec (arguments.map parameterName)
  unfold parameterNames
  rw [hbind]
  refine hnames.append ?_
  rw [← htaken]
  exact Scope.fresh_bind _ "init" false

end Names

theorem key_argumentEntry (argument parameter : String) :
    (argumentEntry argument parameter).key = argument := by
  unfold argumentEntry
  split
  · next h => exact h
  · rfl

theorem value_argumentEntry (argument parameter : String) :
    (argumentEntry argument parameter).value = .ident parameter := by
  unfold argumentEntry
  split <;> rfl

section Entries

variable {arguments names : List String} (hlength : names.length = arguments.length)
include hlength

/-- The entries that pass arguments have their names. -/
theorem keys_argumentEntries :
    (List.zipWith argumentEntry arguments names).map (·.key) = arguments := calc
  _ = ((arguments.zip names).map fun p => argumentEntry p.1 p.2).map (·.key) := by
    rw [List.map_zip_eq_zipWith]
    rfl
  _ = (arguments.zip names).map Prod.fst := by simp [key_argumentEntry, Function.comp_def]
  _ = arguments := List.map_fst_zip (Nat.le_of_eq hlength.symm)

/-- Their values are the parameters. -/
theorem values_argumentEntries :
    (List.zipWith argumentEntry arguments names).map (·.value) = names.map .ident := calc
  _ = ((arguments.zip names).map fun p => argumentEntry p.1 p.2).map (·.value) := by
    rw [List.map_zip_eq_zipWith]
    rfl
  _ = ((arguments.zip names).map Prod.snd).map .ident := by
    simp [value_argumentEntry, Function.comp_def]
  _ = names.map .ident := by rw [List.map_snd_zip (Nat.le_of_eq hlength)]

end Entries

namespace Forwards

variable {client endpoint method : String} {arguments : List String} {g : Function}

/-- A function with the names of parameters for the arguments, and a type for each. -/
theorem of_types {types : List Ty} {request : Ty} (hlength : types.length = arguments.length)
    (hparameters : g.parameters =
      ((parameterNames client arguments).1.zip types).map (fun p => { name := p.1, type := p.2 }) ++
        [{ name := (parameterNames client arguments).2, type := request, isOptional := true }])
    (hbody : g.body = [.call (.member (.ident client) "call") [] [.string endpoint, .string method,
      .object (List.zipWith argumentEntry arguments (parameterNames client arguments).1),
      .ident (parameterNames client arguments).2]]) : Forwards client endpoint method arguments g := by
  have hnames : (parameterNames client arguments).1.length = types.length :=
    (length_parameterNames client arguments).trans hlength.symm
  refine ⟨?_, ?_, hbody⟩
  · simp [hparameters, Function.comp_def, List.map_fst_zip (Nat.le_of_eq hnames)]
  · simp [hparameters, Function.comp_def, hnames, hlength]

/-- The last parameter is the optional one. -/
theorem exists_parameters (h : Forwards client endpoint method arguments g) :
    ∃ parameters init, g.parameters = parameters ++ [init] ∧
      (∀ p ∈ parameters, p.isOptional = false) ∧ init.isOptional = true ∧
      parameters.map (·.name) = (parameterNames client arguments).1 ∧
      init.name = (parameterNames client arguments).2 := by
  obtain ⟨parameters, last, hsplit, hrequired, hlast⟩ := List.map_eq_append_iff.1 h.optional
  obtain ⟨init, rfl, hinit⟩ := List.map_eq_singleton_iff.1 hlast
  have hnames := h.names
  rw [hsplit, List.map_append, List.map_singleton] at hnames
  obtain ⟨hnames, hname⟩ := List.append_inj' hnames rfl
  refine ⟨parameters, init, hsplit, fun p hp => ?_, hinit, hnames, by simpa using hname⟩
  have hmem : p.isOptional ∈ arguments.map fun _ => false := hrequired ▸ List.mem_map.2 ⟨p, hp, rfl⟩
  obtain ⟨-, -, hp⟩ := List.mem_map.1 hmem
  exact hp.symm

/-- The object that it passes. -/
theorem arguments_eq (h : Forwards client endpoint method arguments g) :
    (Wrapper.ofFunction g).arguments =
      .object (List.zipWith argumentEntry arguments (parameterNames client arguments).1) := by
  simp only [Wrapper.ofFunction, h.body]
  rfl

/-- **What a replacement finds** of a wrapper that forwards its parameters: all of them but the last, and
the object that it passes. -/
theorem found (h : Forwards client endpoint method arguments g) :
    (Wrapper.ofFunction g).parameters = g.parameters.dropLast ∧
      passed? g = some (Wrapper.ofFunction g).arguments ∧
      ∃ entries, (Wrapper.ofFunction g).arguments = .object entries := by
  obtain ⟨parameters, init, hsplit, hrequired, hinit, -⟩ := h.exists_parameters
  refine ⟨?_, ?_, _, h.arguments_eq⟩
  · have hkept : parameters.filter (!·.isOptional) = parameters :=
      List.filter_eq_self.2 fun p hp => by simp [hrequired p hp]
    simp [Wrapper.ofFunction, hsplit, hinit, hkept]
  · rw [h.arguments_eq, passed?, h.body]
    rfl

/-- The object that it passes is empty if there are no arguments. -/
theorem arguments_eq_nil_iff (h : Forwards client endpoint method arguments g) :
    (Wrapper.ofFunction g).arguments = .object [] ↔ arguments = [] := by
  have hlength := length_parameterNames client arguments
  rw [h.arguments_eq, Expr.object.injEq, ← List.length_eq_zero_iff, List.length_zipWith, hlength,
    Nat.min_self, List.length_eq_zero_iff]

end Forwards

/-- A wrapper that returns another expression passes what the expression passes. -/
theorem passed?_returning (w : Wrapper) (name : String) (result : Ty) (x : Expr) :
    passed? (w.returning name result x) = passedBy? x := by
  simp [passed?, Wrapper.returning]

/-- What is found of a wrapper that was replaced already. -/
theorem ofFunction_returning {g : Function} (name : String) (result : Ty) (x : Expr) :
    Wrapper.ofFunction ((Wrapper.ofFunction g).returning name result x) =
      { Wrapper.ofFunction g with arguments := (objectArgument? x).getD (.object []) } := by
  simp [Wrapper.ofFunction, Wrapper.returning]

/-- A subscription passes the object, where it is found again. -/
theorem passes_subscribe (client endpoint method : String) (object : Expr) :
    Passes .push object
      (.call (.member (.ident client) "subscribe") [] [.string endpoint, .string method, object]) where
  passed := rfl
  found := by
    rintro entries rfl
    rfl

/-- The method that a signal is bound to holds the object, where it is not looked for. -/
theorem passes_construct (signal : Expr) (types : List Ty) (initial : List Expr)
    (client endpoint method : String) (object : Expr) :
    Passes .signals object
      (.construct signal types (initial ++ [signalMethod client endpoint method object])) where
  passed := by
    unfold signalMethod
    split <;> simp [passedBy?, ObjectEntry.key, ObjectEntry.value, clientName]
  found _ _ := rfl

end Client
end OpenApiClient
