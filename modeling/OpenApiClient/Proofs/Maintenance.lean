/-
# What computations maintain

A computation maintains a property of states if it leads from states with the property to states
with it, unless it fails. The rules follow the steps of computations (`Maintains.bind`,
`Maintains.mapM`, `Maintains.foldlM`).

All that types are told with does to the bindings of a file what naming components does. A property
that naming a component maintains is therefore maintained by telling the type of any schema
(`typeOf_steady`), and by declaring a component (`declarationOf_maintains`). In the same way the pass that
writes endpoints maintains what writing a method does (`writeBackbone_maintains`).
-/

import OpenApiClient.Client.Backbone
import OpenApiClient.Client.Model.Declaration
import OpenApiClient.Client.SignalConstruction
import OpenApiClient.Client.Subscription
import OpenApiClient.Proofs.Ends
import OpenApiClient.Proofs.Entries
import OpenApiClient.Proofs.References
import OpenApiClient.Proofs.Schema
import OpenApiClient.Proofs.Telling
import OpenApiClient.Proofs.Types

namespace OpenApiClient

section Rules

variable {ε ε' σ α β : Type} {I : σ → Prop} {P Q : α → Prop} {R : β → Prop}

/-- From a state with `I` the computation leads to one with `I`, and gives a result with `Q`, unless
it fails. -/
def Maintains (I : σ → Prop) (Q : α → Prop) (m : ExceptT ε (StateM σ) α) : Prop :=
  ∀ s, I s → Ends m s (fun a t => I t ∧ Q a) fun _ _ => True

namespace Maintains

variable {m : ExceptT ε (StateM σ) α} {f : α → ExceptT ε (StateM σ) β}

theorem pure {a : α} (h : Q a) : Maintains I Q (Pure.pure a : ExceptT ε (StateM σ) α) :=
  fun _ hs => ⟨hs, h⟩

theorem throw (e : ε) : Maintains I Q (throw e : ExceptT ε (StateM σ) α) := fun _ _ => trivial

/-- A check as a step. -/
theorem lift {x : Except ε α} (h : ∀ a, x = .ok a → Q a) :
    Maintains I Q (ExceptT.mk (Pure.pure x) : ExceptT ε (StateM σ) α) := fun _ hs =>
  ends_mk.2 ⟨fun a ha => ⟨hs, h a ha⟩, fun _ _ => trivial⟩

/-- A check whose error is told in other words, as a step. -/
theorem mapError {x : Except ε α} {g : ε → ε'} (h : ∀ a, x = .ok a → Q a) :
    Maintains I Q (ExceptT.mk (Pure.pure (x.mapError g)) : ExceptT ε' (StateM σ) α) :=
  .lift fun a ha => by
    cases x with
    | ok a' => exact h a (congrArg Except.ok (Except.ok.inj ha))
    | error e => cases ha

theorem modify {g : σ → σ} (h : ∀ s, I s → I (g s)) :
    Maintains I (fun _ => True) (modify g : ExceptT ε (StateM σ) PUnit) :=
  fun s hs => ⟨h s hs, trivial⟩

/-- **Steps are taken one after another.** -/
theorem bind (hm : Maintains I Q m) (hf : ∀ a, Q a → Maintains I R (f a)) :
    Maintains I R (m >>= f) := fun s hs =>
  ends_bind.2 ((hm s hs).imp fun a t ⟨ht, ha⟩ => hf a ha t ht)

/-- A step that reads the state. -/
theorem get_bind {f : σ → ExceptT ε (StateM σ) β} (hf : ∀ s, I s → Maintains I R (f s)) :
    Maintains I R (get >>= f) := fun s hs =>
  ends_bind.2 (ends_get.2 (hf s hs s hs))

theorem adapt {g : ε → ε'} (hm : Maintains I Q m) : Maintains I Q (m.adapt g) := fun s hs =>
  ends_adapt.2 (hm s hs)

theorem mapM {f : α → ExceptT ε (StateM σ) β} {xs : List α}
    (h : ∀ x ∈ xs, Maintains I (fun _ => True) (f x)) :
    Maintains I (fun _ => True) (xs.mapM f) := by
  intro s hs
  refine (ends_mapM (fun _ _ t => I t) hs fun done x rest _ t hx ht => ?_).imp fun _ t ht =>
    ⟨ht, trivial⟩
  exact (h x (by simp [← hx]) t ht).imp fun _ _ hu => hu.1

theorem forM {f : α → ExceptT ε (StateM σ) PUnit} {xs : List α}
    (h : ∀ x ∈ xs, Maintains I (fun _ => True) (f x)) :
    Maintains I (fun _ => True) (xs.forM f) := by
  intro s hs
  refine (ends_forM (fun _ t => I t) hs fun done x rest t hx ht => ?_).imp fun _ t ht => ⟨ht, trivial⟩
  exact (h x (by simp [← hx]) t ht).imp fun _ _ hu => hu.1

theorem foldlM {f : β → α → ExceptT ε (StateM σ) β} {xs : List α} {b : β}
    (h : ∀ x ∈ xs, ∀ b, Maintains I (fun _ => True) (f b x)) :
    Maintains I (fun _ => True) (xs.foldlM f b) := by
  intro s hs
  refine (ends_foldlM (fun _ _ t => I t) hs fun done x rest b t hx ht => ?_).imp fun _ t ht =>
    ⟨ht, trivial⟩
  exact (h x (by simp [← hx]) b t ht).imp fun _ _ hu => hu.1

end Maintains
end Rules

namespace Client

open OpenApi TypeScript

namespace TypeContext

/-- The computation maintains a property of states, whatever its result is. -/
abbrev Steady {α : Type} (I : TypeState → Prop) (m : Mapping α) : Prop :=
  Maintains I (fun _ => True) m

variable {I : TypeState → Prop}

/-- What is told for a file changes its bindings as the computation does. -/
theorem of_inFile {α : Type} {Q : α → Prop} {m : Mapping α} (hm : Maintains I Q m) {f f' : Module.File}
    (h : I { bindings := f.bindings }) {a : α} {names : List String}
    (hin : m.inFile f = .ok (a, f', names)) :
    ∃ t, I t ∧ Q a ∧ f' = { f with bindings := t.bindings } := by
  unfold Mapping.inFile at hin
  split at hin
  · next a' t hrun =>
    obtain ⟨rfl, hf⟩ := Prod.mk.inj (Except.ok.inj hin)
    obtain ⟨ht, ha⟩ := (hm _ h).result hrun
    exact ⟨t, ht, ha, (Prod.mk.inj hf).1.symm⟩
  · cases hin

theorem steady_sequential : Mapping.Sequential fun m => Steady I m where
  lift _ := .lift fun _ _ => trivial
  bind hm hf := hm.bind fun a _ => hf a

/-- Naming a component maintains what the import of its target maintains, or that of its module. -/
theorem reference_maintains {c : TypeContext} {component : String}
    (hnamed : ∀ t module, c.transfers.at? component = some t → t.module = some module →
      Steady I (Mapping.importNamed module t.name true))
    (hdefault : ∀ s, c.transfers.at? component = none → c.components.schema component = .ok s →
      Steady I (Mapping.importDefault (Naming.modelModule component) (Naming.simpleName component) true))
    (hnote : Steady I (Mapping.noteReference component)) (args : List Ty) :
    Steady I (c.reference component args) := by
  unfold reference
  cases hat : c.transfers.at? component with
  | some t =>
    cases hm : t.module with
    | some module =>
      simp only [hm]
      exact (hnamed t module hat hm).bind fun _ _ => .pure trivial
    | none =>
      simp only [hm]
      exact .pure trivial
  | none =>
    dsimp only
    refine Maintains.bind (Q := fun s => c.components.schema component = .ok s)
      (.lift fun _ hs => hs) fun s hs => ?_
    split
    · exact .pure trivial
    · exact (hdefault s hat hs).bind fun _ _ => hnote.bind fun _ _ => .pure trivial

variable {c : TypeContext} (hc : ∀ component args, Steady I (c.reference component args))
include hc

/-- **The type of a schema** maintains what naming a component maintains. -/
theorem typeOf_steady (s : Schema) : Steady I (c.typeOf s) := steady_sequential.typeOf hc s

theorem nullableTypeOf_steady (s : Schema) : Steady I (c.nullableTypeOf s) :=
  steady_sequential.nullableTypeOf hc s

theorem argumentType_steady (a : Argument) : Steady I (c.argumentType a) := by
  unfold argumentType
  cases a.schema with
  | none => exact Maintains.bind (Q := fun _ => True) (.pure trivial) fun _ _ => .pure trivial
  | some s => exact (typeOf_steady hc s).bind fun _ _ => .pure trivial

theorem responseType_steady : ∀ s : Option Schema, Steady I (c.responseType s)
  | none => .pure trivial
  | some s => nullableTypeOf_steady hc s

theorem streamedType_steady (response : Schema) : Steady I (c.streamedType response) := by
  unfold streamedType
  cases streamedItem? response with
  | none => exact .pure trivial
  | some s => exact nullableTypeOf_steady hc s

theorem signalArguments_steady (s : Signal) (response : Schema) :
    Steady I (c.signalArguments s response) := by
  unfold signalArguments
  split
  · exact .pure trivial
  · exact (nullableTypeOf_steady hc _).bind fun _ _ => .pure trivial
  · exact .pure trivial

/-- A subscription names its item, and imports what it is made with. -/
theorem subscriptions_steady {v : Conventions}
    (hsubscription : Steady I (Mapping.importNamed v.frontendPackage "Subscription" true))
    (hclient : Steady I (Mapping.importDefault v.clientModule clientName false))
    (classes : List String) (endpoint method : String) (response : Schema) (arguments : Expr) :
    Steady I ((subscriptions classes).build () c v endpoint method response arguments) :=
  (streamedType_steady hc response).bind fun _ _ => hsubscription.bind fun _ _ =>
    hclient.bind fun _ _ => .pure trivial

/-- So does the construction of a signal. -/
theorem signalConstructions_steady {v : Conventions} {s : Signal}
    (hsignal : ∀ module, Steady I (Mapping.importNamed module
      (((c.transfers.at? s.schema).map (·.name)).getD s.className) false))
    (hclient : Steady I (Mapping.importDefault v.clientModule clientName false))
    (models : Option (Entries Model)) (endpoint method : String) (response : Schema)
    (arguments : Expr) :
    Steady I ((signalConstructions models).build s c v endpoint method response arguments) :=
  (signalArguments_steady hc s response).bind fun _ _ => (hsignal _).bind fun _ _ =>
    hclient.bind fun _ _ => Maintains.bind (Q := fun _ => True) (.lift fun _ _ => trivial)
      fun _ _ => .pure trivial

theorem inherit_steady (i : Inheritance) : ∀ s : Schema, Steady I (c.inherit i s)
  | .inline _ => .pure trivial
  | .ref pointer => by
    unfold inherit
    refine Maintains.bind (Q := fun _ => True) (.lift fun _ _ => trivial) fun parent _ => ?_
    split
    · exact (typeOf_steady hc _).bind fun _ _ => .pure trivial
    refine Maintains.bind (Q := fun _ => True) (.lift fun _ _ => trivial) fun s _ => ?_
    split
    · exact .pure trivial
    refine (typeOf_steady hc _).bind fun type _ => ?_
    exact Maintains.bind (Q := fun _ => True) (.lift fun _ _ => trivial) fun _ _ => .pure trivial

theorem interfaceOf_maintains (identifier : String) (s : SchemaObject) :
    Maintains I (fun i => i.typeParameters = s.typeParameters) (c.interfaceOf identifier s) := by
  unfold interfaceOf
  refine Maintains.bind (.foldlM fun x _ i => inherit_steady hc i x) fun i _ => ?_
  exact Maintains.bind (.mapM fun e _ => steady_sequential.property hc e.1 e.2.1 e.2.2) fun _ _ => .pure rfl

omit hc in
variable (c) in
/-- What the declaration of a component takes over from it: it is no function, and its type parameters
are those of the component. -/
structure Renders (component : String) (d : Declaration) : Prop where
  key : component ∈ c.components.schemas.keys
  function : ∀ g, d ≠ .function g
  typeParameters : ∀ v ∈ d.typeParameters, ∃ s, c.components.schema component = .ok s ∧
    v ∈ s.typeParameters

/-- **The declaration of a component** maintains what naming a component maintains. -/
theorem declarationOf_maintains (component identifier : String) :
    Maintains I (c.Renders component) (c.declarationOf component identifier) := by
  unfold declarationOf
  split
  · next pointer hat =>
    have hkey : component ∈ c.components.schemas.keys := Entries.has_iff.1 (by simp [Entries.has, hat])
    exact (typeOf_steady hc _).bind fun type _ => .pure ⟨hkey, fun _ h => (by cases h), fun _ h => by cases h⟩
  · next hat =>
    refine Maintains.bind (Q := fun s => c.components.schema component = .ok s)
      (.lift fun _ hs => hs) fun s hs => ?_
    have hkey := Components.Leads.mem_keys ⟨s, hs⟩
    split
    · exact .pure ⟨hkey, fun _ h => (by cases h), fun _ h => by cases h⟩
    split
    · refine (interfaceOf_maintains hc identifier s).bind fun i hi =>
        .pure ⟨hkey, fun _ h => (by cases h), fun v hv => ?_⟩
      exact ⟨s, hs, hi ▸ hv⟩
    · exact (typeOf_steady hc _).bind fun type _ =>
        .pure ⟨hkey, fun _ h => (by cases h), fun v hv => ⟨s, hs, hv⟩⟩

end TypeContext

section Endpoints

variable {j : Job} {I : Run → Prop}
  (hdeclare : ∀ e ∈ callsByEndpoint j.document,
    Maintains I (fun _ => True) (declareAll (Naming.modelFile e.1) (e.2.map (·.name))))
  (hmethod : ∀ name call localName, (name, call) ∈ Entries.spread (callsByEndpoint j.document) →
    Maintains I (fun _ => True) (writeMethod j name (Naming.modelFile name) call localName))
include hdeclare hmethod

theorem writeEndpoint_maintains {e : String × List Call} (he : e ∈ callsByEndpoint j.document) :
    Maintains I (fun _ => True) (writeEndpoint j e.1 e.2) := by
  have hcalls : ∀ call ∈ e.2, (e.1, call) ∈ Entries.spread (callsByEndpoint j.document) := fun call hcall =>
    List.mem_flatMap.2 ⟨e, he, List.mem_map.2 ⟨call, hcall, rfl⟩⟩
  have hwrite : Maintains I (fun _ => True) (declareAll (Naming.modelFile e.1) (e.2.map (·.name)) >>=
      fun locals => (e.2.zip locals).mapM (fun m => writeMethod j e.1 (Naming.modelFile e.1) m.1 m.2) >>=
        fun results => (pure (⟨e.1, Naming.modelFile e.1, results.map (·.1)⟩, results.flatMap (·.2)) :
          Action (Endpoint × List String))) :=
    (hdeclare e he).bind fun locals _ => Maintains.bind
      (.mapM fun m hm => hmethod e.1 m.1 m.2 (hcalls m.1 (List.of_mem_zip hm).1)) fun _ _ => .pure trivial
  unfold writeEndpoint
  cases repeated? [] e.2 with
  | some c => exact Maintains.bind (Q := fun _ => True) (.throw _) fun _ _ => hwrite
  | none => exact hwrite

/-- **The pass that writes endpoints** maintains what declaring the methods of an endpoint and writing one of
them maintain, if it does not depend on the endpoints that were found and on the log. -/
theorem writeBackbone_maintains (hfound : ∀ r b log, I r → I { r with backbone := b, log }) :
    Maintains I (fun _ => True) (writeBackbone j) := by
  unfold writeBackbone
  refine Maintains.bind (.mapM fun e he => writeEndpoint_maintains hdeclare hmethod he) fun results _ => ?_
  exact Maintains.bind (.modify fun r h => hfound r r.backbone _ h) fun _ _ =>
    .modify fun r h => hfound r _ r.log h

end Endpoints

end Client
end OpenApiClient
