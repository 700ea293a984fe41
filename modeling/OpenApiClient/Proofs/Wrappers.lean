/-
# What wrappers do

A wrapper returns one expression. As it is made first it calls the client; a replacement makes it
subscribe, or construct a signal. `Calls client endpoint method x` says of the expression `x` that it
does one of the three through `client` for the method of the endpoint. The client is what the file
imports as the default of the client module (`wrapper_spec`, `Replacement.Lawful`). What it passes on the
way is told by `Forwards` and `Passes`.
-/

import OpenApiClient.Client.SignalConstruction
import OpenApiClient.Client.Subscription
import OpenApiClient.Proofs.Declarations
import OpenApiClient.Proofs.Passing

namespace OpenApiClient
namespace Client

open OpenApi TypeScript OpenApiClient.Module

/-- The expression passes the names of an endpoint and of its method to the client, in a call or in
a subscription or for a signal. -/
inductive Calls (client endpoint method : String) : Expr → Prop
  | call (arguments init : Expr) : Calls client endpoint method
      (.call (.member (.ident client) "call") []
        [.string endpoint, .string method, arguments, init])
  | subscribe (arguments : Expr) : Calls client endpoint method
      (.call (.member (.ident client) "subscribe") [] [.string endpoint, .string method, arguments])
  | construct (signal : Expr) (types : List Ty) (initial : List Expr) (arguments : Expr) :
      Calls client endpoint method
        (.construct signal types (initial ++ [signalMethod client endpoint method arguments]))

/-- The name by which a file knows the client. -/
def clientOf? (v : Conventions) (b : Bindings) : Option String :=
  b.imports.defaultName? (b.site.specifier v.clientModule)

theorem clientOf?_of_adds {v : Conventions} {b b' : Bindings} {ms : List String} {client : String}
    (h : Bindings.Adds ms b b') (hb : clientOf? v b = some client) : clientOf? v b' = some client := by
  rw [clientOf?, h.site]
  exact h.kept _ _ hb

/-- The function returns one expression, which reaches the method of the endpoint through the client
that the bindings know. -/
def Wraps (v : Conventions) (b : Bindings) (endpoint method : String) (g : Function) : Prop :=
  ∃ client x, g.body = [x] ∧ Calls client endpoint method x ∧ clientOf? v b = some client

theorem Wraps.of_adds {v : Conventions} {b b' : Bindings} {ms : List String}
    {endpoint method : String} {g : Function} (h : Bindings.Adds ms b b')
    (hg : Wraps v b endpoint method g) : Wraps v b' endpoint method g := by
  obtain ⟨client, x, hx, hcalls, hb⟩ := hg
  exact ⟨client, x, hx, hcalls, clientOf?_of_adds h hb⟩

/-- What the expression constructs is of a class that is imported by its name. -/
def ImportsClass (b : Bindings) (x : Expr) : Prop :=
  ∀ callee types args, x = .construct callee types args →
    ∃ name sp id, callee = .ident name ∧ b.imports.namedName? sp id = some name

theorem ImportsClass.grows {b b' : Bindings} {x : Expr} (h : ImportsClass b x) (hb : b.Grows b') :
    ImportsClass b' x := fun callee types args hx =>
  have ⟨name, sp, id, hcallee, hname⟩ := h callee types args hx
  ⟨name, sp, id, hcallee, hb.keptNamed sp id name hname⟩

/-- The schemas of the arguments and of the response of a method are closed. -/
structure Method.Closed (c : Components) (m : Method) : Prop where
  arguments : ∀ a ∈ m.arguments, ∀ s, a.schema = some s → c.Closed s
  response : ∀ s, m.response = some s → c.Closed s

namespace Mapping

theorem importClient_spec (v : Conventions) (s : TypeState) :
    Ends (importDefault v.clientModule clientName false) s
      (fun client t => s.Moves [] [v.clientModule] t ∧ clientOf? v t.bindings = some client)
      fun _ _ => False :=
  (importDefault_spec v.clientModule clientName false s).imp fun _ t h => ⟨h.1, h.2 t.bindings (.refl _)⟩

end Mapping

/-- What the types of a method take by name. -/
def Method.mentions (m : Method) : List Mention :=
  (m.arguments.flatMap fun a => a.schema.toList.flatMap Schema.mentions) ++
    m.response.toList.flatMap Schema.mentions

/-- The names of type parameters that the schemas of a method have. -/
def Method.typeVariables (m : Method) : List String :=
  (m.arguments.flatMap fun a => a.schema.toList.flatMap Schema.typeVariables) ++
    m.response.toList.flatMap Schema.typeVariables

/-- What the types of a method of closed schemas take by name leads to schemas. -/
theorem Method.Closed.leads_of_mention {c : Components} {m : Method} (h : m.Closed c) {n : String}
    (hn : .component n ∈ m.mentions) : c.Leads n := by
  rcases List.mem_append.1 hn with hn | hn
  · obtain ⟨a, ha, hn⟩ := List.mem_flatMap.1 hn
    obtain ⟨s, hs, hn⟩ := List.mem_flatMap.1 hn
    exact Components.leads_of_mention (h.arguments a ha s (by simpa using hs)) hn
  · obtain ⟨s, hs, hn⟩ := List.mem_flatMap.1 hn
    exact Components.leads_of_mention (h.response s (by simpa using hs)) hn

theorem Method.mem_typeVariables_of_mention {m : Method} {name : String}
    (h : .plain name ∈ m.mentions) : name = "Blob" ∨ name ∈ m.typeVariables := by
  rcases List.mem_append.1 h with h | h
  · obtain ⟨a, ha, h⟩ := List.mem_flatMap.1 h
    obtain ⟨s, hs, h⟩ := List.mem_flatMap.1 h
    refine (Schema.mem_typeVariables_of_mention h).imp_right fun h => List.mem_append_left _ ?_
    exact List.mem_flatMap.2 ⟨a, ha, List.mem_flatMap.2 ⟨s, hs, h⟩⟩
  · obtain ⟨s, hs, h⟩ := List.mem_flatMap.1 h
    refine (Schema.mem_typeVariables_of_mention h).imp_right fun h => List.mem_append_right _ ?_
    exact List.mem_flatMap.2 ⟨s, hs, h⟩

namespace TypeContext

variable {c : TypeContext}

theorem argumentType_gives {a : Argument} (ha : ∀ s, a.schema = some s → c.components.Closed s) :
    c.Gives (c.argumentType a) (a.schema.toList.flatMap Schema.mentions) fun b t =>
      c.Spells b t.references (a.schema.toList.flatMap Schema.mentions) := by
  unfold argumentType
  have horUndefined : ∀ {b : Bindings} {t : Ty} {ms : List Mention}, c.Spells b t.references ms →
      c.Spells b (if a.isNullable then t.orUndefined else t).references ms := fun h => by
    split
    · exact h.congr fun _ => Ty.mem_references_orUndefined
    · exact h
  cases hs : a.schema with
  | none =>
    have hunknown : c.Gives (pure (.basic .unknown)) [] fun b (t : Ty) => c.Spells b t.references [] :=
      .pure fun _ => .nil
    exact hunknown.map fun _ _ => horUndefined
  | some s =>
    refine Gives.congr ((typeOf_gives (ha s hs)).map fun b t ht => ?_) (by simp)
    simpa using horUndefined ht

theorem responseType_gives {r : Option Schema} (hr : ∀ s, r = some s → c.components.Closed s) :
    c.Gives (c.responseType r) (r.toList.flatMap Schema.mentions) fun b t =>
      c.Spells b t.references (r.toList.flatMap Schema.mentions) := by
  cases r with
  | none => exact .pure fun _ => .nil
  | some s => simpa [responseType] using nullableTypeOf_gives (hr s rfl)

/-- **The wrapper of a method** can be made in a valid document. It has the name that was given to
it, and calls the method of the endpoint with its arguments; it refers to what the schemas of the method
say. -/
theorem wrapper_spec (v : Conventions) (endpoint : String) (call : Call) {m : Method}
    (hm : m.Closed c.components) (s : TypeState) :
    Ends (c.wrapper v endpoint call m) s
      (fun g t => g.name = m.localName ∧ Wraps v t.bindings endpoint m.name g ∧
        (∃ client, clientOf? v t.bindings = some client ∧
          Forwards client endpoint m.name (m.arguments.map (·.name)) g) ∧
        (∀ b, t.bindings.Grows b → ∀ r ∈ (Declaration.function g).references,
          c.Refers b m.typeVariables r) ∧
        s.Moves (m.mentions.flatMap c.notedBy) [v.clientModule] t)
      fun _ _ => False := by
  have types := Gives.mapM fun a ha => argumentType_gives (c := c) (hm.arguments a ha)
  unfold wrapper
  refine ends_bind.2 ((types s).imp fun types s₁ ⟨hs₁, htypes⟩ => ?_)
  refine ends_bind.2 ((responseType_gives hm.response s₁).imp fun result s₂ ⟨hs₂, hresult⟩ => ?_)
  refine ends_bind.2 ((Mapping.importNamed_spec _ _ _ s₂).imp fun request s₃ ⟨hs₃, hrequest⟩ => ?_)
  refine ends_bind.2 ((Mapping.importClient_spec v s₃).imp fun client s₄ ⟨hs₄, hclient⟩ => ?_)
  have hlength : types.length = m.arguments.length :=
    (htypes _ (hs₂.trans (hs₃.trans hs₄)).adds.grows).length_eq.symm
  refine ⟨rfl, ⟨client, _, rfl, .call _ _, hclient⟩,
    ⟨client, hclient, .of_types (by simpa using hlength) rfl rfl⟩, fun b hb r hr => ?_, ?_⟩
  · have hb₃ := hs₄.adds.grows.trans hb
    have hb₂ := hs₃.adds.grows.trans hb₃
    -- The types of arguments and of the result come from the schemas of the method.
    have hmentions : ∀ {rs : List Reference} {ms : List Mention}, c.Spells b rs ms →
        (∀ n ∈ ms, n ∈ m.mentions) → r ∈ rs → c.Refers b m.typeVariables r := by
      intro rs ms hspells hsub hrs
      obtain ⟨n, hn, hspelling⟩ := hspells.origin r hrs
      refine .of_spelling hspelling ?_ ?_
      · rintro n rfl
        exact hm.leads_of_mention (hsub _ hn)
      · rintro name rfl
        exact Method.mem_typeVariables_of_mention (hsub _ hn)
    simp only [Declaration.references, List.mem_append] at hr
    rcases hr with hr | hr | hr
    · rw [List.flatMap_append, List.mem_append] at hr
      rcases hr with hr | hr
      · obtain ⟨p, hp, hr⟩ := List.mem_flatMap.1 hr
        obtain ⟨⟨name, type⟩, hzip, rfl⟩ := List.mem_map.1 hp
        refine hmentions (.flatMap (htypes b (hs₂.adds.grows.trans hb₂)))
          (fun n hn => List.mem_append_left _ hn) ?_
        exact List.mem_flatMap.2 ⟨type, (List.of_mem_zip hzip).2, hr⟩
      · obtain rfl : r = (request, 0) := by
          simpa [Ty.ref, Ty.references, Ty.referencesOfAll] using hr
        exact .inr (.inl ⟨_, _, hrequest b hb₃⟩)
    · simp only [Ty.references, Ty.referencesOfAll, List.mem_cons, List.append_nil] at hr
      rcases hr with rfl | hr
      · exact .inr (.inr (.inl rfl))
      · exact hmentions (hresult b hb₂) (fun n hn => List.mem_append_right _ hn) hr
    · have hentry : ∀ xs ys, Expr.referencesOfEntries (List.zipWith argumentEntry xs ys) = [] := by
        intro xs
        induction xs with
        | nil => exact fun _ => rfl
        | cons x xs ih =>
          rintro (_ | ⟨y, ys⟩)
          · rfl
          · simp only [List.zipWith_cons_cons, argumentEntry]
            split <;> simp [Expr.referencesOfEntries, Expr.references, ih]
      simp [Expr.referencesOfAll, Expr.references, Ty.referencesOfAll, hentry] at hr
  · simpa [Method.mentions] using hs₁.trans (hs₂.trans (hs₃.trans hs₄))

end TypeContext

section Replacements

variable {κ : Type}

/-- A replacement that can be made of every closed response; the new wrapper reaches the same method
of the endpoint, passes the object, and imports the class of what it constructs. Its result names what
`late` says, and refers to what the response says. -/
structure Replacement.Lawful (w : Replacement κ) (c : TypeContext)
    (late : κ → Schema → List String) : Prop where
  select : ∀ response, c.components.Closed response → ∃ k, w.select response = .ok k
  build : ∀ k v endpoint method response arguments, c.components.Closed response → ∀ s,
    Ends (w.build k c v endpoint method response arguments) s
      (fun p t => s.Moves (late k response) [v.clientModule] t ∧
        (∃ client, Calls client endpoint method p.2 ∧ clientOf? v t.bindings = some client) ∧
        (Passes w.pass arguments p.2 ∧ ImportsClass t.bindings p.2) ∧
        ∀ b, t.bindings.Grows b → ∀ r ∈ p.1.references ++ p.2.references,
          r ∈ arguments.references ∨ c.Refers b response.typeVariables r)
      fun _ _ => False

variable {c : Components}

theorem closed_firstArgument {r s : Schema} (hr : c.Closed r) (h : r.firstArgument? = some s) :
    c.Closed s := by
  cases r with
  | ref p => simp [Schema.firstArgument?] at h
  | inline o =>
    refine Components.closed_inline.1 hr s (SchemaOf.mem_children.2 ?_)
    obtain ⟨args, ha, hs⟩ := Option.bind_eq_some_iff.1 h
    have := List.mem_of_head? hs
    tauto

theorem closed_streamedItem {r s : Schema} (hr : c.Closed r) (h : streamedItem? r = some s) :
    c.Closed s := by
  cases r with
  | ref p => simp [streamedItem?, Schema.object?, Schema.firstArgument?] at h
  | inline o =>
    unfold streamedItem? at h
    cases hi : o.items with
    | some x =>
      simp only [Schema.object?, Option.bind_some, hi, Option.some_or, Option.some.injEq] at h
      exact h ▸ Components.closed_inline.1 hr x (SchemaOf.mem_children.2 (by tauto))
    | none =>
      simp only [Schema.object?, Option.bind_some, hi, Option.none_or] at h
      exact closed_firstArgument hr h

theorem referencedComponent?_ok {s : Schema} (hs : c.Closed s) :
    ∃ r, referencedComponent? s = .ok r := by
  have hp : ∀ p, s.target? = some p → ∃ n, componentName p = .ok n := by
    intro p hp
    cases s with
    | ref q =>
      obtain rfl : q = p := by simpa [Schema.target?] using hp
      obtain ⟨n, hn, -⟩ := Components.closed_ref.1 hs
      exact ⟨n, hn⟩
    | inline o =>
      obtain ⟨n, hn, -⟩ := Components.closed_ref.1
        (Components.closed_inline.1 hs _ (Schema.ref_mem_children hp))
      exact ⟨n, hn⟩
  unfold referencedComponent?
  cases ht : s.target? with
  | none => exact ⟨none, rfl⟩
  | some p =>
    obtain ⟨n, hn⟩ := hp p ht
    exact ⟨some n, by simp [hn, Functor.map, Except.map]⟩

/-- The components that the type of a subscription names. -/
def streamedNames (c : TypeContext) (response : Schema) : List String :=
  (streamedItem? response).toList.flatMap c.named

/-- The components that the type of a signal names. -/
def signalNames (c : TypeContext) : Signal → Schema → List String
  | .number, _ => []
  | _, response => response.firstArgument?.toList.flatMap c.named

theorem typeVariables_firstArgument {r s : Schema} (h : r.firstArgument? = some s) :
    s.typeVariables ⊆ r.typeVariables := by
  cases r with
  | ref p => cases h
  | inline o =>
    refine Schema.typeVariables_subset (SchemaOf.mem_children.2 ?_)
    obtain ⟨args, ha, hs⟩ := Option.bind_eq_some_iff.1 h
    have := List.mem_of_head? hs
    tauto

theorem typeVariables_streamedItem {r s : Schema} (h : streamedItem? r = some s) :
    s.typeVariables ⊆ r.typeVariables := by
  cases r with
  | ref p => cases h
  | inline o =>
    unfold streamedItem? at h
    cases hi : o.items with
    | some x =>
      simp only [Schema.object?, Option.bind_some, hi, Option.some_or, Option.some.injEq] at h
      exact Schema.typeVariables_subset (SchemaOf.mem_children.2 (by subst h; tauto))
    | none =>
      simp only [Schema.object?, Option.bind_some, hi, Option.none_or] at h
      exact typeVariables_firstArgument h

theorem streamedType_gives {c : TypeContext} {response : Schema}
    (h : c.components.Closed response) :
    c.Gives (c.streamedType response) ((streamedItem? response).toList.flatMap Schema.mentions)
      fun b t => ∀ r ∈ t.references, c.Refers b response.typeVariables r := by
  unfold TypeContext.streamedType
  cases hi : streamedItem? response with
  | none => exact .pure fun _ => by simp [Ty.references]
  | some s =>
    have hs := closed_streamedItem h hi
    have := TypeContext.nullableTypeOf_gives (c := c) hs
    refine (this.congr (by simp)).mono fun b t ht r hr => ?_
    exact (ht.refers hs hr).mono (typeVariables_streamedItem hi)

/-- What the arguments of the type of a signal take by name. -/
def signalMentions : Signal → Schema → List Mention
  | .number, _ => []
  | _, response => response.firstArgument?.toList.flatMap Schema.mentions

theorem signalArguments_gives {c : TypeContext} {response : Schema} (s : Signal)
    (h : c.components.Closed response) :
    c.Gives (c.signalArguments s response) (signalMentions s response)
      fun b ts => ∀ r ∈ Ty.referencesOfAll ts, c.Refers b response.typeVariables r := by
  have some_gives : ∀ a, response.firstArgument? = some a →
      c.Gives (do return [← c.nullableTypeOf a]) a.mentions fun b ts =>
        ∀ r ∈ Ty.referencesOfAll ts, c.Refers b response.typeVariables r := fun a hi =>
    have ha := closed_firstArgument h hi
    (TypeContext.nullableTypeOf_gives ha).map fun b t ht r hr =>
      (ht.refers ha (by simpa [Ty.referencesOfAll] using hr)).mono (typeVariables_firstArgument hi)
  unfold TypeContext.signalArguments
  cases s with
  | number => exact .pure fun _ => by simp [Ty.referencesOfAll]
  | value | list =>
    simp only [signalMentions]
    cases hi : response.firstArgument? with
    | none => exact .pure fun _ => by simp [Ty.referencesOfAll, Ty.references]
    | some a => simpa using some_gives a hi

theorem streamedNames_eq (c : TypeContext) (response : Schema) :
    streamedNames c response =
      ((streamedItem? response).toList.flatMap Schema.mentions).flatMap c.notedBy := by
  rw [streamedNames, List.flatMap_assoc]
  exact List.flatMap_congr fun s _ => c.named_eq s

theorem signalNames_eq (c : TypeContext) (s : Signal) (response : Schema) :
    signalNames c s response = (signalMentions s response).flatMap c.notedBy := by
  have hsome : response.firstArgument?.toList.flatMap c.named =
      (response.firstArgument?.toList.flatMap Schema.mentions).flatMap c.notedBy := by
    rw [List.flatMap_assoc]
    exact List.flatMap_congr fun s _ => c.named_eq s
  cases s with
  | number => rfl
  | value | list => exact hsome

theorem subscriptions_lawful (classes : List String) (c : TypeContext) :
    (subscriptions classes).Lawful c fun _ => streamedNames c where
  select response hr := by
    obtain ⟨r, hr⟩ := referencedComponent?_ok hr
    have : ∃ b, isPushed classes response = .ok b := by
      unfold isPushed
      dsimp only
      split
      · exact ⟨true, rfl⟩
      · exact ⟨_, by rw [hr]; rfl⟩
    obtain ⟨b, hb⟩ := this
    exact ⟨_, by simp only [subscriptions, hb]; rfl⟩
  build k v endpoint method response arguments hr s := by
    refine ends_bind.2 ((streamedType_gives hr s).imp fun item s₁ ⟨hs₁, hitem⟩ => ?_)
    refine ends_bind.2 ((Mapping.importNamed_spec _ _ _ s₁).imp fun name s₂ ⟨hs₂, hname⟩ => ?_)
    refine ends_bind.2 ((Mapping.importClient_spec v s₂).imp fun client s₃ ⟨hs₃, hclient⟩ => ?_)
    refine ⟨?_, ⟨client, .subscribe _, hclient⟩, ⟨passes_subscribe .., nofun⟩, fun b hb r hr => ?_⟩
    · simpa [streamedNames_eq] using hs₁.trans (hs₂.trans hs₃)
    · have hb₂ := hs₃.adds.grows.trans hb
      simp only [Ty.references, Ty.referencesOfAll, Expr.references, Expr.referencesOfAll,
        List.mem_append, List.mem_cons, List.append_nil, List.nil_append] at hr
      rcases hr with (rfl | hr) | hr
      · exact .inr (.inr (.inl ⟨_, _, hname b hb₂⟩))
      · exact .inr (hitem b (hs₂.adds.grows.trans hb₂) r hr)
      · exact .inl hr

/-- The empty values of models have no types in them. -/
def Plain (models : Option (Entries Model)) : Prop :=
  ∀ ms, models = some ms → ∀ e ∈ ms, e.2.emptyValue.references = []

theorem initialValue_ok {models : Option (Entries Model)} (hmodels : Plain models)
    {a : Option Schema} (h : ∀ s, a = some s → c.Closed s) :
    ∃ x, initialValue models a = .ok x ∧ x.references = [] := by
  cases a with
  | none => exact ⟨_, rfl, rfl⟩
  | some s =>
    obtain ⟨r, hr⟩ := referencedComponent?_ok (h s rfl)
    by_cases hn : s.isNullable
    · exact ⟨_, by simp only [initialValue, hn, if_true]; rfl, rfl⟩
    · refine ⟨_, by simp only [initialValue, hn, hr]; rfl, ?_⟩
      cases hm : (r.bind fun name => models.bind (·.at? name)) with
      | none => rfl
      | some m =>
        obtain ⟨name, -, hm⟩ := Option.bind_eq_some_iff.1 hm
        obtain ⟨ms, hms, hm⟩ := Option.bind_eq_some_iff.1 hm
        exact hmodels ms hms _ (Entries.mem_of_at? hm)

theorem initialArguments_ok {models : Option (Entries Model)} (hmodels : Plain models) (s : Signal)
    {response : Schema} (h : c.Closed response) :
    ∃ xs, initialArguments models s response = .ok xs ∧ Expr.referencesOfAll xs = [] := by
  cases s with
  | number | list => exact ⟨_, rfl, rfl⟩
  | value =>
    obtain ⟨x, hx, hrefs⟩ := initialValue_ok hmodels fun s => closed_firstArgument (s := s) h
    refine ⟨[x], by simp only [initialArguments, hx]; rfl, ?_⟩
    simp [Expr.referencesOfAll, hrefs]

theorem signalConstructions_lawful {models : Option (Entries Model)} (hmodels : Plain models)
    (c : TypeContext) : (signalConstructions models).Lawful c (signalNames c) where
  select response hr := by
    obtain ⟨r, hr⟩ := referencedComponent?_ok hr
    exact ⟨_, by simp only [signalConstructions, hr]; rfl⟩
  build k v endpoint method response arguments hr s := by
    obtain ⟨initial, hinitial, hplain⟩ := initialArguments_ok hmodels k hr
    refine ends_bind.2 ((signalArguments_gives k hr s).imp fun types s₁ ⟨hs₁, htypes⟩ => ?_)
    refine ends_bind.2 ((Mapping.importNamed_spec _ _ _ s₁).imp fun signal s₂ ⟨hs₂, hsignal⟩ => ?_)
    refine ends_bind.2 ((Mapping.importClient_spec v s₂).imp fun client s₃ ⟨hs₃, hclient⟩ => ?_)
    rw [hinitial]
    have himports : ImportsClass s₃.bindings (.construct (.ident signal) types
        (initial ++ [signalMethod client endpoint method arguments])) := by
      rintro _ _ _ ⟨⟩
      exact ⟨_, _, _, rfl, hsignal s₃.bindings hs₃.adds.grows⟩
    refine ⟨?_, ⟨client, .construct .., hclient⟩, ⟨passes_construct .., himports⟩, fun b hb r hr => ?_⟩
    · simpa [signalNames_eq] using hs₁.trans (hs₂.trans hs₃)
    · have hb₂ := hs₃.adds.grows.trans hb
      have hmethod : (signalMethod client endpoint method arguments).references =
          arguments.references := by
        unfold signalMethod
        split <;> simp [Expr.references, Expr.referencesOfEntries]
      simp only [Ty.references, Expr.references, Expr.referencesOfAll_append, hplain, hmethod,
        Expr.referencesOfAll, List.mem_append, List.mem_cons, List.append_nil, List.nil_append] at hr
      rcases hr with (rfl | hr) | hr | hr
      · exact .inr (.inr (.inl ⟨_, _, hsignal b hb₂⟩))
      · exact .inr (htypes b (hs₂.adds.grows.trans hb₂) r hr)
      · exact .inr (htypes b (hs₂.adds.grows.trans hb₂) r hr)
      · exact .inl hr

end Replacements

end Client
end OpenApiClient
