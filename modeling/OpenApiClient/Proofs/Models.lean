/-
# Which models are written

The pass that writes models starts from the components that the types of endpoints name. It writes the
declaration of each, and goes on with the components that the declaration names, until nothing is named
that has no model. So it writes the models that are needed: `Needed` is the least set that has what the
endpoints name, and with a component whatever its declaration names, without the components that types
of the client stand for.

`Run.Modelled` says along the way which components were written, and that each stands alone in its file.
`writeModels_needed` is what it comes to.
-/

import OpenApiClient.Proofs.Generation

namespace OpenApiClient

namespace TypeScript

/-- Whether a declaration is that of a function. -/
def Declaration.isFunction : Declaration → Bool
  | .function _ => true
  | _ => false

end TypeScript

namespace Module

/-- The declarations of a file that are no functions. -/
def File.typeDeclarations (f : File) : List TypeScript.Declaration :=
  f.declarations.filter (!·.isFunction)

namespace File

variable (f : File) (b : Bindings)

/-- A function changes no types. -/
theorem typeDeclarations_function (g : TypeScript.Function) :
    typeDeclarations { f with declarations := f.declarations ++ [.function g], bindings := b } =
      f.typeDeclarations :=
  (List.filter_append ..).trans (List.append_nil _)

theorem typeDeclarations_type {d : TypeScript.Declaration} (hd : ∀ g, d ≠ .function g) :
    typeDeclarations { f with declarations := f.declarations ++ [d], bindings := b } =
      f.typeDeclarations ++ [d] := by
  refine (List.filter_append ..).trans (congrArg _ ?_)
  cases d with
  | function g => exact absurd rfl (hd g)
  | _ => rfl

end File

end Module

namespace Client

open OpenApi TypeScript OpenApiClient.Module

/-- The components that are needed: the `roots`, and what the declarations of needed components name. No
type of the client stands for them. -/
inductive Needed (c : Components) (transfers : Entries TransferTarget) (roots : List String) :
    String → Prop
  | root {n : String} (hn : n ∈ roots) (free : transfers.has n = false) : Needed c transfers roots n
  | named {k n : String} {form : Form} (hk : Needed c transfers roots k)
      (hform : Form.of? c k = some form)
      (hn : .component n ∈ (⟨c, transfers, none⟩ : TypeContext).mentionsOf form)
      (free : transfers.has n = false) : Needed c transfers roots n

/-- The components `cs` were written, each declared alone in its file, and `ns` were named: at first
`roots`, then what declarations name. -/
structure Run.Modelled (j : Job) (transfers : Entries TransferTarget) (roots : List String)
    (cs : Entries String) (ns : List String) (r : Run) : Prop where
  targets : r.transfers = transfers
  declared : ∀ e ∈ cs, ∃ f form d, r.sources.at? (Naming.modelFile e.1) = some f ∧
    f.typeDeclarations = [d] ∧ Form.of? j.document.parts e.1 = some form ∧
    ∀ b, f.bindings.Grows b →
      (⟨j.document.parts, transfers, some e⟩ : TypeContext).Declares b e.2 form d
  others : r.sources.Each fun path f =>
    path ∉ cs.keys.map Naming.modelFile → f.typeDeclarations = []
  start : roots ⊆ ns
  wanted : ∀ n ∈ ns, transfers.has n = false → Needed j.document.parts transfers roots n
  written : ∀ k ∈ cs.keys, Needed j.document.parts transfers roots k
  named : ∀ k ∈ cs.keys, ∀ form, Form.of? j.document.parts k = some form → ∀ n,
    .component n ∈ (⟨j.document.parts, transfers, none⟩ : TypeContext).mentionsOf form →
      transfers.has n = false → n = k ∨ n ∈ ns

section Endpoints

variable {j : Job}

/-- The steps that write endpoints declare nothing but functions. -/
theorem keptByEndpoints_typeDeclarations {I : List Route → List String → Run → Prop}
    (hI : KeptByEndpoints j I) :
    KeptByEndpoints j fun T ns r => I T ns r ∧ r.sources.Each fun _ f => f.typeDeclarations = [] where
  files h hf := hI.files h.1 hf
  declares := by
    intro T ns r r' path locals ⟨h, hnone⟩ hw
    refine ⟨hI.declares h hw, ?_⟩
    obtain ⟨log, rfl⟩ := hw
    refine hnone.put ?_ fun _ _ _ hg => hg
    exact Sources.openFile_cases (P := fun f => f.typeDeclarations = []) Pass.backbone.path
      (hnone path) fun _ => rfl
  method := by
    intro T ns r r' names f f' t ⟨h, hnone⟩ hf ht hopen hhas hadd hw
    refine ⟨hI.method h hf ht hopen hhas hadd hw, ?_⟩
    obtain ⟨g, b, exports, -, -, -, -, -, -, rfl⟩ := hadd
    obtain ⟨log, rfl⟩ := hw
    refine hnone.put ?_ fun _ _ _ hg => hg
    rw [File.typeDeclarations_function]
    exact hnone _ f hf

variable (hv : j.document.Valid) {T : List Route} {r : Run}
include hv

theorem writeBackbone_typeDeclarations (hs : r.Sound j T)
    (h : r.sources.Each fun _ f => f.typeDeclarations = []) :
    Ends (writeBackbone j) r (fun _ r' => r'.sources.Each fun _ f => f.typeDeclarations = [])
      fun _ _ => True := by
  have hkept := keptByEndpoints_typeDeclarations (Run.Sound.keptByEndpoints (j := j) r)
  refine (writeBackbone_spec hkept hv (T := T) [] ⟨⟨hs, .refl r, by simp⟩, h⟩).mono ?_
    fun _ _ _ => trivial
  rintro _ _ ⟨T', b, r₁, log, ns, ⟨-, h₁⟩, rfl, -⟩
  exact h₁

/-- **Before models are written** no file declares a type. -/
theorem executeAll_typeDeclarations {before : List Pass}
    (hbefore : ∀ p ∈ before, p = .transferTypes ∨ p = .backbone) (log : List LogLine) :
    Ends (executeAll j before) { Run.start j.settings with log }
      (fun _ r => ∃ T, r.Sound j T ∧ r.sources.Each fun _ f => f.typeDeclarations = [])
      fun _ _ => True := by
  refine ends_forM (fun _ (r : Run) => ∃ T, r.Sound j T ∧
    r.sources.Each fun _ f => f.typeDeclarations = []) ⟨[], Run.Sound.start j log, fun _ _ h => by cases h⟩ ?_
  rintro done p rest r₁ hd ⟨T₁, hs, hnone⟩
  rw [ends_bind, ends_modify, ends_adapt]
  have hs₁ := hs.log (r₁.log ++ [⟨.debug, "tsgen_core::generator", "executing plugin " ++ p.path⟩])
  have hnone₁ : Ends (p.execute j)
      { r₁ with log := r₁.log ++ [⟨.debug, "tsgen_core::generator", "executing plugin " ++ p.path⟩] }
      (fun _ r' => r'.sources.Each fun _ f => f.typeDeclarations = []) fun _ _ => True := by
    rcases hbefore p (by simp [← hd]) with rfl | rfl
    · change Ends (registerTargets j) _ _ _
      unfold registerTargets
      dsimp only
      cases j.settings.transferTypes.find? (·.2.name.isEmpty) with
      | some e => exact trivial
      | none => exact hnone
    · exact writeBackbone_typeDeclarations hv hs₁ hnone
  refine ((execute_sound hv p hs₁).and hnone₁).mono ?_ fun _ _ _ => trivial
  rintro _ r₂ ⟨⟨⟨T₂, hs₂, -⟩, -⟩, hnone₂⟩
  exact ⟨_, hs₂, hnone₂⟩

end Endpoints

section Models

variable {j : Job} {transfers : Entries TransferTarget} {roots : List String}

/-- **A model that was wanted is written**: its declaration stands alone in its file, and what it names
is wanted in turn. -/
theorem keptByModels_modelled {I : Entries String → List String → Run → Prop}
    (hI : KeptByModels j I) (hpath : ∀ cs ns r path f, I cs ns r → r.sources.at? path = some f →
      f.path = path) :
    KeptByModels j fun cs ns r => I cs ns r ∧ r.Modelled j transfers roots cs ns where
  model := by
    intro cs ns r r' component identifier names f' ⟨h, hm⟩ hleads hwanted hfree hk hfile hopen hadd hw
    refine ⟨hI.model h hleads hwanted hfree hk hfile hopen hadd hw, ?_⟩
    -- The file is opened without a type in it.
    have hopened := Sources.openFile_cases (s := r.sources)
      (P := fun f => f.path = Naming.modelFile component ∧ f.typeDeclarations = []) Pass.model.path
      (fun f hf => ⟨hpath _ _ _ _ _ h hf, hm.others _ f hf hfile⟩) fun _ => ⟨rfl, rfl⟩
    have hplace := hadd.place.1.trans hopened.1
    obtain ⟨form, d, b, hform, hdeclares, hnames, -, hadds, rfl⟩ := hadd
    obtain ⟨log, rfl⟩ := hw
    have hcontext : j.types r (some (component, identifier)) =
        ⟨j.document.parts, transfers, some (component, identifier)⟩ := by
      rw [Job.types, hm.targets]
    rw [hcontext] at hform hdeclares hnames
    rw [hm.targets] at hfree
    have hneeded := hm.wanted component hwanted hfree
    have hnames : ∀ n, n ∈ names ↔
        .component n ∈ (⟨j.document.parts, transfers, none⟩ : TypeContext).mentionsOf form ∧
          transfers.has n = false ∧ n ≠ component := fun n => by
      rw [hnames, TypeContext.mem_notedBy]
      simp only [Option.any_some, beq_eq_false_iff_ne, ne_eq, eq_comm (a := component)]
      exact Iff.rfl
    constructor
    case targets => exact hm.targets
    case declared =>
      intro e he
      rcases List.mem_append.1 he with he | he
      · obtain ⟨f, form', d', hf, hd'⟩ := hm.declared e he
        refine ⟨f, form', d', ?_, hd'⟩
        rw [Sources.at?_put, if_neg]
        · exact hf
        · rw [hplace]
          exact fun heq => hfile (heq ▸ List.mem_map.2 ⟨e.1, List.mem_map.2 ⟨e, he, rfl⟩, rfl⟩)
      · obtain rfl := List.mem_singleton.1 he
        refine ⟨_, form, d, (Sources.at?_put ..).trans (if_pos hplace.symm), ?_, hform, fun b' hb' =>
          hdeclares b' (hb'.congr rfl rfl rfl rfl)⟩
        rw [File.typeDeclarations_type _ _ (hdeclares b (.refl b)).ne_function, hopened.2]
        rfl
    case others =>
      refine hm.others.put (fun hnot => ?_) fun path g hp hg hnot => hg fun hin => hnot ?_
      · rw [hplace] at hnot
        exact absurd (by simp [Entries.keys]) hnot
      · rw [Entries.keys_append, List.map_append]
        exact List.mem_append_left _ hin
    case start => exact List.subset_append_of_subset_left _ hm.start
    case wanted =>
      refine List.forall_mem_append.2 ⟨hm.wanted, fun n hn hfree => ?_⟩
      exact .named hneeded hform ((hnames n).1 hn).1 hfree
    case written =>
      rw [Entries.keys_append]
      exact List.forall_mem_append.2 ⟨hm.written, List.forall_mem_singleton.2 hneeded⟩
    case named =>
      rw [Entries.keys_append]
      refine List.forall_mem_append.2 ⟨fun k hk form' hform' n hn hfree => ?_,
        List.forall_mem_singleton.2 fun form' hform' n hn hfree => ?_⟩
      · exact (hm.named k hk form' hform' n hn hfree).imp_right (List.mem_append_left _)
      · obtain rfl := Option.some.inj (hform.symm.trans hform')
        by_cases heq : n = component
        · exact .inl heq
        · exact .inr (List.mem_append_right _ ((hnames n).2 ⟨hn, hfree, heq⟩))

variable (hv : j.document.Valid) {T : List Route} {r : Run}
include hv

/-- **The pass that writes models** leaves the models that were written, and everything that was named
has one. -/
theorem writeModels_modelled (hs : r.Sound j T)
    (hnone : r.sources.Each fun _ f => f.typeDeclarations = []) :
    Ends (writeModels j) r
      (fun _ r' => ∃ b ms ns, r.backbone = some b ∧ r'.models = some ms ∧
        Listed j.document.parts ms ∧ r'.Modelled j r.transfers b.referenced (identifiersOf ms) ns ∧
        (∀ e ∈ ms, emptyValueOf j.document.parts r.transfers e.1 = .ok e.2.emptyValue) ∧
        ∀ n ∈ ns, ms.has n = true ∨ r.transfers.has n = true)
      fun _ _ => True := by
  cases hb : r.backbone with
  | none =>
    unfold writeModels Action.backbone
    rw [ends_bind, ends_bind, ends_get, hb]
    exact trivial
  | some b =>
    have hkept := @keptByModels_modelled j r.transfers b.referenced _
      (Run.Sound.keptByModels (j := j) T r) fun _ _ _ path f h hf => (h.1.path path f hf).1
    refine (writeModels_spec hkept hv (fun _ _ _ h => h.1.2.transfers) (fun b' hb' => ?_)
      hs.referenced).mono ?_ fun _ _ _ => trivial
    · obtain rfl := Option.some.inj (hb.symm.trans hb')
      refine ⟨⟨hs, .refl r⟩, rfl, by simp, hnone.mono fun _ _ h _ => h, List.Subset.refl _,
        fun n hn hfree => .root hn hfree, by simp [Entries.keys], by simp [Entries.keys]⟩
    · rintro _ _ ⟨b', ms, r₁, log, ns, hb', ⟨-, hm⟩, rfl, hlisted, hvalues, hall⟩
      obtain rfl := Option.some.inj (hb.symm.trans hb')
      exact ⟨b, ms, ns, rfl, rfl, hlisted, ⟨hm.targets, hm.declared, hm.others, hm.start,
        hm.wanted, hm.written, hm.named⟩, hvalues, hall⟩

end Models

/-- What is needed was written, if everything that was named was. -/
theorem Run.Modelled.mem_keys_iff {j : Job} {transfers : Entries TransferTarget} {roots : List String}
    {cs : Entries String} {ns : List String} {r : Run} (h : r.Modelled j transfers roots cs ns)
    (hall : ∀ n ∈ ns, n ∈ cs.keys ∨ transfers.has n = true) (n : String) :
    n ∈ cs.keys ↔ Needed j.document.parts transfers roots n := by
  refine ⟨h.written n, fun hn => ?_⟩
  have done : ∀ n ∈ ns, transfers.has n = false → n ∈ cs.keys := fun n hn hfree =>
    (hall n hn).resolve_right (by simp [hfree])
  induction hn with
  | root hn hfree => exact done _ (h.start hn) hfree
  | named hk hform hn hfree ih =>
    rcases h.named _ ih _ hform _ hn hfree with rfl | hn
    · exact ih
    · exact done _ hn hfree

/-- **The models that are written are those that are needed.**  Each is declared alone in its file as
its component has it, under the name that the run keeps, and refers to what the component names; and no
other file declares a type. The worklist comes to its end, however the components refer to each other:
it does not stop for want of fuel. -/
theorem writeModels_needed {d : Document} (hd : d.validate = .ok ()) {settings : Settings}
    {before : List Pass} (hbefore : ∀ p ∈ before, p = .transferTypes ∨ p = .backbone)
    {log : List LogLine} {r : Run}
    (hr : (executeAll ⟨d, settings⟩ before).run.run { Run.start settings with log } = (.ok (), r)) :
    (∀ b, r.backbone = some b → ∀ more,
      (writeNeeded ⟨d, settings⟩ r.transfers (d.parts.schemas.length + 1 + more) b.referenced []).run.run
        r =
      (writeNeeded ⟨d, settings⟩ r.transfers (d.parts.schemas.length + 1) b.referenced []).run.run r) ∧
    ∀ r', (Pass.model.execute ⟨d, settings⟩).run.run r = (.ok (), r') →
      ∃ b ms, r.backbone = some b ∧ r'.models = some ms ∧
        (∀ n, n ∈ ms.keys ↔ Needed d.parts r.transfers b.referenced n) ∧
        ms.keys.Nodup ∧ (ms.keys.map Naming.modelFile).Nodup ∧
        (∀ e ∈ identifiersOf ms, ∃ f form declaration,
          r'.sources.at? (Naming.modelFile e.1) = some f ∧ f.typeDeclarations = [declaration] ∧
          Form.of? d.parts e.1 = some form ∧
          (⟨d.parts, r.transfers, some e⟩ : TypeContext).Declares f.bindings e.2 form declaration ∧
          (⟨d.parts, r.transfers, some e⟩ : TypeContext).Spells f.bindings declaration.references
            ((⟨d.parts, r.transfers, some e⟩ : TypeContext).mentionsOf form)) ∧
        ∀ path f, r'.sources.at? path = some f → path ∉ ms.keys.map Naming.modelFile →
          f.typeDeclarations = [] := by
  have hv := Document.valid_of_validate hd
  obtain ⟨T, hs, hnone⟩ := (executeAll_typeDeclarations (j := ⟨d, settings⟩) hv hbefore log).result hr
  refine ⟨fun b hb more => writeNeeded_fuel (j := ⟨d, settings⟩) hv r.transfers more _ _ _ r (.nil _)
    (hs.referenced b hb) (by simp), fun r' hr' => ?_⟩
  obtain ⟨b, ms, ns, hb, hms, hlisted, hm, -, hall⟩ :=
    (writeModels_modelled (j := ⟨d, settings⟩) hv hs hnone).result hr'
  have hkeys := hm.mem_keys_iff fun n hn => (hall n hn).imp_left fun hn => by
    rw [keys_identifiersOf]
    exact Entries.has_iff.1 hn
  have others := hm.others
  simp only [keys_identifiersOf] at hkeys others
  refine ⟨b, ms, hb, hms, hkeys, hlisted.nodup, hlisted.files, fun e he => ?_, others⟩
  obtain ⟨f, form, declaration, hf, htypes, hform, hdeclares⟩ := hm.declared e he
  have hdeclares := hdeclares f.bindings (.refl _)
  exact ⟨f, form, declaration, hf, htypes, hform, hdeclares, hdeclares.spells⟩

/-- The interface that a model is declared as, if it is one. -/
def Run.interface? (r : Run) (m : Model) : Option TypeScript.Interface :=
  match (r.sources.at? m.file).bind (·.declaration? m.identifier) with
  | some (.interface i) => some i
  | _ => none

theorem Run.of_interface? {r : Run} {m : Model} {i : TypeScript.Interface} (h : r.interface? m = some i) :
    ∃ f, r.sources.at? m.file = some f ∧ f.declaration? m.identifier = some (.interface i) := by
  unfold Run.interface? at h
  split at h
  · next i' hdeclared =>
    obtain rfl := Option.some.inj h
    exact Option.bind_eq_some_iff.1 hdeclared
  · cases h

/-- A method that gives back one of two components that refer to each other; the second inherits from a
third, and nothing refers to the fourth. -/
def mutualComponents : Json :=
  operationsDocument [("/E/get", refTo "Node")]
    [("Node", .object [("properties", .object [("edge", refTo "Edge"), ("self", refTo "Node")])]),
      ("Edge", .object [("allOf", .array [refTo "Named", .object [
        ("properties", .object [("to", refTo "Node")])]])]),
      ("Named", .object [("properties", .object [("name", .object [("type", .string "string")])])]),
      ("Other", refTo "Node")]

/-- A run on components that refer to each other in circles. -/
theorem writeModels_needed_mutualComponents :
    ∃ d r r', Document.ofJson mutualComponents = .ok d ∧ d.validate = .ok () ∧
      (executeAll ⟨d, {}⟩ [.transferTypes, .backbone]).run.run (Run.start {}) = (.ok (), r) ∧
      (Pass.model.execute ⟨d, {}⟩).run.run r = (.ok (), r') ∧
      ∃ b ms, r.backbone = some b ∧ r'.models = some ms ∧ ms.keys = ["Node", "Edge", "Named"] ∧
        (∀ n, n ∈ ms.keys ↔ Needed d.parts r.transfers b.referenced n) ∧
        (ms.keys.map Naming.modelFile).Nodup := by
  obtain ⟨d, r, hd, hvalid, hr, htest⟩ := exists_of_runOf? mutualComponents {}
    [.transferTypes, .backbone] (fun d r => (r.after? (Pass.model.execute ⟨d, {}⟩)).any fun r' =>
      r'.models.any fun ms => decide (ms.keys = ["Node", "Edge", "Named"])) (by decide +kernel)
  obtain ⟨r', hafter, htest⟩ := (Option.any_eq_true ..).1 htest
  have hr' := Run.of_after? hafter
  obtain ⟨b, ms, hb, hms, hneeded, -, hfiles, -⟩ :=
    (@writeModels_needed d hvalid {} [.transferTypes, .backbone] (by simp) [] r hr).2 r' hr'
  rw [hms] at htest
  exact ⟨d, r, r', hd, hvalid, hr, hr', b, ms, hb, hms, of_decide_eq_true htest, hneeded, hfiles⟩

end Client
end OpenApiClient
