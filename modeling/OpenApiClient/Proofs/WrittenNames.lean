/-
# Which names are written

A name in a file is that which was asked for, perhaps with a suffix. Whether it can be written, and
whether it means what it should, is therefore decided by the names that a document makes the client
ask for.

Names are identifiers if those of calls are, and if the texts of components and arguments can be made
identifiers (`executeAll_identifiers`); `not_identifiers` is a document with a component whose name
cannot. No name at the top of a file hides a type that is known everywhere, or a type parameter, if no
name is asked for that would (`executeAll_uncaptured`); `captures_promising` is of a document with a
component that does.
-/

import OpenApiClient.Proofs.SourcedFiles
import OpenApiClient.Proofs.TopLevel

namespace OpenApiClient

/-- The last segment of a qualified name. -/
def Naming.lastSegment (name : String) : String :=
  (Text.segmentsOf isQualifier name).getLast?.getD name

namespace Client

open OpenApi TypeScript OpenApiClient.Module

theorem not_mem_reservedWords {n : String} (h : isReserved n = false) : n ∉ reservedWords := by
  rwa [isReserved, List.contains_eq_mem, decide_eq_false_iff_not] at h

section Results

variable {d : Document} {settings : Settings} {log : List LogLine} {r : Run}

/-- Where the names of a written file come from: those at its top were given for names that are asked
for, and none is a reserved word. -/
theorem executeAll_written (hd : d.validate = .ok ())
    (hr : (executeAll ⟨d, settings⟩ Pass.usual).run.run { Run.start settings with log } = (.ok (), r))
    {f : File} (hf : f ∈ emitted r.sources) :
    Sourced d settings f ∧ ∀ n ∈ f.topNames,
      (∃ a, Asked d settings a ∧ Given a n) ∧ isReserved n = false := by
  have hsourced : r.Sourced d settings := executeAll_sourced hd hr
  obtain ⟨T, hsound, -⟩ := (executeAll_sound (j := ⟨d, settings⟩) (Document.valid_of_validate hd)
    Pass.usual (Run.Sound.start ⟨d, settings⟩ log)).result hr
  have hat := hsound.mem_values (List.mem_filter.1 hf).1
  have htidy := (hsound.serves f.path f hat).tidy
  have hfile := hsourced.files f.path f hat
  exact ⟨hfile, fun n hn => ⟨hfile.bound n (htidy.bound hn), htidy.unreserved n hn⟩⟩

end Results

section Identifiers

/-- The texts that the names of a document are made of can be made identifiers: calls have identifiers
for names, what is kept of the last segment of a component starts as an identifier may, and arguments
name parameters. -/
structure Nameable (d : Document) : Prop where
  calls : ∀ e ∈ Entries.spread (callsByEndpoint d), isIdentifier e.2.name = true
  components : ∀ n, d.Reaches .schemas n → StartsName (Naming.lastSegment n)
  arguments : ∀ e ∈ Entries.spread (callsByEndpoint d), ∀ arguments,
    argumentsOf d.parts e.2.operation = .ok arguments → ∀ a ∈ arguments, NamesParameter a.name

variable {d : Document} {settings : Settings} {log : List LogLine} {r : Run} {a : String}

theorem isIdentifier_className (s : Signal) : isIdentifier s.className = true := by
  cases s <;> decide

/-- The names of the targets that are built in are identifiers. -/
theorem isIdentifier_of_builtIn {c : Conventions} {e : String × TransferTarget}
    (he : e ∈ builtInTargets c) : isIdentifier e.2.name = true := by
  have hnames : (builtInTargets c).map (·.2.name) = ["string", "unknown", "unknown", "unknown", "File",
    "EndpointSubscription", "NumberSignal", "ValueSignal", "ListSignal"] := rfl
  have hall : ∀ n ∈ ["string", "unknown", "unknown", "unknown", "File", "EndpointSubscription",
      "NumberSignal", "ValueSignal", "ListSignal"], isIdentifier n = true := by decide
  exact hall _ (hnames ▸ List.mem_map.2 ⟨e, he, rfl⟩)

variable (h : Nameable d)
include h

/-- **Only identifiers are asked for.** -/
theorem Nameable.isIdentifier_of_asked (ht : settings.transferTypes = []) (ha : Asked d settings a) :
    isIdentifier a = true := by
  have htarget : ∀ {n t}, (targetsOf settings).at? n = some t → isIdentifier t.name = true := by
    intro n t hat
    rcases mem_of_at?_targetsOf hat with hmem | hmem
    · rw [ht] at hmem
      cases hmem
    · exact isIdentifier_of_builtIn hmem
  cases ha with
  | client | request | subscription => decide
  | signal s =>
    cases hat : (targetsOf settings).at? s.schema with
    | none => exact isIdentifier_className s
    | some t => exact htarget hat
  | target hat => exact htarget hat
  | call he => exact h.calls _ he
  | component reached => exact (isIdentifier_sanitize _).2 (h.components _ reached)

theorem Nameable.isIdentifier_of_askedParameter (ha : AskedParameter d a) : isIdentifier a = true := by
  cases ha with
  | init => decide
  | argument he found passed =>
    exact (isIdentifier_parameterName _).2 (h.arguments _ he _ found _ passed)

/-- **Every name in a file can be written**: if the texts that a document takes names from can be made
identifiers, the imports, declarations and parameters in all files have identifiers for names, and none
is a reserved word. -/
theorem executeAll_identifiers (hd : d.validate = .ok ()) (ht : settings.transferTypes = [])
    (hr : (executeAll ⟨d, settings⟩ Pass.usual).run.run { Run.start settings with log } =
      (.ok (), r)) :
    ∀ f ∈ emitted r.sources,
      (∀ n ∈ f.topNames, isIdentifier n = true ∧ n ∉ reservedWords) ∧
        ∀ g, .function g ∈ f.declarations → ∀ p ∈ g.parameters,
          isIdentifier p.name = true ∧ p.name ∉ reservedWords := by
  intro f hf
  obtain ⟨hsourced, htop⟩ := executeAll_written hd hr hf
  constructor
  · intro n hn
    obtain ⟨⟨a, ha, hgiven⟩, hunreserved⟩ := htop n hn
    have hasked : isIdentifier a = true := h.isIdentifier_of_asked ht ha
    exact ⟨isIdentifier_of_given hgiven hasked, not_mem_reservedWords hunreserved⟩
  · intro g hg p hp
    obtain ⟨⟨a, ha, hgiven⟩, hunreserved⟩ := hsourced.functions g hg p hp
    have hasked : isIdentifier a = true := h.isIdentifier_of_askedParameter ha
    exact ⟨isIdentifier_of_given hgiven hasked, not_mem_reservedWords hunreserved⟩

omit h

/-- A run of passes that succeeds, and what it leaves passes a test. -/
theorem exists_of_ends (d : Document) (settings : Settings) (passes : List Pass) (test : Run → Bool)
    (h : (match (executeAll ⟨d, settings⟩ passes).run.run (Run.start settings) with
      | (.ok _, r) => test r
      | (.error _, _) => false) = true) :
    ∃ r, (executeAll ⟨d, settings⟩ passes).run.run (Run.start settings) = (.ok (), r) ∧
      test r = true := by
  split at h
  · next u r hr => exact ⟨r, hr, h⟩
  · cases h

/-- An operation called by a reserved word, with an argument whose name has a hyphen, that gives back a
component whose name starts with a digit. The component has a type parameter. -/
def paging : Document where
  openapi := "3.1"
  info := { title := "t", version := "1" }
  paths := [("/pages", { get := some {
    operationId := some "delete"
    tags := ["Pages"]
    parameters := [.item { name := "page-size", location := .query }]
    responses := [("200", .item { content :=
      [("application/json", { schema := some (.ref (pointerTo .schemas "a.1-page")) })] })] } })]
  components := some { schemas := [("a.1-page", .inline { typeParameters := ["T"] })] }

theorem reaches_paging {s : Section} {name : String} (h : paging.Reaches s name) : name = "a.1-page" := by
  induction h with
  | @ofOperation e link name operation refers target =>
    obtain rfl := List.mem_singleton.1 operation
    obtain rfl : link = (.schemas, pointerTo .schemas "a.1-page") := List.mem_singleton.1 refers
    obtain rfl : "a.1-page" = name := Except.ok.inj target
    rfl
  | @ofComponent s component link name reached refers target ih =>
    subst ih
    cases s <;> cases refers

theorem nameable_paging : Nameable paging where
  calls := by decide
  components n hn := by
    obtain rfl := reaches_paging hn
    exact fun c hc => .inr (by decide)
  arguments e he arguments hfound a ha := by
    obtain ⟨o, ho, rfl⟩ := List.mem_map.1 ((perm_callsByEndpoint paging).mem_iff.1 he)
    obtain rfl := List.mem_singleton.1 ho
    obtain rfl : [⟨"page-size", none, true⟩] = arguments := Except.ok.inj hfound
    obtain rfl := List.mem_singleton.1 ha
    exact .inr (by decide)

/-- The names in the files of a document whose texts can be made identifiers. -/
theorem executeAll_identifiers_paging :
    Nameable paging ∧ paging.validate = .ok () ∧
      ∃ r, (executeAll ⟨paging, {}⟩ Pass.usual).run.run (Run.start {}) = (.ok (), r) ∧
        ((emitted r.sources).map fun f => (f.path, f.topNames)) = [
          ("Pages.ts", ["_1_page", "EndpointRequestInit", "client", "delete_1"]),
          ("a/1-page.ts", ["_1_page"])] ∧
        ∀ f ∈ emitted r.sources,
          (∀ n ∈ f.topNames, isIdentifier n = true ∧ n ∉ reservedWords) ∧
            ∀ g, .function g ∈ f.declarations → ∀ p ∈ g.parameters,
              isIdentifier p.name = true ∧ p.name ∉ reservedWords := by
  have hd : paging.validate = .ok () := by decide
  obtain ⟨r, hr, hnames⟩ := exists_of_ends paging {} Pass.usual
    (fun r => decide (((emitted r.sources).map fun f => (f.path, f.topNames)) = [
      ("Pages.ts", ["_1_page", "EndpointRequestInit", "client", "delete_1"]),
      ("a/1-page.ts", ["_1_page"])])) (by decide +kernel)
  have hnamed := @executeAll_identifiers paging {} [] r nameable_paging hd rfl hr
  exact ⟨nameable_paging, hd, r, hr, of_decide_eq_true hnames, hnamed⟩

/-- A component whose name has a hyphen before a digit. -/
def hyphenated : Json :=
  operationsDocument [("/E/get", refTo "-1abc")] [("-1abc", .object [("type", .string "string")])]

/-- **A name that cannot be written**: the underscore that goes in front of a leading digit is left out
when something stands before the digit that is not kept. -/
theorem not_identifiers :
    ∃ d r, Document.ofJson hyphenated = .ok d ∧ d.validate = .ok () ∧
      (executeAll ⟨d, {}⟩ Pass.usual).run.run (Run.start {}) = (.ok (), r) ∧
      ∃ f ∈ emitted r.sources, ∃ n ∈ f.topNames, n = "1abc" ∧ isIdentifier n = false := by
  obtain ⟨d, r, hd, hvalid, hr, htest⟩ := exists_of_runOf? hyphenated {} Pass.usual
    (fun _ r => decide (∃ f ∈ emitted r.sources, "1abc" ∈ f.topNames)) (by decide +kernel)
  obtain ⟨f, hf, hn⟩ := of_decide_eq_true htest
  exact ⟨d, r, hd, hvalid, hr, f, hf, "1abc", hn, rfl, by decide⟩

end Identifiers
section Captures

/-- The names of types that a file uses and never binds: those that are known everywhere, the keywords,
and targets that no module exports. -/
def globals (settings : Settings) : List String :=
  ["Promise", "Array", "Record", "Blob"] ++
    [Basic.string, .number, .boolean, .unknown, .void, .undefined, .null].map Basic.text ++
    ((targetsOf settings).values.filter (·.module.isNone)).flatMap fun t => [t.name, Ty.root t.name]

/-- The name is that of a type that no file binds, or of a type parameter. -/
def Unbound (d : Document) (settings : Settings) (n : String) : Prop :=
  n ∈ globals settings ∨ TypeParameter d n

variable {d : Document} {settings : Settings} {log : List LogLine} {r : Run}

/-- **No name is captured**: if no name is asked for that gives that of a type that no file binds, or of
a type parameter, then no import or declaration hides such a type in any file, and none has the name of
a type parameter in its file. -/
theorem executeAll_uncaptured (hd : d.validate = .ok ())
    (hasked : ∀ a, Asked d settings a → ∀ n, Given a n → ¬ Unbound d settings n)
    (hr : (executeAll ⟨d, settings⟩ Pass.usual).run.run { Run.start settings with log } =
      (.ok (), r)) :
    ∀ f ∈ emitted r.sources, (∀ n ∈ globals settings, n ∉ f.topNames) ∧
      ∀ e ∈ f.declarations, ∀ v ∈ e.typeParameters, v ∉ f.topNames := by
  intro f hf
  obtain ⟨hsourced, htop⟩ := executeAll_written hd hr hf
  have hbound : ∀ n ∈ f.topNames, ¬ Unbound d settings n := fun n hn => by
    obtain ⟨⟨a, ha, hgiven⟩, -⟩ := htop n hn
    exact hasked a ha n hgiven
  constructor
  · exact fun n hn hmem => hbound n hmem (.inl hn)
  · exact fun e he v hv hmem => hbound v hmem (.inr (hsourced.typeParameters e he v hv))

/-- The names that are asked for in the files of the document. -/
theorem asked_paging {a : String} (h : Asked paging {} a) :
    a ∈ ["client", "EndpointRequestInit", "Subscription", "NumberSignal", "ValueSignal", "ListSignal",
      "EndpointSubscription", "delete", "_1_page"] := by
  cases h with
  | client | request | subscription => decide
  | signal s => cases s <;> decide
  | @target n module t target imported =>
    have hall : ∀ e ∈ builtInTargets {}, e.2.module.isSome → e.2.name ∈ ["client",
      "EndpointRequestInit", "Subscription", "NumberSignal", "ValueSignal", "ListSignal",
      "EndpointSubscription", "delete", "_1_page"] := by decide
    rcases mem_of_at?_targetsOf target with hmem | hmem
    · cases hmem
    · exact hall (n, t) hmem (by simp [imported])
  | call he =>
    obtain ⟨o, ho, rfl⟩ := List.mem_map.1 ((perm_callsByEndpoint paging).mem_iff.1 he)
    obtain rfl := List.mem_singleton.1 ho
    decide
  | component reached =>
    obtain rfl := reaches_paging reached
    decide

theorem not_unbound_paging {a n : String} (ha : Asked paging {} a) (h : Given a n) :
    ¬ Unbound paging {} n := by
  have hglobals : ∀ g ∈ globals {}, '_' ∉ g.toList ∧ g ∉ ["client", "EndpointRequestInit",
    "Subscription", "NumberSignal", "ValueSignal", "ListSignal", "EndpointSubscription", "delete",
    "_1_page"] := by decide
  have hasked := asked_paging ha
  rintro (hn | ⟨m, s, hm, hs, hn⟩)
  · obtain ⟨hplain, hnew⟩ := hglobals n hn
    exact hnew (eq_of_given h hplain ▸ hasked)
  · obtain rfl := reaches_paging hm
    obtain rfl : ({ typeParameters := ["T"] } : SchemaObject) = s := Except.ok.inj hs
    obtain rfl := List.mem_singleton.1 hn
    obtain rfl : "T" = a := eq_of_given h (by decide)
    exact absurd hasked (by decide)

/-- A document with a generic component in whose files no name is captured. -/
theorem executeAll_uncaptured_paging :
    paging.validate = .ok () ∧
      (∀ a, Asked paging {} a → ∀ n, Given a n → ¬ Unbound paging {} n) ∧
      ∃ r, (executeAll ⟨paging, {}⟩ Pass.usual).run.run (Run.start {}) = (.ok (), r) ∧
        ((emitted r.sources).map fun f => f.declarations.map (·.typeParameters)) = [[[]], [["T"]]] ∧
        ∀ f ∈ emitted r.sources, (∀ n ∈ globals {}, n ∉ f.topNames) ∧
          ∀ e ∈ f.declarations, ∀ v ∈ e.typeParameters, v ∉ f.topNames := by
  have hd : paging.validate = .ok () := by decide
  have hasked : ∀ a, Asked paging {} a → ∀ n, Given a n → ¬ Unbound paging {} n :=
    fun _ ha _ h => not_unbound_paging ha h
  obtain ⟨r, hr, hparameters⟩ := exists_of_ends paging {} Pass.usual
    (fun r => decide (((emitted r.sources).map fun f => f.declarations.map (·.typeParameters)) =
      [[[]], [["T"]]])) (by decide +kernel)
  have huncaptured := @executeAll_uncaptured paging {} [] r hd hasked hr
  exact ⟨hd, hasked, r, hr, of_decide_eq_true hparameters, huncaptured⟩

/-- A component that is called like the type of what wrappers return. -/
def promising : Json :=
  operationsDocument [("/E/get", refTo "Promise")] [("Promise", .object [("type", .string "string")])]

/-- The file imports a type `Promise`, and has a function whose result is a promise of it. -/
def capturesPromise (f : File) : Bool :=
  f.bindings.imports.localNames.contains "Promise" && f.declarations.any fun
    | .function g => g.isAsync && decide (g.result = .named "Promise" [.named "Promise" []])
    | _ => false

/-- **A name that is captured**: a component takes the name of the type that wrappers return. -/
theorem captures_promising :
    ∃ d r, Document.ofJson promising = .ok d ∧ d.validate = .ok () ∧
      (executeAll ⟨d, {}⟩ Pass.usual).run.run (Run.start {}) = (.ok (), r) ∧
      ∃ f ∈ emitted r.sources, "Promise" ∈ globals {} ∧ "Promise" ∈ f.topNames ∧
        ∃ g, .function g ∈ f.declarations ∧ g.isAsync = true ∧
          g.result = .named "Promise" [.named "Promise" []] := by
  obtain ⟨d, r, hd, hvalid, hr, htest⟩ := exists_of_runOf? promising {} Pass.usual
    (fun _ r => (emitted r.sources).any capturesPromise) (by decide +kernel)
  obtain ⟨f, hf, hcaptures⟩ := List.any_eq_true.1 htest
  obtain ⟨himported, hfunction⟩ := Bool.and_eq_true_iff.1 hcaptures
  obtain ⟨e, he, hresult⟩ := List.any_eq_true.1 hfunction
  refine ⟨d, r, hd, hvalid, hr, f, hf, by decide, ?_, ?_⟩
  · exact List.mem_append_left _ (List.contains_iff_mem.1 himported)
  · cases e with
    | function g =>
      obtain ⟨hasync, hg⟩ := Bool.and_eq_true_iff.1 hresult
      exact ⟨g, he, hasync, of_decide_eq_true hg⟩
    | _ => cases hresult

end Captures
end Client
end OpenApiClient
