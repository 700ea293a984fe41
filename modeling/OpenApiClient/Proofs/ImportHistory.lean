/-
# What a file knows of its imports

The generators import, declare and export in any order. A `History` is what was done to the bindings
of a file so far, step by step, with the names that were given. `History.import_history` says that
the file imports what its history says: what was imported is known by the name that was asked for
first and by the local name that was given then, and it is of a type only if each use was.

One step keeps this (`Recorded.perform`): an import that came before only takes note of a value, a
new one gets a fresh name, and declarations and exports leave the imports alone. Since the names of
a file are pairwise different, a local name leads back to what it imports (`origin?_of_entryOf?`).
-/

import OpenApiClient.Proofs.Imports
import Mathlib.Data.List.Induction

namespace OpenApiClient

namespace Module

/-- What can be imported: the default export of a module, or one that has a name. -/
inductive Subject where
  | default (specifier : String)
  | named (specifier name : String)
deriving DecidableEq, Repr

/-- The module that it is of. -/
def Subject.specifier : Subject → String
  | .default specifier => specifier
  | .named specifier _ => specifier

namespace Imports

variable (i : Imports) (sp id : String) (b : Binding)

/-- The name that something was imported by, and what it is known by. -/
def entryOf? : Subject → Option (String × Binding)
  | .default sp => (i.ofModule sp).default
  | .named sp name => (i.named? sp name).map (name, ·)

/-- The names of all imports, module by module. -/
def names : List (String × Option (String × String) × List (String × String)) :=
  i.modules.map fun (sp, m) =>
    (sp, m.default.map fun e => (e.1, e.2.localName), m.named.map fun e => (e.1, e.2.localName))

theorem entryOf?_putDefault (s : Subject) :
    (i.putDefault sp id b).entryOf? s = if s = .default sp then some (id, b) else i.entryOf? s := by
  cases s with
  | default sp' =>
    simp only [entryOf?, putDefault, ofModule_put, Subject.default.injEq]
    split <;> rfl
  | named sp' name =>
    simp only [entryOf?, named?, putDefault, ofModule_put, reduceCtorEq, if_false]
    split
    · next h => rw [h]
    · rfl

theorem entryOf?_putNamed (s : Subject) :
    (i.putNamed sp id b).entryOf? s = if s = .named sp id then some (id, b) else i.entryOf? s := by
  cases s with
  | default sp' =>
    simp only [entryOf?, putNamed, ofModule_put, reduceCtorEq, if_false]
    split
    · next h => rw [h]
    · rfl
  | named sp' name =>
    simp only [entryOf?, named?, putNamed, ofModule_put, Subject.named.injEq]
    by_cases hs : sp' = sp
    · subst hs
      by_cases hn : name = id <;> simp [Entries.at?_put, hn]
    · simp [hs]

variable {i sp id b}

/-- What is read of a module stands in it. -/
theorem at?_of_ofModule_ne (h : i.ofModule sp ≠ {}) : i.modules.at? sp = some (i.ofModule sp) := by
  unfold ofModule at h ⊢
  cases hm : i.modules.at? sp with
  | none => simp [hm] at h
  | some m => rfl

/-- Another use of a default import changes no name, -/
theorem names_putDefault_of_some {e : String × Binding} (h : (i.ofModule sp).default = some e)
    (isType : Bool) : (i.putDefault sp e.1 (e.2.used isType)).names = i.names := by
  have hm : i.modules.at? sp = some (i.ofModule sp) := at?_of_ofModule_ne fun h' => by simp [h'] at h
  exact Entries.map_put _ hm (by simp [h, Binding.used])

/-- nor does another use of a named one. -/
theorem names_putNamed_of_some {e : Binding} (h : i.named? sp id = some e) (isType : Bool) :
    (i.putNamed sp id (e.used isType)).names = i.names := by
  have hm : i.modules.at? sp = some (i.ofModule sp) :=
    at?_of_ofModule_ne fun h' => by simp [named?, h'] at h
  refine Entries.map_put _ hm ?_
  simp [Entries.map_put (fun e : String × Binding => (e.1, e.2.localName)) h, Binding.used]

theorem mem_localNames_of_origin? {m : ModuleImports} {name : String}
    (h : m.origin? name = some id) :
    name ∈ m.localNames := by
  rcases Option.or_eq_some_iff.1 h with h | ⟨-, h⟩
  · obtain ⟨e, he, -⟩ := Option.map_eq_some_iff.1 h
    obtain ⟨hd, hn⟩ := Option.filter_eq_some_iff.1 he
    exact List.mem_append_left _ (by simpa [hd] using (beq_iff_eq.1 hn).symm)
  · obtain ⟨e, he, -⟩ := Option.map_eq_some_iff.1 h
    have hn := List.find?_some he
    exact List.mem_append_right _
      (List.mem_map.2 ⟨e, List.mem_of_find?_eq_some he, beq_iff_eq.1 hn⟩)

/-- A name that no import has leads nowhere. -/
theorem origin?_of_not_mem {name : String} (h : name ∉ i.localNames) : i.origin? name = none := by
  refine List.findSome?_eq_none_iff.2 fun e he => ?_
  rw [Option.map_eq_none_iff, Option.eq_none_iff_forall_ne_some]
  exact fun id hid => h (List.mem_flatMap.2 ⟨e, he, mem_localNames_of_origin? hid⟩)

/-- Something imported stands in the module that it is of. -/
theorem exists_of_entryOf? {s : Subject} {e : String × Binding} (h : i.entryOf? s = some e) :
    ∃ m, (s.specifier, m) ∈ i.modules ∧ e.2.localName ∈ m.localNames ∧
      (m.localNames.Nodup → m.origin? e.2.localName = some e.1) := by
  cases s with
  | default sp =>
    have hd : (i.ofModule sp).default = some e := h
    have hm : i.modules.at? sp = some (i.ofModule sp) :=
      at?_of_ofModule_ne fun h' => by simp [h'] at hd
    refine ⟨i.ofModule sp, Entries.mem_of_at? hm, by simp [ModuleImports.localNames, hd], fun _ => ?_⟩
    have hself : (some e).filter (·.2.localName == e.2.localName) = some e := by simp [Option.filter]
    rw [ModuleImports.origin?, hd, hself]
    rfl
  | named sp name =>
    obtain ⟨b, hb, rfl⟩ := Option.map_eq_some_iff.1 h
    have hmem : (name, b) ∈ (i.ofModule sp).named := Entries.mem_of_at? hb
    have hlocal : b.localName ∈ (i.ofModule sp).named.map (·.2.localName) :=
      List.mem_map.2 ⟨_, hmem, rfl⟩
    have hm : i.modules.at? sp = some (i.ofModule sp) :=
      at?_of_ofModule_ne fun h' => by simp [h'] at hmem
    refine ⟨i.ofModule sp, Entries.mem_of_at? hm, List.mem_append_right _ hlocal, fun hn => ?_⟩
    obtain ⟨-, hnamed, hapart⟩ := List.nodup_append.1 hn
    have hdefault : (i.ofModule sp).default.filter (·.2.localName == b.localName) = none := by
      rw [Option.filter_eq_none_iff]
      intro d hd heq
      exact hapart _ (by simp [hd]) _ hlocal (beq_iff_eq.1 heq)
    have hfind : (i.ofModule sp).named.find? (·.2.localName == b.localName) = some (name, b) := by
      have hfound : ((i.ofModule sp).named.find? (·.2.localName == b.localName)).isSome :=
        List.find?_isSome.2 ⟨_, hmem, beq_self_eq_true b.localName⟩
      obtain ⟨d, hd⟩ := Option.isSome_iff_exists.1 hfound
      have hname := List.find?_some hd
      rw [hd, List.inj_on_of_nodup_map hnamed (List.mem_of_find?_eq_some hd) hmem
        (beq_iff_eq.1 hname)]
    rw [ModuleImports.origin?, hdefault, hfind]
    rfl

/-- **With different names, a local name leads back to what it imports.** -/
theorem origin?_of_entryOf? (hn : i.localNames.Nodup) {s : Subject} {e : String × Binding}
    (h : i.entryOf? s = some e) : i.origin? e.2.localName = some (s.specifier, e.1) := by
  obtain ⟨m, hm, hlocal, horigin⟩ := exists_of_entryOf? h
  replace horigin := horigin ((List.nodup_flatMap.1 hn).1 _ hm)
  have hfound : (i.origin? e.2.localName).isSome :=
    List.findSome?_isSome_iff.2 ⟨_, hm, by simp [horigin]⟩
  obtain ⟨o, ho⟩ := Option.isSome_iff_exists.1 hfound
  obtain ⟨e', he', ho'⟩ := List.exists_of_findSome?_eq_some ho
  obtain ⟨id, hid, rfl⟩ := Option.map_eq_some_iff.1 ho'
  obtain rfl := eq_of_mem_localNames hn he' hm (mem_localNames_of_origin? hid) hlocal
  rw [ho, Option.some.inj (hid.symm.trans horigin)]

end Imports

/-- What an import asks for: what it imports, by which name, and whether only as a type. -/
structure Request where
  subject : Subject
  id : String
  isType : Bool
deriving DecidableEq, Repr

/-- What is known of something imported, after another request for it that was given `localName`. -/
def Request.noted (r : Request) (localName : String) :
    Option (String × Binding) → String × Binding
  | none => (r.id, ⟨localName, r.isType⟩)
  | some (id, b) => (id, b.used r.isType)

/-- A local name that was given before stays. -/
theorem Request.noted_localName {r : Request} {given : String} {known : Option (String × Binding)}
    (h : ∀ e, known = some e → given = e.2.localName) :
    (r.noted given known).2.localName = given := by
  cases known with
  | none => rfl
  | some e => exact (h e rfl).symm

/-- An import that was made, and the local name that it was given. -/
structure Use extends Request where
  localName : String
deriving DecidableEq, Repr

/-- What is known of something after the uses of it: the name asked for first, the local name given
then, and whether all uses were of the type. -/
def Use.summary (us : List Use) : Option (String × Binding) :=
  us.head?.map fun first => (first.id, ⟨first.localName, us.all (·.isType)⟩)

theorem Use.summary_snoc (us : List Use) (u : Use) :
    Use.summary (us ++ [u]) = some (u.noted u.localName (Use.summary us)) := by
  cases us <;> simp [summary, Request.noted, Binding.used, Bool.and_assoc]

namespace Bindings

/-- What is done to the bindings of a file. -/
inductive Step where
  | importDefault (module id : String) (isType : Bool)
  | importNamed (module id : String) (isType : Bool)
  | declare (id : String)
  | exportAs (localName exported : String)
  | exportDefault (localName : String)
deriving DecidableEq, Repr

/-- The request that a step makes in a file at the site, if it imports. -/
def Step.request? (site : Site) : Step → Option Request
  | .importDefault module id isType => some ⟨.default (site.specifier module), id, isType⟩
  | .importNamed module id isType => some ⟨.named (site.specifier module) id, id, isType⟩
  | .declare _ | .exportAs .. | .exportDefault _ => none

/-- The local name that a step gives, and the bindings after it. An export that cannot be made
leaves them as they are. -/
def perform (b : Bindings) : Step → Option String × Bindings
  | .importDefault module id isType =>
    let (localName, b) := b.importDefault module id isType
    (some localName, b)
  | .importNamed module id isType =>
    let (localName, b) := b.importNamed module id isType
    (some localName, b)
  | .declare id =>
    let (localName, b) := b.declare id
    (some localName, b)
  | .exportAs localName exported => (none, (b.exportAs localName exported).toOption.getD b)
  | .exportDefault localName => (none, b.exportDefault localName)

variable {b : Bindings} {step : Step} {r : Request}

/-- **An import takes note of the request**, adds at most a fresh name, and adds none when the
subject was imported before. -/
theorem perform_request (h : step.request? b.site = some r) :
    ∃ given, (b.perform step).1 = some given ∧ (∃ ms, Adds ms b (b.perform step).2) ∧
      (∀ s, (b.perform step).2.imports.entryOf? s =
        if s = r.subject then some (r.noted given (b.imports.entryOf? s)) else b.imports.entryOf? s) ∧
      ∀ e, b.imports.entryOf? r.subject = some e → given = e.2.localName ∧
        ∃ imports, (b.perform step).2 = { b with imports } ∧ imports.names = b.imports.names := by
  cases step with
  | importDefault module id isType =>
    obtain rfl := Option.some.inj h
    refine ⟨(b.importDefault module id isType).1, rfl, ⟨_, (b.importDefault_spec module id isType).1⟩,
      fun s => ?_, fun e he => ?_⟩
    · cases hd : (b.imports.ofModule (b.site.specifier module)).default with
      | some e =>
        simp only [perform, importDefault_of_some hd, Imports.entryOf?_putDefault]
        refine ite_congr rfl (fun hs => ?_) fun _ => rfl
        rw [hs, show b.imports.entryOf? (.default _) = some e from hd]
        rfl
      | none =>
        simp only [perform, importDefault_of_none hd, Imports.entryOf?_putDefault]
        refine ite_congr rfl (fun hs => ?_) fun _ => rfl
        rw [hs, show b.imports.entryOf? (.default _) = none from hd]
        rfl
    · have hd : (b.imports.ofModule (b.site.specifier module)).default = some e := he
      rw [perform, importDefault_of_some hd]
      exact ⟨rfl, _, rfl, Imports.names_putDefault_of_some hd isType⟩
  | importNamed module id isType =>
    obtain rfl := Option.some.inj h
    refine ⟨(b.importNamed module id isType).1, rfl, ⟨_, (b.importNamed_spec module id isType).1⟩,
      fun s => ?_, fun e he => ?_⟩
    · cases hn : b.imports.named? (b.site.specifier module) id with
      | some e =>
        simp only [perform, importNamed_of_some hn, Imports.entryOf?_putNamed]
        refine ite_congr rfl (fun hs => ?_) fun _ => rfl
        rw [hs, Imports.entryOf?, hn]
        rfl
      | none =>
        simp only [perform, importNamed_of_none hn, Imports.entryOf?_putNamed]
        refine ite_congr rfl (fun hs => ?_) fun _ => rfl
        rw [hs, Imports.entryOf?, hn]
        rfl
    · obtain ⟨e, hn, rfl⟩ := Option.map_eq_some_iff.1 he
      have hn : b.imports.named? (b.site.specifier module) id = some e := hn
      rw [perform, importNamed_of_some hn]
      exact ⟨rfl, _, rfl, Imports.names_putNamed_of_some hn isType⟩
  | declare id => simp [Step.request?] at h
  | exportAs localName exported => simp [Step.request?] at h
  | exportDefault localName => simp [Step.request?] at h

/-- A step that asks for nothing leaves the imports alone. -/
theorem imports_perform (h : step.request? b.site = none) :
    (b.perform step).2.imports = b.imports := by
  cases step with
  | importDefault module id isType => simp [Step.request?] at h
  | importNamed module id isType => simp [Step.request?] at h
  | declare id => rfl
  | exportAs localName exported =>
    simp only [perform, exportAs]
    cases b.exports.add localName exported <;> rfl
  | exportDefault localName => rfl

theorem site_perform (b : Bindings) (step : Step) : (b.perform step).2.site = b.site := by
  cases step with
  | importDefault module id isType => exact (b.importDefault_spec module id isType).1.site
  | importNamed module id isType => exact (b.importNamed_spec module id isType).1.site
  | declare id => rfl
  | exportAs localName exported =>
    simp only [perform, exportAs]
    cases b.exports.add localName exported <;> rfl
  | exportDefault localName => rfl

end Bindings

/-- The bindings of a file, and what was done to them so far with the names that were given. -/
structure History where
  bindings : Bindings
  log : List (Bindings.Step × Option String) := []
deriving Repr

namespace History

/-- The history with one more step. -/
def perform (h : History) (step : Bindings.Step) : History :=
  ⟨(h.bindings.perform step).2, h.log ++ [(step, (h.bindings.perform step).1)]⟩

/-- The history of a new file after steps. -/
def ofSteps (path extension : String) (suffixing : Suffixing) (steps : List Bindings.Step) :
    History :=
  steps.foldl perform ⟨.ofFile path extension suffixing, []⟩

/-- The imports that were made, in order. -/
def uses (h : History) : List Use :=
  h.log.filterMap fun (step, given) =>
    (step.request? h.bindings.site).bind fun r => given.map fun localName => { r with localName }

/-- The imports of one thing, in order. -/
def usesOf (h : History) (s : Subject) : List Use := h.uses.filter (·.subject = s)

/-- The names that declarations were given, in order. -/
def declared (h : History) : List String :=
  h.log.filterMap fun
    | (.declare _, given) => given
    | _ => none

variable {h : History} {step : Bindings.Step} {s : Subject}

theorem uses_perform_of_some {r : Request} {given : String}
    (hr : step.request? h.bindings.site = some r) (hg : (h.bindings.perform step).1 = some given) :
    (h.perform step).uses = h.uses ++ [{ r with localName := given }] := by
  simp [uses, perform, Bindings.site_perform, hr, hg]

theorem uses_perform_of_none (hr : step.request? h.bindings.site = none) :
    (h.perform step).uses = h.uses := by
  simp [uses, perform, Bindings.site_perform, hr]

/-- The imports of a file are what its history says. -/
structure Recorded (h : History) : Prop where
  /-- The names are pairwise different. -/
  tidy : h.bindings.Tidy h.declared
  /-- What was imported is known by its uses. -/
  entries : ∀ s, h.bindings.imports.entryOf? s = Use.summary (h.usesOf s)
  /-- Every use was given the local name that is known. -/
  given : ∀ u ∈ h.uses, ∃ e, h.bindings.imports.entryOf? u.subject = some e ∧
    e.2.localName = u.localName

theorem Recorded.tidy_perform (hh : h.Recorded) (step : Bindings.Step) :
    (h.perform step).bindings.Tidy (h.perform step).declared := by
  cases step with
  | importDefault module id isType =>
    have hd : (h.perform (.importDefault module id isType)).declared = h.declared := by
      simp [declared, perform]
    rw [hd]
    exact hh.tidy.adds (h.bindings.importDefault_spec module id isType).1
  | importNamed module id isType =>
    have hd : (h.perform (.importNamed module id isType)).declared = h.declared := by
      simp [declared, perform]
    rw [hd]
    exact hh.tidy.adds (h.bindings.importNamed_spec module id isType).1
  | declare id =>
    have hd : (h.perform (.declare id)).declared = h.declared ++ [(h.bindings.declare id).1] := by
      simp [declared, perform, Bindings.perform]
    rw [hd]
    exact hh.tidy.fresh (h.bindings.scope.fresh_bind id false)
  | exportAs localName exported =>
    have hd : (h.perform (.exportAs localName exported)).declared = h.declared := by
      simp [declared, perform]
    rw [hd]
    simp only [perform, Bindings.perform, Bindings.exportAs]
    cases h.bindings.exports.add localName exported <;>
      exact ⟨hh.tidy.apart, hh.tidy.bound, hh.tidy.unreserved⟩
  | exportDefault localName =>
    have hd : (h.perform (.exportDefault localName)).declared = h.declared := by
      simp [declared, perform]
    rw [hd]
    exact ⟨hh.tidy.apart, hh.tidy.bound, hh.tidy.unreserved⟩

/-- **One step keeps the record.** -/
theorem Recorded.perform (hh : h.Recorded) (step : Bindings.Step) : (h.perform step).Recorded := by
  have htidy := hh.tidy_perform step
  cases hr : step.request? h.bindings.site with
  | none =>
    have huses := uses_perform_of_none hr
    have himports : (h.perform step).bindings.imports = h.bindings.imports :=
      Bindings.imports_perform hr
    refine ⟨htidy, fun s => ?_, fun u hu => ?_⟩
    · rw [himports, usesOf, huses]
      exact hh.entries s
    · rw [himports]
      exact hh.given u (huses ▸ hu)
  | some r =>
    obtain ⟨given, hgiven, -, hentries, hknown⟩ := Bindings.perform_request hr
    have huses := uses_perform_of_some hr hgiven
    refine ⟨htidy, fun s => ?_, fun u hu => ?_⟩
    · refine (hentries s).trans ?_
      rw [usesOf, huses, List.filter_append]
      by_cases hs : s = r.subject
      · rw [if_pos hs, List.filter_cons_of_pos (by simp [hs]), List.filter_nil, Use.summary_snoc,
          hh.entries]
        rfl
      · rw [if_neg hs, List.filter_cons_of_neg (by simpa using Ne.symm hs), List.filter_nil,
          List.append_nil]
        exact hh.entries s
    · rw [huses] at hu
      have hlocal : (r.noted given (h.bindings.imports.entryOf? r.subject)).2.localName = given :=
        Request.noted_localName fun e he => (hknown e he).1
      -- The new use, and older ones of the same subject, are known by the name that was given.
      rcases List.mem_append.1 hu with hu | hu
      · obtain ⟨e, he, hname⟩ := hh.given u hu
        by_cases hs : u.subject = r.subject
        · refine ⟨_, (hentries _).trans (if_pos hs), ?_⟩
          rw [hs, hlocal, ← hname, (hknown e (hs ▸ he)).1]
        · exact ⟨e, (hentries _).trans ((if_neg hs).trans he), hname⟩
      · obtain rfl := List.mem_singleton.1 hu
        exact ⟨_, (hentries _).trans (if_pos rfl), hlocal⟩

/-- **Every history is recorded**: that of a new file, and step by step every longer one. -/
theorem recorded_ofSteps (path extension : String) (suffixing : Suffixing)
    (steps : List Bindings.Step) : (ofSteps path extension suffixing steps).Recorded := by
  induction steps using List.reverseRecOn with
  | nil =>
    refine ⟨.ofFile path extension suffixing, fun s => ?_, fun u hu => ?_⟩
    · cases s <;> rfl
    · cases hu
  | append_singleton steps step ih =>
    rw [ofSteps, List.foldl_append]
    exact ih.perform step

theorem site_ofSteps (path extension : String) (suffixing : Suffixing)
    (steps : List Bindings.Step) :
    (ofSteps path extension suffixing steps).bindings.site = .ofFile path extension := by
  induction steps using List.reverseRecOn with
  | nil => rfl
  | append_singleton steps step ih =>
    rw [ofSteps, List.foldl_append]
    exact (Bindings.site_perform _ step).trans ih

/-- **The imports of a file keep their names and remember where they are from**, whatever is
imported, declared and exported in it, and in whatever order. After any steps,
* what was imported before and is imported again gives the local name of its first use, and changes
  no name: the scope, the exports and the names of all imports stay;
* a local name that an import gave leads back to the module and to the name asked for first;
* a name that a declaration was given leads nowhere;
* what is known of something imported is what its uses say, and it is of a type only exactly when
  every use was. -/
theorem import_history (path extension : String) (suffixing : Suffixing)
    (steps : List Bindings.Step) :
    let h := ofSteps path extension suffixing steps
    (∀ step r, step.request? (.ofFile path extension) = some r →
      ∀ first, (h.usesOf r.subject).head? = some first →
        ∃ imports, h.bindings.perform step = (some first.localName, { h.bindings with imports }) ∧
          imports.names = h.bindings.imports.names) ∧
    (∀ u ∈ h.uses, ∃ first, (h.usesOf u.subject).head? = some first ∧
      u.localName = first.localName ∧
      h.bindings.imports.origin? u.localName = some (u.subject.specifier, first.id)) ∧
    (∀ name ∈ h.declared, h.bindings.imports.origin? name = none) ∧
    ∀ s, h.bindings.imports.entryOf? s = (h.usesOf s).head?.map fun first =>
      (first.id, ⟨first.localName, (h.usesOf s).all (·.isType)⟩) := by
  intro h
  have hh : h.Recorded := recorded_ofSteps path extension suffixing steps
  have hnodup := List.nodup_append.1 hh.tidy.apart
  refine ⟨fun step r hr first hfirst => ?_, fun u hu => ?_, fun name hname => ?_, hh.entries⟩
  · have he := hh.entries r.subject
    rw [Use.summary, hfirst] at he
    obtain ⟨given, hgiven, -, -, hknown⟩ := Bindings.perform_request
      (show step.request? h.bindings.site = some r from site_ofSteps .. ▸ hr)
    obtain ⟨rfl, imports, himports, hnames⟩ := hknown _ he
    exact ⟨imports, Prod.ext hgiven himports, hnames⟩
  · obtain ⟨e, he, hname⟩ := hh.given u hu
    obtain ⟨first, hfirst, rfl⟩ := Option.map_eq_some_iff.1 ((hh.entries _).symm.trans he)
    refine ⟨first, hfirst, hname.symm, ?_⟩
    rw [← hname]
    exact Imports.origin?_of_entryOf? hnodup.1 he
  · exact Imports.origin?_of_not_mem fun hl => hnodup.2.2 _ hl _ hname rfl

/-- The second import of `Item` is known by the name of the first, whatever it asks for. -/
example :
    let h := ofSteps "Endpoint.ts" ".js" .whenTaken
      [.importDefault "./com/example/one/Item" "Item" true, .declare "Item",
        .importDefault "./com/example/one/Item" "Other" false]
    h.log.map (·.2) = [some "Item", some "Item_1", some "Item"] ∧
      h.bindings.imports.origin? "Item" = some ("./com/example/one/Item.js", "Item") := by
  decide +kernel

end History

end Module
end OpenApiClient
