/-
# Files that serve routes

A file *serves* a list of routes when it exports the wrapper of each under the name of its method, in
the order of the routes, and has no other functions. Its names are tidy: names of declarations are
pairwise different, so that a wrapper is found again by its name; this is what later passes rely on.

Every step of a pass keeps this: a new declaration has a fresh name, a changed one keeps its name,
and a function is only ever replaced by one that wraps the same method.
-/

import OpenApiClient.Proofs.Passes

namespace OpenApiClient
namespace Client

open OpenApi TypeScript OpenApiClient.Module

/-- The file exports the wrappers of the routes and has no other functions. -/
structure Serves (v : Conventions) (T : List Route) (f : File) : Prop where
  tidy : f.bindings.Tidy (f.declarations.map (·.name))
  exports : f.bindings.exports.named = T.map fun t => (t.localName, t.call.name)
  methods : (T.map (·.call.name)).Nodup
  wrapped : ∀ t ∈ T, ∃ g, .function g ∈ f.declarations ∧ g.name = t.localName ∧
    Wraps v f.bindings t.endpoint t.call.name g
  only : ∀ g, .function g ∈ f.declarations → ∃ t ∈ T, t.localName = g.name
  locals : (T.map (·.localName)).Nodup

namespace Serves

variable {v : Conventions} {T : List Route} {f f' : File}

/-- The names of declarations are pairwise different. -/
theorem names (h : Serves v T f) : (f.declarations.map (·.name)).Nodup :=
  (List.nodup_append.1 h.tidy.apart).2.1

theorem blank (s : Sources) (path origin : String) : Serves v [] (s.blank path origin) :=
  ⟨.ofFile .., rfl, by simp, by simp, by simp [Sources.blank], by simp⟩

/-- Binding more names changes nothing. -/
theorem bindNames (h : Serves v T f) (names : List String) : Serves v T (bindNames f names) :=
  { h with tidy := h.tidy.bind names }

/-- The name of a wrapper is that of a declaration. -/
theorem exists_declaration (h : Serves v T f) {t : Route} (ht : t ∈ T) :
    ∃ d ∈ f.declarations, d.name = t.localName :=
  have ⟨_, hg, hname, _⟩ := h.wrapped t ht
  ⟨_, hg, hname⟩

/-- **A new wrapper serves a new route.** -/
theorem addsMethod (h : Serves v T f) {t : Route} {c : TypeContext} {names : List String}
    (ht : f.bindings.Tidy (f.declarations.map (·.name) ++ [t.localName]))
    (ha : AddsMethod c v t.endpoint t.call t.localName names f f') : Serves v (T ++ [t]) f' := by
  obtain ⟨g, b, exports, hg, hwraps, -, -, hadds, hexports, rfl⟩ := ha
  have hnew : t.localName ∉ f.declarations.map (·.name) := fun hin =>
    (List.nodup_append.1 (List.nodup_append.1 ht.apart).2.1).2.2 _ hin _ (by simp) rfl
  have hlocal : t.localName ∉ T.map (·.localName) := fun hin => by
    obtain ⟨t', ht', hl⟩ := List.mem_map.1 hin
    obtain ⟨d, hd, hname⟩ := h.exists_declaration ht'
    exact hnew (List.mem_map.2 ⟨d, hd, hname.trans hl⟩)
  have hexported : t.call.name ∉ T.map (·.call.name) ∧
      exports.named = f.bindings.exports.named ++ [(t.localName, t.call.name)] := by
    unfold Exports.add at hexports
    split at hexports
    · next hnone =>
      obtain rfl := Except.ok.inj hexports
      refine ⟨fun hin => ?_, rfl⟩
      obtain ⟨t', ht', hname⟩ := List.mem_map.1 hin
      rw [h.exports] at hnone
      simpa [hname] using List.find?_eq_none.1 hnone _ (List.mem_map.2 ⟨t', ht', rfl⟩)
    · next existing _ hsome =>
      split at hexports
      · next heq =>
        refine absurd ?_ hlocal
        have := List.mem_of_find?_eq_some hsome
        rw [h.exports] at this
        obtain ⟨t', ht', he⟩ := List.mem_map.1 this
        exact List.mem_map.2 ⟨t', ht', (Prod.mk.inj he).1.trans heq⟩
      · cases hexports
  refine ⟨?_, ?_, ?_, ?_, ?_, ?_⟩
  · have ⟨apart, bound, unreserved⟩ := ht.adds hadds
    simpa [Declaration.name, hg] using Bindings.Tidy.mk (b := { b with exports })
      apart bound unreserved
  · simp [hexported.2, h.exports]
  · rw [List.map_append]
    exact nodup_snoc h.methods hexported.1
  · intro t' ht'
    rcases List.mem_append.1 ht' with ht' | ht'
    · obtain ⟨g', hg', hname, hwraps'⟩ := h.wrapped t' ht'
      have : Wraps v b t'.endpoint t'.call.name g' := hwraps'.of_adds hadds
      exact ⟨g', List.mem_append_left _ hg', hname, this⟩
    · obtain rfl := List.mem_singleton.1 ht'
      exact ⟨g, by simp, hg, hwraps⟩
  · intro g' hg'
    rcases List.mem_append.1 hg' with hg' | hg'
    · obtain ⟨t', ht', hname⟩ := h.only g' hg'
      exact ⟨t', List.mem_append_left _ ht', hname⟩
    · obtain rfl := Declaration.function.inj (List.mem_singleton.1 hg')
      exact ⟨t, by simp, hg.symm⟩
  · rw [List.map_append]
    exact nodup_snoc h.locals hlocal

/-- A model beside the wrappers changes nothing. -/
theorem addsModel (h : Serves v T f) {c : TypeContext} {component identifier : String}
    {names : List String} (ha : AddsModel c component identifier names f f') : Serves v T f' := by
  obtain ⟨form, d, b, -, hdeclares, -, hfresh, hadds, rfl⟩ := ha
  have hd := (hdeclares b (.refl b)).name
  refine ⟨?_, ?_, h.methods, ?_, ?_, h.locals⟩
  · have ⟨apart, bound, unreserved⟩ := (h.tidy.fresh hfresh).adds hadds
    simpa [hd] using Bindings.Tidy.mk (b := b.exportDefault identifier) apart bound unreserved
  · exact (congrArg Exports.named hadds.exports).trans h.exports
  · intro t ht
    obtain ⟨g, hg, hname, hwraps⟩ := h.wrapped t ht
    have : Wraps v b t.endpoint t.call.name g := Wraps.of_adds hadds hwraps
    exact ⟨g, List.mem_append_left _ hg, hname, this⟩
  · intro g hg
    rcases List.mem_append.1 hg with hg | hg
    · exact h.only g hg
    · exact absurd (List.mem_singleton.1 hg).symm ((hdeclares b (.refl b)).ne_function g)

/-- **A change that keeps names changes the functions alone.**  What is served afterwards is told by
the function that takes the place of each. -/
theorem adjust (h : Serves v T f) {name : String} {change : Declaration → Declaration}
    {b : Bindings} {ms : List String} (hadds : Bindings.Adds ms f.bindings b)
    (hname : ∀ d ∈ f.declarations, d.name = name → (change d).name = name)
    (hfun : ∀ g, .function g ∈ f.declarations → g.name = name →
      ∃ g', change (.function g) = .function g' ∧
        ∀ t ∈ T, t.localName = name → Wraps v b t.endpoint t.call.name g')
    (hnew : ∀ d ∈ f.declarations, ∀ g, d.name = name → change d = .function g →
      ∃ t ∈ T, t.localName = name) :
    Serves v T ({ f with bindings := b }.adjust name change) := by
  have hdecls : ({ f with bindings := b }.adjust name change).declarations =
      f.declarations.map fun d => if d.name = name then change d else d :=
    adjustFirst_eq_map h.names
  have hnames : (({ f with bindings := b } : File).adjust name change).declarations.map (·.name) =
      f.declarations.map (·.name) := map_name_adjustFirst hname
  refine ⟨?_, ?_, h.methods, ?_, ?_, h.locals⟩
  · rw [hnames]
    exact h.tidy.adds hadds
  · exact (congrArg Exports.named hadds.exports).trans h.exports
  · intro t ht
    obtain ⟨g, hg, hgname, hwraps⟩ := h.wrapped t ht
    rw [hdecls]
    by_cases hn : g.name = name
    · obtain ⟨g', hg', hw⟩ := hfun g hg hn
      refine ⟨g', List.mem_map.2 ⟨_, hg, ?_⟩, ?_, hw t ht (hgname.symm.trans hn)⟩
      · simp [Declaration.name, hn, hg']
      · have := hname _ hg hn
        rw [hg'] at this
        exact this.trans (hn.symm.trans hgname)
    · exact ⟨g, List.mem_map.2 ⟨_, hg, if_neg hn⟩, hgname, hwraps.of_adds hadds⟩
  · intro g hg
    rw [hdecls] at hg
    obtain ⟨d, hd, heq⟩ := List.mem_map.1 hg
    by_cases hn : d.name = name
    · rw [if_pos hn] at heq
      obtain ⟨t, ht, hl⟩ := hnew d hd g hn heq
      have := hname d hd hn
      rw [heq] at this
      exact ⟨t, ht, hl.trans this.symm⟩
    · rw [if_neg hn] at heq
      exact h.only g (heq ▸ hd)

/-- A change that keeps functions changes nothing. -/
theorem edit (h : Serves v T f) {name : String} {change : Declaration → Declaration}
    (hc : Keeps change) {b : Bindings} {ms : List String} (hadds : Bindings.Adds ms f.bindings b) :
    Serves v T ({ f with bindings := b }.adjust name change) := by
  refine h.adjust hadds (fun d _ hn => (hc.name d).trans hn) (fun g hg hn => ?_) ?_
  · refine ⟨g, hc.function g, fun t ht hl => ?_⟩
    obtain ⟨g', hg', hname, hwraps⟩ := h.wrapped t ht
    have := List.inj_on_of_nodup_map h.names hg' hg (hname.trans (hl.trans hn.symm))
    exact Declaration.function.inj this ▸ hwraps.of_adds hadds
  · intro d hd g hn hg
    obtain rfl := hc.isFunction d g hg
    obtain ⟨t, ht, hl⟩ := h.only g hd
    exact ⟨t, ht, hl.trans hn⟩

/-- **Another wrapper of the same method serves the same route.** -/
theorem replace (h : Serves v T f) {t : Route} (ht : t ∈ T) {g : Function} {b : Bindings}
    {ms : List String} (hadds : Bindings.Adds ms f.bindings b) (hg : g.name = t.localName)
    (hwraps : Wraps v b t.endpoint t.call.name g) :
    Serves v T ({ f with bindings := b }.adjust t.localName fun _ => .function g) := by
  refine h.adjust hadds (fun _ _ _ => hg) (fun _ _ _ => ⟨g, rfl, fun t' ht' hl => ?_⟩)
    fun _ _ _ _ _ => ⟨t, ht, rfl⟩
  obtain rfl := List.inj_on_of_nodup_map h.locals ht' ht hl
  exact hwraps

end Serves

end Client
end OpenApiClient
