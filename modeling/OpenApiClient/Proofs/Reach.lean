/-
# What operations reach

Operations refer to components, and these to others. A client depends on what its operations reach
in this way, and on nothing else (`generate_result_eq`): two documents of the same title and paths,
whose components agree where the operations reach, give the same files or the same error. Components
that are not reached may differ, and all may come in another order.

Both documents are compared with the one that has the components reached and no others, its `core`.
It is valid since all chains of references in it end: a chain that ends comes by no name twice, so
that the components reached are enough steps (`follow_restrict`, `followItem_restrict`).
-/

import OpenApiClient.OpenApi.Document.Writer
import OpenApiClient.Proofs.Generation
import OpenApiClient.Proofs.Irrelevance
import OpenApiClient.Proofs.Logging

namespace OpenApiClient

namespace Entries

variable {α : Type}

/-- What is read at the names of a choice, with each name once. -/
def restrict (es : Entries α) (p : String → Bool) : Entries α := (firsts es).filter fun e => p e.1

variable {es : Entries α} {p : String → Bool}

theorem nodup_keys_restrict : (es.restrict p).keys.Nodup :=
  (List.filter_sublist.map Prod.fst).nodup (nodup_keys_firsts es)

theorem mem_restrict {e : String × α} :
    e ∈ es.restrict p ↔ es.at? e.1 = some e.2 ∧ p e.1 = true := by
  rw [restrict, List.mem_filter, mem_firsts]

theorem at?_restrict {k : String} {v : α} :
    (es.restrict p).at? k = some v ↔ es.at? k = some v ∧ p k = true := by
  constructor
  · exact fun h => mem_restrict.1 (mem_of_at? h)
  · exact fun h => at?_of_mem nodup_keys_restrict (mem_restrict.2 h)

/-- Where two maps read alike, the second has what the first is restricted to. -/
theorem extends_restrict {es' : Entries α} (h : ∀ k, p k = true → es'.at? k = es.at? k) :
    (es.restrict p).Extends es' := by
  have hreads : ∀ k v, (es.restrict p).at? k = some v → es'.at? k = some v := fun k v hk => by
    obtain ⟨hk, hp⟩ := at?_restrict.1 hk
    rw [h k hp, hk]
  refine ⟨hreads, ?_⟩
  have hsub : (es.restrict p).keys ⊆ es'.keys := fun k hk => by
    obtain ⟨v, hv⟩ := Option.isSome_iff_exists.1 (has_iff.2 hk)
    exact List.mem_map.2 ⟨(k, v), mem_of_at? (hreads k v hv), rfl⟩
  exact (length_keys _).symm.trans_le (length_le_of_nodup nodup_keys_restrict hsub)

end Entries

namespace OpenApi

/-- A reference that stands in a document: the section that its place asks for, and its pointer. -/
abbrev Link := Section × String

/-- The references in a schema. -/
def Schema.links (s : Schema) : List Link := s.pointers.map (Section.schemas, ·)

/-- The references in payloads. -/
def contentLinks (content : Content) : List Link :=
  content.values.flatMap fun m => m.schema.toList.flatMap Schema.links

/-- The references of a parameter. -/
def Parameter.links (p : Parameter) : List Link := p.schema.toList.flatMap Schema.links

/-- The references of the body of a request. -/
def RequestBody.links (b : RequestBody) : List Link := contentLinks b.content

/-- The references of a response. -/
def Response.links (r : Response) : List Link := contentLinks r.content

/-- The reference to a value of a section, or those in a value written in place. -/
def Referable.links {α : Type} (s : Section) (inside : α → List Link) : Referable α → List Link
  | .ref pointer => [(s, pointer)]
  | .item x => inside x

/-- The references of an operation. -/
def Operation.links (o : Operation) : List Link :=
  o.parameters.flatMap (Referable.links .parameters Parameter.links) ++
    o.requestBody.toList.flatMap (Referable.links .requestBodies RequestBody.links) ++
    o.responses.values.flatMap (Referable.links .responses Response.links)

namespace Components

/-- The references of a component. -/
def linksOf (c : Components) : Section → String → List Link
  | .schemas, name => (c.schemas.at? name).toList.flatMap Schema.links
  | .parameters, name =>
    (c.parameters.at? name).toList.flatMap (Referable.links .parameters Parameter.links)
  | .requestBodies, name =>
    (c.requestBodies.at? name).toList.flatMap (Referable.links .requestBodies RequestBody.links)
  | .responses, name =>
    (c.responses.at? name).toList.flatMap (Referable.links .responses Response.links)

/-- Both have the same component of the name, or none. -/
def AgreeAt (c c' : Components) : Section → String → Prop
  | .schemas, name => c'.schemas.at? name = c.schemas.at? name
  | .parameters, name => c'.parameters.at? name = c.parameters.at? name
  | .requestBodies, name => c'.requestBodies.at? name = c.requestBodies.at? name
  | .responses, name => c'.responses.at? name = c.responses.at? name

/-- The components of a choice. -/
def restrict (c : Components) (p : Section → String → Bool) : Components where
  schemas := c.schemas.restrict (p .schemas)
  parameters := c.parameters.restrict (p .parameters)
  requestBodies := c.requestBodies.restrict (p .requestBodies)
  responses := c.responses.restrict (p .responses)

theorem extends_restrict {c c' : Components} {p : Section → String → Bool}
    (h : ∀ s name, p s name = true → c.AgreeAt c' s name) : (c.restrict p).Extends c' where
  schemas := Entries.extends_restrict (h .schemas)
  parameters := Entries.extends_restrict (h .parameters)
  requestBodies := Entries.extends_restrict (h .requestBodies)
  responses := Entries.extends_restrict (h .responses)

end Components

/-- A component that the operations of a document refer to, or one that is referred to by a component
that they reach. -/
inductive Document.Reaches (d : Document) : Section → String → Prop
  | ofOperation {e : String × Verb × Operation} {link : Link} {name : String}
    (operation : e ∈ d.operations) (refers : link ∈ e.2.2.links)
    (target : targetName link.1 link.2 = .ok name) : Reaches d link.1 name
  | ofComponent {s : Section} {component : String} {link : Link} {name : String}
    (reached : Reaches d s component) (refers : link ∈ d.parts.linksOf s component)
    (target : targetName link.1 link.2 = .ok name) : Reaches d link.1 name

/-- What the references refer to is among the choice. -/
def Within (p : Section → String → Bool) (links : List Link) : Prop :=
  ∀ link ∈ links, ∀ name, targetName link.1 link.2 = .ok name → p link.1 name = true

theorem Within.subset {p : Section → String → Bool} {links links' : List Link} (h : Within p links)
    (hsub : links' ⊆ links) : Within p links' := fun link hl => h link (hsub hl)

namespace Components

variable {c : Components} {p : Section → String → Bool}
  (hp : ∀ s name, p s name = true → Within p (c.linksOf s name))

section Schemas

theorem follow_ref {start name pointer target : String} (hat : c.schemas.at? name = some (.ref pointer))
    (htarget : componentName pointer = .ok target) (n : Nat) :
    c.follow start (n + 1) name = c.follow start n target := by
  rw [follow, hat]
  dsimp only
  rw [htarget]

include hp

/-- **A chain of schemas that ends, ends among the components of a closed choice.**  `visited` are the
names before: each of them takes more steps than the name at hand, so that a chain that ends never
comes back to one. -/
theorem follow_restrict {start start' : String} {o : SchemaObject} :
    ∀ (n m : Nat) (visited : List String) (name : String), c.follow start n name = .ok o →
      p .schemas name = true → visited.Nodup → visited ⊆ (c.restrict p).schemas.keys →
      (∀ v ∈ visited, ∀ k, (∃ o, c.follow start k v = .ok o) →
        ∃ k' < k, ∃ o, c.follow start k' name = .ok o) →
      (c.restrict p).schemas.length < visited.length + m →
        (c.restrict p).follow start' m name = .ok o
  | 0, _, _, _, hok, _, _, _, _, _ => by cases hok
  | n + 1, m, visited, name, hok, hname, hn, hsub, hsteps, hm => by
    have hnew : name ∉ visited := by
      -- Else the name takes fewer steps than itself.
      intro hmem
      have hnever : ∀ k o, c.follow start k name ≠ .ok o := fun k => by
        induction k using Nat.strong_induction_on with
        | _ k ih =>
          intro o hk
          obtain ⟨k', hlt, o', hk'⟩ := hsteps name hmem k ⟨o, hk⟩
          exact ih k' hlt o' hk'
      exact hnever _ _ hok
    obtain ⟨m, rfl⟩ : ∃ k, m = k + 1 :=
      ⟨m - 1, by have := Entries.length_le_of_nodup hn hsub; omega⟩
    rw [follow] at hok ⊢
    split at hok
    · cases hok
    · next s hs =>
      have hs' : (c.restrict p).schemas.at? name = some (.inline s) :=
        Entries.at?_restrict.2 ⟨hs, hname⟩
      rw [hs']
      exact hok
    · next pointer hs =>
      have hs' : (c.restrict p).schemas.at? name = some (.ref pointer) :=
        Entries.at?_restrict.2 ⟨hs, hname⟩
      have hkey : name ∈ (c.restrict p).schemas.keys :=
        List.mem_map.2 ⟨_, Entries.mem_of_at? hs', rfl⟩
      rw [hs']
      dsimp only
      split at hok
      · next next hnext =>
        have hlink : (Section.schemas, pointer) ∈ c.linksOf .schemas name := by
          simp [linksOf, hs, Schema.links]
        -- Each step ahead is one step less.
        have hless : ∀ k, (∃ o, c.follow start k name = .ok o) →
            ∃ k' < k, ∃ o, c.follow start k' next = .ok o := by
          rintro (_ | k) ⟨o, hk⟩
          · cases hk
          · exact ⟨k, Nat.lt_succ_self k, o, (follow_ref hs hnext k).symm.trans hk⟩
        refine follow_restrict n m (name :: visited) next hok (hp _ _ hname _ hlink next hnext)
          (List.nodup_cons.2 ⟨hnew, hn⟩) (List.cons_subset.2 ⟨hkey, hsub⟩) ?_ ?_
        · intro v hv k hk
          rcases List.mem_cons.1 hv with rfl | hv
          · exact hless k hk
          · obtain ⟨k', hlt, hk'⟩ := hsteps v hv k hk
            obtain ⟨k'', hlt', hk''⟩ := hless k' hk'
            exact ⟨k'', hlt'.trans hlt, hk''⟩
        · rw [List.length_cons]
          omega
      · cases hok

theorem leads_restrict {name : String} (h : c.Leads name) (hname : p .schemas name = true) :
    (c.restrict p).Leads name := by
  obtain ⟨o, ho⟩ := h
  refine ⟨o, follow_restrict hp _ _ [] name ho hname List.nodup_nil (List.nil_subset _) (by simp) ?_⟩
  simp

theorem closed_restrict {s : Schema} (h : c.Closed s) (hs : Within p s.links) :
    (c.restrict p).Closed s := fun pointer hpointer => by
  obtain ⟨name, hname, hl⟩ := h pointer hpointer
  have hlink : (Section.schemas, pointer) ∈ s.links := List.mem_map.2 ⟨pointer, hpointer, rfl⟩
  exact ⟨name, hname, leads_restrict hp hl (hs _ hlink name hname)⟩

theorem closedContent_restrict {content : Content} (h : c.ClosedContent content)
    (hlinks : Within p (contentLinks content)) : (c.restrict p).ClosedContent content := by
  intro m hm s hs
  refine closed_restrict hp (h m hm s hs) (hlinks.subset fun link hl => ?_)
  exact List.mem_flatMap.2 ⟨m, hm, List.mem_flatMap.2 ⟨s, by simp [hs], hl⟩⟩

end Schemas

/-- Kept values whose references are known. -/
class Linked (α : Type) extends Kept α where
  /-- The references in a value. -/
  links : α → List Link
  links_subset : ∀ {c : Components} {name : String} {item : Referable α},
    (Kept.entries c).at? name = some item →
      item.links (Kept.place α) links ⊆ c.linksOf (Kept.place α) name
  entries_restrict : ∀ (c : Components) (p : Section → String → Bool),
    Kept.entries (α := α) (c.restrict p) = Entries.restrict (Kept.entries c) (p (Kept.place α))

instance : Linked Parameter where
  links := Parameter.links
  links_subset h := fun _ hl => List.mem_flatMap.2 ⟨_, Option.mem_toList.2 h, hl⟩
  entries_restrict _ _ := rfl

instance : Linked RequestBody where
  links := RequestBody.links
  links_subset h := fun _ hl => List.mem_flatMap.2 ⟨_, Option.mem_toList.2 h, hl⟩
  entries_restrict _ _ := rfl

instance : Linked Response where
  links := Response.links
  links_subset h := fun _ hl => List.mem_flatMap.2 ⟨_, Option.mem_toList.2 h, hl⟩
  entries_restrict _ _ := rfl

section Items

variable {α : Type} [Linked α]

/-- The references of a kept value, or of what stands in its place. -/
def itemLinks (item : Referable α) : List Link := item.links (Kept.place α) Linked.links

include hp

/-- **So does a chain of other components.**  Those before, `visited`, all lead on by a pointer that
was seen or is at hand, and a chain that ends meets no pointer again. -/
theorem followItem_restrict {x : α} :
    ∀ (n m : Nat) (seen visited : List String) (item : Referable α),
      c.followItem n seen item = .ok x → Within p (itemLinks item) → visited.Nodup →
      visited ⊆ (Kept.entries (α := α) (c.restrict p)).keys →
      (∀ v ∈ visited, ∃ q, (Kept.entries c).at? v = some (Referable.ref (α := α) q) ∧
        (q ∈ seen ∨ item = .ref q)) →
      (Kept.entries (α := α) (c.restrict p)).length < visited.length + m →
        (c.restrict p).followItem m seen item = .ok x ∧ Within p (Linked.links x)
  | n, m, seen, visited, .item y, hok, hlinks, _, _, _, _ => by
    rw [followItem] at hok ⊢
    obtain rfl := Except.ok.inj hok
    exact ⟨rfl, hlinks⟩
  | 0, _, _, _, .ref pointer, hok, _, _, _, _, _ => by cases hok
  | n + 1, m, seen, visited, .ref pointer, hok, hlinks, hn, hsub, hrefs, hm => by
    obtain ⟨m, rfl⟩ : ∃ k, m = k + 1 :=
      ⟨m - 1, by have := Entries.length_le_of_nodup hn hsub; omega⟩
    rw [followItem] at hok ⊢
    split at hok
    · cases hok
    next hunseen =>
    rw [if_neg hunseen]
    split at hok
    · cases hok
    next name hname =>
    split at hok
    · cases hok
    next next hnext =>
    have hchosen : p (Kept.place α) name = true := hlinks (Kept.place α, pointer) (by
      simp [itemLinks, Referable.links]) name hname
    have hwithin : Within p (itemLinks next) := (hp _ _ hchosen).subset (Linked.links_subset hnext)
    have hnext' : (Kept.entries (c.restrict p)).at? name = some next := by
      rw [Linked.entries_restrict, Entries.at?_restrict]
      exact ⟨hnext, hchosen⟩
    rw [hnext']
    dsimp only
    cases next with
    | item y =>
      obtain rfl := Except.ok.inj (by simpa only [followItem] using hok)
      exact ⟨by rw [followItem], hwithin⟩
    | ref q =>
      have hnew : name ∉ visited := by
        -- Else the chain goes on by a pointer that was seen.
        intro hmem
        obtain ⟨q', hq', hseen⟩ := hrefs name hmem
        obtain rfl : q = q' := by simpa [hnext] using hq'
        have hagain : q ∈ pointer :: seen := by
          rcases hseen with hseen | hhand
          · exact List.mem_cons_of_mem _ hseen
          · exact List.mem_cons.2 (.inl (Referable.ref.inj hhand).symm)
        cases n with
        | zero => simp [followItem] at hok
        | succ n => simp [followItem, hagain] at hok
      refine followItem_restrict n m (pointer :: seen) (name :: visited) (.ref q) hok hwithin
        (List.nodup_cons.2 ⟨hnew, hn⟩) (List.cons_subset.2 ⟨?_, hsub⟩) ?_ ?_
      · exact List.mem_map.2 ⟨_, Entries.mem_of_at? hnext', rfl⟩
      · intro v hv
        rcases List.mem_cons.1 hv with rfl | hv
        · exact ⟨q, hnext, .inr rfl⟩
        · obtain ⟨q', hq', hseen⟩ := hrefs v hv
          refine ⟨q', hq', .inl ?_⟩
          rcases hseen with hseen | hhand
          · exact List.mem_cons_of_mem _ hseen
          · exact List.mem_cons.2 (.inl (Referable.ref.inj hhand).symm)
      · rw [List.length_cons]
        omega

theorem resolveItem_restrict {item : Referable α} {x : α} (h : c.resolveItem item = .ok x)
    (hlinks : Within p (itemLinks item)) :
    (c.restrict p).resolveItem item = .ok x ∧ Within p (Linked.links x) :=
  followItem_restrict hp _ _ [] [] item h hlinks List.nodup_nil (List.nil_subset _) (by simp)
    (by simp)

end Items

section Operations
include hp

theorem validOperation_restrict {o : Operation} (h : c.ValidOperation o)
    (hlinks : Within p o.links) : (c.restrict p).ValidOperation o where
  parameters item hitem := by
    obtain ⟨x, hx, hclosed⟩ := h.parameters item hitem
    obtain ⟨hx', hwithin⟩ := resolveItem_restrict hp hx (hlinks.subset fun link hl =>
      List.mem_append_left _ (List.mem_append_left _ (List.mem_flatMap.2 ⟨item, hitem, hl⟩)))
    refine ⟨x, hx', fun s hs => closed_restrict hp (hclosed s hs) (hwithin.subset fun link hl => ?_)⟩
    exact List.mem_flatMap.2 ⟨s, by simp [hs], hl⟩
  requestBody item hitem := by
    obtain ⟨x, hx, hclosed⟩ := h.requestBody item hitem
    obtain ⟨hx', hwithin⟩ := resolveItem_restrict hp hx (hlinks.subset fun link hl =>
      List.mem_append_left _ (List.mem_append_right _
        (List.mem_flatMap.2 ⟨item, by simp [hitem], hl⟩)))
    exact ⟨x, hx', closedContent_restrict hp hclosed hwithin⟩
  responses item hitem := by
    obtain ⟨x, hx, hclosed⟩ := h.responses item hitem
    obtain ⟨hx', hwithin⟩ := resolveItem_restrict hp hx (hlinks.subset fun link hl =>
      List.mem_append_right _ (List.mem_flatMap.2 ⟨item, hitem, hl⟩))
    exact ⟨x, hx', closedContent_restrict hp hclosed hwithin⟩

/-- Among the components of a closed choice no reference leads out of it. -/
theorem Valid.restrict (hc : c.Valid) : (c.restrict p).Valid where
  closed e he := by
    obtain ⟨hat, hchosen⟩ := Entries.mem_restrict.1 he
    refine closed_restrict hp (hc.closed e (Entries.mem_of_at? hat)) ?_
    exact (hp _ _ hchosen).subset fun link hl => List.mem_flatMap.2 ⟨e.2, Option.mem_toList.2 hat, hl⟩
  leads e he := by
    obtain ⟨hat, hchosen⟩ := Entries.mem_restrict.1 he
    exact leads_restrict hp (hc.leads e (Entries.mem_of_at? hat)) hchosen

end Operations
end Components

namespace Document

variable (d : Document)

open Classical in
/-- The document with the components that its operations reach. -/
noncomputable def core : Document :=
  { d with components := some (d.parts.restrict fun s name => decide (d.Reaches s name)) }

theorem core_parts :
    ∃ p : Section → String → Bool, (∀ s name, p s name = true ↔ d.Reaches s name) ∧
      d.core.parts = d.parts.restrict p := by
  classical
  exact ⟨fun s name => decide (d.Reaches s name), fun s name => decide_eq_true_iff, rfl⟩

variable {d}

/-- **The core of a valid document is valid.** -/
theorem Valid.core (h : d.Valid) : d.core.Valid := by
  obtain ⟨p, hp, hparts⟩ := d.core_parts
  have hclosed : ∀ s name, p s name = true → Within p (d.parts.linksOf s name) :=
    fun s name hreached link hl target htarget =>
      (hp _ _).2 (.ofComponent ((hp s name).1 hreached) hl htarget)
  constructor
  · rw [hparts]
    exact Components.Valid.restrict hclosed h.parts
  · intro e he
    rw [hparts]
    refine Components.validOperation_restrict hclosed (h.operations e he) ?_
    exact fun link hl name hname => (hp _ _).2 (.ofOperation he hl hname)

/-- The core is part of each document that agrees with it. -/
theorem core_extends {d' : Document}
    (h : ∀ s name, d.Reaches s name → d.parts.AgreeAt d'.parts s name) :
    d.core.parts.Extends d'.parts := by
  obtain ⟨p, hp, hparts⟩ := d.core_parts
  rw [hparts]
  exact Components.extends_restrict fun s name hreached => h s name ((hp s name).1 hreached)

end Document
end OpenApi

namespace Client

open OpenApi

/-- The run of a document is that of its core. -/
theorem executeAll_core {d d' : Document} (hv : d.Valid) (htitle : d'.info.title = d.info.title)
    (hpaths : d'.paths = d.paths)
    (hagree : ∀ s name, d.Reaches s name → d.parts.AgreeAt d'.parts s name) (settings : Settings)
    (passes : List Pass) (log : List LogLine) :
    (executeAll ⟨d', settings⟩ passes).run.run { Run.start settings with log } =
      (executeAll ⟨d.core, settings⟩ passes).run.run { Run.start settings with log } := by
  have hextends : Job.Extends ⟨d.core, settings⟩ ⟨d', settings⟩ := {
    title := htitle
    operations := by rw [Document.operations, Document.operations, hpaths]; rfl
    parts := Document.core_extends hagree
    settings := rfl }
  exact executeAll_eq hextends hv.core passes log

/-- **A client depends on what its operations reach, and on nothing else.**  Two documents of one title
and with the same paths give the same files in the same order, or the same error, if their components
agree where the operations reach. -/
theorem generate_result_eq (settings : Settings) (directory : String) {origin origin' : Origin}
    {log log' : List LogLine} {d d' : Document} (hload : load origin = (log, .ok d))
    (hload' : load origin' = (log', .ok d')) (htitle : d'.info.title = d.info.title)
    (hpaths : d'.paths = d.paths)
    (hagree : ∀ s name, d.Reaches s name → d.parts.AgreeAt d'.parts s name) :
    (generate settings directory origin').result = (generate settings directory origin).result := by
  have hv : d.Valid := valid_of_load hload
  have hself : ∀ s name, d.Reaches s name → d.parts.AgreeAt d.parts s name := fun s name _ => by
    cases s <;> rfl
  unfold generate
  cases Pass.ofNames settings.passes with
  | error e => rfl
  | ok passes =>
    rw [hload, hload']
    dsimp only
    rw [htitle, hpaths]
    generalize (⟨.info, "tsgen_core::generator", _⟩ : LogLine) = line
    have hcore := executeAll_core hv rfl rfl hself settings passes (log ++ [line])
    have hcore' := executeAll_core hv htitle hpaths hagree settings passes (log' ++ [line])
    obtain ⟨log₁, hlog⟩ := executeAll_ignoresLog ⟨d.core, settings⟩ passes (Run.start settings)
      (log ++ [line])
    obtain ⟨log₂, hlog'⟩ := executeAll_ignoresLog ⟨d.core, settings⟩ passes (Run.start settings)
      (log' ++ [line])
    rw [hcore, hcore', hlog, hlog']
    rcases (executeAll ⟨d.core, settings⟩ passes).run.run (Run.start settings) with ⟨e | a, r⟩
    · rfl
    · rfl

/-- A document of one operation, which gives back a component. -/
def giving (component : String) (schemas : Entries Schema) : Document where
  openapi := "3.1"
  info := { title := "t", version := "1" }
  paths := [("/e/m", { get := some { responses := [("200", .item { content :=
    [("application/json", { schema := some (.ref (pointerTo .schemas component)) })] })] } })]
  components := some { schemas }

/-- A component that refers to another one. -/
def needed : Entries Schema :=
  [("a", .inline { items := some (.ref (pointerTo .schemas "b")) }), ("b", .inline {})]

/-- The same components in another order, after one that is not reached. -/
def neededAndMore : Entries Schema := ("c", .ref (pointerTo .schemas "a")) :: needed.reverse

theorem reaches_needed {s : Section} {name : String} (h : (giving "a" needed).Reaches s name) :
    s = .schemas ∧ (name = "a" ∨ name = "b") := by
  induction h with
  | @ofOperation e link name operation refers target =>
    obtain rfl := List.mem_singleton.1 operation
    obtain rfl : link = (.schemas, pointerTo .schemas "a") := List.mem_singleton.1 refers
    obtain rfl : "a" = name := Except.ok.inj target
    exact ⟨rfl, .inl rfl⟩
  | @ofComponent s component link name reached refers target ih =>
    obtain ⟨rfl, rfl | rfl⟩ := ih
    · obtain rfl : link = (.schemas, pointerTo .schemas "b") := List.mem_singleton.1 refers
      obtain rfl : "b" = name := Except.ok.inj target
      exact ⟨rfl, .inr rfl⟩
    · cases refers

/-- The order of components and one that is not reached make no difference. -/
theorem generate_result_eq_neededAndMore :
    load (.value (giving "a" needed).toJson) = ([], .ok (giving "a" needed)) ∧
      load (.value (giving "a" neededAndMore).toJson) = ([], .ok (giving "a" neededAndMore)) ∧
      (∀ s name, (giving "a" needed).Reaches s name →
        (giving "a" needed).parts.AgreeAt (giving "a" neededAndMore).parts s name) ∧
      (generate {} "" (.value (giving "a" neededAndMore).toJson)).result =
        (generate {} "" (.value (giving "a" needed).toJson)).result := by
  have hload : load (.value (giving "a" needed).toJson) = ([], .ok (giving "a" needed)) := rfl
  have hload' : load (.value (giving "a" neededAndMore).toJson) =
      ([], .ok (giving "a" neededAndMore)) := rfl
  have hagree : ∀ s name, (giving "a" needed).Reaches s name →
      (giving "a" needed).parts.AgreeAt (giving "a" neededAndMore).parts s name := by
    intro s name h
    obtain ⟨rfl, rfl | rfl⟩ := reaches_needed h
    · rfl
    · rfl
  exact ⟨hload, hload', hagree, generate_result_eq {} "" hload hload' rfl rfl hagree⟩

end Client
end OpenApiClient
