/-
# Imports that are written

A file writes only those of its imports that it refers to. What it refers to is told by rules, one for
each place in which a type, an expression or a declaration can hold a name (`Ty.RefersTo`, `Expr.RefersTo`,
`Declaration.RefersTo`), and the collected names are those (`mem_identifiers_iff`, `File.mem_used_iff`).

The local names of a file are pairwise different. So a name that an import was given is bound by one
statement if the file refers to it and by none otherwise, and the statement binds what was imported under it,
as a type exactly if each import was one (`File.text_pruned`).
-/

import OpenApiClient.Module.File
import OpenApiClient.Proofs.ImportStatements

namespace OpenApiClient

namespace TypeScript

section Types

variable {n : String} {t : Ty}

/-- A type stands in another one, at any depth. -/
inductive Ty.Within (part : Ty) : Ty → Prop where
  | self : Within part part
  | argument {name : String} {args : List Ty} {t : Ty} : t ∈ args → Within part t → Within part (.named name args)
  | item {t : Ty} : Within part t → Within part (.array t)
  | key {k v : Ty} : Within part k → Within part (.record k v)
  | value {k v : Ty} : Within part v → Within part (.record k v)
  | member {ts : List Ty} {t : Ty} : t ∈ ts → Within part t → Within part (.union ts)
  | operand {ts : List Ty} {t : Ty} : t ∈ ts → Within part t → Within part (.intersection ts)
  | property {ps : List Property} {p : Property} : p ∈ ps → Within part p.type → Within part (.object ps)

/-- The name is the root of a reference in the type. -/
def Ty.RefersTo (n : String) (t : Ty) : Prop :=
  ∃ name args, (Ty.named name args).Within t ∧ Ty.root name = n

namespace Ty

theorem mem_identifiersOfAll {ts : List Ty} : n ∈ identifiersOfAll ts ↔ ∃ t ∈ ts, n ∈ t.identifiers := by
  induction ts with
  | nil => simp [identifiersOfAll]
  | cons t ts ih => simp [identifiersOfAll, ih]

theorem mem_identifiersOfMembers {ps : List Property} :
    n ∈ identifiersOfMembers ps ↔ ∃ p ∈ ps, n ∈ p.type.identifiers := by
  induction ps with
  | nil => simp [identifiersOfMembers]
  | cons p ps ih => simp [identifiersOfMembers, ih]

/-- What stands in a part is referred to. -/
theorem RefersTo.of_part {part : Ty} (h : part.RefersTo n)
    (hpart : ∀ r : Ty, r.Within part → r.Within t) : t.RefersTo n :=
  have ⟨name, args, hwithin, hroot⟩ := h
  ⟨name, args, hpart _ hwithin, hroot⟩

theorem mem_identifiers_of_within {part : Ty} (h : part.Within t) (hn : n ∈ part.identifiers) :
    n ∈ t.identifiers := by
  induction h with
  | self => exact hn
  | argument ht _ ih => exact List.mem_cons_of_mem _ (mem_identifiersOfAll.2 ⟨_, ht, ih⟩)
  | item _ ih => exact ih
  | key _ ih => exact List.mem_append_left _ ih
  | value _ ih => exact List.mem_append_right _ ih
  | member ht _ ih => exact mem_identifiersOfAll.2 ⟨_, ht, ih⟩
  | operand ht _ ih => exact mem_identifiersOfAll.2 ⟨_, ht, ih⟩
  | property hp _ ih => exact mem_identifiersOfMembers.2 ⟨_, hp, ih⟩

mutual

theorem refersTo_of_mem : ∀ {t : Ty}, n ∈ t.identifiers → t.RefersTo n
  | .basic _, h => by cases h
  | .named name args, h => by
    rcases List.mem_cons.1 h with rfl | h
    · exact ⟨name, args, .self, rfl⟩
    · obtain ⟨t, ht, hn⟩ := refersTo_of_mem_all h
      exact hn.of_part fun _ => .argument ht
  | .array t, h => (refersTo_of_mem (t := t) h).of_part fun _ => .item
  | .record k v, h => by
    rcases List.mem_append.1 h with h | h
    · exact (refersTo_of_mem h).of_part fun _ => .key
    · exact (refersTo_of_mem h).of_part fun _ => .value
  | .union ts, h => by
    obtain ⟨t, ht, hn⟩ := refersTo_of_mem_all h
    exact hn.of_part fun _ => .member ht
  | .intersection ts, h => by
    obtain ⟨t, ht, hn⟩ := refersTo_of_mem_all h
    exact hn.of_part fun _ => .operand ht
  | .literal _, h => by cases h
  | .object ps, h => by
    obtain ⟨p, hp, hn⟩ := refersTo_of_mem_members h
    exact hn.of_part fun _ => .property hp

theorem refersTo_of_mem_all : ∀ {ts : List Ty}, n ∈ identifiersOfAll ts → ∃ t ∈ ts, t.RefersTo n
  | [], h => by cases h
  | t :: ts, h => by
    rcases List.mem_append.1 h with h | h
    · exact ⟨t, List.mem_cons_self, refersTo_of_mem h⟩
    · obtain ⟨t', ht, hn⟩ := refersTo_of_mem_all h
      exact ⟨t', List.mem_cons_of_mem _ ht, hn⟩

theorem refersTo_of_mem_members :
    ∀ {ps : List Property}, n ∈ identifiersOfMembers ps → ∃ p ∈ ps, p.type.RefersTo n
  | [], h => by cases h
  | ⟨_, _, _, _, t⟩ :: ps, h => by
    rcases List.mem_append.1 h with h | h
    · exact ⟨_, List.mem_cons_self, refersTo_of_mem (t := t) h⟩
    · obtain ⟨p, hp, hn⟩ := refersTo_of_mem_members h
      exact ⟨p, List.mem_cons_of_mem _ hp, hn⟩

end

/-- **The names that are collected from a type are those it refers to.** -/
theorem mem_identifiers_iff : n ∈ t.identifiers ↔ t.RefersTo n := by
  refine ⟨refersTo_of_mem, fun ⟨name, args, hwithin, hroot⟩ => ?_⟩
  exact mem_identifiers_of_within hwithin (List.mem_cons.2 (.inl hroot.symm))

end Ty
end Types

section Expressions

variable {n : String} {x : Expr}

/-- The name is a value or a shorthand key in the expression, or its type arguments refer to it. -/
inductive Expr.RefersTo (n : String) : Expr → Prop where
  | ident : RefersTo n (.ident n)
  | callee {f ts xs} : RefersTo n f → RefersTo n (.call f ts xs)
  | callType {f ts xs} {t : Ty} : t ∈ ts → t.RefersTo n → RefersTo n (.call f ts xs)
  | callArgument {f ts xs x} : x ∈ xs → RefersTo n x → RefersTo n (.call f ts xs)
  | constructor {f ts xs} : RefersTo n f → RefersTo n (.construct f ts xs)
  | constructType {f ts xs} {t : Ty} : t ∈ ts → t.RefersTo n → RefersTo n (.construct f ts xs)
  | constructArgument {f ts xs x} : x ∈ xs → RefersTo n x → RefersTo n (.construct f ts xs)
  | object {x property} : RefersTo n x → RefersTo n (.member x property)
  | shorthand {es} : .shorthand n ∈ es → RefersTo n (.object es)
  | value {es key x} : .entry key x ∈ es → RefersTo n x → RefersTo n (.object es)
  | item {xs x} : x ∈ xs → RefersTo n x → RefersTo n (.array xs)

namespace Expr

theorem mem_identifiersOfAll {xs : List Expr} :
    n ∈ identifiersOfAll xs ↔ ∃ x ∈ xs, n ∈ x.identifiers := by
  induction xs with
  | nil => simp [identifiersOfAll]
  | cons x xs ih => simp [identifiersOfAll, ih]

theorem mem_identifiersOfEntries {es : List ObjectEntry} : n ∈ identifiersOfEntries es ↔
    .shorthand n ∈ es ∨ ∃ key x, .entry key x ∈ es ∧ n ∈ x.identifiers := by
  induction es with
  | nil => simp [identifiersOfEntries]
  | cons e es ih =>
    cases e with
    | shorthand key => simp [identifiersOfEntries, ih, or_assoc]
    | entry key x =>
      simp only [identifiersOfEntries, List.mem_append, ih, List.mem_cons, reduceCtorEq, false_or]
      aesop

theorem mem_identifiers_of_refersTo (h : x.RefersTo n) : n ∈ x.identifiers := by
  induction h with
  | ident => exact List.mem_singleton_self n
  | callee _ ih | constructor _ ih => exact List.mem_append_left _ ih
  | callType ht hn | constructType ht hn =>
    refine List.mem_append_right _ (List.mem_append_left _ ?_)
    exact Ty.mem_identifiersOfAll.2 ⟨_, ht, Ty.mem_identifiers_iff.2 hn⟩
  | callArgument hx _ ih | constructArgument hx _ ih =>
    refine List.mem_append_right _ (List.mem_append_right _ ?_)
    exact mem_identifiersOfAll.2 ⟨_, hx, ih⟩
  | object _ ih => exact ih
  | shorthand he => exact mem_identifiersOfEntries.2 (.inl he)
  | value he _ ih => exact mem_identifiersOfEntries.2 (.inr ⟨_, _, he, ih⟩)
  | item hx _ ih => exact mem_identifiersOfAll.2 ⟨_, hx, ih⟩

mutual

theorem refersTo_of_mem : ∀ {x : Expr}, n ∈ x.identifiers → x.RefersTo n
  | .ident _, h => List.mem_singleton.1 h ▸ .ident
  | .string _, h | .number _, h | .bool _, h | .undefined, h => by cases h
  | .call f ts xs, h => by
    rcases List.mem_append.1 h with h | h
    · exact .callee (refersTo_of_mem h)
    · rcases List.mem_append.1 h with h | h
      · obtain ⟨t, ht, hn⟩ := Ty.refersTo_of_mem_all h
        exact .callType ht hn
      · obtain ⟨x, hx, hn⟩ := refersTo_of_mem_all h
        exact .callArgument hx hn
  | .construct f ts xs, h => by
    rcases List.mem_append.1 h with h | h
    · exact .constructor (refersTo_of_mem h)
    · rcases List.mem_append.1 h with h | h
      · obtain ⟨t, ht, hn⟩ := Ty.refersTo_of_mem_all h
        exact .constructType ht hn
      · obtain ⟨x, hx, hn⟩ := refersTo_of_mem_all h
        exact .constructArgument hx hn
  | .member x _, h => .object (refersTo_of_mem (x := x) h)
  | .object es, h => by
    rcases refersTo_of_mem_entries h with he | ⟨key, x, he, hn⟩
    · exact .shorthand he
    · exact .value he hn
  | .array xs, h => by
    obtain ⟨x, hx, hn⟩ := refersTo_of_mem_all h
    exact .item hx hn

theorem refersTo_of_mem_all : ∀ {xs : List Expr}, n ∈ identifiersOfAll xs → ∃ x ∈ xs, x.RefersTo n
  | [], h => by cases h
  | x :: xs, h => by
    rcases List.mem_append.1 h with h | h
    · exact ⟨x, List.mem_cons_self, refersTo_of_mem h⟩
    · obtain ⟨x', hx, hn⟩ := refersTo_of_mem_all h
      exact ⟨x', List.mem_cons_of_mem _ hx, hn⟩

theorem refersTo_of_mem_entries : ∀ {es : List ObjectEntry}, n ∈ identifiersOfEntries es →
    .shorthand n ∈ es ∨ ∃ key x, .entry key x ∈ es ∧ x.RefersTo n
  | [], h => by cases h
  | .shorthand key :: es, h => by
    rcases List.mem_cons.1 h with rfl | h
    · exact .inl List.mem_cons_self
    · rcases refersTo_of_mem_entries h with he | ⟨key', x, he, hn⟩
      · exact .inl (List.mem_cons_of_mem _ he)
      · exact .inr ⟨key', x, List.mem_cons_of_mem _ he, hn⟩
  | .entry key x :: es, h => by
    rcases List.mem_append.1 h with h | h
    · exact .inr ⟨key, x, List.mem_cons_self, refersTo_of_mem h⟩
    · rcases refersTo_of_mem_entries h with he | ⟨key', x', he, hn⟩
      · exact .inl (List.mem_cons_of_mem _ he)
      · exact .inr ⟨key', x', List.mem_cons_of_mem _ he, hn⟩

end

/-- **The names that are collected from an expression are those it refers to.** -/
theorem mem_identifiers_iff : n ∈ x.identifiers ↔ x.RefersTo n :=
  ⟨refersTo_of_mem, mem_identifiers_of_refersTo⟩

end Expr
end Expressions

section Declarations

variable {n : String} {d : Declaration}

/-- The declaration refers to the name: in the type of a parameter, the result or the body of a function,
in a parent or a member of an interface, or in what an alias stands for. -/
inductive Declaration.RefersTo (n : String) : Declaration → Prop where
  | parameter {f : Function} {p} : p ∈ f.parameters → p.type.RefersTo n → RefersTo n (.function f)
  | result {f : Function} : f.result.RefersTo n → RefersTo n (.function f)
  | body {f : Function} {x} : x ∈ f.body → x.RefersTo n → RefersTo n (.function f)
  | parent {i : Interface} {t} : t ∈ i.parents → t.RefersTo n → RefersTo n (.interface i)
  | member {i : Interface} {p} : p ∈ i.members → p.type.RefersTo n → RefersTo n (.interface i)
  | aliased {a : Alias} : a.type.RefersTo n → RefersTo n (.alias a)

/-- **The names that are collected from a declaration are those it refers to.** -/
theorem Declaration.mem_identifiers_iff : n ∈ d.identifiers ↔ d.RefersTo n := by
  constructor
  · intro h
    cases d with
    | function f =>
      simp only [identifiers, List.mem_append, List.mem_flatMap, Expr.mem_identifiersOfAll] at h
      rcases h with ⟨p, hp, hn⟩ | hn | ⟨x, hx, hn⟩
      · exact .parameter hp (Ty.mem_identifiers_iff.1 hn)
      · exact .result (Ty.mem_identifiers_iff.1 hn)
      · exact .body hx (Expr.mem_identifiers_iff.1 hn)
    | interface i =>
      simp only [identifiers, List.mem_append, Ty.mem_identifiersOfAll, Ty.mem_identifiersOfMembers] at h
      rcases h with ⟨t, ht, hn⟩ | ⟨p, hp, hn⟩
      · exact .parent ht (Ty.mem_identifiers_iff.1 hn)
      · exact .member hp (Ty.mem_identifiers_iff.1 hn)
    | «alias» a => exact .aliased (Ty.mem_identifiers_iff.1 h)
    | enumeration e => cases h
  · intro h
    cases h with
    | parameter hp hn =>
      exact List.mem_append_left _ (List.mem_flatMap.2 ⟨_, hp, Ty.mem_identifiers_iff.2 hn⟩)
    | result hn =>
      exact List.mem_append_right _ (List.mem_append_left _ (Ty.mem_identifiers_iff.2 hn))
    | body hx hn =>
      refine List.mem_append_right _ (List.mem_append_right _ ?_)
      exact Expr.mem_identifiersOfAll.2 ⟨_, hx, Expr.mem_identifiers_iff.2 hn⟩
    | parent ht hn =>
      exact List.mem_append_left _ (Ty.mem_identifiersOfAll.2 ⟨_, ht, Ty.mem_identifiers_iff.2 hn⟩)
    | member hp hn =>
      exact List.mem_append_right _ (Ty.mem_identifiersOfMembers.2 ⟨_, hp, Ty.mem_identifiers_iff.2 hn⟩)
    | aliased hn => exact Ty.mem_identifiers_iff.2 hn

end Declarations
end TypeScript

namespace Module

open TypeScript

/-- The file refers to the name: in a declaration, or it exports what is bound to it. -/
inductive File.RefersTo (n : String) (f : File) : Prop where
  | declared {d : Declaration} : d ∈ f.declarations → d.RefersTo n → RefersTo n f
  | exported {name : String} : (n, name) ∈ f.bindings.exports.named → RefersTo n f
  | default : f.bindings.exports.default = some n → RefersTo n f

/-- **The names in use are those that the file refers to.** -/
theorem File.mem_used_iff {n : String} {f : File} : n ∈ f.used ↔ f.RefersTo n := by
  simp only [used, Exports.locals, List.mem_append, List.mem_flatMap, List.mem_map, Option.mem_toList,
    Declaration.mem_identifiers_iff]
  constructor
  · rintro (⟨d, hd, hn⟩ | ⟨⟨_, name⟩, he, rfl⟩ | hdefault)
    · exact .declared hd hn
    · exact .exported he
    · exact .default hdefault
  · rintro (⟨hd, hn⟩ | he | hdefault)
    · exact .inl ⟨_, hd, hn⟩
    · exact .inr (.inl ⟨_, he, rfl⟩)
    · exact .inr (.inr hdefault)

namespace Imports

variable {i : Imports}

/-- What is known of something imported is among what is imported. -/
theorem mem_bindings_of_entryOf? {s : Subject} {e : String × Binding} (h : i.entryOf? s = some e) :
    (s, e.2) ∈ i.bindings := by
  have hmem : ∀ sp, i.ofModule sp ≠ {} → ∀ b ∈ (i.ofModule sp).bindings sp, b ∈ i.bindings :=
    fun sp hne b hb => List.mem_flatMap.2 ⟨_, mem_modules_of_ne hne, hb⟩
  cases s with
  | default sp =>
    have hd : (i.ofModule sp).default = some e := h
    refine hmem sp (fun h' => by simp [h'] at hd) _ (List.mem_append_left _ ?_)
    exact List.mem_map.2 ⟨e, Option.mem_toList.2 hd, rfl⟩
  | named sp name =>
    obtain ⟨b, hb, rfl⟩ := Option.map_eq_some_iff.1 h
    have hnamed : (name, b) ∈ (i.ofModule sp).named := Entries.mem_of_at? hb
    refine hmem sp (fun h' => by simp [h'] at hnamed) _ (List.mem_append_right _ ?_)
    exact List.mem_map.2 ⟨_, hnamed, rfl⟩

/-- **With different names, an import is written once if its local name is in use, and else not.** -/
theorem filter_binds (used : List String) (hn : i.localNames.Nodup) {s : Subject} {e : String × Binding}
    (h : i.entryOf? s = some e) :
    ((i.statements used).flatMap ImportStatement.binds).filter (·.2.localName = e.2.localName) =
      if e.2.localName ∈ used then [(s, e.2)] else [] := by
  have hone : i.bindings.filter (·.2.localName = e.2.localName) = [(s, e.2)] :=
    filter_eq_singleton (g := fun p : Subject × Binding => p.2.localName) (localNames_eq i ▸ hn)
      (mem_bindings_of_entryOf? h)
  have hperm := (binds_statements i used).filter (·.2.localName = e.2.localName)
  rw [List.filter_comm, hone] at hperm
  by_cases hused : e.2.localName ∈ used
  · rw [if_pos hused]
    simpa [hused] using hperm
  · rw [if_neg hused]
    simpa [hused] using hperm

end Imports

/-- **The imports of a file are pruned exactly.** In a file with any declarations and exports whose imports
were made step by step, the text starts with the lines of import statements, if there are any, and after an
empty line goes on with the declarations and the exports. A local name that an import was given is bound by
the statements once if the file refers to it, to what was imported under it and as a type exactly if all its
imports were of the type; a name that the file does not refer to is not bound. -/
theorem File.text_pruned (path extension : String) (suffixing : Suffixing) (steps : List Bindings.Step)
    (origin : String) (exports : Exports) (declarations : List Declaration) :
    let h := History.ofSteps path extension suffixing steps
    let f : File := ⟨path, origin, { h.bindings with exports }, declarations⟩
    ∃ statements : List ImportStatement,
      f.text = "\n\n".intercalate
        ((if statements = [] then [] else ["\n".intercalate (statements.map ImportStatement.text)]) ++
          declarations.map (·.text) ++
          (if exports.lines = [] then [] else ["\n".intercalate exports.lines])) ++ "\n" ∧
      ∀ u ∈ h.uses,
        (f.RefersTo u.localName →
          (statements.flatMap ImportStatement.binds).filter (·.2.localName = u.localName) =
            [(u.subject, ⟨u.localName, (h.usesOf u.subject).all (·.isType)⟩)]) ∧
        (¬ f.RefersTo u.localName →
          (statements.flatMap ImportStatement.binds).filter (·.2.localName = u.localName) = []) := by
  intro h f
  have hh : h.Recorded := History.recorded_ofSteps path extension suffixing steps
  refine ⟨f.bindings.imports.statements f.used, ?_, fun u hu => ?_⟩
  · rw [File.text, Imports.lines_eq, File.toList_section?, File.toList_section?]
    simp only [List.map_eq_nil_iff, f]
  · obtain ⟨e, he, hname⟩ := hh.given u hu
    have hbinding : e.2 = ⟨u.localName, (h.usesOf u.subject).all (·.isType)⟩ := by
      obtain ⟨first, -, rfl⟩ := Option.map_eq_some_iff.1 ((hh.entries _).symm.trans he)
      rw [← hname]
    have hone := Imports.filter_binds f.used (List.nodup_append.1 hh.tidy.apart).1 he
    rw [hname, hbinding] at hone
    rw [← File.mem_used_iff]
    exact ⟨fun hused => hone.trans (if_pos hused), fun hunused => hone.trans (if_neg hunused)⟩

/-- The client is imported as a type and then as a value, and called with the type `Options.Init` of its
module as an argument. Nothing refers to the import of `Item`. -/
theorem File.text_pruned_call :
    let steps : List Bindings.Step :=
      [.importDefault "./client" "client" true, .importNamed "./client" "Options" true,
        .importDefault "./com/example/Item" "Item" true, .importDefault "./client" "client" false,
        .declare "load"]
    let h := History.ofSteps "Endpoint.ts" ".js" .whenTaken steps
    let call : Expr := .call (.member (.ident "client") "call") [.array (.named "Options.Init" [])] []
    let f : File := ⟨"Endpoint.ts", "backbone", { h.bindings with exports := ⟨[("load", "load")], none⟩ },
      [.function { name := "load", result := .basic .void, body := [call] }]⟩
    let client : Use := ⟨⟨.default "./client.js", "client", true⟩, "client"⟩
    let options : Use := ⟨⟨.named "./client.js" "Options", "Options", true⟩, "Options"⟩
    let item : Use := ⟨⟨.default "./com/example/Item.js", "Item", true⟩, "Item"⟩
    (client ∈ h.uses ∧ f.RefersTo "client") ∧ (options ∈ h.uses ∧ f.RefersTo "Options") ∧
      (item ∈ h.uses ∧ ¬ f.RefersTo "Item") ∧
      ∃ statements : List ImportStatement,
        (statements.flatMap ImportStatement.binds).filter (·.2.localName = "client") =
          [(.default "./client.js", ⟨"client", false⟩)] ∧
        (statements.flatMap ImportStatement.binds).filter (·.2.localName = "Options") =
          [(.named "./client.js" "Options", ⟨"Options", true⟩)] ∧
        (statements.flatMap ImportStatement.binds).filter (·.2.localName = "Item") = [] := by
  intro steps h call f client options item
  have hclient : client ∈ h.uses ∧ f.RefersTo "client" :=
    ⟨by decide +kernel, mem_used_iff.1 (by decide +kernel)⟩
  have hoptions : options ∈ h.uses ∧ f.RefersTo "Options" :=
    ⟨by decide +kernel, mem_used_iff.1 (by decide +kernel)⟩
  have hitem : item ∈ h.uses ∧ ¬ f.RefersTo "Item" :=
    ⟨by decide +kernel, fun hrefers => absurd (mem_used_iff.2 hrefers) (by decide +kernel)⟩
  obtain ⟨statements, -, hpruned⟩ := File.text_pruned "Endpoint.ts" ".js" .whenTaken steps "backbone"
    ⟨[("load", "load")], none⟩ f.declarations
  have hall : (h.usesOf client.subject).all (·.isType) = false := by decide +kernel
  have hallOptions : (h.usesOf options.subject).all (·.isType) = true := by decide +kernel
  refine ⟨hclient, hoptions, hitem, statements, ?_, ?_, (hpruned item hitem.1).2 hitem.2⟩
  · exact hall ▸ (hpruned client hclient.1).1 hclient.2
  · exact hallOptions ▸ (hpruned options hoptions.1).1 hoptions.2

end Module
end OpenApiClient
