/-
# Empty values on every graph

Components may hold, inherit and wrap each other in circles. The walk that builds the empty value of one
of them still ends: it enters no component that it is in, so it is never deeper than there are components
that it has not entered (`exists_walk`). What is below that depth is never asked for, be it
a computation that fails or one that never ends. In a valid document the walk finds a value, whatever the
types of the client and wherever it starts, and is then in the components that it was in before.

A name that no component has is the only thing that the walk fails on, and no valid document has one.
-/

import OpenApiClient.Proofs.Generation
import OpenApiClient.Proofs.Irrelevance
import OpenApiClient.TypeScript.Printer

namespace OpenApiClient
namespace Client

open OpenApi TypeScript

section Walks

variable {c : Components} (hc : c.Valid) (transfers : Entries TransferTarget)
include hc

/-- **The walk finds a plain value** and goes no deeper than there are components that it is not in: with
enough depth, what it would do below changes nothing. -/
theorem exists_walk {component : String} (h : c.Leads component) (v : List String) :
    ∃ e : Expr, e.IsPlain ∧ ∀ depth, unvisited c v < depth → ∀ deeper : String → Visiting Expr,
      ((enterComponent c transfers)^[depth] deeper component).run.run v = (.ok e, v) := by
  -- One walk is compared with all others.
  let fuel := unvisited c v + 1
  have hsettles := emptyValue_settles hc transfers fuel component h v
  have hwalk : ∀ depth, unvisited c v < depth → ∀ deeper, Visiting.Alike v
      (emptyValue c transfers fuel component) ((enterComponent c transfers)^[depth] deeper component) := by
    intro depth hdepth deeper
    rw [emptyValue_eq_iterate]
    exact walk_alike hc c.extends_refl _ _ fuel depth component v h (Nat.lt_succ_self _) hdepth
  obtain ⟨e, he, -⟩ := hwalk fuel (Nat.lt_succ_self _) fun _ => pure .undefined
  refine ⟨e, (hsettles.result he).2, fun depth hdepth deeper => ?_⟩
  obtain ⟨e', he', hrun⟩ := hwalk depth hdepth deeper
  rw [he] at he'
  obtain ⟨hee', -⟩ := Prod.mk.inj he'
  rw [hrun, Except.ok.inj hee']

end Walks

/-- **Empty values exist on every graph.**  In a valid document the walk from a component ends, whatever
the types of the client and whatever components `v` it is in already; it finds an expression of literals,
`undefined`, arrays and objects, and is in the components `v` again. Its depth is bounded by the components
that it is not in: with more fuel the value is the same, and so it is with any computation below. -/
theorem exists_emptyValue {d : Document} (hd : d.validate = .ok ()) (transfers : Entries TransferTarget)
    {component : String} (h : component ∈ d.parts.schemas.keys) (v : List String) :
    ∃ e : Expr, e.IsPlain ∧ ∀ depth, unvisited d.parts v < depth →
      (emptyValue d.parts transfers depth component).run.run v = (.ok e, v) ∧
        ∀ deeper : String → Visiting Expr,
          ((enterComponent d.parts transfers)^[depth] deeper component).run.run v = (.ok e, v) := by
  have hv := (Document.valid_of_validate hd).parts
  obtain ⟨entry, hentry, rfl⟩ := List.mem_map.1 h
  obtain ⟨e, hplain, hwalk⟩ := exists_walk hv transfers (hv.leads entry hentry) v
  refine ⟨e, hplain, fun depth hdepth => ⟨?_, hwalk depth hdepth⟩⟩
  rw [emptyValue_eq_iterate]
  exact hwalk depth hdepth _

/-- Nodes that hold the next one and an owner, which is a node. -/
def nodesDocument : Json := operationsDocument [("/E/get", refTo "Node")] [
  ("Node", .object [
    ("properties", .object [("next", refTo "Node"), ("owner", refTo "Owner")]),
    ("required", .array [.string "next", .string "owner"])]),
  ("Owner", .object [
    ("allOf", .array [refTo "Node"]),
    ("properties", .object [("name", .object [("type", .string "string")])]),
    ("required", .array [.string "name"])])]

/-- The empty value of a component that holds itself, and that what it holds inherits from. -/
theorem exists_emptyValue_node :
    ∃ d e, Document.ofJson nodesDocument = .ok d ∧ d.validate = .ok () ∧ "Node" ∈ d.parts.schemas.keys ∧
      e.IsPlain ∧ e.text = "\x7b next: undefined, owner: \x7b name: \"\" \x7d \x7d" ∧
      ∀ deeper : String → Visiting Expr,
        ((enterComponent d.parts [])^[3] deeper "Node").run.run [] = (.ok e, []) := by
  have hrun := exists_of_runOf? nodesDocument {} [] (fun d _ =>
    decide (d.parts.schemas.keys = ["Node", "Owner"]) &&
      decide ((emptyValue d.parts [] 3 "Node").run.run [] |>.1.toOption.map Expr.text =
        some "\x7b next: undefined, owner: \x7b name: \"\" \x7d \x7d")) (by decide +kernel)
  obtain ⟨d, r, hd, hvalid, -, htest⟩ := hrun
  obtain ⟨hkeys, htext⟩ := Bool.and_eq_true_iff.1 htest
  have hkeys := of_decide_eq_true hkeys
  have hmem : "Node" ∈ d.parts.schemas.keys := by simp [hkeys]
  obtain ⟨e, hplain, hwalk⟩ := exists_emptyValue hvalid [] hmem []
  have hunvisited : unvisited d.parts [] < 3 := by simp [unvisited, hkeys]
  obtain ⟨hvalue, hdeeper⟩ := hwalk 3 hunvisited
  rw [hvalue] at htext
  exact ⟨d, e, hd, hvalid, hmem, hplain, Option.some.inj (of_decide_eq_true htext), hdeeper⟩

end Client
end OpenApiClient
