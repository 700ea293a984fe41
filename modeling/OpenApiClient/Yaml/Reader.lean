/-
# Reading YAML text

The nodes of a text become a tree once its aliases are replaced by what they stand for. Anchors are
numbered by how many names of anchors are known; an alias has the number that its name has where it
stands, and of the nodes with a number the last one counts. So a name that comes again gives a
number to a node that a later name may take over.

Collections at a depth of more than 128 are unreadable, and so is whatever needs more replacements
than a hundred for each event of the text. Parts that are not read need none, so there a node may
even hold an alias for itself. A collection with a local tag is kept under it.
-/

import OpenApiClient.Source.Extent
import OpenApiClient.Yaml.Node
import OpenApiClient.Yaml.Token.Lexer

namespace OpenApiClient
namespace Yaml

/-- A node whose aliases refer to numbers. -/
inductive Numbered where
  | scalar (value : Atom)
  | sequence (tag : Option Tag) (items : List Numbered)
  | mapping (tag : Option Tag) (entries : List (Numbered × Numbered))
  | alias (number : Nat)

instance : Inhabited Numbered := ⟨.alias 0⟩

/-- What is known of the anchors so far. -/
structure Anchors where
  /-- The numbers of names. -/
  numbers : Entries Nat := []
  /-- How many nodes had an anchor. -/
  count : Nat := 0
  /-- Which of those nodes a number stands for, last first. -/
  targets : List (Nat × Nat) := []
  /-- The nodes that had an anchor, by their place among those. -/
  nodes : List (Nat × Numbered) := []

namespace Anchors

/-- The anchors with one more, and its place. -/
def enter (s : Anchors) : Option String → Option Nat × Anchors
  | none => (none, s)
  | some name =>
    let n := s.numbers.length
    (some s.count, { s with
      numbers := s.numbers.put name n, count := s.count + 1, targets := (n, s.count) :: s.targets })

/-- The anchors with the node at a place. -/
def leave (s : Anchors) (place : Option Nat) (node : Numbered) : Anchors :=
  match place with
  | none => s
  | some i => { s with nodes := (i, node) :: s.nodes }

/-- The node that a number stands for. -/
def node? (s : Anchors) (number : Nat) : Option Numbered :=
  (s.targets.lookup number).bind fun i => s.nodes.lookup i

end Anchors

namespace Node

mutual

/-- The node with numbers for its aliases; each must have been given before. -/
def number? (s : Anchors) : Node → Option (Numbered × Anchors)
  | .alias name => (s.numbers.at? name).map fun n => (.alias n, s)
  | .scalar anchor a =>
    let (place, s) := s.enter anchor
    some (.scalar a, s.leave place (.scalar a))
  | .sequence anchor tag items =>
    let (place, s) := s.enter anchor
    (numberItems? s items).map fun (xs, s) =>
      (.sequence tag xs, s.leave place (.sequence tag xs))
  | .mapping anchor tag entries =>
    let (place, s) := s.enter anchor
    (numberEntries? s entries).map fun (es, s) =>
      (.mapping tag es, s.leave place (.mapping tag es))

/-- The items with numbers for their aliases. -/
def numberItems? (s : Anchors) : List Node → Option (List Numbered × Anchors)
  | [] => some ([], s)
  | x :: xs => match number? s x with
    | none => none
    | some (y, s) => (numberItems? s xs).map fun (ys, s) => (y :: ys, s)

/-- The entries with numbers for their aliases. -/
def numberEntries? (s : Anchors) : List (Node × Node) →
    Option (List (Numbered × Numbered) × Anchors)
  | [] => some ([], s)
  | e :: es => match number? s e.1 with
    | none => none
    | some (k, s) => match number? s e.2 with
      | none => none
      | some (v, s) => (numberEntries? s es).map fun (rest, s) => ((k, v) :: rest, s)

/-- The number of events that the node gives. -/
def events : Node → Nat
  | .alias _ => 1
  | .scalar _ _ => 1
  | .sequence _ _ items => eventsOfItems items + 2
  | .mapping _ _ entries => eventsOfEntries entries + 2

/-- The number of events that the items give. -/
def eventsOfItems : List Node → Nat
  | [] => 0
  | x :: xs => events x + eventsOfItems xs

/-- The number of events that the entries give. -/
def eventsOfEntries : List (Node × Node) → Nat
  | [] => 0
  | e :: es => events e.1 + events e.2 + eventsOfEntries es

end

end Node

namespace Numbered

/-- A collection with its tag. -/
def withTag (tag : Option Tag) (t : Tree Atom) : Tree Atom :=
  if (tag.bind (·.name?)).isSome then .tagged t else t

/-- The node that a node stands for; the state is how many more aliases may be replaced. -/
def target? (anchors : Anchors) : Numbered → StateM Nat (Option Numbered)
  | .alias n => do
    if (← get) = 0 then return none
    modify (· - 1)
    return anchors.node? n
  | x => return some x

/-- The tree of the parts of a node that are read, at most as deep as there is fuel. -/
def tree (anchors : Anchors) : (fuel : Nat) → Extent → Numbered → StateM Nat (Tree Atom)
  | 0, _, x => do
    match ← target? anchors x with
    | some (.scalar a) => return .leaf a
    | _ => return .unreadable
  | fuel + 1, extent, x => do
    match ← target? anchors x with
    | some (.scalar a) => return .leaf a
    | some (.sequence tag items) =>
      return withTag tag (.sequence (← items.mapM (tree anchors fuel .whole)))
    | some (.mapping tag entries) =>
      return withTag tag (.mapping (← entries.mapM fun (k, v) => do
        let k ← tree anchors fuel .whole k
        match extent.under? k.text? with
        | some part => return (k, ← tree anchors fuel part v)
        | none => return (k, .unreadable)))
    | _ => return .unreadable

end Numbered

/-- The greatest depth of collections that are read. -/
def depthLimit : Nat := 128

/-- The tree of the parts of a text that are read. -/
def read? (extent : Extent) (text : String) : Option (Tree Atom) := do
  let node ← Node.ofTokens? (← tokens? text)
  let (numbered, anchors) ← node.number? {}
  let (t, _) := (numbered.tree anchors depthLimit extent).run (node.events * 100)
  return t

end Yaml
end OpenApiClient
