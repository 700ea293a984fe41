/-
# Nodes of YAML

A document is a tree of nodes, which may carry a tag and the name of an anchor; an alias stands for
a node with an anchor. `Node.ofTokens?` reads the only document of a text from its tokens, by
recursive descent. A node that is missing where one could stand is an empty plain scalar.

The fuel of the descent bounds the tokens that are left, counting the places between them where a
node may be missing.
-/

import OpenApiClient.Entries
import OpenApiClient.Yaml.Token

namespace OpenApiClient
namespace Yaml

/-- A node. -/
inductive Node where
  | scalar (anchor : Option String) (value : Atom)
  | sequence (anchor : Option String) (tag : Option Tag) (items : List Node)
  | mapping (anchor : Option String) (tag : Option Tag) (entries : List (Node × Node))
  | alias (name : String)

namespace Node

/-- The node that stands where nothing is written. -/
def empty : Node := .scalar none { text := "" }

/-- The short forms for tags. -/
abbrev Handles := Entries Tag

/-- The short forms that need no directive. -/
def coreHandles : Handles := [("!", .mark), ("!!", .core "")]

/-- Anchor and tag of a node. -/
structure Properties where
  anchor : Option String := none
  tag : Option Tag := none
deriving DecidableEq, Repr

/-- A tag in full. -/
def fullTag? (handles : Handles) (handle : String) (rest : Tag) : Option Tag :=
  if handle.isEmpty then some rest else (handles.at? handle).map (· ++ rest)

/-- Anchor and tag in front of a node, in any order. -/
def properties? (handles : Handles) : List Token → Option (Properties × List Token)
  | .anchor a :: .tag h t :: ts => (fullTag? handles h t).map fun tag => (⟨some a, some tag⟩, ts)
  | .tag h t :: .anchor a :: ts => (fullTag? handles h t).map fun tag => (⟨some a, some tag⟩, ts)
  | .anchor a :: ts => some (⟨some a, none⟩, ts)
  | .tag h t :: ts => (fullTag? handles h t).map fun tag => (⟨none, some tag⟩, ts)
  | ts => some ({}, ts)

/-- Whether no item follows in a block sequence. -/
def endsItem : List Token → Bool
  | .blockEntry :: _ => true
  | .blockEnd :: _ => true
  | _ => false

/-- Whether no item follows in a sequence that stands at the indentation of its key. -/
def endsFlatItem : List Token → Bool
  | .blockEntry :: _ => true
  | .key :: _ => true
  | .value :: _ => true
  | .blockEnd :: _ => true
  | _ => false

/-- Whether no key or value follows in a block mapping. -/
def endsEntry : List Token → Bool
  | .key :: _ => true
  | .value :: _ => true
  | .blockEnd :: _ => true
  | _ => false

/-- Whether no key follows in a mapping of flow style that is closed by a token. -/
def endsFlowKey (closing : Token) : List Token → Bool
  | .value :: _ => true
  | .flowEntry :: _ => true
  | t :: _ => t == closing
  | _ => false

/-- Whether no value follows in a mapping of flow style that is closed by a token. -/
def endsFlowValue (closing : Token) : List Token → Bool
  | .flowEntry :: _ => true
  | t :: _ => t == closing
  | _ => false

/-- A node of which nothing but properties are written. -/
def bareNode? (p : Properties) (ts : List Token) : Option (Node × List Token) :=
  if p.anchor.isSome || p.tag.isSome then some (.scalar p.anchor { text := "", tag := p.tag }, ts)
  else none

section Descent

variable (handles : Handles)

mutual

/-- A node: `block` allows blocks, `flat` a sequence without an indentation of its own. -/
def node? : (fuel : Nat) → (block flat : Bool) → List Token → Option (Node × List Token)
  | 0, _, _, _ => none
  | fuel + 1, block, flat, ts => match ts with
    | .alias name :: ts => some (.alias name, ts)
    | ts => do
      let (p, ts) ← properties? handles ts
      match ts with
      | .scalar text style :: ts => some (.scalar p.anchor { text, style, tag := p.tag }, ts)
      | .flowSequenceStart :: ts =>
        (flowItems? fuel true ts).map fun (xs, ts) => (.sequence p.anchor p.tag xs, ts)
      | .flowMappingStart :: ts =>
        (flowEntries? fuel true ts).map fun (es, ts) => (.mapping p.anchor p.tag es, ts)
      | .blockEntry :: ts =>
        if flat then (flatItems? fuel (.blockEntry :: ts)).map fun (xs, ts) =>
          (.sequence p.anchor p.tag xs, ts)
        else bareNode? p (.blockEntry :: ts)
      | .blockSequenceStart :: ts =>
        if block then (blockItems? fuel ts).map fun (xs, ts) => (.sequence p.anchor p.tag xs, ts)
        else bareNode? p (.blockSequenceStart :: ts)
      | .blockMappingStart :: ts =>
        if block then (blockEntries? fuel ts).map fun (es, ts) => (.mapping p.anchor p.tag es, ts)
        else bareNode? p (.blockMappingStart :: ts)
      | ts => bareNode? p ts

/-- The items of a block sequence up to its end. -/
def blockItems? : (fuel : Nat) → List Token → Option (List Node × List Token)
  | 0, _ => none
  | fuel + 1, ts => match ts with
    | .blockEnd :: ts => some ([], ts)
    | .blockEntry :: ts => do
      let (x, ts) ← if endsItem ts then some (empty, ts) else node? fuel true false ts
      let (xs, ts) ← blockItems? fuel ts
      return (x :: xs, ts)
    | _ => none

/-- The items of a sequence that stands at the indentation of its key. -/
def flatItems? : (fuel : Nat) → List Token → Option (List Node × List Token)
  | 0, _ => none
  | fuel + 1, ts => match ts with
    | .blockEntry :: ts => do
      let (x, ts) ← if endsFlatItem ts then some (empty, ts) else node? fuel true false ts
      let (xs, ts) ← flatItems? fuel ts
      return (x :: xs, ts)
    | ts => some ([], ts)

/-- The entries of a block mapping up to its end. -/
def blockEntries? : (fuel : Nat) → List Token → Option (List (Node × Node) × List Token)
  | 0, _ => none
  | fuel + 1, ts => match ts with
    | .blockEnd :: ts => some ([], ts)
    | .key :: ts => do
      let (k, ts) ← if endsEntry ts then some (empty, ts) else node? fuel true true ts
      let (v, ts) ← match ts with
        | .value :: ts => if endsEntry ts then some (empty, ts) else node? fuel true true ts
        | ts => some (empty, ts)
      let (es, ts) ← blockEntries? fuel ts
      return ((k, v) :: es, ts)
    | _ => none

/-- The value of an entry in flow style, in a collection that is closed by a token. -/
def flowValue? : (fuel : Nat) → (closing : Token) → List Token → Option (Node × List Token)
  | 0, _, _ => none
  | fuel + 1, closing, ts => match ts with
    | .value :: ts =>
      if endsFlowValue closing ts then some (empty, ts) else node? fuel false false ts
    | ts => some (empty, ts)

/-- An item of a sequence in flow style; an entry is a mapping of its own. A missing key takes the
next token with it. -/
def flowItem? : (fuel : Nat) → List Token → Option (Node × List Token)
  | 0, _ => none
  | fuel + 1, ts => match ts with
    | .key :: ts => do
      let (k, ts) ←
        if endsFlowKey .flowSequenceEnd ts then some (empty, ts.drop 1)
        else node? fuel false false ts
      let (v, ts) ← flowValue? fuel .flowSequenceEnd ts
      return (.mapping none none [(k, v)], ts)
    | ts => node? fuel false false ts

/-- The items of a sequence in flow style up to its end. -/
def flowItems? : (fuel : Nat) → (isFirst : Bool) → List Token → Option (List Node × List Token)
  | 0, _, _ => none
  | fuel + 1, isFirst, ts => match ts with
    | .flowSequenceEnd :: ts => some ([], ts)
    | ts => do
      let ts ← if isFirst then some ts else match ts with
        | .flowEntry :: ts => some ts
        | _ => none
      match ts with
      | .flowSequenceEnd :: ts => return ([], ts)
      | ts => do
        let (x, ts) ← flowItem? fuel ts
        let (xs, ts) ← flowItems? fuel false ts
        return (x :: xs, ts)

/-- The entries of a mapping in flow style up to its end. -/
def flowEntries? : (fuel : Nat) → (isFirst : Bool) → List Token →
    Option (List (Node × Node) × List Token)
  | 0, _, _ => none
  | fuel + 1, isFirst, ts => match ts with
    | .flowMappingEnd :: ts => some ([], ts)
    | ts => do
      let ts ← if isFirst then some ts else match ts with
        | .flowEntry :: ts => some ts
        | _ => none
      match ts with
      | .flowMappingEnd :: ts => return ([], ts)
      | .key :: ts => do
        let (k, ts) ←
          if endsFlowKey .flowMappingEnd ts then some (empty, ts) else node? fuel false false ts
        let (v, ts) ← flowValue? fuel .flowMappingEnd ts
        let (es, ts) ← flowEntries? fuel false ts
        return ((k, v) :: es, ts)
      | ts => do
        let (k, ts) ← node? fuel false false ts
        let (es, ts) ← flowEntries? fuel false ts
        return ((k, empty) :: es, ts)

end

end Descent

/-- The short forms that directives give, and what follows them. A version must be 1.1 or 1.2 and
is said once; a form is given once. -/
def directives? (versioned : Bool) (handles : Handles) : List Token → Option (Handles × List Token)
  | .version major minor :: ts =>
    if versioned || major != 1 || !(minor == 1 || minor == 2) then none
    else directives? true handles ts
  | .handle name start :: ts =>
    if handles.has name then none else directives? versioned (handles.put name start) ts
  | ts => some (handles, ts)

/-- Whether a document has no content. -/
def isBlank : List Token → Bool
  | [] => true
  | .version _ _ :: _ => true
  | .handle _ _ :: _ => true
  | .documentStart :: _ => true
  | .documentEnd :: _ => true
  | _ => false

/-- The content of a document whose start is marked. -/
def marked? (fuel : Nat) (ts : List Token) : Option (Node × List Token) :=
  match directives? false [] ts with
  | some (handles, .documentStart :: ts) =>
    if isBlank ts then some (empty, ts) else node? (handles ++ coreHandles) fuel true false ts
  | _ => none

/-- Whether the start of a document is marked. -/
def isMarked : List Token → Bool
  | .version _ _ :: _ => true
  | .handle _ _ :: _ => true
  | .documentStart :: _ => true
  | _ => false

/-- The only document of a text. -/
def ofTokens? (ts : List Token) : Option Node :=
  if ts.isEmpty then some empty
  else
    let fuel := 3 * ts.length + 3
    (if isMarked ts then marked? fuel ts else node? coreHandles fuel true false ts).bind
      fun (n, rest) => if (rest.dropWhile (· == .documentEnd)).isEmpty then some n else none

end Node

end Yaml
end OpenApiClient
