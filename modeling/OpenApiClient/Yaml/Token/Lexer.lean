/-
# Reading tokens

Indentation opens and closes blocks: an entry or a key that stands further right than the block
around it opens one, and a token further left closes those that it leaves. In flow style there are
no blocks.

A key need not be marked. Every token that could be one is remembered, one for each level of flow
style, as long as it stands on the current line and no more than 1024 bytes back; a colon then
puts the mark of a key in front of it. Where a key is the only thing that can stand, one that no
colon follows is an error.
-/

import OpenApiClient.Yaml.Token
import OpenApiClient.Yaml.Token.Scalar

namespace OpenApiClient
namespace Yaml

/-- A token that is a key if a colon follows. -/
structure PossibleKey where
  /-- How many tokens stand before it. -/
  position : Nat
  /-- Whether nothing but a key can stand here. -/
  isRequired : Bool
  line : Nat
  column : Nat
  offset : Nat
deriving DecidableEq, Repr

/-- The state of reading tokens. -/
structure Lexer where
  input : Input
  /-- The tokens so far. -/
  tokens : Array Token := #[]
  /-- The indentation of the innermost block; `-1` outside of all blocks. -/
  indent : Int := -1
  /-- The indentations of the blocks around it. -/
  outer : List Int := []
  /-- The possible key of each level of flow style, innermost first, and last the one of no
  level. -/
  keys : List (Option PossibleKey) := [none]
  /-- Whether a key can start here. -/
  keyAllowed : Bool := true
deriving Repr

namespace Lexer

/-- Whether the lexer is inside a collection of flow style. -/
def inFlow (s : Lexer) : Bool := !(s.keys.drop 1).isEmpty

/-- The state with one more token. -/
def push (s : Lexer) (t : Token) : Lexer := { s with tokens := s.tokens.push t }

/-- The state after some characters. -/
def drop (s : Lexer) (n : Nat) : Lexer := { s with input := s.input.after n }

/-- A mark of the byte order, which may start any line between tokens. -/
def byteOrderMark : Char := '\ufeff'

/-- The input from the next token on, and whether a key can start there. A tab is no blank where a
key can start, outside of flow style. -/
def gapFrom (flow : Bool) (keyAllowed inComment : Bool) : Input → Input × Bool
  | [] => ([], keyAllowed)
  | g :: rest =>
    if isBreak g.char then gapFrom flow (!flow || keyAllowed) false rest
    else if inComment then
      if g.char == endChar then (g :: rest, keyAllowed) else gapFrom flow keyAllowed true rest
    else if g.char == ' ' || (g.char == '\t' && (flow || !keyAllowed)) then
      gapFrom flow keyAllowed false rest
    else if g.char == byteOrderMark && g.column == 0 then gapFrom flow keyAllowed false rest
    else if g.char == '#' then gapFrom flow keyAllowed true rest
    else (g :: rest, keyAllowed)

/-- The state at the next token. -/
def skipGap (s : Lexer) : Lexer :=
  let (input, keyAllowed) := gapFrom s.inFlow s.keyAllowed false s.input
  { s with input, keyAllowed }

/-- Whether a possible key has become impossible at a place. -/
def isStale (i : Input) (k : PossibleKey) : Bool :=
  k.line < i.line || k.offset + 1024 < i.offset

/-- The state without keys that have become impossible. -/
def dropStale? (s : Lexer) : Option Lexer :=
  if !s.keys.any (·.any (isStale s.input)) then some s
  else if s.keys.any fun k => k.any fun k => isStale s.input k && k.isRequired then none
  else some { s with keys := s.keys.map (·.filter (!isStale s.input ·)) }

/-- The state without the possible key of this level. -/
def dropKey? (s : Lexer) : Option Lexer :=
  match s.keys with
  | some k :: keys => if k.isRequired then none else some { s with keys := none :: keys }
  | _ => some s

/-- The state with the next token as a possible key. -/
def saveKey? (s : Lexer) : Option Lexer :=
  if s.keyAllowed then do
    let s ← s.dropKey?
    let k : PossibleKey :=
      { position := s.tokens.size, isRequired := !s.inFlow && s.indent == (s.input.column : Int),
        line := s.input.line, column := s.input.column, offset := s.input.offset }
    return { s with keys := some k :: s.keys.drop 1 }
  else some s

/-- The state with blocks closed as long as they stand further right than a column, where the
blocks around the innermost one are given. -/
def closeFrom (column : Int) (s : Lexer) : (outer : List Int) → Lexer
  | [] => s
  | indent :: outer =>
    if s.indent > column then
      closeFrom column { s.push .blockEnd with indent, outer } outer
    else s

/-- The state with the blocks closed that stand further right than a column. -/
def close (s : Lexer) (column : Int) : Lexer :=
  if s.inFlow then s else closeFrom column s s.outer

/-- The state with a token put in front of the last tokens. -/
def insert (s : Lexer) (position : Nat) (t : Token) : Lexer :=
  { s with tokens := s.tokens.insertIdxIfInBounds position t }

/-- The state with a block opened by a token, if a column stands further right than the block
around it. -/
def openAt (s : Lexer) (column position : Nat) (t : Token) : Lexer :=
  if !s.inFlow && s.indent < (column : Int) then
    let outer := s.indent :: s.outer
    { s.insert position t with indent := column, outer }
  else s

/-- The state with a block opened at the next character. -/
def openHere (s : Lexer) (t : Token) : Lexer := s.openAt s.input.column s.tokens.size t

/-- A number of at most nine digits, and what follows it. -/
def number? (i : Input) : Option (Nat × Input) :=
  let (digits, rest) := i.spanChars Char.isDigit
  if digits.isEmpty || digits.length > 9 then none
  else some (digits.foldl (fun m c => m * 10 + (c.toNat - '0'.toNat)) 0, rest)

/-- The handle of a tag: an exclamation mark, or a name between two; `whole` asks for one that can
be given a meaning. -/
def tagHandle? (whole : Bool) (i : Input) : Option (List Char × Input) :=
  if i.head == '!' then
    let (name, rest) := (i.after 1).spanChars isNameChar
    if rest.head == '!' then some ('!' :: name ++ ['!'], rest.after 1)
    else if whole && !name.isEmpty then none
    else some ('!' :: name, rest)
  else none

/-- Whether the rest of a tag may hold the character; `full` allows indicators of flow style. -/
def isTagChar (full : Bool) (c : Char) : Bool :=
  isNameChar c || c ∈ ";/?:@&=+$.%!~*'()".toList || (full && (c == ',' || c == '[' || c == ']'))

/-- The number of bytes of the character that starts with a byte. -/
def encodedLength? (byte : Nat) : Option Nat :=
  if byte < 0x80 then some 1
  else if 0xC0 ≤ byte ∧ byte < 0xE0 then some 2
  else if 0xE0 ≤ byte ∧ byte < 0xF0 then some 3
  else if 0xF0 ≤ byte ∧ byte < 0xF8 then some 4
  else none

/-- The bytes of characters of a tag, escapes read; `pending` is the number of bytes that an escaped
character still needs. -/
def tagBytes? (pending : Nat) : List Char → Option (List UInt8)
  | '%' :: a :: b :: cs => do
    let byte := (← hexDigit? a) * 16 + (← hexDigit? b)
    let length ←
      if pending = 0 then encodedLength? byte
      else if 0x80 ≤ byte ∧ byte < 0xC0 then some pending
      else none
    (tagBytes? (length - 1) cs).map (byte.toUInt8 :: ·)
  | '%' :: _ => none
  | c :: cs => if pending ≠ 0 then none else (tagBytes? 0 cs).map (c.toNat.toUInt8 :: ·)
  | [] => if pending ≠ 0 then none else some []

/-- The rest of a tag after a start that was read already. -/
def tagRest? (full : Bool) (start : List Char) (i : Input) : Option (Tag × Input) := do
  let (text, rest) := i.spanChars (isTagChar full)
  if start.isEmpty && text.isEmpty then none
  else return (.ofBytes ((← tagBytes? 0 (start.drop 1)) ++ (← tagBytes? 0 text)), rest)

/-- A directive after its first character. -/
def directive? (i : Input) : Option (Token × Input) := do
  let (name, i) := i.spanChars isNameChar
  if !isWordEnd i.head then none
  else if name == "YAML".toList then do
    let (major, i) ← number? (i.dropChars isBlank)
    if i.head != '.' then none
    else
      let (minor, i) ← number? (i.after 1)
      return (.version major minor, ← i.endLine?)
  else if name == "TAG".toList then do
    let (handle, i) ← tagHandle? true (i.dropChars isBlank)
    if !isBlank i.head then none
    else
      let (start, i) ← tagRest? true [] (i.dropChars isBlank)
      if !isWordEnd i.head then none
      else return (.handle (.ofList handle) start, ← i.endLine?)
  else none

/-- A name of an anchor after its indicator. -/
def anchorName? (i : Input) : Option (String × Input) :=
  let (name, rest) := i.spanChars isNameChar
  if name.isEmpty || !(isWordEnd rest.head || rest.head ∈ "?:,]\x7d%@`".toList) then none
  else some (.ofList name, rest)

/-- A tag without a look at what ends it. -/
def tagBody? (i : Input) : Option (Token × Input) :=
  if i.charAt 1 == '<' then do
    let (tag, rest) ← tagRest? true [] (i.after 2)
    if rest.head == '>' then return (.tag "" tag, rest.after 1) else none
  else do
    let (handle, rest) ← tagHandle? false i
    if handle.length > 1 && handle.getLast? == some '!' then
      let (tag, rest) ← tagRest? false [] rest
      return (.tag (.ofList handle) tag, rest)
    else
      let (tag, rest) ← tagRest? false handle rest
      return (if tag.isEmpty then .tag "" .mark else .tag "!" tag, rest)

/-- A tag. -/
def tag? (flow : Bool) (i : Input) : Option (Token × Input) := do
  let (t, rest) ← tagBody? i
  if isWordEnd rest.head || (flow && rest.head == ',') then return (t, rest) else none

/-- A token for the start of a collection of flow style. -/
def flowStart? (s : Lexer) (t : Token) : Option Lexer := do
  let s ← s.saveKey?
  let keys := none :: s.keys
  return { (s.push t).drop 1 with keys, keyAllowed := true }

/-- A token for the end of a collection of flow style. -/
def flowEnd? (s : Lexer) (t : Token) : Option Lexer := do
  let s ← s.dropKey?
  let keys := if s.inFlow then s.keys.drop 1 else s.keys
  return { (s.push t).drop 1 with keys, keyAllowed := false }

/-- A comma between the items of a collection of flow style. -/
def flowEntry? (s : Lexer) : Option Lexer := do
  let s ← s.dropKey?
  return { (s.push .flowEntry).drop 1 with keyAllowed := true }

/-- A dash in front of an item of a block. -/
def blockEntry? (s : Lexer) : Option Lexer :=
  if !s.inFlow && !s.keyAllowed then none
  else do
    let s ← (s.openHere .blockSequenceStart).dropKey?
    return { (s.push .blockEntry).drop 1 with keyAllowed := true }

/-- A question mark in front of a key. -/
def key? (s : Lexer) : Option Lexer :=
  if !s.inFlow && !s.keyAllowed then none
  else do
    let s ← (s.openHere .blockMappingStart).dropKey?
    let keyAllowed := !s.inFlow
    return { (s.push .key).drop 1 with keyAllowed }

/-- A colon in front of a value: what stands before it is a key if it can be one. -/
def value? (s : Lexer) : Option Lexer :=
  match s.keys with
  | some k :: keys =>
    let s := (s.insert k.position .key).openAt k.column k.position .blockMappingStart
    some { (s.push .value).drop 1 with keys := none :: keys, keyAllowed := false }
  | _ =>
    if !s.inFlow && !s.keyAllowed then none
    else
      let s := s.openHere .blockMappingStart
      let keyAllowed := !s.inFlow
      some { (s.push .value).drop 1 with keyAllowed }

/-- A token that can be a key, read by `read`. -/
def keyToken? (s : Lexer) (read : Input → Option (Token × Input)) : Option Lexer := do
  let s ← s.saveKey?
  let (t, input) ← read s.input
  return { s.push t with input, keyAllowed := false }

/-- A token between documents, of some characters. -/
def documentToken? (s : Lexer) (read : Input → Option (Token × Input)) : Option Lexer := do
  let s ← (s.close (-1)).dropKey?
  let (t, input) ← read s.input
  return { s.push t with input, keyAllowed := false }

/-- A block scalar. -/
def blockScalar? (s : Lexer) (literal : Bool) : Option Lexer := do
  let s ← s.dropKey?
  let (text, input) ← blockText literal s.indent (s.input.drop 1)
  let t := Token.scalar (.ofList text) (if literal then .literal else .other)
  return { s.push t with input, keyAllowed := true }

/-- A plain scalar. A key can start after it if it ends with its line. -/
def plainScalar? (s : Lexer) : Option Lexer := do
  let s ← s.saveKey?
  let (text, broken, input) ← plainText s.inFlow (s.indent + 1) .none [] s.input
  return { s.push (.scalar (.ofList text) .plain) with input, keyAllowed := broken }

/-- Whether a plain scalar can start with a character, by its own or by the one after it. -/
def startsPlain (flow : Bool) (c next : Char) : Bool :=
  !(isWordEnd c || c ∈ "-?:,[]\x7b\x7d#&*!|>'\"%@`".toList) ||
    (c == '-' && !isBlank next) || (!flow && (c == '?' || c == ':') && !isWordEnd next)

/-- The state after the token that starts here. -/
def token? (s : Lexer) : Option Lexer :=
  let c := s.input.head
  let next := s.input.charAt 1
  let flow := s.inFlow
  if c == '%' && s.input.column == 0 then s.documentToken? fun i => directive? (i.after 1)
  else if s.input.startsLine ['-', '-', '-'] then
    s.documentToken? fun i => some (.documentStart, i.after 3)
  else if s.input.startsLine ['.', '.', '.'] then
    s.documentToken? fun i => some (.documentEnd, i.after 3)
  else if c == '[' then s.flowStart? .flowSequenceStart
  else if c == '\x7b' then s.flowStart? .flowMappingStart
  else if c == ']' then s.flowEnd? .flowSequenceEnd
  else if c == '\x7d' then s.flowEnd? .flowMappingEnd
  else if c == ',' then s.flowEntry?
  else if c == '-' && isWordEnd next then s.blockEntry?
  else if c == '?' && (flow || isWordEnd next) then s.key?
  else if c == ':' && (flow || isWordEnd next) then s.value?
  else if c == '*' then
    s.keyToken? fun i => (anchorName? (i.after 1)).map fun (n, r) => (.alias n, r)
  else if c == '&' then
    s.keyToken? fun i => (anchorName? (i.after 1)).map fun (n, r) => (.anchor n, r)
  else if c == '!' then s.keyToken? (tag? flow)
  else if c == '|' && !flow then s.blockScalar? true
  else if c == '>' && !flow then s.blockScalar? false
  else if c == '\'' then
    s.keyToken? fun i => (singleQuoted .none [] (i.after 1)).map fun (text, r) =>
      (.scalar (.ofList text) .other, r)
  else if c == '"' then
    s.keyToken? fun i => (doubleQuoted none .none [] (i.after 1)).map fun (text, r) =>
      (.scalar (.ofList text) .other, r)
  else if startsPlain flow c next then s.plainScalar?
  else none

/-- The state after all tokens. Each step reads at least one character; the fuel bounds them. -/
def run? : (fuel : Nat) → Lexer → Option Lexer
  | 0, _ => none
  | fuel + 1, s => do
    let s ← s.skipGap.dropStale?
    let s := s.close s.input.column
    if s.input.head == endChar then (s.close (-1)).dropKey? else run? fuel (← s.token?)

end Lexer

/-- The tokens of a text. -/
def tokens? (text : String) : Option (List Token) := do
  let input ← Input.ofText? text
  let s ← Lexer.run? (input.length + 1) { input }
  return s.tokens.toList

end Yaml
end OpenApiClient
