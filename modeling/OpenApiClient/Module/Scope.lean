/-
# The names of a file

The names bound at the top of a file are pairwise different, and none is a reserved word. A name
that cannot be had gets the first free suffix: `item`, `item_1`, `item_2`. There is one for every name,
however many are taken. That suffixes run out, which they do after 4294967295 of them, is left out here:
no file has that many names.

A name is asked for with or without force; with force it always gets a suffix.
-/

import OpenApiClient.TypeScript.Identifier

namespace OpenApiClient
namespace Module

/-- How the names of imports get their suffixes. -/
inductive Suffixing where
  /-- The first to ask for a name keeps it. -/
  | whenTaken
  /-- Every name gets a suffix. -/
  | always
deriving DecidableEq, Repr

/-- A name with a suffix. -/
def suffixed (name : String) (n : Nat) : String := name ++ "_" ++ toString n

/-- The first suffixed name from `n` on that is not taken, looked for among `tries` names; a name
not looked at is held to be free. -/
def freeSuffix (taken : List String) (name : String) (n : Nat) : (tries : Nat) → String
  | 0 => suffixed name n
  | tries + 1 =>
    if suffixed name n ∈ taken then freeSuffix taken name (n + 1) tries else suffixed name n

/-- The names bound at the top of a file, in the order in which they were bound. -/
structure Scope where
  taken : List String := []
deriving DecidableEq, Repr

namespace Scope

/-- Whether the name is bound. -/
def isTaken (s : Scope) (name : String) : Bool := name ∈ s.taken

/-- The name that asking for `name` gives: of as many suffixes as there are names taken, and one
more, one is free. -/
def available (s : Scope) (name : String) (force : Bool) : String :=
  if !force && !TypeScript.isReserved name && !s.isTaken name then name
  else freeSuffix s.taken name 1 s.taken.length

/-- The scope with a name bound, and the name that was given. -/
def bind (s : Scope) (name : String) (force : Bool) : String × Scope :=
  let given := s.available name force
  (given, ⟨s.taken ++ [given]⟩)

/-- The scope with names bound one after another, and the names that were given. -/
def bindAll (s : Scope) : List String → List String × Scope
  | [] => ([], s)
  | name :: names =>
    let (given, s) := s.bind name false
    let (more, s) := bindAll s names
    (given :: more, s)

end Scope

end Module
end OpenApiClient
