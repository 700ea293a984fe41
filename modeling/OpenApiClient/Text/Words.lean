/-
# Words and camel case

An identifier is cut into words at every character that is not alphanumeric, and inside a piece
where its case says so:

* after a small letter that a capital follows (`fooBar` is `foo`, `Bar`);
* before the last capital of a row of capitals that a small letter follows (`XMLHttp` is `XML`,
  `Http`).

Characters without case take the case of what precedes them in the word. Words are then written
together: each with a capital first letter (`pascal`), or the first one in small letters (`camel`).
A capital sigma at the end of a word has the small form `ς`.
-/

import OpenApiClient.Text.Letter
import OpenApiClient.Text.Split

namespace OpenApiClient
namespace Text

/-- The case of the last cased character of a word so far. -/
inductive Casing where
  | none
  | small
  | capital
deriving DecidableEq, Repr

/-- The case after one more character. -/
def Casing.next (k : Casing) (c : Char) : Casing :=
  if isSmall c then .small else if isCapital c then .capital else k

/-- The words of a piece, given the case and the characters (last first) of the word so far. -/
def cut (k : Casing) (word : List Char) : List Char → List (List Char)
  | [] => []
  | [c] => [(c :: word).reverse]
  | c :: d :: rest =>
    if k.next c = .small ∧ isCapital d then (c :: word).reverse :: cut .none [] (d :: rest)
    else if k = .capital ∧ isCapital c ∧ isSmall d then word.reverse :: cut .none [c] (d :: rest)
    else cut (k.next c) (c :: word) (d :: rest)

/-- The words of a text. -/
def words (cs : List Char) : List (List Char) :=
  (split (!isAlphanumeric ·) cs).flatMap (cut .none [])

/-- A word in small letters. -/
def smallWord : List Char → List Char
  | [] => []
  | ['Σ'] => ['ς']
  | c :: cs => small c ++ smallWord cs

/-- A word with a capital first letter and small letters after it. -/
def titleWord : List Char → List Char
  | [] => []
  | c :: cs => capital c ++ smallWord cs

/-- The words of a text written together, each with a capital first letter. -/
def pascal (cs : List Char) : List Char := (words cs).flatMap titleWord

/-- The words of a text written together, all but the first with a capital first letter. -/
def camel (cs : List Char) : List Char :=
  match words cs with
  | [] => []
  | w :: ws => smallWord w ++ ws.flatMap titleWord

end Text
end OpenApiClient
