/-
# Documentation comments

The text of a documentation comment is trimmed; every line of it stands behind a star, without the
blanks at its end. What would close the comment is written with a backslash in between. A text of
blanks has no comment.
-/

import OpenApiClient.Text.Blank
import OpenApiClient.Text.Split

namespace OpenApiClient
namespace TypeScript

/-- A line of text as it stands in a comment. -/
def commentLine (line : List Char) : List Char :=
  Text.replacePair '*' '/' ['*', '\\', '/'] (Text.trimEnd line)

/-- A line of a comment: a star, and the text after a blank if there is any. -/
def starredLine (indent line : List Char) : List Char :=
  let text := commentLine line
  indent ++ ([' ', '*'] ++ ((if text.isEmpty then [] else ' ' :: text) ++ ['\n']))

/-- The characters of the comment with a text, every line indented. -/
def commentChars (doc : Option String) (indent : List Char) : List Char :=
  match doc with
  | none => []
  | some doc =>
    let text := Text.trim doc.toList
    if text.isEmpty then []
    else
      indent ++ ("/**\n".toList ++ ((Text.lines text).flatMap (starredLine indent) ++
        (indent ++ " */\n".toList)))

/-- The comment with a text, every line indented; empty when there is nothing to say. -/
def comment (doc : Option String) (indent : String) : String :=
  .ofList (commentChars doc indent.toList)

end TypeScript
end OpenApiClient
