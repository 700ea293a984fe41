/-
# String literals and property keys

A string literal stands between double quotes. The quote, the backslash, line feeds, carriage
returns and tabs are escaped by a backslash; every other character stands for itself.
-/

import OpenApiClient.TypeScript.Identifier

namespace OpenApiClient
namespace TypeScript

/-- A character as it stands in a string literal. -/
def quoteChar (c : Char) : List Char :=
  if c = '"' then ['\\', '"']
  else if c = '\\' then ['\\', '\\']
  else if c = '\n' then ['\\', 'n']
  else if c = '\r' then ['\\', 'r']
  else if c = '\t' then ['\\', 't']
  else [c]

/-- The characters of the string literal of a text. -/
def quoteChars (cs : List Char) : List Char := '"' :: (cs.flatMap quoteChar ++ ['"'])

/-- The string literal of a text. -/
def quote (s : String) : String := .ofList (quoteChars s.toList)

/-- The key of a property: bare where it is an identifier, a string literal elsewhere. -/
def propertyKey (name : String) : String := if isIdentifier name then name else quote name

end TypeScript
end OpenApiClient
