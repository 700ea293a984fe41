/-
# Log lines

What a run tells about its course, line by line.
-/

namespace OpenApiClient
namespace Client

/-- How much a line matters. -/
inductive Level where
  | info
  | debug
deriving DecidableEq, Repr

/-- The name of a level. -/
def Level.name : Level → String
  | .info => "INFO"
  | .debug => "DEBUG"

/-- A line of the log. -/
structure LogLine where
  level : Level
  /-- The part of the program that the line is from. -/
  target : String
  message : String
deriving DecidableEq, Repr

end Client
end OpenApiClient
