/-
# Import specifiers

A module is known by its identity: `./com/example/Account` is a module below the output root,
anything else that does not start with `../` is a package. A file imports a module of the output
by the way from its own directory, with the extension that files are imported with.
-/

import OpenApiClient.Text.Split

namespace OpenApiClient
namespace Module

/-- Where imports are written: the directory of the importing file below the output root, and the
extension that specifiers end with. -/
structure Site where
  directory : List String
  extension : String
deriving DecidableEq, Repr

namespace Site

/-- The site of a file. -/
def ofFile (path extension : String) : Site :=
  ⟨((Text.segmentsOf (· == '/') path).filter (· != ".")).dropLast, extension⟩

/-- The length of the longest common start of two paths. -/
def shared : List String → List String → Nat
  | a :: as, b :: bs => if a = b then shared as bs + 1 else 0
  | _, _ => 0

/-- The segments of the way from the site to a file below the output root. -/
def way (s : Site) (directory : List String) (file : String) : List String :=
  let common := shared s.directory directory
  let ups := s.directory.length - common
  (if ups = 0 then ["."] else List.replicate ups "..") ++ directory.drop common ++ [file]

/-- A specifier with the extension, which is not written twice. -/
def extended (s : Site) (specifier : String) : String :=
  if s.extension.isEmpty || Text.endsWith s.extension specifier then specifier
  else specifier ++ s.extension

/-- The specifier by which a file at the site imports a module. -/
def specifier (s : Site) (module : String) : String :=
  match Text.dropStart? "./" module with
  | some path =>
    let target := Text.segmentsOf (· == '/') path
    s.extended ("/".intercalate (s.way target.dropLast (target.getLast?.getD "")))
  | none => if Text.startsWith "../" module then s.extended module else module

end Site

/-- Whether a specifier starts at the importing file. -/
def isRelative (specifier : String) : Bool :=
  Text.startsWith "./" specifier || Text.startsWith "../" specifier

end Module
end OpenApiClient
