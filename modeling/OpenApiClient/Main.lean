/-
# The program

Runs a command in the working directory. The files that the command reads are read one after
another, as it turns out that it looks for them; what it writes is written when it is done.
-/

import OpenApiClient.CommandLine.Report

namespace OpenApiClient
namespace CommandLine

/-- How many files a run may look for. -/
def fileLimit : Nat := 100000

/-- The files that a run with the arguments looks for, as far as they are there. -/
def gather (arguments : List String) (start : Files) : IO Files := do
  let mut files := start
  let mut tried := []
  for _ in [0:fileLimit] do
    let some path := (run files arguments).missing.find? (!tried.contains ·) | return files
    tried := path :: tried
    try
      let content ← IO.FS.readFile path
      if let .ok more := files.write path content then files := more
    catch _ => pure ()
  return files

/-- What a run changed is written. -/
def writeChanges (before after : Files) : IO Unit := do
  for (place, content) in before.changes after do
    IO.FS.createDirAll (Place.path place.dropLast)
    IO.FS.writeFile place.path content

end CommandLine
end OpenApiClient

open OpenApiClient OpenApiClient.CommandLine in
/-- The program with its arguments. -/
def main (arguments : List String) : IO UInt32 := do
  let base := toString (← IO.currentDir)
  let files ← gather arguments (.ofEntries base [])
  let report := run files arguments
  writeChanges files report.files
  IO.print report.stdout
  IO.eprint report.stderr
  return report.code.toUInt32
