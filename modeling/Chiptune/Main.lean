import Chiptune.CommandLine

/-!
# The program

Reads the files that the arguments name, and carries out the plan of the run.
-/

set_option autoImplicit false

open Chiptune

namespace Chiptune.Program

/-- Contents of a file, `none` if it cannot be read. -/
def readFile (path : Option String) : IO (Option (List UInt8)) := do
  match path with
  | none => return none
  | some path =>
    try
      let data ← IO.FS.readBinFile path
      return some data.toList
    catch _ => return none

/-- Write a file. The answer says whether this was possible. -/
def writeFile (path : String) (data : List UInt8) : IO Bool := do
  try
    IO.FS.writeBinFile path ⟨data.toArray⟩
    return true
  catch _ => return false

/-- Run with given arguments. -/
def run (a : CommandLine.Arguments) : IO UInt32 := do
  if a.listExpansions then
    IO.print CommandLine.expansionList
    return 0
  let optionFile ← readFile a.optionFile
  let projectFile ← readFile a.input
  let result ←
    match CommandLine.plan a optionFile projectFile with
    | .ok steps =>
      CommandLine.perform writeFile (fun message => IO.eprintln ("Warning: " ++ message)) steps
    | .error e => pure (.error e)
  match result with
  | .ok () => return 0
  | .error e =>
    IO.eprintln ("Error: " ++ e.message)
    return e.exitCode

end Chiptune.Program

def main (args : List String) : IO UInt32 := do
  match CommandLine.parse args with
  | .ok a => Program.run a
  | .error .version =>
    IO.print CommandLine.versionLine
    return 0
  | .error .help =>
    IO.print CommandLine.usageText
    return 0
  | .error .usage =>
    IO.eprint CommandLine.usageText
    return 2
