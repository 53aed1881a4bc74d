import SoarProject.CommandLine.Run

/-!
# The program

Runs one command. Source files are read from the working directory, and a database in a file is kept
there as its dump.
-/

namespace SoarProject.Program

/-- The contents of a file, if it can be read. -/
def contentsOf (name : String) : IO (Option String) :=
  try
    return some (← IO.FS.readFile name)
  catch _ =>
    return none

/-- What a file holds: a database, if its text is a dump. -/
def fileContents (text : String) : FileContents :=
  if text.startsWith "CREATE TABLE" then
    match Store.ofDump text with
    | .ok store => .store store
    | .error _ => .text text
  else .text text

/-- The files that the arguments name. -/
def diskOf (arguments : List String) : IO Disk := do
  let mut disk : Disk := {}
  for argument in arguments do
    let name := (CommandLine.Arguments.splitValue argument).2.getD argument
    let file := match Address.ofUrl name with
      | .ok { place := .file file, .. } => file
      | _ => name
    if let some text ← contentsOf file then
      disk := disk.write file (fileContents text)
  return disk

/-- Write the databases that stand in files. -/
def keepDatabases (disk : Disk) : IO Unit :=
  for (name, contents) in disk.files do
    if let .store store := contents then
      if let .ok text := store.dump .project then
        IO.FS.writeFile name text

end SoarProject.Program

open SoarProject Program

/-- Run the command that the arguments name. -/
def main (arguments : List String) : IO UInt32 := do
  let (outcome, disk) := CommandLine.run (← diskOf arguments) arguments
  IO.print outcome.output
  IO.eprint outcome.errors
  if let some failure := outcome.failure then
    IO.eprintln (failure.message?.getD "The command failed.")
  keepDatabases disk
  return outcome.exitCode.toUInt32
