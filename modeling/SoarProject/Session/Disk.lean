import SoarProject.Store.Basic

/-!
# Files

The files of the working directory, which has no directories below it. A file holds a text or the
store of a database; an empty text does for an empty store. Beside them stand the stores in memory
that several connections share. Such a store ends with its last connection.
-/

namespace SoarProject

/-- What a file holds. -/
inductive FileContents where
  /-- A text. -/
  | text (s : String)
  /-- The store of a database. -/
  | store (store : Store)

/-- A store in memory that connections share. -/
structure SharedStore where
  /-- The store. -/
  store : Store
  /-- The number of its connections. -/
  connections : Nat

/-- The files by their names, and the shared stores by theirs. -/
structure Disk where
  /-- The files. -/
  files : List (String × FileContents) := []
  /-- The shared stores. -/
  shared : List (String × SharedStore) := []

/-- What a path leads to. -/
inductive PathTarget where
  /-- Nothing that exists. -/
  | missing
  /-- A place in the working directory where there is no file. -/
  | vacant (name : String)
  /-- The working directory, or one that is `above` levels up. -/
  | directory (above : Nat)
  /-- A file of the working directory. -/
  | file (name : String) (contents : FileContents)
  /-- Something below a file. -/
  | misplaced
  /-- Something with too long a name. -/
  | unnameable

/-- The number of bytes that the name of a file may have. -/
def maxNameBytes : Nat := 255

namespace Disk

/-! ### Files -/

/-- What a file holds, if there is one of that name. -/
def contents? (disk : Disk) (file : String) : Option FileContents := disk.files.lookup file

/-- The store in a file; empty if there is no such file, and none if the file holds something else. -/
def store? (disk : Disk) (file : String) : Option Store :=
  match disk.contents? file with
  | none => some {}
  | some (.store store) => some store
  | some (.text s) => if s = "" then some {} else none

/-- Replace what a file holds. -/
def write (disk : Disk) (file : String) (contents : FileContents) : Disk :=
  { disk with files := (file, contents) :: disk.files.filter (·.1 != file) }

/-- One step of a path. Nothing is known of directories elsewhere but those above them. -/
def step (disk : Disk) : PathTarget → String → PathTarget
  | .directory above, name =>
    if name = "" ∨ name = "." then .directory above
    else if name = ".." then .directory (above + 1)
    else if above ≠ 0 then .missing
    else if maxNameBytes < name.utf8ByteSize then .unnameable
    else (disk.contents? name).elim (.vacant name) (.file name)
  | .file .., _ => .misplaced
  | .vacant _, _ => .missing
  | target, _ => target

/-- What some steps lead to, from the working directory or from the topmost one. -/
def walk (disk : Disk) (path : String) (steps : List String) : PathTarget :=
  steps.foldl disk.step (.directory (if path.startsWith "/" then 1 else 0))

/-- What a path leads to. -/
def follow (disk : Disk) (path : String) : PathTarget :=
  if path = "" then .missing else disk.walk path (path.splitOn "/")

/-- What a path leads to if steps that lead nowhere are left out, also those at its end. -/
def locate (disk : Disk) (path : String) : PathTarget :=
  disk.walk path ((path.splitOn "/").filter fun step => step ≠ "" ∧ step ≠ ".")

/-- What is wrong with a path that should lead to a file. -/
def wrongPath : PathTarget → Failure
  | .directory _ => .isDirectory
  | .misplaced => .notDirectory
  | .unnameable => .nameTooLong
  | _ => .noSuchFile

/-- Write a text to a file. Its path must lead to a file or to a place for one. -/
def writeText (disk : Disk) (path text : String) : Except Failure Disk :=
  if path.contains '\x00' then .error .nulInPath
  else
    match disk.locate path with
    | .vacant name | .file name _ => .ok (disk.write name (.text text))
    | target => .error (wrongPath target)

/-- The text in a file. -/
def readText (disk : Disk) (path : String) : Except Failure String :=
  match disk.locate path with
  | .file _ (.text text) => .ok text
  | .file _ (.store _) => .error .notText
  | target => .error (wrongPath target)

/-! ### Shared stores -/

/-- The shared store of a name; empty if it has no connection. -/
def sharedStore (disk : Disk) (name : String) : Store :=
  (disk.shared.lookup name).elim {} (·.store)

/-- Replace what a shared store with some connections holds. -/
def putShared (disk : Disk) (name : String) (shared : SharedStore) : Disk :=
  { disk with shared := (name, shared) :: disk.shared.filter (·.1 != name) }

/-- The number of connections to a shared store. -/
def connections (disk : Disk) (name : String) : Nat :=
  (disk.shared.lookup name).elim 0 (·.connections)

/-- Replace what a shared store holds. -/
def writeShared (disk : Disk) (name : String) (store : Store) : Disk :=
  disk.putShared name ⟨store, disk.connections name⟩

/-- Add a connection to a shared store, which then holds this. -/
def share (disk : Disk) (name : String) (store : Store) : Disk :=
  disk.putShared name ⟨store, disk.connections name + 1⟩

/-- End a connection to a shared store. -/
def release (disk : Disk) (name : String) : Disk :=
  if disk.connections name ≤ 1 then { disk with shared := disk.shared.filter (·.1 != name) }
  else disk.putShared name ⟨disk.sharedStore name, disk.connections name - 1⟩

end Disk

end SoarProject
