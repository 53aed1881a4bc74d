import SoarProject.Event.Emitter
import SoarProject.Session.Address
import SoarProject.Session.Disk
import SoarProject.Store.Layout

/-!
# Sessions

A session is one handle on a database: the registry it follows, the store it has open, and the
events it announced. A `Query` looks at a session; a `Change` may also alter it, and a change that
fails keeps what it did before.

Every statement that changes records announces one event, unless events are suppressed.
`Change.batch` announces a single event for all the statements of a change.
-/

namespace SoarProject

/-- The store that a session has open. -/
inductive Connection where
  /-- None. -/
  | closed
  /-- A store in memory, which ends with the connection. -/
  | memory (store : Store)
  /-- A store in memory that is shared under a name. -/
  | shared (name : String)
  /-- The store in a file. -/
  | file (name : String)

/-- A handle on a database. -/
structure Session where
  /-- How the tables relate. -/
  registry : Registry
  /-- The address of the store that was opened last. -/
  url : String := ""
  /-- The store that is open. -/
  connection : Connection := .closed
  /-- Whether the open store may be changed. -/
  isWritable : Bool := true
  /-- The files of the working directory. -/
  disk : Disk := {}
  /-- Whether events are suppressed. -/
  suppressed : Bool := false
  /-- The events announced so far. -/
  events : List EventKind := []

namespace Session

/-- The open store. -/
def store (s : Session) : Except Failure Store :=
  match s.connection with
  | .closed => .error .closed
  | .memory store => .ok store
  | .shared name => .ok (s.disk.sharedStore name)
  | .file name =>
    match s.disk.store? name with
    | some store => .ok store
    | none => .error (.storage .notADatabase)

/-- Replace the contents of the open store. -/
def setStore (s : Session) (store : Store) : Session :=
  match s.connection with
  | .closed => s
  | .memory _ => { s with connection := .memory store }
  | .shared name => { s with disk := s.disk.writeShared name store }
  | .file name => { s with disk := s.disk.write name (.store store) }

/-- End the connection. -/
def disconnect (s : Session) : Session :=
  match s.connection with
  | .shared name => { s with connection := .closed, disk := s.disk.release name }
  | _ => { s with connection := .closed }

/-- Announce an event, unless events are suppressed. -/
def announce (s : Session) (event : EventKind) : Session :=
  if s.suppressed then s else { s with events := s.events ++ [event] }

/-- The number of records and pairs in the open store. -/
def size (s : Session) : Nat := s.store.toOption.elim 0 Store.size

end Session

/-- A look at a session. -/
abbrev Query (α : Type) := ReaderT Session (Except Failure) α

/-- Something that may alter a session. When it fails, the session keeps what was done before. -/
abbrev Change (α : Type) := ExceptT Failure (StateM Session) α

instance : MonadLift Query Change where
  monadLift q := ExceptT.mk fun s => (q.run s, s)

namespace Query

variable {α : Type}

/-- The registry that the session follows. -/
def registry : Query Registry := return (← read).registry

/-- The open store. -/
def store : Query Store := fun s => s.store

/-- The text in a source file. -/
def sourceText (path : String) : Query String := fun s => s.disk.readText path

/-- Ask the open store. -/
def ask (f : Store → Except Failure α) : Query α := do
  f (← store)

/-- A look that gives `default` where the store reports an error. -/
def orDefault (q : Query α) (default : α) : Query α := fun s =>
  match q s with
  | .error (.storage _) => .ok default
  | result => result

end Query

namespace Change

variable {α : Type}

/-- A result that does not depend on the session. -/
def ofExcept (r : Except Failure α) : Change α := ExceptT.mk (pure r)

/-- Announce an event. -/
def announce (event : EventKind) : Change Unit := modify (·.announce event)

/-- Replace the contents of the open store, if the result `writes`. A store that is only read refuses
this, unless it fails before anything would be written. -/
def alter (f : Store → Except Failure (Store × α)) (writes : α → Bool) : Change α := do
  let result := f (← Query.store)
  if !(← get).isWritable && (match result with
    | .error e => e.isConflict
    | .ok (_, a) => writes a) then
    throw (.storage .readOnly)
  let (store, a) ← ofExcept result
  modify (·.setStore store)
  return a

/-- Replace the contents of the open store and announce that. -/
def mutate (f : Store → Except Failure (Store × α)) : Change α := do
  let a ← alter f fun _ => true
  announce .databaseChanged
  return a

/-- Write a text to a file. -/
def writeText (path text : String) : Change Unit := do
  let disk ← ofExcept ((← get).disk.writeText path text)
  modify ({ · with disk })

/-- Suppress events, or end that. -/
def setSuppressed (on : Bool) : Change Unit := modify ({ · with suppressed := on })

/-- A change without events. Whether events are suppressed afterwards is as it was before. -/
def suppressing (c : Change α) : Change α := ExceptT.mk fun s =>
  let (result, after) := c.run { s with suppressed := true }
  (result, { after with suppressed := s.suppressed })

/-- A change that announces one event at its end, if it succeeds. -/
def batch (event : EventKind) (c : Change α) : Change α := do
  let a ← suppressing c
  announce event
  return a

end Change

end SoarProject
