import SoarProject.Archive.Dump
import SoarProject.Session.Opening
import SoarProject.Statement.Execution
import SoarProject.Statement.Split

/-!
# Restoring and copying databases

Restoring carries out the statements of a dump; what was done before a statement that fails stays. A
database is copied by restoring its dump at another address, after the records there were removed.
-/

namespace SoarProject.Change

/-- Carry out the statements of a text; gives their number. -/
def restore (text : String) : Change Nat := do
  let statements := Statement.splitStatements text
  batch .databasePathChanged (statements.forM execute)
  return statements.length

/-- Remove every record, relation by relation, without an event. -/
def clear : Change Unit := do
  let tables := (← Query.registry).dumpTables
  suppressing (tables.reverse.forM fun d =>
    mutate fun store => return (← store.clear d.name, ()))

/-- Copy the database to an address and turn to the copy. -/
def saveAs (url : String) : Change Unit := do
  let text ← Query.dump
  suppressing do
    load url
    clear
  let _ ← restore text

end SoarProject.Change

namespace SoarProject.Store

/-- The store that a dump builds. -/
def ofDump (text : String) : Except Failure Store :=
  match (Change.restore text).run { registry := {}, connection := .memory {} } with
  | (.ok _, after) => after.store
  | (.error e, _) => .error e

/-- The dump of a store that follows a registry. -/
def dump (store : Store) (registry : Registry) : Except Failure String :=
  Query.dump.run { registry, connection := .memory store }

end SoarProject.Store
