import SoarProject.Session.Basic

/-!
# Opening databases

A session opens the database of an address and creates the tables that are missing there. If that
fails, the session keeps the database it had, while a file keeps the tables that were created. A
file is shared by all sessions that open it; a database in memory ends when the session closes it or
opens another one, unless it is shared too. The session ends its old connection only once it has the
new one.
-/

namespace SoarProject

namespace Connection

/-- Open the store at an address and create the tables that a registry calls for. Gives the files
afterwards, and the connection unless that failed. -/
def establish (registry : Registry) (address : Address) (disk : Disk) :
    Disk × Except Failure Connection :=
  let created (store : Store) := store.createAll registry address.isWritable
  let result (failure : Option StorageError) (c : Connection) : Except Failure Connection :=
    failure.elim (.ok c) fun e => .error (.storage e)
  match address.place with
  | .memory =>
    let (store, failure) := created {}
    (disk, result failure (.memory store))
  | .shared name =>
    let (store, failure) := created (disk.sharedStore name)
    let disk := disk.share name store
    (if failure.isSome then disk.release name else disk, result failure (.shared name))
  | .file name =>
    if address.mustExist && (disk.contents? name).isNone then
      (disk, .error (.storage .cannotOpen))
    else
      match disk.store? name with
      | none => (disk, .error (.storage .notADatabase))
      | some store =>
        let (store, failure) := created store
        let disk :=
          if address.isWritable then disk.write name (.store store)
          else if (disk.contents? name).isNone then disk.write name (.text "")
          else disk
        (disk, result failure (.file name))

end Connection

namespace Session

/-- Turn to the database of an address. Gives also why that failed, if it did. -/
def turnTo (s : Session) (url : String) : Session × Except Failure Unit :=
  match Address.ofUrl url with
  | .error e => (s, .error e)
  | .ok address =>
    match Connection.establish s.registry address s.disk with
    | (disk, .error e) => ({ s with disk }, .error e)
    | (disk, .ok connection) =>
      ({ { s with disk }.disconnect with url, connection, isWritable := address.isWritable }, .ok ())

/-- A new session on the database of an address; the empty address stands for the default one. Gives
also why it has none open, if that failed. -/
def start (registry : Registry) (url : String) (disk : Disk) : Session × Except Failure Unit :=
  let s : Session := { registry, disk }
  match registry.unusableColumn? with
  | some e => (s, .error (.storage e))
  | none => s.turnTo (if url = "" then Address.defaultUrl else url)

/-- Whether the database outlives the session. -/
def isSavedToDisk (s : Session) : Bool := !Address.isInMemory s.url

/-- The names of all relations that the registry calls for. -/
def relationNames (s : Session) : List String := s.registry.layout.map (·.1.text)

end Session

namespace Change

/-- Turn to the database of an address. -/
def load (url : String) : Change Unit := do
  let (s, result) := (← get).turnTo url
  set s
  ofExcept result
  announce .databasePathChanged

/-- Close the database. -/
def close : Change Unit := modify (·.disconnect)

/-- Create the tables that are missing. -/
def createTables : Change Unit := do
  let (store, failure) := (← Query.store).createAll (← Query.registry) (← get).isWritable
  modify (·.setStore store)
  failure.forM fun e => throw (.storage e)

end Change

end SoarProject
