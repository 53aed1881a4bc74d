import SoarProject.Session.Disk
import SoarProject.Session.Location

/-!
# Addresses of databases

Where a database stands: in memory, new each time it is opened, or in a file of the working
directory. An address is written `sqlite://`, followed by a slash and a path for a file. A location in
place of the path may share a database in memory, or ask for reading only.
-/

namespace SoarProject

/-- Where a database stands. -/
inductive Place where
  /-- In memory. -/
  | memory
  /-- In memory, shared under a name. -/
  | shared (name : String)
  /-- In a file. -/
  | file (name : String)
  deriving DecidableEq

/-- The address of a database. -/
structure Address where
  /-- Where it stands. -/
  place : Place
  /-- Whether it may be changed. -/
  isWritable : Bool := true
  /-- Whether its file must be there already. -/
  mustExist : Bool := false
  deriving DecidableEq

namespace Address

/-- The address of a database that nobody chose a place for. -/
def defaultUrl : String := "sqlite://"

/-- Whether an address is one of the two usual ones in memory. -/
def isInMemory (url : String) : Bool := url == "sqlite://" || url == "sqlite:///:memory:"

/-- The path of a database in memory. -/
def memoryPath : String := ":memory:"

/-- The steps of a path; a step up takes back the one before it. -/
def pathSteps (path : String) : List String :=
  (path.splitOn "/").foldl (fun steps step =>
    if step = "" ∨ step = "." then steps
    else if step = ".." ∧ ¬ steps.isEmpty then steps.dropLast
    else steps ++ [step]) []

/-- What a store adds to the name of its file to name the file of its journal. -/
def journalSuffix : String := "-journal"

/-- The file that a path names. There are no directories below the working directory, and the name of
the journal must not be too long either. -/
def fileOf (path : String) : Except Failure Place :=
  if path.startsWith "/" then .error (.storage .cannotOpen)
  else
    match pathSteps path with
    | [name] =>
      if name = ".." ∨ maxNameBytes < (name ++ journalSuffix).utf8ByteSize then
        .error (.storage .cannotOpen)
      else .ok (.file name)
    | _ => .error (.storage .cannotOpen)

/-- The place that a path names. -/
def ofPath (path : String) : Except Failure Place :=
  if path = "" ∨ path = memoryPath then .ok .memory else fileOf path

/-- Where a location that is opened in some way lies. -/
def placeOf (l : Location) (o : Opening) : Except Failure Place :=
  if l.path = "" then .ok .memory
  else if o.system = Location.memorySystem then
    .ok (if l.path.startsWith "/" then .shared (Location.memorySystem ++ l.path) else .memory)
  else if o.mode = "memory" ∨ l.path = memoryPath then
    .ok (if o.isShared then .shared l.path else .memory)
  else fileOf l.path

/-- The address of a location. -/
def ofLocation (l : Location) : Except Failure Address := do
  let o ← l.opening.mapError Failure.storage
  let place ← placeOf l o
  let isFile := place matches .file _
  return {
    place
    isWritable := o.mode ≠ "ro" && !(isFile && l.isImmutable)
    mustExist := isFile && (o.mode = "ro" || o.mode = "rw") }

/-- The address that a path or a location names. -/
def ofName (isLocation : Bool) (name : String) : Except Failure Address := do
  if name.contains '\x00' then throw .nulInPath
  if isLocation && Location.scheme.isPrefixOf name.toList then
    ofLocation (← (Location.ofText (name.toList.drop Location.scheme.length)).mapError .storage)
  else return { place := ← ofPath name }

/-- The kinds of databases that there are. -/
def kinds : List String := ["sqlite", "sqlite+pysqlite", "sqlite+base"]

/-- The kinds of databases that are known but lack their driver. -/
def driverlessKinds : List String :=
  ["sqlite+aiosqlite", "sqlite+pysqlcipher"] ++
    [("postgresql", ["psycopg2", "psycopg", "asyncpg", "pg8000"]),
      ("mysql", ["mysqldb", "pymysql", "mysqlconnector", "aiomysql", "asyncmy", "cymysql", "pyodbc",
        "mariadbconnector"]),
      ("mariadb", ["mysqldb", "pymysql", "mysqlconnector", "aiomysql", "asyncmy", "cymysql", "pyodbc",
        "mariadbconnector"]),
      ("oracle", ["cx_oracle", "oracledb"]),
      ("mssql", ["pyodbc", "pymssql", "aioodbc"])].flatMap fun (kind, drivers) =>
        kind :: ("base" :: drivers).map (kind ++ "+" ++ ·)

/-- Read an address. The kind of database must exist, it stands on no other host, and its settings are
well formed. No extension can be asked for. -/
def ofUrl (url : String) : Except Failure Address := do
  let u ← Url.ofText url
  (u.valuesOf "plugin").head?.forM fun name => throw (.storage (.unknownExtension name))
  if u.kind.toList.count '+' > 1 then throw .severalDrivers
  if driverlessKinds.contains u.kind then throw .noDriver
  if !kinds.contains u.kind then
    throw (.storage (.unknownKind (u.kind.map fun c => if c = '+' then '.' else c)))
  if u.namesHost then throw (.storage (.hostInUrl u.text))
  if !(← u.checkSettings) then ofName false (u.database.getD "")
  else
    match u.location? with
    | some location => ofName true location
    | none => throw .noLocation

end Address

end SoarProject
