import SoarProject.Schema.Registry
import SoarProject.Store.Cell
import SoarProject.Store.Identifier

/-!
# Stores

A store is a set of relations. An entity relation keeps the records of one table, each with an id
and cells, in ascending order of ids. A join relation keeps pairs of cells, each pair once, in the
order in which they came; they are looked at in ascending order. Only statements can put anything but
ids into pairs. A relation may be missing, because it was never created or was dropped; every operation
on it then fails.

The names in a statement are looked up without regard to case: `Store.named` finds a relation and
`Relation.resolve?` a column. An index is a name with the columns of a relation. Only statements that
ask for no order show that it is there.

The operations are pure: they give the new store, or the reason why nothing was done.
-/

namespace SoarProject

/-- The name of a relation. -/
inductive RelationName where
  /-- The records of a table. -/
  | entity (table : Table)
  /-- The undirected joins of two tables, in their declared order. -/
  | join (first second : Table)
  /-- The directed joins of two tables. -/
  | directed (parent child : Table)
  /-- A relation that belongs to no registry. -/
  | other (name : String)
  deriving DecidableEq

namespace RelationName

/-- The name in statements. -/
def text : RelationName → String
  | .entity t => t.tableName
  | .join first second => Registry.joinName (first, second)
  | .directed parent child => Registry.directedJoinName parent child
  | .other name => name

/-- The names of all joins of two tables. -/
def joins : List RelationName :=
  Table.all.flatMap fun a => Table.all.flatMap fun b => [.join a b, .directed a b]

/-- Read a name. -/
def ofText (s : String) : RelationName :=
  match Table.all.find? fun t => Identifier.same t.tableName s with
  | some t => .entity t
  | none => (joins.find? fun n => Identifier.same n.text s).getD (.other s)

/-- The name of the index on a column of a relation. -/
def indexName (n : RelationName) (column : String) : String := "ix_" ++ n.text ++ "_" ++ column

end RelationName

/-- A column of an entity relation. -/
structure Column where
  /-- Its name. -/
  name : String
  /-- What it does to values. -/
  type : StoredType
  deriving DecidableEq

/-- The column as a store knows it, if a statement creates it under its name. -/
def Column.denoted (c : Column) : Column := { c with name := Identifier.denoted c.name }

/-- A record of an entity relation. -/
structure Record where
  /-- Its id. -/
  id : Int
  /-- The cells of the columns after the id. -/
  cells : List (String × Cell)
  deriving DecidableEq

namespace Record

/-- The cell of a column; null if the record has no such column. -/
def get (r : Record) (column : String) : Cell :=
  if column = "id" then .int r.id else (r.cells.lookup column).getD .null

/-- Replace cells. -/
def set (r : Record) (cells : List (String × Cell)) : Record :=
  { r with cells := r.cells.map fun (name, old) => (name, (cells.lookup name).getD old) }

/-- All columns with their cells, the id first. -/
def fields (r : Record) : List (String × Cell) := ("id", .int r.id) :: r.cells

end Record

/-- The two cells of a join. -/
abbrev CellPair := Cell × Cell

namespace CellPair

/-- Whether two keys ask for a pair. -/
def identifies (keys p : CellPair) : Bool := keys.1.identifies p.1 && keys.2.identifies p.2

/-- The pair as columns with cells. -/
def fields (first second : String) (p : CellPair) : List (String × Cell) :=
  [(first, p.1), (second, p.2)]

/-- Put a pair where it belongs among pairs in ascending order. -/
def insertSorted (p : CellPair) : List CellPair → List CellPair
  | [] => [p]
  | q :: rest =>
    if p.1.before q.1 || (p.1 == q.1 && !q.2.before p.2) then p :: q :: rest
    else q :: insertSorted p rest

/-- Pairs in ascending order. -/
def sort (rows : List CellPair) : List CellPair := rows.foldr insertSorted []

end CellPair

/-- The name of a table in a statement. -/
structure TableName where
  /-- The part of the database that the table belongs to. -/
  schema : Option String := none
  /-- The name of the table there. -/
  name : String
  deriving DecidableEq

namespace TableName

/-- The name as it is reported. -/
def text (t : TableName) : String := t.schema.elim t.name (· ++ "." ++ t.name)

/-- Whether a name means a table of the store. -/
def isMain (t : TableName) : Bool := t.schema.all (Identifier.same "main")

/-- The table with which a store keeps account of its tables, or of temporary ones, if a name means
it. -/
def catalogue? (t : TableName) : Option String :=
  let isOneOf (names : List String) : Bool := names.any (Identifier.same t.name)
  let isCatalogue := isOneOf ["sqlite_master", "sqlite_schema"]
  let isTemporary := isOneOf ["sqlite_temp_master", "sqlite_temp_schema"]
  if t.isMain && isCatalogue then some "sqlite_master"
  else if t.schema.all (Identifier.same "temp") && (isCatalogue || isTemporary) then
    some "sqlite_temp_master"
  else none

end TableName

/-- The contents of a relation. -/
inductive Relation where
  /-- Records with an id and these further columns. -/
  | records (columns : List Column) (rows : List Record)
  /-- Pairs under these two columns. -/
  | pairs (first second : String) (rows : List CellPair)

namespace Relation

/-- The names of all columns. -/
def columnNames : Relation → List String
  | .records columns _ => "id" :: columns.map (·.name)
  | .pairs first second _ => [first, second]

/-- Names of the id of a record in statements, unless a column has them. -/
def idAliases : List String := ["rowid", "oid", "_rowid_"]

/-- The column that a statement means by a name. -/
def resolve? (r : Relation) (column : String) : Option String :=
  let isAlias := idAliases.any (Identifier.same column)
  (r.columnNames.find? (Identifier.same column)).or
    (match r with
    | .records .. => if isAlias then some "id" else none
    | .pairs .. => none)

/-- The relation as a store knows it, if a statement creates it with these columns. -/
def denoted : Relation → Relation
  | .records columns rows => .records (columns.map Column.denoted) rows
  | r => r

/-- The first column that has the name of an earlier one. -/
def repeatedColumn? (r : Relation) : Option String := Identifier.firstRepeated? [] r.columnNames

/-- The type of a column, if there is one of that name. -/
def columnType? (r : Relation) (column : String) : Option StoredType :=
  match r with
  | .records columns _ =>
    if column = "id" then some .integer
    else (columns.find? (·.name == column)).map (·.type)
  | .pairs first second _ => if column = first ∨ column = second then some .integer else none

/-- The same relation without records. -/
def cleared : Relation → Relation
  | .records columns _ => .records columns []
  | .pairs first second _ => .pairs first second []

/-- The number of records or pairs. -/
def size : Relation → Nat
  | .records _ rows => rows.length
  | .pairs _ _ rows => rows.length

/-- All records as they are kept, as columns with cells. -/
def stored : Relation → List (List (String × Cell))
  | .records _ rows => rows.map Record.fields
  | .pairs first second rows => rows.map (CellPair.fields first second)

/-- All records in ascending order, as columns with cells. -/
def fields : Relation → List (List (String × Cell))
  | .records _ rows => rows.map Record.fields
  | .pairs first second rows => (CellPair.sort rows).map (CellPair.fields first second)

/-- The error of a pair that is there already. -/
def repeatedPair (n : RelationName) (first second : String) : Failure :=
  .storage (.notUnique [n.text ++ "." ++ first, n.text ++ "." ++ second])

/-- What a column of pairs keeps of a cell. It must have a value. -/
def pairCell (n : RelationName) (column : String) (c : Cell) : Except Failure Cell :=
  match c.toNumber with
  | .null => .error (.storage (.missingValue (n.text ++ "." ++ column)))
  | c => .ok c

/-- Add a pair to those that are there. -/
def withPair (n : RelationName) (first second : String) (rows : List CellPair) (p : CellPair) :
    Except Failure (List CellPair) := do
  let p := (← pairCell n first p.1, ← pairCell n second p.2)
  if p ∈ rows then throw (repeatedPair n first second)
  return rows ++ [p]

end Relation

/-- An index of a relation. -/
structure RelationIndex where
  /-- Its name. -/
  name : String
  /-- The relation. -/
  relation : RelationName
  /-- The columns by which it lists the records. -/
  columns : List String

/-- A store: its relations in the order of their creation, and its indexes. -/
structure Store where
  /-- The relations. -/
  relations : List (RelationName × Relation) := []
  /-- The indexes, the latest one first. -/
  indexes : List RelationIndex := []

/-- Put a record at its place in the order of ids. -/
def insertRecord (r : Record) : List Record → List Record
  | [] => [r]
  | s :: rest => if r.id < s.id then r :: s :: rest else s :: insertRecord r rest

/-- The id for a new record: one more than the largest id, which is the last one. -/
def nextId (rows : List Record) : Int := (rows.getLast?.map (·.id)).getD 0 + 1

namespace Store

/-- A relation, if it exists. -/
def find? (s : Store) (n : RelationName) : Option Relation := s.relations.lookup n

/-- Replace the contents of an existing relation. -/
def put (s : Store) (n : RelationName) (r : Relation) : Store :=
  { s with relations := s.relations.map fun (m, old) => (m, if m = n then r else old) }

/-- Add a relation, unless there is one of that name. -/
def create (s : Store) (n : RelationName) (r : Relation) : Store :=
  if (s.find? n).isSome then s else { s with relations := s.relations ++ [(n, r)] }

/-- Add an index. -/
def addIndex (s : Store) (index : RelationIndex) : Store :=
  { s with indexes := index :: s.indexes }

/-- Whether there is an index of a name. -/
def hasIndex (s : Store) (name : String) : Bool :=
  s.indexes.any fun i => Identifier.same i.name name

/-- The relation that a statement means by a name. -/
def locate (s : Store) (name : String) : RelationName :=
  match s.relations.find? fun r => Identifier.same r.1.text name with
  | some (n, _) => n
  | none => .ofText name

/-- A relation that must exist. -/
def relation (s : Store) (n : RelationName) : Except Failure Relation :=
  match s.find? n with
  | some r => .ok r
  | none => .error (.storage (.noSuchTable n.text))

/-- The relation that a statement names, if there is one. -/
def named? (s : Store) (t : TableName) : Option (RelationName × Relation) :=
  if t.isMain then (s.find? (s.locate t.name)).map (s.locate t.name, ·) else none

/-- The relation that a statement names. It must exist. -/
def named (s : Store) (t : TableName) : Except Failure (RelationName × Relation) :=
  match s.named? t with
  | some found => .ok found
  | none => .error (.storage (.noSuchTable t.text))

/-- Remove a relation with its indexes. -/
def drop (s : Store) (n : RelationName) : Store :=
  { relations := s.relations.filter (·.1 ≠ n), indexes := s.indexes.filter (·.relation ≠ n) }

/-- A key that a statement uses must fit, if it is an integer. -/
def checkKey : Cell → Except Failure Unit
  | .int n => if fitsInteger n then .ok () else .error .integerOutOfRange
  | _ => .ok ()

/-- Every named column must exist; a missing one is reported with the name of its table. -/
def checkColumns (n : RelationName) (r : Relation) (columns : List String) :
    Except Failure Unit :=
  match columns.find? fun c => (r.columnType? c).isNone with
  | some c => .error (.storage (.noSuchColumn (n.text ++ "." ++ c)))
  | none => .ok ()

/-! ### Entity relations -/

/-- The records of a table, for a statement that uses some of its columns. -/
def records (s : Store) (t : Table) (used : List String) : Except Failure (List Record) := do
  let r ← s.relation (.entity t)
  checkColumns (.entity t) r used
  match r with
  | .records _ rows => return rows
  | .pairs .. => return []

/-- The records of a table with a key in a column. -/
def recordsWhere (s : Store) (t : Table) (used : List String) (column : String) (key : Cell) :
    Except Failure (List Record) := do
  let rows ← s.records t (used ++ [column])
  checkKey key
  return rows.filter fun r => key.identifies (r.get column)

/-- Turn the values of columns into cells, in order. -/
def toCells (values : List (String × Value)) : Except Failure (List (String × Cell)) :=
  return (values.map (·.1)).zip (← Value.toCells (values.map (·.2)))

/-- The cells of a new record: one for each column, null where no value is given. -/
def newCells (columns : List Column) (cells : List (String × Cell)) : List (String × Cell) :=
  columns.map fun c => (c.name, c.type.store ((cells.lookup c.name).getD .null))

/-- The id for an insertion: a given integer, or the next one. -/
def chooseId (rows : List Record) : Cell → Except Failure Int
  | .null => .ok (nextId rows)
  | c =>
    match c.toNumber with
    | .int id => .ok id
    | _ => .error (.storage .typeMismatch)

/-- Insert a record; gives its id. -/
def insert (s : Store) (n : RelationName) (values : List (String × Value)) :
    Except Failure (Store × Int) := do
  let r ← s.relation n
  match values.find? fun (c, _) => (r.columnType? c).isNone with
  | some (c, _) => throw (.storage (.noColumnNamed n.text c))
  | none => pure ()
  let cells ← toCells values
  match r with
  | .records columns rows =>
    let id ← chooseId rows ((cells.lookup "id").getD .null)
    if rows.any (·.id == id) then throw (.storage (.notUnique [n.text ++ ".id"]))
    return (s.put n (.records columns (insertRecord ⟨id, newCells columns cells⟩ rows)), id)
  | .pairs first second rows =>
    let cell (column : String) : Cell := (cells.lookup column).getD .null
    let rows ← Relation.withPair n first second rows (cell first, cell second)
    return (s.put n (.pairs first second rows), 0)

/-- Change the record of an id. Values are given for columns other than the id. -/
def updateRecord (s : Store) (t : Table) (id : Cell) (values : List (String × Value)) :
    Except Failure Store := do
  let r ← s.relation (.entity t)
  match values.find? fun (c, _) => (r.columnType? c).isNone with
  | some (c, _) => throw (.storage (.noSuchColumn c))
  | none => pure ()
  let cells ← toCells values
  checkKey id
  match r with
  | .records columns rows =>
    let stored := cells.map fun (c, v) => (c, ((r.columnType? c).getD .text).store v)
    return s.put (.entity t) (.records columns
      (rows.map fun row => if id.identifies (.int row.id) then row.set stored else row))
  | .pairs .. => return s

/-- Delete the record of an id. -/
def deleteRecord (s : Store) (t : Table) (id : Cell) : Except Failure Store := do
  let r ← s.relation (.entity t)
  checkKey id
  match r with
  | .records columns rows =>
    return s.put (.entity t)
      (.records columns (rows.filter fun row => !id.identifies (.int row.id)))
  | .pairs .. => return s

/-! ### Join relations -/

/-- The pairs of a join relation, in ascending order. -/
def pairs (s : Store) (n : RelationName) : Except Failure (List CellPair) := do
  match ← s.relation n with
  | .pairs _ _ rows => return CellPair.sort rows
  | .records .. => return []

/-- Record a pair. -/
def addPair (s : Store) (n : RelationName) (p : CellPair) : Except Failure Store := do
  let r ← s.relation n
  checkKey p.1
  checkKey p.2
  match r with
  | .pairs first second rows =>
    return s.put n (.pairs first second (← Relation.withPair n first second rows p))
  | .records .. => return s

/-- Remove the pairs that meet a condition on some keys. -/
def removePairs (s : Store) (n : RelationName) (keys : List Cell) (p : CellPair → Bool) :
    Except Failure Store := do
  let r ← s.relation n
  keys.forM checkKey
  match r with
  | .pairs first second rows => return s.put n (.pairs first second (rows.filter (!p ·)))
  | .records .. => return s

/-- Remove every record of a relation. -/
def clear (s : Store) (n : RelationName) : Except Failure Store := do
  let r ← s.relation n
  return s.put n r.cleared

end Store

end SoarProject
