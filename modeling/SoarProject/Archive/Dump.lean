import SoarProject.Session.Basic
import SoarProject.Statement.Basic
import SoarProject.Number.Literal

/-!
# Dumps

A dump is a text of statements that build a database again: first those that create the relations and
the indexes on their key columns, then one for each record. Relations come by name, records by id and
pairs in ascending order.
-/

namespace SoarProject

/-- A relation with its shape, as the registry calls for it. -/
structure DumpTable where
  /-- The name. -/
  name : RelationName
  /-- The shape. -/
  shape : Shape
  /-- The columns that have an index. -/
  indexed : List String

namespace DumpTable

/-- The columns with their types. -/
def columns (d : DumpTable) : List Column :=
  match d.shape with
  | .records columns => ⟨"id", .integer⟩ :: columns
  | .pairs first second => [⟨first, .integer⟩, ⟨second, .integer⟩]

/-- The statements that create the relation and its indexes. -/
def creation (d : DumpTable) : List String :=
  Statement.createTableText d.name.text d.shape ::
    (d.indexed.mergeSort fun a b => d.name.indexName a ≤ d.name.indexName b).map fun column =>
      Statement.createIndexText (d.name.indexName column) d.name.text column

end DumpTable

/-- The relations of a registry, by name. -/
def Registry.dumpTables (r : Registry) : List DumpTable :=
  let tables := r.layout.map fun (n, relation) =>
    (⟨n, .ofRelation relation, r.indexedColumns n relation⟩ : DumpTable)
  tables.mergeSort fun a b => a.name.text ≤ b.name.text

/-- A floating-point number as a value of a statement. Infinite numbers have no literal; their names
are written, and are refused when the dump is restored. -/
def Term.ofFloat (x : Float) : Term := if x.isInf then .word (Number.floatText x) else .number x

/-- The value that a column writes for a cell. A text in a column of numbers is written as it is, if
it reads as a number. -/
def StoredType.term? : StoredType → Cell → Option Term
  | _, .null => some .null
  | .integer, .int n => some (.integer n)
  | .integer, .real x =>
    match Number.decode x with
    | .finite negative mantissa exponent =>
      let n : Int := ↑(mantissa <<< exponent.toNat >>> (-exponent).toNat)
      some (.integer (if negative then -n else n))
    | _ => none
  | .integer, .text s => (Number.readInt? s).map .integer
  | .float, .int n => some (.integer n)
  | .float, .real x => some (.ofFloat x)
  | .float, .text s => (Number.readFloat? s).map fun _ => .word s
  | .name, .text s | .text, .text s => some (.text s)
  | .name, _ | .text, _ => none

namespace DumpTable

/-- The records of a relation, with the columns that it is to have. -/
def contents (d : DumpTable) (store : Store) : Except Failure (List (List (String × Cell))) := do
  let r ← store.relation d.name
  Store.checkColumns d.name r (d.columns.map (·.denoted.name))
  return r.fields.map fun record =>
    d.columns.map fun c => (c.name, (record.lookup c.denoted.name).getD .null)

/-- The statement that adds a record. -/
def insertion (d : DumpTable) (record : List (String × Cell)) : Except Failure String := do
  let values ← (d.columns.zip record).mapM fun (c, _, cell) =>
    match c.type.term? cell with
    | some v => .ok v
    | none => .error (.storage .unwritableCell)
  return Statement.insertText d.name.text (d.columns.map (·.name)) values

end DumpTable

namespace Query

/-- The records of a relation. -/
def contents (d : DumpTable) : Query (List (List (String × Cell))) := Query.ask d.contents

/-- The statements that add the records of a relation. -/
def insertions (d : DumpTable) : Query (List String) :=
  Query.ask fun store => do (← d.contents store).mapM d.insertion

/-- All statements of a dump. -/
def dumpStatements : Query (List String) := do
  let _ ← Query.store
  let tables := (← Query.registry).dumpTables
  return tables.flatMap DumpTable.creation ++ (← tables.mapM insertions).flatten

/-- The text of a dump: each statement ends with a semicolon and a line break. -/
def dump : Query String := do
  return String.join ((← dumpStatements).map (· ++ ";\n"))

end Query

end SoarProject
