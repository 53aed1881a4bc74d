import SoarProject.Statement.Access
import SoarProject.Statement.Reader
import SoarProject.Session.Basic

/-!
# Executing statements

What a statement does to a store, and what it shows. `Statement.resolve` finds the relation and the
columns that a statement means; `Statement.perform` carries out what it gives. All names are resolved
before the parameters get their values, and a statement that fails changes nothing.
-/

namespace SoarProject

namespace Term

/-- A bare word would have to be a column. -/
def check : Term → Except Failure Unit
  | .word s => .error (.storage (.noSuchColumn s))
  | _ => .ok ()

/-- The cell that a value stands for. -/
def cell (parameters : List Cell) : Term → Cell
  | .parameter index => parameters.getD index .null
  | .null | .word _ => .null
  | .integer n => .int n
  | .number x => .real x
  | .text s => .text s

end Term

namespace Statement

/-- The column that a statement means by a name. -/
def findColumn (r : Relation) (column : String) : Except Failure String :=
  match r.resolve? column with
  | some found => .ok found
  | none => .error (.storage (.noSuchColumn column))

/-- A selection with the names of the columns that it means. -/
def resolveSelection (r : Relation) (selection : Selection) : Except Failure Selection :=
  selection.mapM fun list => list.mapM fun c => do
    let column ← findColumn r c.column
    c.value.check
    return { c with column }

/-- A result column with the name of the column that it means. -/
def resolveResult (r : Relation) : ResultColumn → Except Failure ResultColumn
  | .column name shown => return .column (← findColumn r name) shown
  | .quoted name shown =>
    match r.resolve? name with
    | some found => .ok (.column found shown)
    | none => .ok (.text name (shown.getD (Identifier.quoted name)))
  | column => .ok column

/-- The relation that a statement changes. It must exist and be no table of the store itself. -/
def changedRelation (s : Store) (t : TableName) : Except Failure Relation := do
  match t.catalogue? with
  | some catalogue => throw (.storage (.protectedTable catalogue "modified"))
  | none => return (← s.named t).2

/-- The statement on a store, with the names of the columns that it means. This fails if something
that the statement needs is missing, or what it creates is there already. -/
def resolve (s : Store) : Statement → Except Failure Statement
  | .nothing => return .nothing
  | .select columns table selection order => do
    let (_, r) ← s.named table
    let columns ← columns.mapM (resolveResult r)
    let selection ← resolveSelection r selection
    if (orderAlias? columns).isNone then
      order.forM fun column => do
        let _ ← findColumn r column
    return .select columns table selection order
  | .update table column value selection => do
    let r ← changedRelation s table
    value.check
    let column ← findColumn r column
    return .update table column value (← resolveSelection r selection)
  | .insert table columns values => do
    let r ← changedRelation s table
    let columns ← columns.mapM fun column =>
      match r.resolve? column with
      | some found => .ok found
      | none => .error (.storage (.noColumnNamed table.text column))
    values.forM Term.check
    if values.length ≠ columns.length then
      throw (.storage (.widthMismatch values.length columns.length))
    return .insert table columns values
  | .delete table selection => do
    let r ← changedRelation s table
    return .delete table (← resolveSelection r selection)
  | .createTable table shape tolerant => do
    match s.find? (s.locate table), shape.toRelation.repeatedColumn? with
    | some _, _ => if !tolerant then throw (.storage (.relationExists table))
    | none, some column => throw (.storage (.duplicateName column))
    | none, none => pure ()
    return .createTable table shape tolerant
  | .createIndex name table columns tolerant => do
    match s.find? (s.locate table) with
    | none => throw (.storage (.noSuchTable ("main." ++ table)))
    | some r =>
      if s.hasIndex name then
        if !tolerant then throw (.storage (.indexExists name))
        return .createIndex name table columns tolerant
      return .createIndex name table (← columns.mapM (findColumn r)) tolerant
  | .dropTable table tolerant => do
    match table.catalogue? with
    | some catalogue => throw (.storage (.protectedTable catalogue "dropped"))
    | none => if !tolerant then let _ ← s.named table
    return .dropTable table tolerant

/-- Whether a record meets a comparison. -/
def holds (r : Relation) (parameters : List Cell) (record : Fields) (c : Comparison) : Bool :=
  match r.columnType? c.column with
  | none => false
  | some type =>
    ((record.lookup c.column).getD .null).same (type.comparable (c.value.cell parameters))

/-- Whether a record is selected. -/
def meets (r : Relation) (parameters : List Cell) (selection : Selection) (record : Fields) : Bool :=
  selection.any fun list => list.all (holds r parameters record)

/-- A result column of a record. -/
def shownFields (record : Fields) : ResultColumn → Fields
  | .all => record
  | .column name shown => [(shown.getD name, (record.lookup name).getD .null)]
  | .quoted name shown => [(shown.getD name, .text name)]
  | .text s shown => [(shown, .text s)]

/-- The records of an entity relation after the id of the one with this id was changed. -/
def moveRecord (n : RelationName) (key : Cell) (rows : List Record) (r : Record) :
    Except Failure (List Record) :=
  match key.toNumber with
  | .int id =>
    let others := rows.filter (·.id ≠ r.id)
    if others.any (·.id == id) then .error (.storage (.notUnique [n.text ++ ".id"]))
    else .ok (insertRecord { r with id } others)
  | _ => .error (.storage .typeMismatch)

/-- The pairs of a join relation after one of them was changed. -/
def changePair (n : RelationName) (first second : String) (isFirst : Bool) (value : Cell)
    (rows : List CellPair) (p : CellPair) : Except Failure (List CellPair) := do
  let c ← Relation.pairCell n (if isFirst then first else second) value
  let q := if isFirst then (c, p.2) else (p.1, c)
  if q ≠ p && rows.contains q then throw (Relation.repeatedPair n first second)
  return rows.map fun other => if other = p then q else other

/-- Change a column of the selected records. -/
def updated (n : RelationName) (r : Relation) (column : String) (value : Cell)
    (selected : Fields → Bool) : Except Failure Relation :=
  match r with
  | .records columns rows => do
    let chosen := rows.filter fun row => selected row.fields
    if column = "id" then return .records columns (← chosen.foldlM (moveRecord n value) rows)
    let stored := ((r.columnType? column).getD .text).store value
    return .records columns
      (rows.map fun row => if row ∈ chosen then row.set [(column, stored)] else row)
  | .pairs first second rows => do
    let chosen := rows.filter fun p => selected (p.fields first second)
    return .pairs first second
      (← chosen.foldlM (changePair n first second (column = first) value) rows)

/-- The records that are not selected. -/
def remaining (r : Relation) (selected : Fields → Bool) : Relation :=
  match r with
  | .records columns rows => .records columns (rows.filter fun row => !selected row.fields)
  | .pairs first second rows =>
    .pairs first second (rows.filter fun p => !selected (p.fields first second))

/-- Carry out a statement whose names are resolved. Gives the new store, and the records that are
shown if it is a statement that shows some. -/
def perform (cells : List Cell) (s : Store) :
    Statement → Except Failure (Store × Option (List Fields))
  | .nothing => return (s, none)
  | .select columns table selection order => do
    let (n, r) ← s.named table
    let order := order.bind fun _ => orderColumn? columns
    let chosen := (Access.of s n r).select (columnsNeeded r columns selection) order selection
      (holds r cells)
    return (s, some (chosen.map fun record => columns.flatMap (shownFields record)))
  | .update table column value selection => do
    let (n, r) ← s.named table
    return (s.put n (← updated n r column (value.cell cells) (meets r cells selection)), none)
  | .insert table columns values => do
    let (n, _) ← s.named table
    let (s, _) ← s.insert n (columns.zip (values.map fun v => (v.cell cells).toValue))
    return (s, none)
  | .delete table selection => do
    let (n, r) ← s.named table
    return (s.put n (remaining r (meets r cells selection)), none)
  | .createTable table shape _ => return (s.create (s.locate table) shape.toRelation, none)
  | .createIndex name table columns _ =>
    return (if s.hasIndex name then s else s.addIndex ⟨name, s.locate table, columns⟩, none)
  | .dropTable table _ => return (((s.named? table).map (s.drop ·.1)).getD s, none)

/-- Whether a statement writes to a store. -/
def writes (s : Store) : Statement → Bool
  | .nothing | .select .. => false
  | .createTable table .. => (s.find? (s.locate table)).isNone
  | .createIndex name .. => !s.hasIndex name
  | .dropTable table _ => (s.named? table).isSome
  | _ => true

/-- What a statement gives. -/
structure Outcome where
  /-- The records that it shows, if it is a statement that shows some. -/
  shown : Option (List Fields)
  /-- Whether it wrote to the store. -/
  wrote : Bool

/-- Execute the text of a statement with values for its parameters. -/
def execute (text : String) (parameters : List Value) (s : Store) :
    Except Failure (Store × Outcome) := do
  match ofText text with
  | .error e => throw (.storage e)
  | .ok (st, more) =>
    let st ← st.resolve s
    if more then throw (.storage .severalStatements)
    if parameters.length ≠ st.parameterCount then
      throw (.storage (.bindingCount st.parameterCount parameters.length))
    let (after, shown) ← st.perform (← Value.toCells parameters) s
    return (after, ⟨shown, st.writes s⟩)

end Statement

namespace Change

/-- Execute the text of a statement without parameters, and announce that. -/
def execute (text : String) : Change Unit := do
  let _ ← alter (Statement.execute text []) (·.wrote)
  announce .databaseChanged

end Change

end SoarProject
