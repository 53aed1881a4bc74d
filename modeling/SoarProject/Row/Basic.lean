import SoarProject.Session.Basic

/-!
# Rows

A row is a record of the open database, named by its table and its id; the record need not exist. The
ids of records are integers, but a join or a key column may name a row by any other cell. A `View` is a
row together with the name it was last known by. The name is looked up once and then remembered, until
it is changed through the same view.

Looking at the name, one column or the existence of a row survives errors of the store: the row then
looks as if there were no such record.
-/

namespace SoarProject

/-- A record, by its table and id. -/
structure Row where
  /-- The table. -/
  table : Table
  /-- The id. -/
  id : Cell
  deriving DecidableEq

/-- The row of a record. -/
abbrev Row.ofId (t : Table) (id : Int) : Row := ⟨t, .int id⟩

/-- A row with its remembered name. A name that was looked up is a text; one that was given is
remembered as it was given. -/
structure View where
  /-- The row. -/
  row : Row
  /-- Its name, if it is remembered. -/
  memo : Option Value := none

/-- The values for the columns of a table, in the order of its columns. Of several values for one
column the last one counts. -/
def Registry.arrange (r : Registry) (t : Table) (values : List (String × Value)) :
    List (String × Value) :=
  (r.columnNamesOf t).filterMap fun c => (values.reverse.lookup c).map (c, ·)

/-- The values for the columns of a table as they are handed to the store. -/
def Registry.prepare (r : Registry) (t : Table) (values : List (String × Value)) :
    Except Failure (List (String × Value)) :=
  (r.arrange t values).mapM fun (c, v) =>
    return (Identifier.denoted c, ← ((r.columnType? t c).getD .text).prepare v)

namespace Row

/-- Whether two rows are one: their ids may be written as different numbers of one value. -/
def same (a b : Row) : Bool := a.table = b.table && a.id.agrees b.id

/-- The row in a message. -/
def shown (r : Row) : String := Failure.shownRow r.table r.id

/-- A row without a remembered name. -/
def view (r : Row) : View := ⟨r, none⟩

/-- A row with a name that was given to it. Null is no name. -/
def named (r : Row) (name : Value) : View := ⟨r, if name.isPresent then some name else none⟩

/-- The name of a row that does not exist. -/
def missingName (r : Row) : String :=
  r.table.tableName ++ ": NO ROW WITH ID " ++ r.id.shown

/-- The name of the parameter that selects a record by its id. A statement that changes records names
its other parameters after their columns. -/
def idParameter : String := "id_1"

/-- The record of a row, for a statement that uses some columns of its table. -/
def record? (r : Row) (used : List String) : Query (Option Record) := do
  return (← Query.ask (·.recordsWhere r.table (used.map Identifier.denoted) "id" r.id)).head?

/-- Whether the record exists. -/
def isStored (r : Row) : Query Bool :=
  Query.orDefault (return (← r.record? ["id"]).isSome) false

/-- The value of a column; null if it cannot be read. -/
def column (r : Row) (name : String) : Query Cell := do
  if ((← Query.registry).columnType? r.table name).isNone then
    throw (.unknownColumn r.table name)
  let value? := do return (← r.record? [name]).map (·.get (Identifier.denoted name))
  Query.orDefault (return (← value?).getD .null) .null

/-- All columns with their values; none if the record does not exist. -/
def columns (r : Row) : Query (List (String × Cell)) := do
  let names := (← Query.registry).columnNamesOf r.table
  match ← r.record? names with
  | some record => return names.map fun name => (name, record.get (Identifier.denoted name))
  | none => return []

/-- The text of a rule; empty for other rows. -/
def ruleText (r : Row) : Query String := do
  if r.table ≠ .rules then return ""
  let text ← r.column "raw_text"
  return if text.isTrue then text.shown else ""

end Row

namespace View

/-- The name of a row, and the view that remembers it. -/
def name (v : View) : Query (Value × View) := do
  match v.memo with
  | some name => return (name, v)
  | none =>
    let remembered (name : String) : Value × View := (.text name, v.row.named (.text name))
    match ← Query.orDefault (some <$> v.row.record? ["name"]) none with
    | none => return (.text v.row.missingName, v)
    | some none => return remembered v.row.missingName
    | some (some record) =>
      match record.get "name" with
      | .null => return remembered ""
      | cell => return remembered cell.shown

/-- The name by which a row is shown, and the view that remembers it. -/
def label (v : View) : Query (String × View) := do
  match ← v.name with
  | (.text name, v) => return (name, v)
  | _ => throw .labelNotText

/-- Change columns. A change of the name ends its being remembered. -/
def updateAll (v : View) (columns : List String) (values : List Value) : Change View := do
  if columns.length ≠ values.length then throw .lengthMismatch
  if columns.isEmpty then return v
  let registry ← Query.registry
  match columns.find? fun c => c = "id" ∨ (registry.columnType? v.row.table c).isNone with
  | some c => throw (.unwritableColumn v.row.table c)
  | none => pure ()
  Change.mutate fun store => do
    if Row.idParameter ∈ columns then throw (.storage .parameterClash)
    let prepared ← registry.prepare v.row.table (columns.zip values)
    return (← store.updateRecord v.row.table v.row.id prepared, ())
  return if "name" ∈ columns then v.row.view else v

/-- Change one column. -/
def update (v : View) (column : String) (value : Value) : Change View :=
  v.updateAll [column] [value]

/-- Rename a row. -/
def rename (v : View) (name : Value) : Change View := do
  return (← v.update "name" name).row.named name

end View

/-- Something done through a view. It may alter the session and what the view remembers; when it
fails, both keep what was done before. -/
abbrev ViewChange (α : Type) := ExceptT Failure (StateM (View × Session)) α

instance : MonadLift Change ViewChange where
  monadLift c := ExceptT.mk fun (v, s) =>
    let (result, s) := c.run s
    (result, v, s)

namespace ViewChange

variable {α : Type}

/-- The row of the view. -/
def row : ViewChange Row := ExceptT.mk fun (v, s) => (.ok v.row, v, s)

/-- A change that gives the view anew, unless it fails. -/
def through (c : View → Change (α × View)) : ViewChange α := ExceptT.mk fun (v, s) =>
  match (c v).run s with
  | (.ok (a, v), s) => (.ok a, v, s)
  | (.error e, s) => (.error e, v, s)

/-- The name of the row. -/
def name : ViewChange Value := through fun v => liftM v.name

/-- Rename the row. -/
def rename (name : Value) : ViewChange Unit := through fun v => return ((), ← v.rename name)

/-- Change one column. -/
def update (column : String) (value : Value) : ViewChange Unit :=
  through fun v => return ((), ← v.update column value)

/-- A change without events. Whether events are suppressed afterwards is as it was before. -/
def suppressing (c : ViewChange α) : ViewChange α := ExceptT.mk fun (v, s) =>
  let (result, v, after) := c.run (v, { s with suppressed := true })
  (result, v, { after with suppressed := s.suppressed })

/-- A change that announces one event at its end, if it succeeds. -/
def batch (event : EventKind) (c : ViewChange α) : ViewChange α := do
  let a ← suppressing c
  (Change.announce event : Change Unit)
  return a

/-- Do something through a view; gives the view afterwards. -/
def on (v : View) (c : ViewChange α) : Change (α × View) := ExceptT.mk fun s =>
  let (result, v, s) := c.run (v, s)
  (result.map (·, v), s)

end ViewChange

namespace Row

/-- The name of a row. -/
def name (r : Row) : Query String := return (← r.view.name).1.shown

/-! ### Editable columns -/

/-- The columns that users may edit. -/
def editableColumns (r : Row) : Query (List EditableColumn) :=
  return (← Query.registry).editableColumnsOf r.table

/-- Users may edit the column. -/
def checkEditable (r : Row) (c : EditableColumn) : Query Unit := do
  if c ∉ (← r.editableColumns) then throw (.notEditable r.table c.name)

/-- The value of an editable column. -/
def editableValue (r : Row) (c : EditableColumn) : Query Cell := do
  r.checkEditable c
  r.column c.name

end Row

/-- Edit a column. -/
def View.edit (v : View) (c : EditableColumn) (value : Value) : Change View := do
  v.row.checkEditable c
  if !c.accepts value then throw (.unacceptable value.quoted c)
  v.update c.name value

/-! ### Whole tables -/

/-- All rows of a table. -/
def Query.rowsOf (t : Table) : Query (List Row) := do
  return (← Query.ask (·.records t ["id"])).map fun r => .ofId t r.id

/-- Insert a record; gives its id. -/
def Change.insert (t : Table) (values : List (String × Value)) : Change Int := do
  let registry ← Query.registry
  Change.mutate fun store => do
    if values.any fun (c, _) => (registry.columnType? t c).isNone then
      throw (.storage .unknownColumn)
    store.insert (.entity t) (← registry.prepare t values)

/-- The id of a new record as it was handed in, or else the one that it got. -/
def handedKey (values : List (String × Value)) (id : Int) : Value :=
  match values.reverse.lookup "id" with
  | none | some .null => .int id
  | some v => v

/-- Insert a record; gives its id as it was handed in, or the new one. -/
def Change.insertGivingKey (t : Table) (values : List (String × Value)) : Change Value :=
  return handedKey values (← Change.insert t values)

end SoarProject
