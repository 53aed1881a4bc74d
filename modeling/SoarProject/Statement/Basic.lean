import SoarProject.Number.Shortest
import SoarProject.Store.Basic

/-!
# Statements

Statements on a store, and how they are written. A dump is a text of such statements.
-/

namespace SoarProject

/-- A value in a statement. -/
inductive Term where
  /-- A parameter, by its number from zero. -/
  | parameter (index : Nat)
  | null
  | integer (n : Int)
  | number (x : Float)
  | text (s : String)
  /-- A bare word, which would have to be a column. -/
  | word (s : String)
  deriving DecidableEq

/-- A condition that a column has a value. -/
structure Comparison where
  /-- The column. -/
  column : String
  /-- The value. -/
  value : Term
  deriving DecidableEq

/-- The records for which all comparisons of one of the lists hold. -/
abbrev Selection := List (List Comparison)

/-- All records. -/
def Selection.always : Selection := [[]]

/-- A column of a result. -/
inductive ResultColumn where
  /-- All columns of the relation. -/
  | all
  /-- A column, under its own name or another one. -/
  | column (name : String) (shown : Option String)
  /-- A name between double quotes: the column of that name, or if there is none the name as a text. -/
  | quoted (name : String) (shown : Option String)
  /-- A text under a name. -/
  | text (s shown : String)
  deriving DecidableEq

/-- What a new relation is to hold. -/
inductive Shape where
  /-- Records with an id and these further columns. -/
  | records (columns : List Column)
  /-- Pairs of ids under these two columns. -/
  | pairs (first second : String)
  deriving DecidableEq

namespace Shape

/-- The shape of a relation. -/
def ofRelation : Relation → Shape
  | .records columns _ => .records columns
  | .pairs first second _ => .pairs first second

/-- The empty relation of a shape. -/
def toRelation : Shape → Relation
  | .records columns => .records columns []
  | .pairs first second => .pairs first second []

end Shape

/-- A statement. -/
inductive Statement where
  /-- Do nothing. -/
  | nothing
  /-- Show columns of the selected records, in the order of their ids if that is asked for by name. -/
  | select (columns : List ResultColumn) (table : TableName) (selection : Selection)
      (order : Option String)
  /-- Change a column of the selected records. -/
  | update (table : TableName) (column : String) (value : Term) (selection : Selection)
  /-- Add a record. -/
  | insert (table : TableName) (columns : List String) (values : List Term)
  /-- Remove the selected records. -/
  | delete (table : TableName) (selection : Selection)
  /-- Create a relation. A `tolerant` statement does nothing if it exists. -/
  | createTable (table : String) (shape : Shape) (tolerant : Bool)
  /-- Create an index. A `tolerant` statement does nothing if it exists. -/
  | createIndex (name table : String) (columns : List String) (tolerant : Bool)
  /-- Remove a relation. A `tolerant` statement does nothing if there is none. -/
  | dropTable (table : TableName) (tolerant : Bool)
  deriving DecidableEq

namespace Statement

/-- The values in a statement. -/
def terms : Statement → List Term
  | .select _ _ selection _ => selection.flatten.map (·.value)
  | .update _ _ value selection => value :: selection.flatten.map (·.value)
  | .insert _ _ values => values
  | .delete _ selection => selection.flatten.map (·.value)
  | .nothing | .createTable .. | .createIndex .. | .dropTable .. => []

/-- The number of parameters in a statement. -/
def parameterCount (st : Statement) : Nat :=
  st.terms.countP fun
    | .parameter _ => true
    | _ => false

end Statement

/-! ### Writing -/

/-- A value as it is written. -/
def Term.written : Term → String
  | .parameter _ => "?"
  | .null => "NULL"
  | .integer n => toString n
  | .number x => Number.floatText x
  | .text s => Text.sqlQuoted s
  | .word s => s

/-- A list with commas. -/
def commaList (items : List String) : String := ", ".intercalate items

/-- A list in parentheses. -/
def parenthesized (items : List String) : String := "(" ++ commaList items ++ ")"

/-- A list of names in parentheses. -/
def nameList (names : List String) : String := parenthesized (names.map Identifier.written)

/-- The line that defines a column. -/
def Column.line (c : Column) : String := Identifier.written c.name ++ " " ++ c.type.written

/-- The lines of the definition of a relation. -/
def Shape.lines : Shape → List String
  | .records columns =>
    ["id INTEGER NOT NULL"] ++ columns.map Column.line ++ ["PRIMARY KEY (id)"]
  | .pairs first second =>
    [(Column.mk first .integer).line ++ " NOT NULL", (Column.mk second .integer).line ++ " NOT NULL",
      "UNIQUE " ++ nameList [first, second]]

namespace Statement

/-- How a relation is defined. -/
def definitionText (table : String) (shape : Shape) : String :=
  Identifier.written table ++ " (\n\t" ++ ", \n\t".intercalate shape.lines ++ "\n)"

/-- The statement that creates a relation. -/
def createTableText (table : String) (shape : Shape) : String :=
  "CREATE TABLE IF NOT EXISTS " ++ definitionText table shape

/-- The statement that creates an index. -/
def createIndexText (name table column : String) : String :=
  "CREATE INDEX IF NOT EXISTS " ++ Identifier.written name ++ " ON " ++ Identifier.written table ++
    " " ++ nameList [column]

/-- The statement that adds a record. -/
def insertText (table : String) (columns : List String) (values : List Term) : String :=
  "INSERT INTO " ++ Identifier.written table ++ " " ++ nameList columns ++ " VALUES " ++
    parenthesized (values.map Term.written)

end Statement

end SoarProject
