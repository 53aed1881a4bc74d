import SoarProject.Statement.Basic

/-!
# How records are found

A statement that asks for no order shows records in the order in which they are found. Where each list
of comparisons has a column with an index, or the id, the records of one list are looked up after
those of another. Otherwise the relation is gone through as it is kept, or an index on one column is
gone through instead, if the statement needs nothing but this column and the id.
-/

namespace SoarProject

/-- Columns with their values. -/
abbrev Fields := List (String × Cell)

/-- Put records in the order of a column; those that agree on it keep their order. -/
def sortBy (column : String) (records : List Fields) : List Fields :=
  let key (record : Fields) : Cell := (record.lookup column).getD .null
  records.mergeSort fun a b => !(key b).before (key a)

/-- A relation and the columns by which an index lists its records. -/
structure Access where
  /-- The relation. -/
  relation : Relation
  /-- The columns with an index of their own, the latest one first. -/
  indexed : List String

namespace Access

/-- The access to a relation of a store. -/
def of (s : Store) (n : RelationName) (r : Relation) : Access where
  relation := r
  indexed := (s.indexes.filter (·.relation = n)).filterMap fun index =>
    match index.columns with
    | [column] => some column
    | _ => none

/-- Whether records with a value in a column can be looked up. The first column of a join relation has
an index anyway, since its pairs must differ. -/
def looksUp (a : Access) (column : String) : Bool :=
  a.indexed.contains column ||
    match a.relation with
    | .records .. => column == "id"
    | .pairs first _ _ => column == first

/-- Records in the order in which a look-up by some columns finds them. Pairs that are looked up by
the first column come by the second one. -/
def lookUpOrder (a : Access) (columns : List String) (records : List Fields) : List Fields :=
  match a.relation with
  | .pairs first second _ => if columns.contains first then sortBy second records else records
  | .records .. => records

/-- All records, for a statement that needs some of the columns and perhaps an order by a column. -/
def scan (a : Access) (needed : List String) (order : Option String) : List Fields :=
  let records := a.relation.stored
  match a.indexed.find? fun column => needed.all fun n => n == column || n == "id" with
  | some column => sortBy column records
  | none => a.lookUpOrder order.toList records

/-- The column that every list of a selection compares, if each compares only one. -/
def commonColumn? (selection : Selection) : Option String :=
  match selection with
  | [c] :: rest => if rest.all fun list => list.map (·.column) == [c.column] then some c.column else none
  | _ => none

/-- The selected records as they are found, for a statement that needs some of the columns and
perhaps an order by a column. -/
def found (a : Access) (needed : List String) (order : Option String) (selection : Selection)
    (holds : Fields → Comparison → Bool) : List Fields :=
  let meets (record : Fields) (list : List Comparison) : Bool := list.all (holds record)
  let lookUp (list : List Comparison) : List Fields :=
    a.lookUpOrder (list.map (·.column)) (a.relation.stored.filter (meets · list))
  if selection.all fun list => list.any fun c => a.looksUp c.column then
    let records := (selection.flatMap lookUp).eraseDups
    match commonColumn? selection with
    | some column => sortBy column records
    | none => records
  else (a.scan needed order).filter fun record => selection.any (meets record)

/-- The selected records in an order by a column, or else as they are found. -/
def select (a : Access) (needed : List String) (order : Option String) (selection : Selection)
    (holds : Fields → Comparison → Bool) : List Fields :=
  let found := a.found needed order selection holds
  order.elim found (sortBy · found)

end Access

/-- The columns that a result column needs. -/
def ResultColumn.needed (r : Relation) : ResultColumn → List String
  | .all => r.columnNames
  | .column name _ => [name]
  | .quoted .. | .text .. => []

/-- The columns that a result and a selection need. -/
def columnsNeeded (r : Relation) (columns : List ResultColumn) (selection : Selection) :
    List String :=
  columns.flatMap (·.needed r) ++ selection.flatten.map (·.column)

/-- The result column that is shown as the id, if one is. -/
def orderAlias? (columns : List ResultColumn) : Option ResultColumn :=
  columns.find? fun
    | .column _ shown | .quoted _ shown => shown.any (Identifier.same "id")
    | .text _ shown => Identifier.same "id" shown
    | .all => false

/-- The column by which a result is in order: that which it shows as the id, or else the id. A text
that is shown as the id makes no order. -/
def orderColumn? (columns : List ResultColumn) : Option String :=
  match orderAlias? columns with
  | some (.column name _) => some name
  | some _ => none
  | none => some "id"

end SoarProject
