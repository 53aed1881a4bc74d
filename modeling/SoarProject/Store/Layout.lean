import SoarProject.Store.Basic

/-!
# Layout of a store

Which relations a registry calls for: one entity relation for each table, then one join relation for
each declared join. An entity relation has the columns id and name, one key column for each declared
parent, the columns of its table and the editable columns, in this order. The key columns and the
columns of joins get an index.
-/

namespace SoarProject

namespace Registry

/-- The columns that refer to parents. -/
def keyColumns (r : Registry) (t : Table) : List Column :=
  (r.parentsOf t).map fun p => ⟨p.idName, .integer⟩

/-- The columns of a table after its id. -/
def columnsOf (r : Registry) (t : Table) : List Column :=
  ⟨"name", .name⟩ :: r.keyColumns t ++
    t.columns.map (fun (name, type) => ⟨name, .ofColumnType type⟩) ++
    (r.editableColumnsOf t).map fun c => ⟨c.name, .ofColumnType c.type⟩

/-- The names of all columns of a table. -/
def columnNamesOf (r : Registry) (t : Table) : List String :=
  "id" :: (r.columnsOf t).map (·.name)

/-- The type of a column of a table, if it has one of that name. -/
def columnType? (r : Registry) (t : Table) (column : String) : Option StoredType :=
  if column = "id" then some .integer
  else ((r.columnsOf t).find? (·.name == column)).map (·.type)

/-- Why a table cannot have columns with these names, where `seen` are those before them. -/
def unusable? (seen : List String) : List String → Option StorageError
  | [] => none
  | name :: rest =>
    if name = "" then some .blankColumn
    else if seen.contains name then some .duplicateColumn
    else unusable? (name :: seen) rest

/-- Why the registry calls for a table that cannot be, if it does. -/
def unusableColumn? (r : Registry) : Option StorageError :=
  Table.all.findSome? fun t => unusable? [] (r.columnNamesOf t)

/-- The relations that the registry calls for, without records, in the order of their creation. -/
def layout (r : Registry) : List (RelationName × Relation) :=
  Table.all.map (fun t => (.entity t, .records (r.columnsOf t) [])) ++
    r.joinedPairs.map (fun (a, b) => (.join a b, .pairs "first_id" "second_id" [])) ++
    r.directedPairs.map fun (a, b) => (.directed a b, .pairs "parent_id" "child_id" [])

/-- The columns of a relation that get an index. -/
def indexedColumns (r : Registry) : RelationName → Relation → List String
  | .entity t, _ => (r.keyColumns t).map (·.name)
  | _, relation => relation.columnNames

end Registry

namespace Store

/-- The words that begin a condition on a whole relation, where a column is expected. -/
def conditionWords : List String := ["check", "foreign", "primary", "unique"]

/-- Why a statement cannot create these columns of a relation, where `seen` are the names before
them. A keyword is no name unless it is quoted; one that begins a condition fails only at the type
after it. -/
def uncreatable? (seen : List String) : List Column → Option StorageError
  | [] => none
  | c :: rest =>
    let name := Identifier.denoted c.name
    if Identifier.isPlain c.name && Identifier.isKeyword name then
      some (.malformed (if conditionWords.contains name then c.type.written else name))
    else if seen.any (Identifier.same name) then some (.duplicateName name)
    else uncreatable? (name :: seen) rest

/-- Why a statement cannot create a relation, if it cannot. -/
def uncreatableColumn? : Relation → Option StorageError
  | .records columns _ => uncreatable? ["id"] columns
  | .pairs .. => none

/-- Create a relation with its indexes. -/
def createIndexed (s : Store) (n : RelationName) (r : Relation) (indexed : List String) : Store :=
  indexed.foldl (fun s column => s.addIndex ⟨n.indexName column, n, [column]⟩) (s.create n r)

/-- Create the relations of a registry that do not exist, up to the first that cannot be created; none
can if the store is not `writable`. -/
def createMissing (registry : Registry) (writable : Bool) :
    List (RelationName × Relation) → Store → Store × Option StorageError
  | [], s => (s, none)
  | (n, r) :: rest, s =>
    if (s.find? n).isSome then createMissing registry writable rest s
    else
      match uncreatableColumn? r with
      | some e => (s, some e)
      | none =>
        if writable then
          createMissing registry writable rest
            (s.createIndexed n r.denoted (registry.indexedColumns n r))
        else (s, some .readOnly)

/-- Create the relations that a registry calls for and that do not exist, in a store that may be
`writable`. Those before one that cannot be created are kept. -/
def createAll (s : Store) (registry : Registry) (writable : Bool) : Store × Option StorageError :=
  createMissing registry writable registry.layout s

/-- The number of all records and pairs. -/
def size (s : Store) : Nat :=
  s.relations.foldr (fun e n => e.2.size + n) 0

end Store

end SoarProject
