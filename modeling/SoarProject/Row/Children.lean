import SoarProject.Row.Join

/-!
# Children of rows

The structural children of a row are the records whose key columns refer to it. They come table by
table, in the order of declaration, and by ascending ids within a table. A list of children may also
show folders, which group the children or the joined rows of one table.
-/

namespace SoarProject

/-- What a folder groups. -/
inductive FolderKind where
  /-- Structural children. -/
  | children
  /-- Joined rows. -/
  | joins
  deriving DecidableEq

/-- The children or joined rows of a row in one table. -/
structure Folder where
  /-- What it groups. -/
  kind : FolderKind
  /-- The row. -/
  row : Row
  /-- The table. -/
  table : Table
  deriving DecidableEq

/-- An entry in a list of children. -/
inductive Child where
  | row (row : Row)
  | folder (folder : Folder)
  deriving DecidableEq

/-- What a list of children shows. -/
structure ChildOptions where
  /-- Folders for the tables that are shown in folders. -/
  folders : Bool := false
  /-- The children in such tables. -/
  childrenInFolders : Bool := true
  /-- Folders for undirected joins. -/
  joins : Bool := false
  /-- Folders for directed joins. -/
  directedJoins : Bool := false
  /-- Children that are nodes of a datamap. -/
  datamapNodes : Bool := true

namespace Row

/-- The tables that the children belong to. -/
def childTables (r : Row) : Query (List Table) := return (← Query.registry).childrenOf r.table

/-- The children in one table. -/
def childrenOfType (r : Row) (t : Table) : Query (List Row) := do
  if t ∉ (← r.childTables) then return []
  return (← Query.ask (·.recordsWhere t ["id"] r.table.idName r.id)).map fun c => .ofId t c.id

/-- All children. -/
def structuralChildren (r : Row) : Query (List Row) := do
  return (← (← r.childTables).mapM r.childrenOfType).flatten

/-- Whether there are children in a table. -/
def hasChildrenOfType (r : Row) (t : Table) : Query Bool :=
  return !(← r.childrenOfType t).isEmpty

/-- Whether a list of children may show anything. -/
def hasChildren (r : Row) : Query Bool := do
  if ← (← r.childTables).anyM r.hasChildrenOfType then return true
  let registry ← Query.registry
  return !((registry.foldersOf r.table).isEmpty && (registry.joinPartnersOf r.table).isEmpty &&
    (registry.directedChildrenOf r.table).isEmpty)

/-- Folders for the directed joins of a row. -/
def directedFolders (r : Row) : Query (List Folder) :=
  return ((← Query.registry).directedChildrenOf r.table).map (⟨.joins, r, ·⟩)

/-- The list of children. -/
def children (r : Row) (options : ChildOptions) : Query (List Child) := do
  let registry ← Query.registry
  let ofTable (t : Table) : Query (List Child) := do
    let inFolder := t ∈ registry.foldersOf r.table
    let folders := if inFolder && options.folders then [Child.folder ⟨.children, r, t⟩] else []
    if (!inFolder || options.childrenInFolders) && (!t.isDatamap || options.datamapNodes) then
      return folders ++ (← r.childrenOfType t).map .row
    return folders
  let rows := (← (← r.childTables).mapM ofTable).flatten
  let joins := if options.joins then
    (registry.joinPartnersOf r.table).map fun t => Child.folder ⟨.joins, r, t⟩ else []
  let directedFolders ← r.directedFolders
  let directedJoins := if options.directedJoins then directedFolders.map Child.folder else []
  return rows ++ joins ++ directedJoins

end Row

/-! ### Descendants -/

/-- A walk below a row. -/
structure Walk where
  /-- The rows that it is below, the last one first, each with the children that it has not come to. -/
  stack : List (Row × List Row)
  /-- The rows that it has come to. -/
  visited : List Row
  /-- The rows that it has found. -/
  found : List Row

namespace Walk

/-- Go on to the next child, unless the walk has come to it before. A row without any more children is left;
it is found if it belongs to the table and is not the one that the walk began at. -/
def step (t : Table) (walk : Walk) : Query Walk :=
  match walk.stack with
  | [] => return walk
  | (r, []) :: stack =>
    let isFound := !stack.isEmpty && r.table = t
    return { walk with stack, found := if isFound then walk.found ++ [r] else walk.found }
  | (r, c :: rest) :: stack => do
    if c ∈ walk.visited then return { walk with stack := (r, rest) :: stack }
    let children ← c.structuralChildren
    return { walk with stack := (c, children) :: (r, rest) :: stack, visited := c :: walk.visited }

/-- Go on until every row is left, for some steps at most. -/
def run (t : Table) : Nat → Walk → Query Walk
  | 0, walk => return walk
  | steps + 1, walk => do
    if walk.stack.isEmpty then return walk
    run t steps (← walk.step t)

end Walk

namespace Row

/-- Walk below a row, in as many steps as the rows and keys of the store may need. -/
def walkBelow (r : Row) (t : Table) : Query Walk := do
  let size := (← read).size
  let children ← r.structuralChildren
  Walk.run t ((size + 1) * (size + 1)) { stack := [(r, children)], visited := [r], found := [] }

/-- All descendants in a table, each after its own descendants. -/
def descendants (r : Row) (t : Table) : Query (List Row) := return (← r.walkBelow t).found

end Row

namespace Folder

/-- The name of a folder. -/
def name (f : Folder) : String := f.table.tableName

/-- The rows in a folder. -/
def rows (f : Folder) : Query (List Row) :=
  match f.kind with
  | .children => f.row.childrenOfType f.table
  | .joins => f.row.joinedRows f.table

/-- Whether a folder holds rows. -/
def hasRows (f : Folder) : Query Bool := return !(← f.rows).isEmpty

end Folder

end SoarProject
