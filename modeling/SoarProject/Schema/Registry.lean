import SoarProject.Schema.Table

/-!
# Registry of table relations

How tables relate: structural parents, undirected joins, directed joins, children that are created
automatically, editable columns and folders. A registry is the result of a list of declarations;
asking about a relation that was never declared gives an empty answer.

All lists keep the order of first declaration, and a repeated declaration has no effect.
-/

namespace SoarProject

/-- Values grouped by table. Tables stand in the order in which they first got a value. -/
structure Index (α : Type) where
  /-- The groups. -/
  groups : List (Table × List α)

namespace Index

variable {α : Type} [DecidableEq α]

/-- No groups. -/
def empty : Index α := ⟨[]⟩

/-- The values of a table. -/
def get (index : Index α) (t : Table) : List α := (index.groups.lookup t).getD []

/-- Append a value to the group of a table, unless it is there already. -/
def insertGroup (t : Table) (value : α) : List (Table × List α) → List (Table × List α)
  | [] => [(t, [value])]
  | (key, values) :: rest =>
    if key = t then (key, if value ∈ values then values else values ++ [value]) :: rest
    else (key, values) :: insertGroup t value rest

/-- Add a value for a table, unless it is there already. -/
def add (index : Index α) (t : Table) (value : α) : Index α := ⟨insertGroup t value index.groups⟩

/-- Every table with each of its values. -/
def pairs (index : Index α) : List (Table × α) :=
  index.groups.flatMap fun (t, values) => values.map (t, ·)

end Index

/-- One statement about tables. -/
inductive Declaration where
  /-- Records of `child` refer to a record of `parent`. -/
  | parent (child parent : Table)
  /-- Records of the two tables may be joined; the order fixes the columns of the join. -/
  | join (first second : Table)
  /-- Records of `child` may be joined below records of `parent`. -/
  | directedJoin (parent child : Table)
  /-- Each new record of the table gets a child of each of the tables. -/
  | automatic (table : Table) (children : List Table)
  /-- The table has a column that users may edit. -/
  | editable (table : Table) (column : EditableColumn)
  /-- The children of the table in these tables are shown in folders. -/
  | folders (table : Table) (children : List Table)

/-- The relations between the tables of a project. -/
structure Registry where
  /-- The tables a table refers to. -/
  parents : Index Table := .empty
  /-- The tables that refer to a table. -/
  children : Index Table := .empty
  /-- Undirected joins, under the table declared first. -/
  joins : Index Table := .empty
  /-- Directed joins, under the parent. -/
  directedJoins : Index Table := .empty
  /-- Children created with each record. -/
  automaticChildren : Index Table := .empty
  /-- Columns that users may edit. -/
  editableColumns : Index EditableColumn := .empty
  /-- Children shown in folders. -/
  folders : Index Table := .empty

namespace Registry

/-- Take one declaration into account. -/
def declare (r : Registry) : Declaration → Registry
  | .parent child parent =>
    { r with parents := r.parents.add child parent, children := r.children.add parent child }
  | .join first second =>
    if second ∈ r.joins.get first ∨ first ∈ r.joins.get second then r
    else { r with joins := r.joins.add first second }
  | .directedJoin parent child => { r with directedJoins := r.directedJoins.add parent child }
  | .automatic table children =>
    { r with automaticChildren := children.foldl (·.add table ·) r.automaticChildren }
  | .editable table column => { r with editableColumns := r.editableColumns.add table column }
  | .folders table children => { r with folders := children.foldl (·.add table ·) r.folders }

/-- The registry of a list of declarations. -/
def ofDeclarations (ds : List Declaration) : Registry := ds.foldl declare {}

/-! ### Structural children -/

/-- The tables whose records refer to records of `t`. -/
def childrenOf (r : Registry) (t : Table) : List Table := r.children.get t

/-- The tables that records of `t` refer to. -/
def parentsOf (r : Registry) (t : Table) : List Table := r.parents.get t

/-- The tables of the children that a record of `t` gets when it is created. -/
def automaticChildrenOf (r : Registry) (t : Table) : List Table := r.automaticChildren.get t

/-- The columns of `t` that users may edit. -/
def editableColumnsOf (r : Registry) (t : Table) : List EditableColumn := r.editableColumns.get t

/-- The tables whose records are shown in folders below records of `t`. -/
def foldersOf (r : Registry) (t : Table) : List Table := r.folders.get t

/-! ### Undirected joins -/

/-- The tables joined to `t`, whichever was declared first, in order of declaration. -/
def joinPartnersOf (r : Registry) (t : Table) : List Table :=
  r.joins.groups.foldl (fun partners (key, values) =>
    if key = t then values.foldl (fun ps v => if v ∈ ps then ps else ps ++ [v]) partners
    else if t ∈ values ∧ key ∉ partners then partners ++ [key] else partners) []

/-- Two joined tables in the order of their declaration. -/
def orderJoined? (r : Registry) (first second : Table) : Option (Table × Table) :=
  if second ∈ r.joins.get first then some (first, second)
  else if first ∈ r.joins.get second then some (second, first)
  else none

/-- Whether the tables are joined. -/
def areJoined (r : Registry) (first second : Table) : Bool := (r.orderJoined? first second).isSome

/-- The name of the table that records joins of the pair. -/
def joinName (pair : Table × Table) : String :=
  "join_" ++ pair.1.tableName ++ "_" ++ pair.2.tableName

/-- The name of the table that records joins of two tables. -/
def joinName? (r : Registry) (first second : Table) : Option String :=
  (r.orderJoined? first second).map joinName

/-- Every declared undirected join. -/
def joinedPairs (r : Registry) : List (Table × Table) := r.joins.pairs

/-! ### Directed joins -/

/-- The tables that may be joined below `t`. -/
def directedChildrenOf (r : Registry) (t : Table) : List Table := r.directedJoins.get t

/-- The tables that `t` may be joined below. -/
def directedParentsOf (r : Registry) (t : Table) : List Table :=
  (r.directedJoins.groups.filter fun (_, children) => t ∈ children).map (·.1)

/-- Whether `child` may be joined below `parent`. -/
def areDirectedJoined (r : Registry) (parent child : Table) : Bool :=
  decide (child ∈ r.directedJoins.get parent)

/-- The name of the table that records directed joins of two tables. -/
def directedJoinName (parent child : Table) : String :=
  "directed_join_" ++ parent.tableName ++ "_" ++ child.tableName

/-- Every declared directed join, parent first. -/
def directedPairs (r : Registry) : List (Table × Table) := r.directedJoins.pairs

end Registry

/-- A registry under construction. Once it has been handed out it takes no more declarations. -/
structure RegistryBuilder where
  /-- What has been declared. -/
  registry : Registry := {}
  /-- Whether the registry has been handed out. -/
  isSealed : Bool := false

namespace RegistryBuilder

/-- Add a declaration, if the registry has not been handed out. -/
def declare? (b : RegistryBuilder) (d : Declaration) : Option RegistryBuilder :=
  if b.isSealed then none else some { b with registry := b.registry.declare d }

/-- Hand out the registry, once. -/
def build? (b : RegistryBuilder) : Option (Registry × RegistryBuilder) :=
  if b.isSealed then none else some (b.registry, { b with isSealed := true })

end RegistryBuilder

end SoarProject
