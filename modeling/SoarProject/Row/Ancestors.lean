import SoarProject.Row.Children

/-!
# Ancestors of rows

The way up from a row: along the key columns to structural parents, and for nodes of a datamap along
directed joins. Rows may refer to each other in cycles; a walk ends where it meets a row again.
-/

namespace SoarProject

/-- The name of the root in the path of a datamap node. -/
def rootPathName : String := "<s>"

namespace Row

/-- The tables that the key columns refer to. -/
def parentTables (r : Row) : Query (List Table) := return (← Query.registry).parentsOf r.table

/-- The row that a key column refers to, if it exists. -/
def parentRow? (parent : Table) (key : Cell) : Query (Option Row) := do
  if key = .null then return none
  return if ← Row.isStored ⟨parent, key⟩ then some ⟨parent, key⟩ else none

/-- The existing rows that the key columns refer to, in order of declaration. -/
def parentRows (r : Row) : Query (List Row) := do
  let parents ← r.parentTables
  if parents.isEmpty then return []
  match ← r.record? (parents.map (·.idName)) with
  | none => return []
  | some record => return (← parents.mapM fun p => parentRow? p (record.get p.idName)).reduceOption

/-- Whether the row has a structural parent. -/
def hasParentRows (r : Row) : Query Bool := return !(← r.parentRows).isEmpty

/-- Walk up from a row that is not what is looked for. -/
def climb (t : Option Table) : Nat → List Row → Row → Query (Option Row)
  | 0, _, _ => return none
  | fuel + 1, visited, r => do
    let stop (last : Row) := if t.isNone then some last else none
    match ← r.parentRows with
    | [] => return stop r
    | next :: _ =>
      if next ∈ visited then return stop next
      if t = some next.table then return some next
      climb t fuel (next :: visited) next

/-- The first row of a table on the way up, or without a table the last row. -/
def topLevelRow (r : Row) (t : Option Table) : Query (Option Row) := do
  if t = some r.table then return some r
  let size := (← read).size
  climb t (size + 1) [r] r

/-- The next row on the way up. From a node of a datamap that has no structural parent, directed
joins lead on. -/
def next? (r : Row) : Query (Option Row) := do
  match ← r.parentRows with
  | parent :: _ => return some parent
  | [] =>
    if r.table.isDatamap then return (← r.parentJoinedRows).head?
    return none

/-- Walk up to a row of a table. -/
def climbTo (t : Table) : Nat → List Row → Row → Query (Option Row)
  | 0, _, _ => return none
  | fuel + 1, visited, r => do
    if r ∈ visited then return none
    if r.table = t then return some r
    match ← r.next? with
    | none => return none
    | some next => climbTo t fuel (r :: visited) next

/-- The first row of a table on the way up, along directed joins too. -/
def ancestorRow (r : Row) (t : Table) : Query (Option Row) := do
  let size := (← read).size
  climbTo t (size + 2) [] r

end Row

/-- The path of the node with these names from the root of its datamap. All of them must be texts. -/
def joinedPath (names : List Value) : Except Failure String :=
  match names.findIdx? (!·.isSomeText) with
  | some i => .error (.nameNotText (i + 1) ((names[i]?.getD .null).kindName))
  | none => .ok (".".intercalate (rootPathName :: names.map Value.shown))

namespace View

/-- The names on the way up from a view along directed joins, the topmost first. The topmost row
itself is not named. -/
def namesAbove : Nat → List Row → View → Query (List Value × View)
  | 0, _, v => return ([], v)
  | fuel + 1, visited, v => do
    if v.row ∈ visited then return ([], v)
    match ← v.row.parentJoinedRows with
    | [] => return ([], v)
    | parent :: _ =>
      let (name, v) ← v.name
      let (above, _) ← namesAbove fuel (v.row :: visited) parent.view
      return (above ++ [name], v)

/-- A view as it is once its path was asked for, even if that failed: it remembers its name if it is
joined below a row. -/
def onPath (v : View) : Query View := do
  if ← v.row.hasParentJoinedRows then return (← v.name).2 else return v

/-- The attribute names from the root of a datamap down to a node. -/
def pathAttributes (v : View) : Query (List Value × View) := do
  let size := (← read).size
  namesAbove (size + 2) [] v

/-- The path of a node from the root of its datamap. -/
def pathName (v : View) : Query (String × View) := do
  let (names, v) ← v.pathAttributes
  return (← joinedPath names, v)

end View

namespace ViewChange

/-- The attribute names from the root of a datamap down to the node. -/
def pathAttributes : ViewChange (List Value) := do
  through fun v => return ((), ← v.onPath)
  through fun v => liftM v.pathAttributes

/-- The path of the node from the root of its datamap. -/
def pathName : ViewChange String := do
  through fun v => return ((), ← v.onPath)
  through fun v => liftM v.pathName

end ViewChange

end SoarProject
