import SoarProject.Row.Basic

/-!
# Joins

Undirected joins connect two rows of joined tables; directed joins put a row below another one. A
join is recorded as a pair of ids, in the order in which the tables were declared. The two rows of a
join within one table may stand in either order. Whatever stands in a pair is taken for an id.
-/

namespace SoarProject

/-- The pairs of a join relation that meet a condition on some ids. -/
def Query.pairsWhere (n : RelationName) (keys : List Cell) (p : CellPair → Bool) :
    Query (List CellPair) :=
  Query.ask fun store => do
    let rows ← store.pairs n
    keys.forM Store.checkKey
    return rows.filter p

/-- Remove the pairs of a join relation that meet a condition on some ids. -/
def Change.removePairs (n : RelationName) (keys : List Cell) (p : CellPair → Bool) :
    Change Unit :=
  Change.mutate fun store => return (← store.removePairs n keys p, ())

namespace Row

/-! ### Directed joins -/

/-- The rows of a table that are joined below this one. -/
def directedChildrenOfType (r : Row) (t : Table) : Query (List Row) := do
  if !(← Query.registry).areDirectedJoined r.table t then return []
  return (← Query.pairsWhere (.directed r.table t) [r.id] fun p => r.id.identifies p.1).map
    fun p => ⟨t, p.2⟩

/-- All rows that are joined below this one. -/
def directedChildren (r : Row) : Query (List Row) := do
  return (← ((← Query.registry).directedChildrenOf r.table).mapM r.directedChildrenOfType).flatten

/-- All rows that this one is joined below. -/
def parentJoinedRows (r : Row) : Query (List Row) := do
  let rows (t : Table) : Query (List Row) := do
    return (← Query.pairsWhere (.directed t r.table) [r.id] fun p => r.id.identifies p.2).map
      fun p => ⟨t, p.1⟩
  return (← ((← Query.registry).directedParentsOf r.table).mapM rows).flatten

/-- Whether this row is joined below another one. -/
def hasParentJoinedRows (r : Row) : Query Bool := return !(← r.parentJoinedRows).isEmpty

/-- Whether the child is joined below the parent. -/
def directedJoined (parent child : Row) : Query Bool := do
  if !(← Query.registry).areDirectedJoined parent.table child.table then return false
  return !(← Query.pairsWhere (.directed parent.table child.table) [parent.id, child.id]
    (CellPair.identifies (parent.id, child.id))).isEmpty

/-- Join the child below the parent, unless it is there already or their tables have no directed
join. -/
def directedJoin (parent child : Row) : Change Unit := do
  if !(← Query.registry).areDirectedJoined parent.table child.table then return
  if ← directedJoined parent child then return
  Change.mutate fun store =>
    return (← store.addPair (.directed parent.table child.table) (parent.id, child.id), ())

/-- End a directed join. -/
def directedUnjoin (parent child : Row) : Change Unit := do
  if !(← Query.registry).areDirectedJoined parent.table child.table then return
  Change.removePairs (.directed parent.table child.table) [parent.id, child.id]
    (CellPair.identifies (parent.id, child.id))

/-! ### Undirected joins -/

/-- The declared order of the tables of two rows, which must be joined. -/
def joinOrder (first second : Row) : Query (Table × Table) := do
  match (← Query.registry).orderJoined? first.table second.table with
  | some order => return order
  | none => throw (.notJoined first.table second.table)

/-- The pair that records a join of two rows, where the tables are declared in this order. -/
def joinPair (order : Table × Table) (first second : Row) : CellPair :=
  if order.1 = first.table then (first.id, second.id) else (second.id, first.id)

/-- Whether a pair records a join of two rows; within one table it may stand in either order. -/
def isJoinPair (order : Table × Table) (first second : Row) (p : CellPair) : Bool :=
  (joinPair order first second).identifies p ||
    (order.1 = order.2 && (joinPair order second first).identifies p)

/-- Whether two rows are joined. -/
def joined (first second : Row) : Query Bool := do
  match (← Query.registry).orderJoined? first.table second.table with
  | none => return false
  | some order =>
    return !(← Query.pairsWhere (.join order.1 order.2) [first.id, second.id]
      (isJoinPair order first second)).isEmpty

/-- Join two rows, unless they are joined already. -/
def join (first second : Row) : Change Unit := do
  let order ← joinOrder first second
  if ← joined first second then return
  Change.mutate fun store =>
    return (← store.addPair (.join order.1 order.2) (joinPair order first second), ())

/-- End the join of two rows. -/
def unjoin (first second : Row) : Change Unit := do
  let order ← joinOrder first second
  Change.removePairs (.join order.1 order.2) [first.id, second.id] (isJoinPair order first second)

/-- The ids of the rows joined to the one with this id, from the two columns of the pairs. Within
one table, the pairs that begin with the id come first. -/
def partnerIds (order : Table × Table) (table : Table) (id : Cell) (pairs : List CellPair) :
    List Cell :=
  let after := (pairs.filter fun p => id.identifies p.1).map (·.2)
  let before := (pairs.filter fun p => id.identifies p.2).map (·.1)
  if order.1 = order.2 then after ++ before else if order.1 = table then after else before

/-- The rows of a list without repetitions, each at its first place. -/
def distinct (rows : List Row) : List Row :=
  rows.foldl (fun kept r => if r ∈ kept then kept else kept ++ [r]) []

/-- The rows of a table that are joined to this one, and then those below it. -/
def joinedRows (r : Row) (other : Table) : Query (List Row) := do
  let partners ← match (← Query.registry).orderJoined? r.table other with
    | none => pure []
    | some order =>
      let pairs ← Query.pairsWhere (.join order.1 order.2) [r.id] fun _ => true
      pure (partnerIds order r.table r.id pairs)
  return distinct (partners.map (⟨other, ·⟩) ++ (← r.directedChildrenOfType other))

/-- Whether rows of a table are joined to this one or below it. -/
def hasJoinedRows (r : Row) (other : Table) : Query Bool := return !(← r.joinedRows other).isEmpty

/-! ### All joins of a row -/

/-- Whether a pair records a join of the row with this id, which belongs to the table. -/
def touches (order : Table × Table) (table : Table) (id : Cell) (p : CellPair) : Bool :=
  if order.1 = order.2 then id.identifies p.1 || id.identifies p.2
  else if order.1 = table then id.identifies p.1 else id.identifies p.2

/-- End every join of a row, relation by relation. -/
def removeAllJoins (r : Row) : Change Unit := do
  let registry ← Query.registry
  (registry.joinPartnersOf r.table).forM fun partner =>
    match registry.orderJoined? r.table partner with
    | none => pure ()
    | some order => Change.removePairs (.join order.1 order.2) [r.id] (touches order r.table r.id)
  (registry.directedParentsOf r.table).forM fun parent =>
    Change.removePairs (.directed parent r.table) [r.id] fun p => r.id.identifies p.2
  (registry.directedChildrenOf r.table).forM fun child =>
    Change.removePairs (.directed r.table child) [r.id] fun p => r.id.identifies p.1

end Row

end SoarProject
