import SoarProject.Row.Ancestors

/-!
# Deleting rows

Deleting the children of a row deletes its structural descendants. A row that is joined below a
deleted one goes too, once it has neither a structural parent nor another row that it is joined
below. Cycles of joined rows that nothing else refers to stay.
-/

namespace SoarProject

namespace Row

/-- Delete the record of a row and its joins. -/
def delete (r : Row) : Change Unit := do
  r.removeAllJoins
  Change.mutate fun store => return (← store.deleteRecord r.table r.id, ())

/-- Whether nothing holds the row: it has no structural parent and is joined below no row. -/
def isOrphan (r : Row) : Query Bool := do
  if ← r.hasParentJoinedRows then return false
  return !(← r.hasParentRows)

/-- Delete what is below a row, and with `own` the row itself. Each step down follows a key column or
a join that it removes, so that `fuel` need not be more than the records times the joins. -/
def deleteBelow : Nat → Row → Bool → Change Unit
  | 0, _, _ => throw .endless
  | fuel + 1, r, own => do
    (← r.structuralChildren).forM fun c => deleteBelow fuel c true
    (← r.directedChildren).forM fun c => do
      r.directedUnjoin c
      if ← c.isOrphan then deleteBelow fuel c true
    if own then r.delete

/-- Delete the children of a row, and with `own` the row itself. -/
def deleteChildren (r : Row) (own : Bool) : Change Unit := do
  let size := (← get).size
  deleteBelow ((size + 1) * (size + 1)) r own

end Row

end SoarProject
