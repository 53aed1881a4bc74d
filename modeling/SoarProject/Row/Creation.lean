import SoarProject.Row.Join
import SoarProject.Row.Children

/-!
# Creating rows

A new row becomes a structural child of a row, or is joined below it. Either way it gets its
automatic children, and they theirs.
-/

namespace SoarProject

namespace Row

/-- Insert a record whose key column refers to a parent; gives its id. -/
def insertChild (parent : Row) (t : Table) (values : List (String × Value)) : Change Int := do
  if t ∉ (← parent.childTables) then throw (.notAChild t parent.table)
  Change.insert t (values ++ [(parent.table.idName, parent.id.toValue)])

/-- Insert a record whose key column refers to a parent; gives its id as it was handed in, or the new
one. -/
def insertChildGivingKey (parent : Row) (t : Table) (values : List (String × Value)) :
    Change Value :=
  return handedKey values (← parent.insertChild t values)

/-- The name of an automatic child. -/
def automaticName (t : Table) : Value := .text ("New " ++ t.shortName)

/-- Create a child with its automatic children; `fuel` bounds how deep these go. -/
def createWithin : Nat → Row → Table → Value → Change Row
  | 0, _, _, _ => throw .endless
  | fuel + 1, parent, t, name => do
    if t ∉ (← parent.childTables) then throw (.noChildTable t parent.table)
    let child := Row.ofId t (← parent.insertChild t [("name", name)])
    ((← Query.registry).automaticChildrenOf t).forM fun a => do
      let _ ← createWithin fuel child a (automaticName a)
    return child

/-- How deep automatic children may go: no table can follow itself. -/
def automaticDepth : Nat := Table.all.length + 1

/-- Create the automatic children of a new row. -/
def createAutomaticChildren (r : Row) : Change Unit := do
  ((← Query.registry).automaticChildrenOf r.table).forM fun a => do
    let _ ← createWithin automaticDepth r a (automaticName a)

/-- Create a child with its automatic children. -/
def createChild (parent : Row) (t : Table) (name : Value) : Change View := do
  return (← createWithin automaticDepth parent t name).named name

/-- Create a row that is joined below another one, with its automatic children. -/
def createJoinedChild (parent : Row) (t : Table) (name : Value) : Change View := do
  if !(← Query.registry).areDirectedJoined parent.table t then
    throw (.notDirectedJoined t parent.table)
  let child := Row.ofId t (← Change.insert t [("name", name)])
  directedJoin parent child
  child.createAutomaticChildren
  return child.named name

end Row

end SoarProject
