import SoarProject.Datamap.Triple
import SoarProject.Row.Ancestors

/-!
# Datamap nodes

The datamap of a problem space shows which attributes its states may have. A node stands for a
triple if it is joined below the node of the triple's variable, carries the attribute's name, and
belongs to the table of the value's kind; a string needs an enumeration that holds it, or a node for
any string.
-/

namespace SoarProject

/-- The table of the nodes for a value of a kind. Strings are kept in enumerations. -/
def TripleKind.nodeTable : TripleKind → Table
  | .identifier => .datamapIdentifiers
  | .integer => .datamapIntegers
  | .float => .datamapFloats
  | .string => .datamapEnumerations

namespace Row

/-- The root of a problem space's datamap. -/
def datamapRoot? (problemSpace : Row) : Query (Option Row) :=
  return (← problemSpace.childrenOfType .datamapIdentifiers).head?

/-- Whether an enumeration holds a value. -/
def hasEnumerationValue (enumeration : Row) (value : Cell) : Query Bool := do
  (← enumeration.childrenOfType .datamapEnumerationValues).anyM fun v => return .text (← v.name) == value

/-- The nodes below a node that could stand for the value of a triple. -/
def candidateNodes (node : Row) (t : Triple) : Query (List Row) := do
  let nodes ← node.directedChildrenOfType t.kind.nodeTable
  if t.kind = .string then
    let holding ← nodes.filterM (·.hasEnumerationValue t.value)
    return holding ++ (← node.directedChildrenOfType .datamapStrings)
  return nodes

/-- The nodes below a node that stand for a triple, with their names remembered. -/
def matchingChildren (node : Row) (t : Triple) : Query (List View) := do
  let named ← (← node.candidateNodes t).mapM fun c => c.view.name
  return (named.filter fun (name, _) => name.isText t.attributeName).map (·.2)

end Row

/-- The nodes that stand for a triple below any of some nodes. -/
def matchingBelow (nodes : List View) (t : Triple) : Query (List View) := do
  return (← nodes.mapM fun v => v.row.matchingChildren t).flatten

/-- The nodes that a path leads to from some nodes. -/
def resolveFrom : List View → List Triple → Query (List View)
  | nodes, [] => return nodes
  | nodes, t :: rest => do
    match ← matchingBelow nodes t with
    | [] => return []
    | found => resolveFrom found rest

/-- The nodes that a path leads to. -/
def Row.resolvePath (root : Row) (path : List Triple) : Query (List Row) := do
  return (← resolveFrom [root.view] path).map (·.row)

end SoarProject
