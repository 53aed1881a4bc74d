import SoarProject.Datamap.Growth
import SoarProject.Datamap.Resolution
import SoarProject.Row.Creation

/-!
# Corrections of a datamap

A correction is the part of a path that a datamap lacks, and the node where that part begins. To
apply it creates the missing nodes; afterwards the last of them is joined to the nodes of the paths
that end in the same variable.
-/

namespace SoarProject

/-- A triple where another path ends in the same variable. -/
structure PathLink where
  /-- The triple. -/
  triple : Triple
  /-- The paths that lead to it. -/
  paths : List (List Triple)
  deriving DecidableEq

/-- A part of a path that a datamap lacks. -/
structure Correction where
  /-- The node where the part begins. -/
  anchor : View
  /-- The missing part. -/
  addition : List Triple
  /-- Where other paths end in the same variable. -/
  links : List PathLink
  /-- The last node of the part, once the correction was applied. -/
  tail : Option Row := none

namespace Network

/-- A link to the triple at a place. -/
def pathLink (n : Network) (i : Nat) : PathLink := ⟨n.triple i, (n.pathsTo i).map n.steps⟩

end Network

namespace Correction

/-- A correction as a text, through the view of its anchor. -/
def text (c : Correction) : ViewChange String := do
  let path ← ViewChange.pathName
  let links := if c.links.isEmpty then "" else
    ", link with: " ++ Triple.listText (c.links.map (·.triple))
  return path ++ ", add: " ++ String.join (c.addition.map Triple.text) ++ links

/-! ### Proposing -/

/-- The corrections for the rest of a path, which leads on from some nodes. -/
def proposeFrom (links : List PathLink) : List View → List Triple → Query (List Correction)
  | _, [] => return []
  | nodes, t :: rest => do
    match ← matchingBelow nodes t with
    | [] => return nodes.map fun leaf => { anchor := leaf, addition := t :: rest, links }
    | found => proposeFrom links found rest

/-- The corrections that the selected paths of a network call for. -/
def propose (root : View) (n : Network) (paths : List TerminalPath) : Query (List Correction) := do
  return (← paths.mapM fun p =>
    proposeFrom (p.links.map n.pathLink) [root] (n.steps p.path)).flatten

/-! ### Applying -/

/-- The directed child in a table with a name, created if there is none. -/
def ensureJoinedChild (parent : Row) (t : Table) (name : String) : Change Row := do
  let named ← (← parent.directedChildrenOfType t).filterM fun c => return (← c.name) == name
  match named with
  | c :: _ => return c
  | [] => return (← parent.createJoinedChild t (.text name)).row

/-- The node that stands for a triple below a node, created if there is none. -/
def ensureNode (parent : Row) (t : Triple) : Change Row := do
  let node ← ensureJoinedChild parent t.kind.nodeTable t.attributeName
  if t.kind = .string then
    if !(← node.hasEnumerationValue t.value) then
      let _ ← node.createChild .datamapEnumerationValues t.value.toValue
  return node

/-- Create the missing nodes. -/
def apply (c : Correction) : Change Correction := do
  return { c with tail := some (← c.addition.foldlM ensureNode c.anchor.row) }

/-- Join a node to another one, unless it is the same or their tables are not joined. -/
def joinTail (tail node : Row) : Change Unit := do
  if node = tail then return
  if !(← Query.registry).areJoined node.table tail.table then return
  node.join tail

/-- Join the last node to the nodes of the linked paths. -/
def applyLinks (c : Correction) : Change Unit := do
  match c.tail with
  | none => return
  | some tail =>
    if c.links.isEmpty then return
    match ← c.anchor.row.ancestorRow .problemSpaces with
    | none => return
    | some problemSpace =>
      match ← problemSpace.datamapRoot? with
      | none => return
      | some root =>
        (c.links.flatMap (·.paths)).forM fun path => do
          (← root.resolvePath path).forM (joinTail tail)

/-- Apply corrections in turn, up to the first failure. -/
def applyInTurn : List Correction → StateM Session (List Correction × Option Failure)
  | [] => return ([], none)
  | c :: rest => do
    match ← c.apply.run with
    | .error e => return (c :: rest, some e)
    | .ok c =>
      let (rest, failure) ← applyInTurn rest
      return (c :: rest, failure)

/-- Apply corrections and then their links. Gives the corrections as they are afterwards, also if
that failed. -/
def attemptAll (cs : List Correction) : StateM Session (List Correction × Option Failure) := do
  match ← applyInTurn cs with
  | (cs, some e) => return (cs, some e)
  | (cs, none) =>
    match ← (cs.forM applyLinks : Change Unit).run with
    | .error e => return (cs, some e)
    | .ok () => return (cs, none)

/-- Apply corrections and then their links. -/
def applyAll (cs : List Correction) : Change (List Correction) := do
  match ← (attemptAll cs : StateM Session _) with
  | (_, some e) => throw e
  | (cs, none) => return cs

end Correction

end SoarProject
