import SoarProject.Datamap.Correction
import SoarProject.Datamap.Extraction

/-!
# Generating datamaps

The rules that belong to a problem space are those joined to it or to one of its operators. From
their triples the datamap gets what it lacks.
-/

namespace SoarProject

/-- The rules that belong to a problem space. -/
def relatedRules (problemSpace : Row) : Query (List Row) := do
  let own ← problemSpace.joinedRows .rules
  let ofOperators ← (← problemSpace.joinedRows .operators).mapM (·.joinedRows .rules)
  return Row.distinct (own ++ ofOperators.flatten)

/-- The triples of some rules, linked rule by rule. -/
def ruleTriples (rules : List Row) : Query Network := do
  return .concat ((← rules.mapM fun r => extractTriples r.view).map (·.1))

/-- The root of a problem space's datamap, created if it is missing. -/
def ensureRoot : ViewChange View := do
  let problemSpace ← ViewChange.row
  match ← problemSpace.datamapRoot? with
  | some root => return root.view
  | none => return (← problemSpace.createChild .datamapIdentifiers (← ViewChange.name))

/-- Add what the rules of a problem space use and its datamap lacks. Of the proposed corrections only
those that `select` keeps are applied; gives these. -/
def generateDatamap (select : List Correction → List Correction) : ViewChange (List Correction) := do
  let root ← ensureRoot
  let network ← ruleTriples (← relatedRules (← ViewChange.row))
  let proposed ← Correction.propose root network network.terminalPaths
  let applied ← Change.batch .databaseChanged (Correction.applyAll (select proposed))
  let _ ← ViewChange.name
  return applied

/-- Generate the datamap of every problem space of an agent. -/
def generateDatamaps (agent : Row) : Change (List (Row × List Correction)) := do
  (← agent.childrenOfType .problemSpaces).mapM fun p => do
    return (p, (← (generateDatamap id).on p.view).1)

end SoarProject
