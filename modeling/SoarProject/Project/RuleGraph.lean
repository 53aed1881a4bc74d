import SoarProject.Row.Creation
import SoarProject.Rule.Loose

/-!
# Storing the parts of a rule

The outline of a production becomes records: each entry one record, below the record of the part
that it belongs to, in the order in which the parts are written. The production itself is the rule.
-/

namespace SoarProject

open Rule

mutual

/-- Store an outline below a row. -/
def storeOutline (parent : Row) : Outline → Change Unit
  | .entry _ e children => do
    if e.table ∉ (← parent.childTables) then
      throw (.noChildTableForPart e.table parent.table)
    let id ← parent.insertChild e.table (e.columns ++ [("name", e.name)])
    storeOutlines (.ofId e.table id) children
  | .faulty _ failure => throw failure
  | .foreign kind => throw (.noTableForPart kind)

/-- Store outlines one after the other. -/
def storeOutlines (parent : Row) : List Outline → Change Unit
  | [] => return
  | o :: rest => do
    storeOutline parent o
    storeOutlines parent rest

end

/-- Store a production as a rule. -/
def storeProduction (target : Row) (p : Production) : Change Unit := do
  if target.table ≠ .rules then throw (.productionOutsideRule target.table target.id)
  storeOutlines target p.parts

/-- Store a loose part below a row. A production can only be stored as a rule. -/
def storePart (target : Row) (part : Value) : Change Unit := do
  match part with
  | .part .production _ =>
    if target.table ≠ .rules then throw (.productionOutsideRule target.table target.id)
    storeOutlines target (← Change.ofExcept part.outline.describe).2
  | _ => storeOutline target part.outline

end SoarProject
