import SoarProject.Datamap.Generation
import SoarProject.Progress
import SoarProject.Text.Like

/-!
# Searching rules

Rules are found by a piece of their name or text, or by the attribute path of a datamap node that
they use.
-/

namespace SoarProject

/-- Whether a cell is a text that fits a pattern. -/
def Cell.isLike (pattern : List Char) : Cell → Bool
  | .text s => Text.like pattern s.toList
  | _ => false

/-- The rules whose name or text fits the pattern around a query. -/
def searchText (query : Value) : Query (List Row) := do
  let pattern := '%' :: query.shown.toList ++ ['%']
  let records ← Query.ask (·.records .rules ["id", "name", "raw_text"])
  let found := records.filter fun r =>
    (r.get "name").isLike pattern || (r.get "raw_text").isLike pattern
  return found.map fun r => .ofId .rules r.id

/-- What a search by a datamap node gives. -/
structure AttributeSearch where
  /-- The rules that were found. -/
  rules : List Row
  /-- What the search reported on its way. -/
  reports : List ProgressReport

/-- Whether a rule uses the attributes of a path. -/
def usesPath (attributes : List String) (rule : View) : Query Bool := do
  let (network, _) ← extractTriples rule
  return (List.range network.size).any (network.matchesPath · attributes)

/-- The rules that use the attribute path of a datamap node: those of its problem space, or of all
rules if it belongs to none. -/
def searchAttribute : ViewChange AttributeSearch := do
  let attributes ← ViewChange.pathAttributes
  let rules ← match ← (← ViewChange.row).ancestorRow .problemSpaces with
    | some problemSpace => relatedRules problemSpace
    | none => Query.rowsOf .rules
  let path ← ViewChange.pathName
  let results ← rules.mapM fun r => do
    let (name, rule) ← r.view.name
    return (r, name, ← usesPath (attributes.map Value.shown) rule)
  let reports := results.flatMap fun (_, name, _) => [.subTask name, .worked (.int 1)]
  return {
    rules := (results.filter (·.2.2)).map (·.1)
    reports := .beginTask (.text ("Searching for " ++ path)) (.int rules.length) :: reports ++ [.done] }

end SoarProject
