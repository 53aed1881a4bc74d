import SoarProject.Datamap.Triple
import SoarProject.Row.Children

/-!
# Triples of a stored rule

The triples of a rule are read off its stored parts, conditions before actions. An attribute path
with dots gives one triple for each step, through variables of its own. Attributes that are not
plain symbols, tests without a value and values of function calls give no triples.
-/

namespace SoarProject

/-- A value in a rule, with its kind. -/
abbrev TypedValue := TripleKind × String

namespace Row

/-- The first child in a table. -/
def firstChild? (r : Row) (t : Table) : Query (Option Row) :=
  return (← r.childrenOfType t).head?

/-- A variable that a record keeps; the empty text stands for none. -/
def storedVariable? (r : Row) : Query (Option String) := do
  let name ← r.column "variable"
  return if name.isTrue then some name.shown else none

/-- The kind of a constant and the column of its value. -/
def constantKind? : Cell → Option (TripleKind × String)
  | .int 0 => some (.integer, "integer_const")
  | .int 1 => some (.float, "floating_const")
  | .int 2 => some (.string, "symbolic_const")
  | _ => none

/-- The value of a constant. -/
def constantValue? (r : Row) : Query (Option TypedValue) := do
  match constantKind? (← r.column "constant_type") with
  | none => return none
  | some (kind, column) =>
    match ← r.column column with
    | .null => return none
    | cell => return some (kind, cell.shown)

/-- The value of the first constant below a row. -/
def firstConstantValue? (r : Row) : Query (Option TypedValue) := do
  match ← r.firstChild? .constants with
  | none => return none
  | some c => c.constantValue?

/-- The value of a test for one value. -/
def singleTestValue? (r : Row) : Query (Option TypedValue) := do
  if (← r.column "is_constant").isTrue then r.firstConstantValue?
  else return (← r.storedVariable?).map (.identifier, ·)

/-- The values of a disjunction, each as a text. -/
def disjunctionValues (r : Row) : Query (List TypedValue) := do
  let values ← (← r.childrenOfType .constants).mapM constantValue?
  return values.reduceOption.map fun (_, text) => (.string, text)

/-- The values of a simple test. -/
def simpleTestValues (r : Row) : Query (List TypedValue) := do
  if (← r.column "is_disjunction_test").isTrue then
    match ← r.firstChild? .disjunctionTests with
    | none => return []
    | some d => d.disjunctionValues
  else
    match ← r.firstChild? .relationalTests with
    | none => return []
    | some relational =>
      match ← relational.firstChild? .singleTests with
      | none => return []
      | some single => return (← single.singleTestValue?).toList

/-- The first variable among the values of a conjunction; all values if there is none. -/
def conjunctionValues (values : List TypedValue) : List TypedValue :=
  match values.find? (·.1 == .identifier) with
  | some v => [v]
  | none => values

/-- The values of a test. -/
def testValues (r : Row) : Query (List TypedValue) := do
  if (← r.column "is_conjunctive_test").isTrue then
    match ← r.firstChild? .conjunctiveTests with
    | none => return []
    | some c =>
      let tests ← c.childrenOfType .simpleTests
      return conjunctionValues (← tests.mapM simpleTestValues).flatten
  else
    match ← r.firstChild? .simpleTests with
    | none => return []
    | some s => s.simpleTestValues

/-- The values of the first test below a row. -/
def firstTestValues (r : Row) : Query (List TypedValue) := do
  match ← r.firstChild? .tests with
  | none => return []
  | some t => t.testValues

/-- The attribute that a test names, if it is one symbol. -/
def testedAttribute? (r : Row) : Query (Option String) := do
  match ← r.firstTestValues with
  | [(.string, name)] => return some name
  | _ => return none

/-- A value on the right side of a rule. -/
def rhsValue? (r : Row) : Query (Option TypedValue) := do
  if (← r.column "is_variable").isTrue then return (← r.storedVariable?).map (.identifier, ·)
  if (← r.column "is_constant").isTrue then r.firstConstantValue?
  else return none

/-- The attribute that a value on the right side names, if it is one symbol. -/
def rhsAttribute? (r : Row) : Query (Option String) := do
  match ← r.rhsValue? with
  | some (.string, name) => return some name
  | _ => return none

end Row

/-- The attributes along a path; nothing if one of the steps is no plain attribute. -/
def attributePath (read : Row → Query (Option String)) : List Row → Query (Option (List String))
  | [] => return some []
  | r :: rest => do
    match ← read r with
    | none => return none
    | some name => return (← attributePath read rest).map (name :: ·)

/-- The triples along a path of attributes to its values. -/
def pathTriples (subject : String) (values : List TypedValue) : List String → List Triple
  | [] => []
  | [name] => values.map fun (kind, value) => ⟨subject, name, .text value, kind, false⟩
  | name :: rest =>
    let next := subject ++ "*" ++ name
    ⟨subject, name, .text next, .identifier, false⟩ :: pathTriples next values rest

/-- The triples of one test or one make: its attribute path and its values, both read from rows.
Without values there is no path either. -/
def attributeTriples (subject : String) (path : List Row) (attribute? : Row → Query (Option String))
    (values : Query (List TypedValue)) : Query (List Triple) := do
  match ← attributePath attribute? path with
  | none | some [] => return []
  | some names =>
    match ← values with
    | [] => return []
    | values => return pathTriples subject values names

/-- The triples of the tests of one attribute. -/
def testTriples (subject : String) (r : Row) : Query (List Triple) := do
  attributeTriples subject (← r.childrenOfType .attributeTests) Row.testedAttribute? do
    return (← (← r.childrenOfType .valueTests).mapM Row.firstTestValues).flatten

/-- The triples of what is made of one attribute. -/
def makeTriples (subject : String) (r : Row) : Query (List Triple) := do
  attributeTriples subject (← r.childrenOfType .rhsValues) Row.rhsAttribute? do
    let values ← (← r.childrenOfType .valueMakes).mapM fun m => do
      match ← m.firstChild? .rhsValues with
      | none => return none
      | some v => v.rhsValue?
    return values.reduceOption

/-- The triples of all rows in a table below a rule that name a variable. -/
def triplesBelow (rule : Row) (holders parts : Table)
    (triples : String → Row → Query (List Triple)) : Query (List Triple) := do
  let lists ← (← rule.descendants holders).mapM fun r => do
    match ← r.storedVariable? with
    | none => return []
    | some subject => return (← (← r.childrenOfType parts).mapM (triples subject)).flatten
  return lists.flatten

/-- The variables that a rule binds to a state. -/
def stateVariables (rule : Row) : Query (List String) := do
  let names ← (← rule.descendants .conditionForOneIdentifiers).mapM fun r => do
    if (← r.column "has_state").isTrue then r.storedVariable? else return none
  return names.reduceOption

/-- The triples of a list, of several with the same access only the first. -/
def distinctTriples (ts : List Triple) : List Triple :=
  ts.foldl (fun kept t => if kept.any (·.same t) then kept else kept ++ [t]) []

/-- The linked triples of a rule; the view remembers its name. -/
def extractTriples (rule : View) : Query (Network × View) := do
  let states ← stateVariables rule.row
  let tests ← triplesBelow rule.row .conditionForOneIdentifiers .attributeValueTests testTriples
  let makes ← triplesBelow rule.row .varAttrValMakes .attributeValueMakes makeTriples
  let triples := (distinctTriples (tests ++ makes)).map fun t =>
    { t with isState := states.contains t.subject }
  return (.link triples, (← rule.name).2)

end SoarProject
