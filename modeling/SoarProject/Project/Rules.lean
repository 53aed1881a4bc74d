import SoarProject.Project.RuleGraph
import SoarProject.Row.Deletion
import SoarProject.Rule.Framing
import SoarProject.Rule.Source

/-!
# Agents and their rules

Agents own problem spaces, operators and rules. The text of a rule is kept as it was given; if it
reads as a production, its parts are stored below the rule and the rule takes the production's name.
Importing a source file makes a rule of each production in it, also of one that does not read.
-/

namespace SoarProject

open Rule

/-- Create an agent. -/
def createAgent (name : Value) : Change View := do
  return (Row.ofId .agents (← Change.insert .agents [("name", name)])).view

/-- Create a problem space; the root of its datamap comes with it. -/
def createProblemSpace (agent : Row) (name : Value) : Change View :=
  agent.createChild .problemSpaces name

/-- Create an operator. -/
def createOperator (agent : Row) (name : Value) : Change View := agent.createChild .operators name

/-- Create a rule that keeps a text without reading it. -/
def createRule (agent : Row) (name text : Value) : Change View := do
  (← agent.createChild .rules name).update "raw_text" text

/-- Replace the stored parts of a rule by those of a production, and take its name. -/
def replaceParts (p : Production) : ViewChange Unit := do
  let rule ← ViewChange.row
  rule.deleteChildren false
  if !(← ViewChange.name).isText p.name then ViewChange.rename (.text p.name)
  storeProduction rule p

/-- Give a rule a new text. The text is kept in any case; the stored parts are replaced only if it
reads as a production. Whether it does or not, one event is announced. -/
def saveRuleText (text : String) : ViewChange Unit := do
  ViewChange.suppressing (ViewChange.update "raw_text" (.text text))
  match parseProduction text with
  | .error (.parse e) =>
    Change.announce .databaseChanged
    throw (.parse e)
  | .error (.integerTooLong digits) => throw (.integerTooLong digits)
  | .ok p =>
    ViewChange.batch .databaseChanged (replaceParts p)
    let _ ← ViewChange.name

/-- Give a rule a new text, which may be any value. What is no text is kept all the same. -/
def saveRule : Value → ViewChange Unit
  | .text source => saveRuleText source
  | v => do
    ViewChange.suppressing (ViewChange.update "raw_text" v)
    throw (.ruleNotText v.kindName)

/-- Save the text of a new rule; a text that does not read leaves the rule without parts. -/
def saveNewRule (rule : View) (text : String) : Change View := do
  let saving : ViewChange Unit := tryCatch (saveRuleText text) fun
    | .parse _ => return
    | failure => throw failure
  return (← saving.on rule).2

/-- Create rules for productions, where `count` rules were created before. -/
def importProductions (agent : Row) : Nat → List String → Change (List View)
  | _, [] => return []
  | count, text :: rest => do
    let name := (productionName? text).getD ("rule-" ++ toString (count + 1))
    let rule ← saveNewRule (← createRule agent (.text name) (.text text)) text
    return rule :: (← importProductions agent (count + 1) rest)

/-- Create one rule for each production of a source file; gives the rules and the agent. -/
def importRules (agent : View) (source : String) : Change (List View × View) := do
  let rules ← Change.batch .databaseChanged do
    match splitProductions source with
    | .error e => throw (.parse e)
    | .ok texts => importProductions agent.row 0 texts
  return (rules, (← agent.name).2)

/-- Create one rule for each production of a source, which must be a text. -/
def importFrom (agent : View) : Value → Change (List View × View)
  | .text source => importRules agent source
  | v => throw (.sourceNotText v.kindName)

/-! ### Source files -/

/-- A text with every line break written as one character. -/
def plainLines : List Char → List Char
  | '\r' :: '\n' :: rest => '\n' :: plainLines rest
  | '\r' :: rest => '\n' :: plainLines rest
  | c :: rest => c :: plainLines rest
  | [] => []

/-- The last step of a path. -/
def fileName (path : String) : String :=
  ((path.splitOn "/").filter fun step => step ≠ "" ∧ step ≠ ".").getLast?.getD ""

/-- The name of a file without its last extension. -/
def fileStem (path : String) : String :=
  let name := (fileName path).toList
  let extension := name.reverse.takeWhile (· != '.')
  let stem := (name.reverse.drop (extension.length + 1)).reverse
  if extension.isEmpty ∨ stem.isEmpty then String.ofList name else String.ofList stem

/-- Create an agent named after a source file and import the rules of the file. -/
def importFile (path : String) : Change View := do
  let source ← Query.sourceText path
  let agent ← createAgent (.text (fileStem path))
  return (← importRules agent (String.ofList (plainLines source.toList))).2

end SoarProject
