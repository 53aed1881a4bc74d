import SoarProject.Rule.Place
import SoarProject.Rule.Token

/-!
# Open parts of a production

A reader that is in the middle of a production keeps what is open, with everything complete inside
it. `State` lists the situations, from the heading over conditions, attribute tests and tests to
actions, attribute values and function calls. Conjunctions of conditions and function calls nest, so
these keep a list of what is open around them.
-/

namespace SoarProject.Rule

/-! ### Open parts of a production -/

/-- The name, the documentation and the flags. -/
structure Heading where
  /-- The name. -/
  name : String
  /-- The documentation. -/
  documentation : Option String := none
  /-- The flags. -/
  flags : List String := []

/-- An open left side: the conjunctions that are open around the place, innermost first, each with
its negation and the conditions before it; and the conditions of the innermost level. -/
structure Clauses where
  /-- The heading. -/
  heading : Heading
  /-- The open conjunctions. -/
  enclosing : List (Bool × List Condition) := []
  /-- The conditions of the innermost level. -/
  conditions : List Condition := []

/-- An open condition on one identifier. -/
structure OpenCondition where
  /-- The left side around it. -/
  clauses : Clauses
  /-- Whether the condition is negated. -/
  negated : Bool
  /-- Whether the identifier must be a state. -/
  hasState : Bool
  /-- The variable of the identifier. -/
  variableName : String
  /-- The complete attribute tests. -/
  tests : List AttributeValueTest := []

/-- An open attribute test. -/
structure OpenTest where
  /-- The condition around it. -/
  condition : OpenCondition
  /-- Whether it is negated. -/
  negated : Bool
  /-- The complete steps of the path. -/
  attributes : List AttributeTest := []
  /-- The complete tests of values. -/
  values : List ValueTest := []

/-- Where a test goes: into the path or to the values. -/
inductive TestSlot where
  | path
  | value

/-- The open part of a test. The open conjunctive test around a simple test, if there is one, is
the list of its complete tests. -/
inductive TestPart where
  /-- Nothing has been read of the test. -/
  | start
  /-- Inside a conjunctive test, between simple tests. -/
  | conjunctive (tests : List SimpleTest)
  /-- After a relational sign. -/
  | relation (around : Option (List SimpleTest)) (code : Int)
  /-- Inside a choice between constants. -/
  | disjunction (around : Option (List SimpleTest)) (constants : List Constant)

/-- An open right side. -/
structure RightSide where
  /-- The heading. -/
  heading : Heading
  /-- The left side. -/
  conditions : List Condition
  /-- The complete actions. -/
  actions : List Action := []

/-- An open action that makes attribute values. -/
structure OpenMake where
  /-- The right side around it. -/
  side : RightSide
  /-- The variable of the identifier. -/
  variableName : String
  /-- The complete attributes. -/
  makes : List AttributeMake := []

/-- An open attribute with its values. -/
structure OpenAttribute where
  /-- The action around it. -/
  make : OpenMake
  /-- The complete steps of the path. -/
  path : List RhsValue := []
  /-- The complete values. -/
  values : List ValueMake := []

/-- Where a value on the right side goes. -/
inductive ValueSlot where
  /-- It is an action of its own; only a function call can go there. -/
  | action (side : RightSide)
  /-- It is the next step of a path. -/
  | path (a : OpenAttribute)
  /-- It is a value of the attribute. -/
  | value (a : OpenAttribute)
  /-- It is the referent of a preference of the value. -/
  | referent (a : OpenAttribute) (value : ValueMake) (code : Int)

/-- An open function call: its name and the complete arguments. -/
structure OpenCall where
  /-- The name of the function. -/
  functionName : String
  /-- The complete arguments. -/
  arguments : List RhsValue := []

/-- What a reader is in the middle of. -/
inductive State where
  /-- Nothing has been read. -/
  | start
  /-- The heading, before the first condition. -/
  | heading (heading : Heading)
  /-- The left side, between conditions. -/
  | clauses (clauses : Clauses)
  /-- After the minus sign of a condition. -/
  | negation (clauses : Clauses)
  /-- After the parenthesis of a condition. -/
  | conditionStart (clauses : Clauses) (negated : Bool)
  /-- After the class of the identifier. -/
  | conditionClass (clauses : Clauses) (negated : Bool) (word : String)
  /-- After the variable of a condition. -/
  | condition (condition : OpenCondition)
  /-- After the minus sign of an attribute test. -/
  | testNegation (condition : OpenCondition)
  /-- Inside a test. -/
  | test (test : OpenTest) (slot : TestSlot) (part : TestPart)
  /-- After a step of the path of an attribute test. -/
  | testedPath (test : OpenTest)
  /-- After the test of a value. -/
  | testedValue (test : OpenTest) (value : Test)
  /-- After the mark for an acceptable preference. -/
  | acceptable (test : OpenTest)
  /-- The right side, between actions. -/
  | actions (side : RightSide)
  /-- After the parenthesis of an action. -/
  | actionStart (side : RightSide)
  /-- After the variable of an action. -/
  | make (make : OpenMake)
  /-- Before a step of the path of an attribute. -/
  | makePath (a : OpenAttribute)
  /-- After a step of the path of an attribute. -/
  | madePath (a : OpenAttribute)
  /-- After a value or a preference; whether a comma may follow. -/
  | value (a : OpenAttribute) (value : ValueMake) (comma : Bool)
  /-- After a preference that may have a referent. -/
  | preference (a : OpenAttribute) (value : ValueMake) (code : Int)
  /-- After the parenthesis of a function call, inside the calls around it. -/
  | callStart (slot : ValueSlot) (around : List OpenCall)
  /-- Inside a function call. -/
  | call (slot : ValueSlot) (around : List OpenCall) (call : OpenCall)

/-- A state with what was read last. -/
abbrev Progress := State × Place

/-! ### Closing parts -/

/-- Add a complete condition. -/
def Clauses.push (c : Clauses) (condition : Condition) : Clauses :=
  { c with conditions := c.conditions ++ [condition] }

/-- Close the condition on one identifier. -/
def OpenCondition.close (o : OpenCondition) : Clauses :=
  o.clauses.push
    { positive := { identifier := some ⟨o.variableName, o.tests, o.hasState⟩ }
      negated := o.negated }

/-- Close the attribute test. -/
def OpenTest.close (o : OpenTest) : OpenCondition :=
  { o.condition with tests := o.condition.tests ++ [⟨o.attributes, o.values, o.negated⟩] }

/-- Add a complete test of a value. -/
def OpenTest.pushValue (o : OpenTest) (test : Test) (acceptable : Bool) : OpenTest :=
  { o with values := o.values ++ [⟨test, acceptable⟩] }

/-- Put a complete test where it goes. -/
def OpenTest.put (o : OpenTest) (slot : TestSlot) (test : Test) : State :=
  match slot with
  | .path => .testedPath { o with attributes := o.attributes ++ [⟨test⟩] }
  | .value => .testedValue o test

/-- Put a complete simple test where it goes. -/
def OpenTest.putSimple (o : OpenTest) (slot : TestSlot) (around : Option (List SimpleTest))
    (simple : SimpleTest) : State :=
  match around with
  | none => o.put slot { simple := some simple }
  | some tests => .test o slot (.conjunctive (tests ++ [simple]))

/-- Close the attribute. -/
def OpenAttribute.close (a : OpenAttribute) (value : ValueMake) : OpenMake :=
  { a.make with makes := a.make.makes ++ [⟨a.path, a.values ++ [value]⟩] }

/-- Close the action that makes attribute values. -/
def OpenMake.close (m : OpenMake) : RightSide :=
  { m.side with actions := m.side.actions ++ [{ make := some ⟨m.variableName, m.makes⟩ }] }

/-- Add a preference to a value. -/
def ValueMake.push (v : ValueMake) (p : PreferenceSpecifier) : ValueMake :=
  { v with preferences := v.preferences ++ [p] }

/-- A preference that never has a referent. -/
def PreferenceSpecifier.ofNatural (code : Int) : PreferenceSpecifier :=
  { kind := code, natural := some ⟨code⟩ }

/-- A preference whose referent was left out. -/
def PreferenceSpecifier.ofForced (code : Int) : PreferenceSpecifier :=
  { kind := code, forced := some ⟨code⟩ }

/-- A preference with its referent. -/
def PreferenceSpecifier.ofBinary (code : Int) (referent : RhsValue) : PreferenceSpecifier :=
  { kind := code, binary := some ⟨code, referent⟩ }

/-- Put a complete value where it goes; a value that is no call cannot be an action. -/
def ValueSlot.put? (slot : ValueSlot) (value : RhsValue) : Option State :=
  match slot with
  | .action side => value.call.map fun call =>
    .actions { side with actions := side.actions ++ [{ call := some call }] }
  | .path a => some (.madePath { a with path := a.path ++ [value] })
  | .value a => some (.value a ⟨value, []⟩ false)
  | .referent a v code => some (.value a (v.push (.ofBinary code value)) true)

end SoarProject.Rule
