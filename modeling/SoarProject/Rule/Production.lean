import SoarProject.Value

/-!
# Productions

The parts of a Soar production, as its grammar names them. A production has conditions on its left
side and actions on its right side. Conditions test attributes of identifiers; actions make new
attribute values, each with preferences, or call functions.

A part that is one of several alternatives keeps every alternative as an optional field. The reader
of rule text fills exactly one of them; parts that come from elsewhere need not.
-/

namespace SoarProject.Rule

/-- The relational signs, in the order of their codes. -/
def relationSigns : List String := ["=", "<>", "<", "<=", ">=", ">", "<=>"]

/-- The preference signs, in the order of their codes. -/
def preferenceSigns : List String := ["+", "-", "!", "~", "@", ">", "=", "<", "&"]

/-- The entry of a list at an index; a negative index counts from the end. -/
def atIndex? {α : Type} (items : List α) (index : Int) : Option α :=
  if 0 ≤ index then items[index.toNat]?
  else if -index ≤ items.length then items[items.length - index.natAbs]?
  else none

/-- A constant: a code for its kind (0 integer, 1 floating, 2 symbolic) and its value. -/
structure Constant where
  /-- The code of the kind. -/
  kind : Int
  /-- The value. -/
  value : Value

namespace Constant

/-- An integer constant. -/
def integer (n : Int) : Constant := ⟨0, .int n⟩

/-- A floating-point constant. -/
def floating (x : Float) : Constant := ⟨1, .float x⟩

/-- A symbolic constant. -/
def symbolic (s : String) : Constant := ⟨2, .text s⟩

end Constant

/-! ### Left side -/

/-- What a value is compared with: a variable or a constant. -/
structure SingleTest where
  /-- The variable. -/
  variableName : Option String := none
  /-- The constant. -/
  constant : Option Constant := none

/-- A comparison. -/
structure RelationalTest where
  /-- The code of the relation. -/
  relation : Int
  /-- What is compared with. -/
  single : SingleTest

/-- A choice between constants. -/
structure DisjunctionTest where
  /-- The constants. -/
  constants : List Constant

/-- A choice between constants or a comparison. -/
structure SimpleTest where
  /-- The choice between constants. -/
  disjunction : Option DisjunctionTest := none
  /-- The comparison. -/
  relational : Option RelationalTest := none

/-- Several tests that must hold together. -/
structure ConjunctiveTest where
  /-- The tests. -/
  simpleTests : List SimpleTest

/-- One simple test or several together. -/
structure Test where
  /-- Several tests together. -/
  conjunctive : Option ConjunctiveTest := none
  /-- One simple test. -/
  simple : Option SimpleTest := none

/-- The test of an attribute, one step of a dotted path. -/
structure AttributeTest where
  /-- The test. -/
  test : Test

/-- The test of a value. -/
structure ValueTest where
  /-- The test. -/
  test : Test
  /-- Whether the value must have an acceptable preference. -/
  acceptable : Bool := false

/-- The test of an attribute path and its values. -/
structure AttributeValueTest where
  /-- The path, one test for each step. -/
  attributes : List AttributeTest
  /-- The tests of the values. -/
  values : List ValueTest := []
  /-- Whether the test is negated. -/
  negated : Bool := false

/-- The tests of one identifier. -/
structure IdentifierCondition where
  /-- The variable that is bound to the identifier. -/
  variableName : String
  /-- The tests of its attributes. -/
  tests : List AttributeValueTest := []
  /-- Whether the identifier must be a state. -/
  hasState : Bool := false

mutual

/-- The tests of one identifier, or several conditions together. -/
structure PositiveCondition where
  /-- The tests of one identifier. -/
  identifier : Option IdentifierCondition := none
  /-- Several conditions together. -/
  conjunction : Option (List Condition) := none

/-- A condition that may be negated. -/
structure Condition where
  /-- The condition. -/
  positive : PositiveCondition
  /-- Whether it is negated. -/
  negated : Bool := false

end

/-! ### Right side -/

mutual

/-- The call of a function. -/
structure FunctionCall where
  /-- The name of the function. -/
  functionName : String
  /-- The arguments. -/
  arguments : List RhsValue := []

/-- A value on the right side: a constant, a function call or a variable. -/
structure RhsValue where
  /-- The constant. -/
  constant : Option Constant := none
  /-- The function call. -/
  call : Option FunctionCall := none
  /-- The variable. -/
  variableName : Option String := none

end

/-- A preference that never has a referent. -/
structure NaturallyUnaryPreference where
  /-- The code of the preference. -/
  kind : Int

/-- A preference that could have a referent and has none. -/
structure ForcedUnaryPreference where
  /-- The code of the preference. -/
  kind : Int

/-- A preference with a referent. -/
structure BinaryPreference where
  /-- The code of the preference. -/
  kind : Int
  /-- The referent. -/
  referent : RhsValue

/-- A preference of a value. -/
structure PreferenceSpecifier where
  /-- The code of the preference. -/
  kind : Int
  /-- The preference, if it never has a referent. -/
  natural : Option NaturallyUnaryPreference := none
  /-- The preference, if its referent was left out. -/
  forced : Option ForcedUnaryPreference := none
  /-- The preference with its referent. -/
  binary : Option BinaryPreference := none

/-- A value with its preferences. -/
structure ValueMake where
  /-- The value. -/
  value : RhsValue
  /-- The preferences. -/
  preferences : List PreferenceSpecifier := []

/-- The values that an attribute path gets. -/
structure AttributeMake where
  /-- The path, one value for each step. -/
  path : List RhsValue
  /-- The values. -/
  values : List ValueMake := []

/-- The attributes that an identifier gets. -/
structure VariableMake where
  /-- The variable that is bound to the identifier. -/
  variableName : String
  /-- The attributes. -/
  makes : List AttributeMake := []

/-- An action: new attribute values, or a function call. -/
structure Action where
  /-- The new attribute values. -/
  make : Option VariableMake := none
  /-- The function call. -/
  call : Option FunctionCall := none

/-- A production. -/
structure Production where
  /-- The name. -/
  name : String
  /-- The left side. -/
  conditions : List Condition
  /-- The right side. -/
  actions : List Action := []
  /-- The documentation text. -/
  documentation : Option String := none
  /-- The flags. -/
  flags : List String := []

end SoarProject.Rule
