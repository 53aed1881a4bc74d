import SoarProject.Rule.Loose

/-!
# Productions as values

`Production.toValue` hands over a production as a loose part, with all the parts below it.
-/

namespace SoarProject.Rule

/-- A part that may be missing. -/
def valueOf? {α : Type} (toValue : α → Value) (part : Option α) : Value := part.elim .null toValue

/-! ### Left side -/

/-- A constant. -/
def Constant.toValue (c : Constant) : Value :=
  .part .constant [("constant_type", .int c.kind), ("value", c.value)]

/-- A test for a variable or a constant. -/
def SingleTest.toValue (t : SingleTest) : Value :=
  .part .singleTest
    [("variable", .ofText? t.variableName), ("constant", valueOf? Constant.toValue t.constant)]

/-- A comparison. -/
def RelationalTest.toValue (t : RelationalTest) : Value :=
  .part .relationalTest [("relation", .int t.relation), ("single_test", t.single.toValue)]

/-- A choice between constants. -/
def DisjunctionTest.toValue (t : DisjunctionTest) : Value :=
  .part .disjunctionTest [("constants", .list (t.constants.map Constant.toValue))]

/-- A choice or a comparison. -/
def SimpleTest.toValue (t : SimpleTest) : Value :=
  .part .simpleTest
    [("disjunction_test", valueOf? DisjunctionTest.toValue t.disjunction),
      ("relational_test", valueOf? RelationalTest.toValue t.relational)]

/-- Several tests together. -/
def ConjunctiveTest.toValue (t : ConjunctiveTest) : Value :=
  .part .conjunctiveTest [("simple_tests", .list (t.simpleTests.map SimpleTest.toValue))]

/-- One simple test or several together. -/
def Test.toValue (t : Test) : Value :=
  .part .test
    [("conjunctive_test", valueOf? ConjunctiveTest.toValue t.conjunctive),
      ("simple_test", valueOf? SimpleTest.toValue t.simple)]

/-- One step of an attribute path. -/
def AttributeTest.toValue (t : AttributeTest) : Value :=
  .part .attributeTest [("test", t.test.toValue)]

/-- The test of a value. -/
def ValueTest.toValue (t : ValueTest) : Value :=
  .part .valueTest
    [("test", t.test.toValue), ("has_acceptable_preference", .bool t.acceptable)]

/-- The test of an attribute path and its values. -/
def AttributeValueTest.toValue (t : AttributeValueTest) : Value :=
  .part .attributeValueTest
    [("attribute_tests", .list (t.attributes.map AttributeTest.toValue)),
      ("value_tests", .list (t.values.map ValueTest.toValue)), ("is_negated", .bool t.negated)]

/-- The tests of one identifier. -/
def IdentifierCondition.toValue (c : IdentifierCondition) : Value :=
  .part .identifierCondition
    [("variable", .text c.variableName),
      ("attribute_value_tests", .list (c.tests.map AttributeValueTest.toValue)),
      ("has_state", .bool c.hasState)]

mutual

/-- The tests of one identifier, or several conditions together. -/
def PositiveCondition.toValue : PositiveCondition → Value
  | ⟨identifier, conjunction⟩ =>
    .part .positiveCondition
      [("condition_for_one_identifier", valueOf? IdentifierCondition.toValue identifier),
        ("conjunction",
          match conjunction with
          | none => .null
          | some conditions => .list (Condition.toValues conditions))]

/-- A condition that may be negated. -/
def Condition.toValue : Condition → Value
  | ⟨positive, negated⟩ =>
    .part .condition [("positive_condition", positive.toValue), ("is_negated", .bool negated)]

/-- Several conditions. -/
def Condition.toValues : List Condition → List Value
  | [] => []
  | c :: rest => c.toValue :: Condition.toValues rest

end

/-! ### Right side -/

mutual

/-- A value on the right side. -/
def RhsValue.toValue : RhsValue → Value
  | ⟨constant, call, variableName⟩ =>
    .part .rhsValue
      [("constant", valueOf? Constant.toValue constant),
        ("function_call",
          match call with
          | none => .null
          | some c => c.toValue),
        ("variable", .ofText? variableName)]

/-- A function call with its arguments. -/
def FunctionCall.toValue : FunctionCall → Value
  | ⟨functionName, arguments⟩ =>
    .part .functionCall
      [("function_name", .text functionName), ("rhs_values", .list (RhsValue.toValues arguments))]

/-- Several values. -/
def RhsValue.toValues : List RhsValue → List Value
  | [] => []
  | v :: rest => v.toValue :: RhsValue.toValues rest

end

/-- The code of a preference as a field. -/
def codeField (code : Int) : String × Value := ("preference_specifier_type", .int code)

/-- A preference that never has a referent. -/
def NaturallyUnaryPreference.toValue (p : NaturallyUnaryPreference) : Value :=
  .part .naturallyUnaryPreference [codeField p.kind]

/-- A preference whose referent was left out. -/
def ForcedUnaryPreference.toValue (p : ForcedUnaryPreference) : Value :=
  .part .forcedUnaryPreference [codeField p.kind]

/-- A preference with its referent. -/
def BinaryPreference.toValue (p : BinaryPreference) : Value :=
  .part .binaryPreference [codeField p.kind, ("rhs_value", p.referent.toValue)]

/-- A preference of a value. -/
def PreferenceSpecifier.toValue (p : PreferenceSpecifier) : Value :=
  .part .preferenceSpecifier
    [codeField p.kind,
      ("naturally_unary_preference", valueOf? NaturallyUnaryPreference.toValue p.natural),
      ("forced_unary_preference", valueOf? ForcedUnaryPreference.toValue p.forced),
      ("binary_preference", valueOf? BinaryPreference.toValue p.binary)]

/-- A value with its preferences. -/
def ValueMake.toValue (m : ValueMake) : Value :=
  .part .valueMake
    [("rhs_value", m.value.toValue),
      ("preference_specifiers", .list (m.preferences.map PreferenceSpecifier.toValue))]

/-- The values that an attribute path gets. -/
def AttributeMake.toValue (m : AttributeMake) : Value :=
  .part .attributeMake
    [("rhs_values", .list (m.path.map RhsValue.toValue)),
      ("value_makes", .list (m.values.map ValueMake.toValue))]

/-- The attributes that an identifier gets. -/
def VariableMake.toValue (m : VariableMake) : Value :=
  .part .variableMake
    [("variable", .text m.variableName),
      ("attribute_value_makes", .list (m.makes.map AttributeMake.toValue))]

/-- An action. -/
def Action.toValue (a : Action) : Value :=
  .part .action
    [("var_attr_val_make", valueOf? VariableMake.toValue a.make),
      ("function_call", valueOf? FunctionCall.toValue a.call)]

/-- A production with all its parts. -/
def Production.toValue (p : Production) : Value :=
  .part .production
    [("name", .text p.name), ("conditions", .list (p.conditions.map Condition.toValue)),
      ("actions", .list (p.actions.map Action.toValue)),
      ("documentation", .ofText? p.documentation), ("flags", .list (p.flags.map .text))]

end SoarProject.Rule
