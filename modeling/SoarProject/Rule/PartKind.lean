/-!
# Kinds of parts

The kinds of parts that a production is made of, and their names.
-/

namespace SoarProject.Rule

/-- The kinds of parts. -/
inductive PartKind where
  | production
  | condition
  | positiveCondition
  | identifierCondition
  | attributeValueTest
  | attributeTest
  | valueTest
  | test
  | conjunctiveTest
  | simpleTest
  | disjunctionTest
  | relationalTest
  | singleTest
  | constant
  | action
  | variableMake
  | attributeMake
  | rhsValue
  | functionCall
  | valueMake
  | preferenceSpecifier
  | naturallyUnaryPreference
  | forcedUnaryPreference
  | binaryPreference
  deriving DecidableEq

namespace PartKind

/-- The name of a kind. -/
def name : PartKind → String
  | .production => "SoarProduction"
  | .condition => "Condition"
  | .positiveCondition => "PositiveCondition"
  | .identifierCondition => "ConditionForOneIdentifier"
  | .attributeValueTest => "AttributeValueTest"
  | .attributeTest => "AttributeTest"
  | .valueTest => "ValueTest"
  | .test => "Test"
  | .conjunctiveTest => "ConjunctiveTest"
  | .simpleTest => "SimpleTest"
  | .disjunctionTest => "DisjunctionTest"
  | .relationalTest => "RelationalTest"
  | .singleTest => "SingleTest"
  | .constant => "Constant"
  | .action => "Action"
  | .variableMake => "VarAttrValMake"
  | .attributeMake => "AttributeValueMake"
  | .rhsValue => "RHSValue"
  | .functionCall => "FunctionCall"
  | .valueMake => "ValueMake"
  | .preferenceSpecifier => "PreferenceSpecifier"
  | .naturallyUnaryPreference => "NaturallyUnaryPreference"
  | .forcedUnaryPreference => "ForcedUnaryPreference"
  | .binaryPreference => "BinaryPreference"

/-- All kinds. -/
def all : List PartKind := [
  .production, .condition, .positiveCondition, .identifierCondition, .attributeValueTest,
  .attributeTest, .valueTest, .test, .conjunctiveTest, .simpleTest, .disjunctionTest,
  .relationalTest, .singleTest, .constant, .action, .variableMake, .attributeMake, .rhsValue,
  .functionCall, .valueMake, .preferenceSpecifier, .naturallyUnaryPreference,
  .forcedUnaryPreference, .binaryPreference]

/-- Read the name of a kind. -/
def named? (name : String) : Option PartKind := all.find? (·.name == name)

end PartKind

end SoarProject.Rule
