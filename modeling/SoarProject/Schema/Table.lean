import SoarProject.Text.Case
import SoarProject.Value

/-!
# Tables

The kinds of records of a project: agents with their problem spaces, operators and rules, the parts
of a rule, and the nodes of a datamap. Each kind is one table; its names and attribute columns are
fixed here, while the relations between tables are declared in a registry.
-/

namespace SoarProject

/-- What a column holds. -/
inductive ColumnType where
  | integer
  | float
  | string
  deriving DecidableEq, Inhabited

namespace ColumnType

/-- The name of a column type. -/
def name : ColumnType → String
  | .integer => "INTEGER"
  | .float => "FLOAT"
  | .string => "STRING"

/-- The column type that a value is stored as, if there is one. -/
def ofValue? : Value → Option ColumnType
  | .bool _ | .int _ => some .integer
  | .float _ => some .float
  | .text _ => some .string
  | .null | .list _ | .dictionary _ | .part .. => none

/-- Read the name of a column type. -/
def ofName? (s : String) : Option ColumnType :=
  [ColumnType.integer, .float, .string].find? (·.name == s)

end ColumnType

/-- A column that a user may edit. -/
structure EditableColumn where
  /-- The name of the column. -/
  name : String
  /-- What it holds. -/
  type : ColumnType
  deriving DecidableEq

/-- Whether a user may store a value in the column: integers also fit a column of numbers, truth
values fit nowhere. -/
def EditableColumn.accepts (column : EditableColumn) : Value → Bool
  | .null | .bool _ | .list _ | .dictionary _ | .part .. => false
  | .int _ => column.type != .string
  | .float _ => column.type == .float
  | .text _ => column.type == .string

/-- The kinds of records. -/
inductive Table where
  | agents
  | problemSpaces
  | operators
  | rules
  | conditions
  | positiveConditions
  | conditionForOneIdentifiers
  | attributeValueTests
  | attributeTests
  | valueTests
  | tests
  | conjunctiveTests
  | simpleTests
  | disjunctionTests
  | relationalTests
  | singleTests
  | constants
  | actions
  | varAttrValMakes
  | attributeValueMakes
  | functionCalls
  | rhsValues
  | valueMakes
  | preferenceSpecifiers
  | naturallyUnaryPreferences
  | binaryPreferences
  | forcedUnaryPreferences
  | datamapIdentifiers
  | datamapEnumerations
  | datamapEnumerationValues
  | datamapIntegers
  | datamapFloats
  | datamapStrings
  deriving DecidableEq, Inhabited

namespace Table

/-- All tables, in the order in which they are created. -/
def all : List Table := [
  .agents, .problemSpaces, .operators, .rules, .conditions, .positiveConditions,
  .conditionForOneIdentifiers, .attributeValueTests, .attributeTests, .valueTests, .tests,
  .conjunctiveTests, .simpleTests, .disjunctionTests, .relationalTests, .singleTests, .constants,
  .actions, .varAttrValMakes, .attributeValueMakes, .functionCalls, .rhsValues, .valueMakes,
  .preferenceSpecifiers, .naturallyUnaryPreferences, .binaryPreferences, .forcedUnaryPreferences,
  .datamapIdentifiers, .datamapEnumerations, .datamapEnumerationValues, .datamapIntegers,
  .datamapFloats, .datamapStrings]

/-- Every table is listed. -/
theorem mem_all (t : Table) : t ∈ all := by cases t <;> decide

/-- The name of a table in the store. -/
def tableName : Table → String
  | .agents => "agents"
  | .problemSpaces => "problem_spaces"
  | .operators => "operators"
  | .rules => "rules"
  | .conditions => "conditions"
  | .positiveConditions => "positive_conditions"
  | .conditionForOneIdentifiers => "condition_for_one_identifiers"
  | .attributeValueTests => "attribute_value_tests"
  | .attributeTests => "attribute_tests"
  | .valueTests => "value_tests"
  | .tests => "tests"
  | .conjunctiveTests => "conjunctive_tests"
  | .simpleTests => "simple_tests"
  | .disjunctionTests => "disjunction_tests"
  | .relationalTests => "relational_tests"
  | .singleTests => "single_tests"
  | .constants => "constants"
  | .actions => "actions"
  | .varAttrValMakes => "var_attr_val_makes"
  | .attributeValueMakes => "attribute_value_makes"
  | .functionCalls => "function_calls"
  | .rhsValues => "rhs_values"
  | .valueMakes => "value_makes"
  | .preferenceSpecifiers => "preference_specifiers"
  | .naturallyUnaryPreferences => "naturally_unary_preferences"
  | .binaryPreferences => "binary_preferences"
  | .forcedUnaryPreferences => "forced_unary_preferences"
  | .datamapIdentifiers => "datamap_identifiers"
  | .datamapEnumerations => "datamap_enumerations"
  | .datamapEnumerationValues => "datamap_enumeration_values"
  | .datamapIntegers => "datamap_integers"
  | .datamapFloats => "datamap_floats"
  | .datamapStrings => "datamap_strings"

/-- The name of a table as a kind, in capital letters. -/
def name (t : Table) : String := t.tableName.map Char.toUpper

/-- The name of one record of a table: the table's name without its last letter. -/
def shortName (t : Table) : String := String.ofList t.tableName.toList.dropLast

/-- The column that refers to a record of this table. -/
def idName (t : Table) : String := t.shortName ++ "_id"

/-- Whether the records of a table are nodes of a datamap. -/
def isDatamap : Table → Bool
  | .datamapIdentifiers | .datamapEnumerations | .datamapEnumerationValues
  | .datamapIntegers | .datamapFloats | .datamapStrings => true
  | _ => false

/-- The columns of a table besides its id, its name and the references to its parents. -/
def columns : Table → List (String × ColumnType)
  | .rules => [("raw_text", .string)]
  | .conditions => [("is_negated", .integer)]
  | .positiveConditions => [("is_conjunction", .integer)]
  | .conditionForOneIdentifiers => [("has_state", .integer), ("variable", .string)]
  | .attributeValueTests => [("is_negated", .integer)]
  | .valueTests => [("has_acceptable_preference", .integer)]
  | .tests => [("is_conjunctive_test", .integer)]
  | .simpleTests => [("is_disjunction_test", .integer)]
  | .relationalTests => [("relation", .integer)]
  | .singleTests => [("is_constant", .integer), ("variable", .string)]
  | .constants =>
    [("constant_type", .integer), ("integer_const", .integer),
      ("floating_const", .float), ("symbolic_const", .string)]
  | .actions => [("is_var_attr_val_make", .integer)]
  | .varAttrValMakes => [("variable", .string)]
  | .rhsValues =>
    [("is_constant", .integer), ("is_function_call", .integer),
      ("is_variable", .integer), ("variable", .string)]
  | .functionCalls => [("function_name", .string)]
  | .preferenceSpecifiers =>
    [("is_unary_preference", .integer), ("preference_specifier_type", .integer)]
  | .naturallyUnaryPreferences => [("preference_specifier_type", .integer)]
  | .binaryPreferences => [("preference_specifier_type", .integer)]
  | .forcedUnaryPreferences => [("preference_specifier_type", .integer)]
  | _ => []

/-- The table of a name, in whatever case it is written. -/
def named? (s : String) : Option Table := all.find? (·.tableName == Text.lowerForAscii s)

end Table

end SoarProject
