import SoarProject.Schema.Registry

/-!
# The registry of a Soar project

Agents own problem spaces, operators and rules. A rule owns its conditions and actions, and these
their parts, following the grammar of productions. A problem space owns the root of its datamap;
the other nodes of a datamap hang below it by directed joins, so that they can be shared.
-/

namespace SoarProject.Declaration

/-- Agents, what they own, and how their parts are joined. -/
def ofProjects : List Declaration := [
  parent .problemSpaces .agents,
  parent .operators .agents,
  parent .rules .agents,
  folders .agents [.problemSpaces, .operators, .rules],
  editable .datamapIntegers ⟨"min_value", .integer⟩,
  editable .datamapIntegers ⟨"max_value", .integer⟩,
  editable .datamapFloats ⟨"min_value", .float⟩,
  editable .datamapFloats ⟨"max_value", .float⟩,
  join .rules .problemSpaces,
  join .rules .operators,
  join .operators .problemSpaces,
  join .datamapIdentifiers .datamapIdentifiers,
  directedJoin .datamapIdentifiers .datamapIdentifiers,
  directedJoin .datamapIdentifiers .datamapEnumerations,
  directedJoin .datamapIdentifiers .datamapIntegers,
  directedJoin .datamapIdentifiers .datamapFloats,
  directedJoin .datamapIdentifiers .datamapStrings]

/-- The parts of a rule. -/
def ofRules : List Declaration := [
  parent .conditions .rules,
  parent .positiveConditions .conditions,
  parent .conditions .positiveConditions,
  parent .conditionForOneIdentifiers .positiveConditions,
  parent .attributeValueTests .conditionForOneIdentifiers,
  parent .attributeTests .attributeValueTests,
  parent .valueTests .attributeValueTests,
  parent .tests .valueTests,
  parent .tests .attributeTests,
  parent .conjunctiveTests .tests,
  parent .simpleTests .conjunctiveTests,
  parent .simpleTests .tests,
  parent .disjunctionTests .simpleTests,
  parent .relationalTests .simpleTests,
  parent .singleTests .relationalTests,
  parent .constants .singleTests,
  parent .constants .disjunctionTests,
  parent .constants .rhsValues,
  parent .actions .rules,
  parent .varAttrValMakes .actions,
  parent .attributeValueMakes .varAttrValMakes,
  parent .functionCalls .actions,
  parent .functionCalls .rhsValues,
  parent .rhsValues .functionCalls,
  parent .rhsValues .valueMakes,
  parent .rhsValues .attributeValueMakes,
  parent .rhsValues .binaryPreferences,
  parent .valueMakes .attributeValueMakes,
  parent .preferenceSpecifiers .valueMakes,
  parent .naturallyUnaryPreferences .preferenceSpecifiers,
  parent .binaryPreferences .preferenceSpecifiers,
  parent .forcedUnaryPreferences .preferenceSpecifiers]

/-- What the records of a datamap own. -/
def ofDatamaps : List Declaration := [
  parent .datamapIdentifiers .problemSpaces,
  parent .datamapEnumerationValues .datamapEnumerations,
  automatic .problemSpaces [.datamapIdentifiers]]

end SoarProject.Declaration

namespace SoarProject

/-- The registry of a Soar project. -/
def Registry.project : Registry :=
  .ofDeclarations (Declaration.ofProjects ++ Declaration.ofRules ++ Declaration.ofDatamaps)

end SoarProject
