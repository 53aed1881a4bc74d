import SoarProject.Failure
import SoarProject.Rule.Production

/-!
# Outlines of rule parts

How the parts of a production are stored: each part becomes one record, with the table, the display
name and the columns of its `Entry`, and its sub-parts become children of that record. The outline
of a part is the tree of these entries.

A part that cannot be stored has a faulty outline; the fault shows when the part is reached, after
the records before it.
-/

namespace SoarProject.Rule

/-- What is stored for one part. -/
structure Entry where
  /-- The table of the record. -/
  table : Table
  /-- The display name. -/
  name : Value
  /-- The columns besides the name. -/
  columns : List (String × Value) := []

/-- The entries of a part and of the parts below it. -/
inductive Outline where
  /-- A part that is stored as an entry. -/
  | entry (kind : PartKind) (entry : Entry) (children : List Outline)
  /-- A part that cannot be stored. -/
  | faulty (kind : PartKind) (failure : Failure)
  /-- Something that is no part, by the name of its kind. -/
  | foreign (kind : String)

namespace Outline

/-- The outline of a part whose entry may fail to be made. -/
def ofEntry (kind : PartKind) (entry : Except Failure Entry) (children : List Outline) : Outline :=
  match entry with
  | .ok e => .entry kind e children
  | .error failure => .faulty kind failure

/-- The name of the kind that an outline describes. -/
def kindName : Outline → String
  | .entry kind _ _ | .faulty kind _ => kind.name
  | .foreign kind => kind

/-- What is stored for a part, and what comes below it. -/
def describe : Outline → Except Failure (Entry × List Outline)
  | .entry _ e children => .ok (e, children)
  | .faulty _ failure => .error failure
  | .foreign kind => .error (.noTableForPart kind)

end Outline

/-- The outline of a part that may be missing. -/
def outlineOf? {α : Type} (outline : α → Outline) (part : Option α) : Outline :=
  part.elim (.foreign Value.null.kindName) outline

/-! ### Entries -/

/-- A remark in parentheses at the end of a name. -/
def remark (s : String) : String := " (" ++ s ++ ")"

namespace Entry

/-- An entry whose name is that of its table with a remark. -/
def remarked (table : Table) (s : String)
    (columns : List (String × Value)) : Entry :=
  ⟨table, .text (table.shortName ++ remark s), columns⟩

/-- An entry whose name is that of its table. -/
def plain (table : Table) : Entry := ⟨table, .text table.shortName, []⟩

/-- An entry with one flag; if it is set, the name says so. -/
def flagged (table : Table) (column : String) (flag : Bool) (s : String) : Entry :=
  ⟨table, .text (table.shortName ++ if flag then remark s else ""), [(column, .flag flag)]⟩

/-- A production is stored as the rule itself. -/
def production (name : Value) : Entry := { table := .rules, name }

/-- A condition that may be negated. -/
def condition (negated : Bool) : Entry := flagged .conditions "is_negated" negated "negated"

/-- The tests of one identifier, or several conditions together. -/
def positiveCondition (isConjunction : Bool) : Entry :=
  flagged .positiveConditions "is_conjunction" isConjunction "conjunction"

/-- The tests of one identifier, which may have to be a state. -/
def identifierCondition (variableName : Value) (hasState : Bool) : Entry where
  table := .conditionForOneIdentifiers
  name := .text (Table.conditionForOneIdentifiers.shortName ++
    remark ("variable: " ++ variableName.shown) ++ if hasState then remark "has state" else "")
  columns := [("has_state", .flag hasState), ("variable", variableName)]

/-- The test of an attribute path and its values. -/
def attributeValueTest (negated : Bool) : Entry :=
  flagged .attributeValueTests "is_negated" negated "negated"

/-- One step of an attribute path. -/
def attributeTest : Entry := plain .attributeTests

/-- The test of a value. -/
def valueTest (acceptable : Bool) : Entry :=
  flagged .valueTests "has_acceptable_preference" acceptable "has acceptable preference"

/-- Several tests together, or a single one. -/
def test (isConjunctive : Bool) : Entry :=
  remarked .tests (if isConjunctive then "conjunctive test" else "simple test")
    [("is_conjunctive_test", .flag isConjunctive)]

/-- Several tests together. -/
def conjunctiveTest : Entry := plain .conjunctiveTests

/-- A choice between constants, or a comparison. -/
def simpleTest (isChoice : Bool) : Entry :=
  remarked .simpleTests (if isChoice then "disjunction test" else "relational test")
    [("is_disjunction_test", .flag isChoice)]

/-- A choice between constants. -/
def disjunctionTest : Entry := plain .disjunctionTests

/-- The sign of a code. -/
def signOf (signs : List String) (code : Value) : Except Failure String :=
  match code.toIndex? with
  | none => .error (.signNotAnInteger code.kindName)
  | some n =>
    match atIndex? signs n with
    | some sign => .ok sign
    | none => .error (if -0x8000000000000000 ≤ n && n < 0x8000000000000000 then .signOutOfRange else .signTooLarge)

/-- A comparison is stored by the code of its relation and shown by its sign. -/
def relationalTest (relation : Value) : Except Failure Entry := do
  return remarked .relationalTests (← signOf relationSigns relation) [("relation", relation)]

/-- A constant is compared with. -/
def constantTest : Entry := remarked .singleTests "constant" [("is_constant", .int 1)]

/-- A variable is compared with. -/
def variableTest (variableName : Value) : Entry :=
  remarked .singleTests ("variable: " ++ variableName.shown)
    [("is_constant", .int 0), ("variable", variableName)]

/-- The column that keeps the value of a constant, and the word for its kind. -/
def constantColumn (kind : Value) : Except Failure (String × String) :=
  match kind.toCode? with
  | some 0 => .ok ("integer_const", "integer constant")
  | some 1 => .ok ("floating_const", "floating constant")
  | some 2 => .ok ("symbolic_const", "symbolic constant")
  | _ =>
    .error (if kind.isCompound then .compoundConstantKind kind.kindName else .constantKind kind)

/-- A constant is stored by its kind and its value. -/
def constant (kind value : Value) : Except Failure Entry := do
  let (column, label) ← constantColumn kind
  return remarked .constants (label ++ ": " ++ value.shown)
    [("constant_type", kind), (column, value)]

/-- New attribute values, or a function call. -/
def action (isMake : Bool) : Entry :=
  remarked .actions (if isMake then "variable attribute make" else "function call")
    [("is_var_attr_val_make", .flag isMake)]

/-- The attributes that an identifier gets. -/
def variableMake (variableName : Value) : Entry :=
  remarked .varAttrValMakes ("variable: " ++ variableName.shown) [("variable", variableName)]

/-- The values that an attribute path gets. -/
def attributeMake : Entry := plain .attributeValueMakes

/-- A value: a constant, a function call or a variable. -/
def rhsValue (isConstant isCall : Bool) (variableName : Value) : Entry :=
  let flags : List (String × Value) :=
    [("is_constant", .flag isConstant), ("is_function_call", .flag isCall),
      ("is_variable", .flag variableName.isPresent)]
  if isConstant then remarked .rhsValues "constant" flags
  else if isCall then remarked .rhsValues "function call" flags
  else
    remarked .rhsValues ("variable: " ++ variableName.shown) (flags ++ [("variable", variableName)])

/-- A function call. -/
def functionCall (functionName : Value) : Entry :=
  remarked .functionCalls ("function: " ++ functionName.shown) [("function_name", functionName)]

/-- A value with its preferences. -/
def valueMake : Entry := plain .valueMakes

/-- A preference of a value; it counts as unary if it has no referent. -/
def preferenceSpecifier (isUnary : Bool) (code : Value) : Except Failure Entry := do
  let sign ← signOf preferenceSigns code
  let table := Table.preferenceSpecifiers
  return {
    table
    name := .text (table.shortName ++ (if isUnary then remark "unary preference" else "") ++
      remark ("preference: " ++ sign))
    columns := [("is_unary_preference", .flag isUnary), ("preference_specifier_type", code)] }

/-- A preference in its table, shown by its sign. -/
def preference (table : Table) (code : Value) : Except Failure Entry := do
  return remarked table (← signOf preferenceSigns code) [("preference_specifier_type", code)]

end Entry

/-! ### Left side -/

/-- A constant is stored by its kind and its value. -/
def Constant.outline (c : Constant) : Outline :=
  .ofEntry .constant (Entry.constant (.int c.kind) c.value) []

/-- A constant comes before a variable. -/
def SingleTest.outline (t : SingleTest) : Outline :=
  match t.constant with
  | some c => .entry .singleTest Entry.constantTest [c.outline]
  | none => .entry .singleTest (Entry.variableTest (.ofText? t.variableName)) []

/-- A comparison. -/
def RelationalTest.outline (t : RelationalTest) : Outline :=
  .ofEntry .relationalTest (Entry.relationalTest (.int t.relation)) [t.single.outline]

/-- A choice between constants. -/
def DisjunctionTest.outline (t : DisjunctionTest) : Outline :=
  .entry .disjunctionTest Entry.disjunctionTest (t.constants.map Constant.outline)

/-- A choice between constants comes before a comparison. -/
def SimpleTest.outline (t : SimpleTest) : Outline :=
  .entry .simpleTest (Entry.simpleTest t.disjunction.isSome)
    [match t.disjunction with
      | some d => d.outline
      | none => outlineOf? RelationalTest.outline t.relational]

/-- Several tests together. -/
def ConjunctiveTest.outline (t : ConjunctiveTest) : Outline :=
  .entry .conjunctiveTest Entry.conjunctiveTest (t.simpleTests.map SimpleTest.outline)

/-- Several tests come before a single one. -/
def Test.outline (t : Test) : Outline :=
  .entry .test (Entry.test t.conjunctive.isSome)
    [match t.conjunctive with
      | some c => c.outline
      | none => outlineOf? SimpleTest.outline t.simple]

/-- One step of an attribute path. -/
def AttributeTest.outline (t : AttributeTest) : Outline :=
  .entry .attributeTest Entry.attributeTest [t.test.outline]

/-- The test of a value. -/
def ValueTest.outline (t : ValueTest) : Outline :=
  .entry .valueTest (Entry.valueTest t.acceptable) [t.test.outline]

/-- The steps of the path come before the tests of the values. -/
def AttributeValueTest.outline (t : AttributeValueTest) : Outline :=
  .entry .attributeValueTest (Entry.attributeValueTest t.negated)
    (t.attributes.map AttributeTest.outline ++ t.values.map ValueTest.outline)

/-- The tests of one identifier. -/
def IdentifierCondition.outline (c : IdentifierCondition) : Outline :=
  .entry .identifierCondition (Entry.identifierCondition (.text c.variableName) c.hasState)
    (c.tests.map AttributeValueTest.outline)

mutual

/-- Several conditions come before the tests of one identifier. -/
def PositiveCondition.outline : PositiveCondition → Outline
  | ⟨_, some conditions⟩ =>
    .entry .positiveCondition (Entry.positiveCondition true) (Condition.outlines conditions)
  | ⟨identifier, none⟩ =>
    .entry .positiveCondition (Entry.positiveCondition false)
      [outlineOf? IdentifierCondition.outline identifier]

/-- A condition that may be negated. -/
def Condition.outline : Condition → Outline
  | ⟨positive, negated⟩ => .entry .condition (Entry.condition negated) [positive.outline]

/-- The outlines of several conditions. -/
def Condition.outlines : List Condition → List Outline
  | [] => []
  | c :: rest => c.outline :: Condition.outlines rest

end

/-! ### Right side -/

mutual

/-- A constant comes before a call, and a call before a variable. -/
def RhsValue.outline : RhsValue → Outline
  | ⟨some c, call, v⟩ =>
    .entry .rhsValue (Entry.rhsValue true call.isSome (.ofText? v)) [c.outline]
  | ⟨none, some call, v⟩ => .entry .rhsValue (Entry.rhsValue false true (.ofText? v)) [call.outline]
  | ⟨none, none, v⟩ => .entry .rhsValue (Entry.rhsValue false false (.ofText? v)) []

/-- A function call with its arguments. -/
def FunctionCall.outline : FunctionCall → Outline
  | ⟨functionName, arguments⟩ =>
    .entry .functionCall (Entry.functionCall (.text functionName)) (RhsValue.outlines arguments)

/-- The outlines of several values. -/
def RhsValue.outlines : List RhsValue → List Outline
  | [] => []
  | v :: rest => v.outline :: RhsValue.outlines rest

end

/-- A preference that never has a referent. -/
def NaturallyUnaryPreference.outline (p : NaturallyUnaryPreference) : Outline :=
  .ofEntry .naturallyUnaryPreference (Entry.preference .naturallyUnaryPreferences (.int p.kind)) []

/-- A preference whose referent was left out. -/
def ForcedUnaryPreference.outline (p : ForcedUnaryPreference) : Outline :=
  .ofEntry .forcedUnaryPreference (Entry.preference .forcedUnaryPreferences (.int p.kind)) []

/-- A preference with its referent. -/
def BinaryPreference.outline (p : BinaryPreference) : Outline :=
  .ofEntry .binaryPreference (Entry.preference .binaryPreferences (.int p.kind))
    [p.referent.outline]

/-- The preference of a value with what it consists of. -/
def PreferenceSpecifier.outline (p : PreferenceSpecifier) : Outline :=
  .ofEntry .preferenceSpecifier (Entry.preferenceSpecifier p.binary.isNone (.int p.kind))
    [match p.natural, p.forced with
      | some n, _ => n.outline
      | none, some f => f.outline
      | none, none => outlineOf? BinaryPreference.outline p.binary]

/-- A value with its preferences. -/
def ValueMake.outline (m : ValueMake) : Outline :=
  .entry .valueMake Entry.valueMake
    (m.value.outline :: m.preferences.map PreferenceSpecifier.outline)

/-- The steps of the path come before the values. -/
def AttributeMake.outline (m : AttributeMake) : Outline :=
  .entry .attributeMake Entry.attributeMake
    (m.path.map RhsValue.outline ++ m.values.map ValueMake.outline)

/-- The attributes that an identifier gets. -/
def VariableMake.outline (m : VariableMake) : Outline :=
  .entry .variableMake (Entry.variableMake (.text m.variableName))
    (m.makes.map AttributeMake.outline)

/-- New attribute values come before a function call. -/
def Action.outline (a : Action) : Outline :=
  .entry .action (Entry.action a.make.isSome)
    [match a.make with
      | some m => m.outline
      | none => outlineOf? FunctionCall.outline a.call]

/-- The parts directly below a production, conditions first. -/
def Production.parts (p : Production) : List Outline :=
  p.conditions.map Condition.outline ++ p.actions.map Action.outline

/-- A production is stored as the rule itself. -/
def Production.outline (p : Production) : Outline :=
  .entry .production (Entry.production (.text p.name)) p.parts

end SoarProject.Rule
