import SoarProject.Rule.Outline

/-!
# Loose parts

A part of a production may be handed over as a value: a kind with named fields. Such a part is loose,
since its fields may hold anything, also values where parts should be. `Value.outline` is how it is
stored all the same.

A field for one part is stored as whatever it holds. A field for several parts must hold a list, or
another value that has items: the characters of a text or the names in a dictionary.
-/

namespace SoarProject.Rule

/-! ### Fields -/

namespace PartKind

/-- A flag or an optional field holds this if it is left out. -/
private abbrev unset : Value := .null

/-- The fields of a kind, in order, with what they hold if they are left out. -/
def fields : PartKind → List (String × Value)
  | .production =>
    [("name", unset), ("conditions", unset), ("actions", .list []), ("documentation", unset),
      ("flags", .list [])]
  | .condition => [("positive_condition", unset), ("is_negated", .bool false)]
  | .positiveCondition => [("condition_for_one_identifier", unset), ("conjunction", unset)]
  | .identifierCondition =>
    [("variable", unset), ("attribute_value_tests", .list []), ("has_state", .bool false)]
  | .attributeValueTest =>
    [("attribute_tests", unset), ("value_tests", .list []), ("is_negated", .bool false)]
  | .attributeTest => [("test", unset)]
  | .valueTest => [("test", unset), ("has_acceptable_preference", .bool false)]
  | .test => [("conjunctive_test", unset), ("simple_test", unset)]
  | .conjunctiveTest => [("simple_tests", unset)]
  | .simpleTest => [("disjunction_test", unset), ("relational_test", unset)]
  | .disjunctionTest => [("constants", unset)]
  | .relationalTest => [("relation", unset), ("single_test", unset)]
  | .singleTest => [("variable", unset), ("constant", unset)]
  | .constant => [("constant_type", unset), ("value", unset)]
  | .action => [("var_attr_val_make", unset), ("function_call", unset)]
  | .variableMake => [("variable", unset), ("attribute_value_makes", .list [])]
  | .attributeMake => [("rhs_values", unset), ("value_makes", .list [])]
  | .rhsValue => [("constant", unset), ("function_call", unset), ("variable", unset)]
  | .functionCall => [("function_name", unset), ("rhs_values", .list [])]
  | .valueMake => [("rhs_value", unset), ("preference_specifiers", .list [])]
  | .preferenceSpecifier =>
    [("preference_specifier_type", unset), ("naturally_unary_preference", unset),
      ("forced_unary_preference", unset), ("binary_preference", unset)]
  | .naturallyUnaryPreference | .forcedUnaryPreference => [("preference_specifier_type", unset)]
  | .binaryPreference => [("preference_specifier_type", unset), ("rhs_value", unset)]

/-- The part of a kind with some fields given. -/
def toValue (kind : PartKind) (given : List (String × Value)) : Value :=
  .part kind (kind.fields.map fun (name, default) => (name, (given.lookup name).getD default))

end PartKind

/-! ### Storing -/

/-- A field of a loose part. -/
structure LooseField where
  /-- The name of the field. -/
  name : String
  /-- What it holds. -/
  value : Value
  /-- How this is stored as one part. -/
  alone : Outline
  /-- How its items are stored, if it has items. -/
  items : Option (List Outline)

/-- The fields of a loose part. -/
abbrev LooseFields := List LooseField

namespace LooseFields

/-- What a field holds. -/
def value (fs : LooseFields) (name : String) : Value :=
  ((fs.find? (·.name == name)).map (·.value)).getD .null

/-- How a field is stored as one part. -/
def alone (fs : LooseFields) (name : String) : Outline :=
  ((fs.find? (·.name == name)).map (·.alone)).getD (.foreign Value.null.kindName)

/-- Whether a field is set. -/
def has (fs : LooseFields) (name : String) : Bool := (fs.value name).isPresent

/-- How the items of a field are stored, which must have some; otherwise the kind of what the field
holds goes into the failure. -/
def itemsOr (failure : String → Failure) (fs : LooseFields) (name : String) :
    Except Failure (List Outline) :=
  match fs.find? (·.name == name) with
  | some ⟨_, _, _, some items⟩ => .ok items
  | _ => .error (failure (fs.value name).kindName)

/-- How the items of a field are stored. -/
def items (fs : LooseFields) (name : String) : Except Failure (List Outline) :=
  fs.itemsOr .noParts name

/-- How the items of two fields are stored together. -/
def joined (fs : LooseFields) (first second : String) : Except Failure (List Outline) := do
  return (← fs.itemsOr .noPartsToJoin first) ++ (← fs.itemsOr .noPartsToJoin second)

/-- The first of some fields that counts as true, or else the last one, as one part. -/
def firstTrue (fs : LooseFields) : List String → Outline
  | [] => .foreign Value.null.kindName
  | [name] => fs.alone name
  | name :: rest => if (fs.value name).isTrue then fs.alone name else fs.firstTrue rest

end LooseFields

/-- How a loose part of a kind is stored. -/
def PartKind.describe (kind : PartKind) (fs : LooseFields) :
    Except Failure (Entry × List Outline) := do
  match kind with
  | .production => return (Entry.production (fs.value "name"), ← fs.joined "conditions" "actions")
  | .condition =>
    return (Entry.condition (fs.value "is_negated").isTrue, [fs.alone "positive_condition"])
  | .positiveCondition =>
    if fs.has "conjunction" then
      return (Entry.positiveCondition true, ← fs.items "conjunction")
    return (Entry.positiveCondition false, [fs.alone "condition_for_one_identifier"])
  | .identifierCondition =>
    return (Entry.identifierCondition (fs.value "variable") (fs.value "has_state").isTrue,
      ← fs.items "attribute_value_tests")
  | .attributeValueTest =>
    return (Entry.attributeValueTest (fs.value "is_negated").isTrue,
      ← fs.joined "attribute_tests" "value_tests")
  | .attributeTest => return (Entry.attributeTest, [fs.alone "test"])
  | .valueTest =>
    return (Entry.valueTest (fs.value "has_acceptable_preference").isTrue, [fs.alone "test"])
  | .test =>
    let isConjunctive := fs.has "conjunctive_test"
    return (Entry.test isConjunctive,
      [fs.alone (if isConjunctive then "conjunctive_test" else "simple_test")])
  | .conjunctiveTest => return (Entry.conjunctiveTest, ← fs.items "simple_tests")
  | .simpleTest =>
    let isChoice := fs.has "disjunction_test"
    return (Entry.simpleTest isChoice,
      [fs.alone (if isChoice then "disjunction_test" else "relational_test")])
  | .disjunctionTest => return (Entry.disjunctionTest, ← fs.items "constants")
  | .relationalTest =>
    return (← Entry.relationalTest (fs.value "relation"), [fs.alone "single_test"])
  | .singleTest =>
    if fs.has "constant" then return (Entry.constantTest, [fs.alone "constant"])
    return (Entry.variableTest (fs.value "variable"), [])
  | .constant => return (← Entry.constant (fs.value "constant_type") (fs.value "value"), [])
  | .action =>
    let isMake := fs.has "var_attr_val_make"
    return (Entry.action isMake,
      [fs.alone (if isMake then "var_attr_val_make" else "function_call")])
  | .variableMake =>
    return (Entry.variableMake (fs.value "variable"), ← fs.items "attribute_value_makes")
  | .attributeMake => return (Entry.attributeMake, ← fs.joined "rhs_values" "value_makes")
  | .rhsValue =>
    let entry := Entry.rhsValue (fs.has "constant") (fs.has "function_call") (fs.value "variable")
    if fs.has "constant" then return (entry, [fs.alone "constant"])
    if fs.has "function_call" then return (entry, [fs.alone "function_call"])
    return (entry, [])
  | .functionCall =>
    return (Entry.functionCall (fs.value "function_name"), ← fs.items "rhs_values")
  | .valueMake =>
    return (Entry.valueMake,
      fs.alone "rhs_value" :: (← fs.itemsOr .noPartsToJoin "preference_specifiers"))
  | .preferenceSpecifier =>
    return (← Entry.preferenceSpecifier (!fs.has "binary_preference")
        (fs.value "preference_specifier_type"),
      [fs.firstTrue ["naturally_unary_preference", "forced_unary_preference",
        "binary_preference"]])
  | .naturallyUnaryPreference =>
    return (← Entry.preference .naturallyUnaryPreferences (fs.value "preference_specifier_type"), [])
  | .forcedUnaryPreference =>
    return (← Entry.preference .forcedUnaryPreferences (fs.value "preference_specifier_type"), [])
  | .binaryPreference =>
    return (← Entry.preference .binaryPreferences (fs.value "preference_specifier_type"),
      [fs.alone "rhs_value"])

/-- The outline of a loose part of a kind. -/
def PartKind.outline (kind : PartKind) (fs : LooseFields) : Outline :=
  match kind.describe fs with
  | .ok (e, children) => .entry kind e children
  | .error failure => .faulty kind failure

/-- Texts as parts, which they are not. -/
def foreignTexts (count : Nat) : List Outline :=
  List.replicate count (.foreign (Value.text "").kindName)

end SoarProject.Rule

namespace SoarProject

open Rule

mutual

/-- The outline of a value that stands for a part. -/
def Value.outline : Value → Outline
  | .part kind fields => kind.outline (Value.looseFields fields)
  | v => .foreign v.kindName

/-- The outlines of several values. -/
def Value.outlines : List Value → List Outline
  | [] => []
  | v :: rest => v.outline :: Value.outlines rest

/-- The outlines of the items of a value, if it has items. -/
def Value.itemOutlines? : Value → Option (List Outline)
  | .list items => some (Value.outlines items)
  | .text s => some (foreignTexts s.length)
  | .dictionary entries => some (foreignTexts entries.length)
  | _ => none

/-- The fields of a loose part. -/
def Value.looseFields : List (String × Value) → LooseFields
  | [] => []
  | (name, v) :: rest => ⟨name, v, v.outline, v.itemOutlines?⟩ :: Value.looseFields rest

end

end SoarProject
