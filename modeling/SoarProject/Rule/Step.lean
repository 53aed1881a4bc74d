import SoarProject.Rule.State

/-!
# Reading one token

`State.step?` adds one token to the open part of a production, or refuses it. A part is closed as
soon as the token that ends it has been read, or the first token that cannot belong to it; that
token then goes to the part around it.
-/

namespace SoarProject.Rule

/-! ### Steps on the left side -/

/-- A condition begins, a conjunction opens or closes, or the right side begins. -/
def Clauses.step? (c : Clauses) (t : Token) : Option Progress :=
  match t.terminal with
  | .leftParen => some (.conditionStart c false, .conditionStart)
  | .minus => some (.negation c, .negation)
  | .leftBrace =>
    some (.clauses { c with enclosing := (false, c.conditions) :: c.enclosing, conditions := [] },
      .conjunctionStart)
  | .rightBrace =>
    match c.enclosing, c.conditions with
    | (negated, before) :: enclosing, first :: rest =>
      let whole : Condition := { positive := { conjunction := some (first :: rest) }, negated }
      some (.clauses { c with enclosing, conditions := before ++ [whole] }, .conditionEnd)
    | _, _ => none
  | .arrow =>
    if c.enclosing.isEmpty && !c.conditions.isEmpty then
      some (.actions { heading := c.heading, conditions := c.conditions }, .arrow)
    else none
  | _ => none

/-- Documentation and flags come before the first condition. -/
def Heading.step? (h : Heading) (t : Token) : Option Progress :=
  match t.terminal with
  | .documentation =>
    if h.documentation.isNone && h.flags.isEmpty then
      some (.heading { h with documentation := some t.inner }, .heading)
    else none
  | .flag => some (.heading { h with flags := h.flags ++ [String.ofList (t.text.drop 1)] }, .heading)
  | _ => Clauses.step? { heading := h } t

/-- After the minus sign of a condition. -/
def Clauses.stepNegated? (c : Clauses) (t : Token) : Option Progress :=
  match t.terminal with
  | .leftParen => some (.conditionStart c true, .conditionStart)
  | .leftBrace =>
    some (.clauses { c with enclosing := (true, c.conditions) :: c.enclosing, conditions := [] },
      .conjunctionStart)
  | _ => none

/-- An attribute test begins, or the condition ends. -/
def OpenCondition.step? (o : OpenCondition) (t : Token) : Option Progress :=
  match t.terminal with
  | .caret => some (.test { condition := o, negated := false } .path .start, .pathStep)
  | .minus => some (.testNegation o, .testNegation)
  | .rightParen => some (.clauses o.close, .conditionEnd)
  | _ => none

/-- A variable or a constant, compared by a relation. -/
def OpenTest.single? (o : OpenTest) (slot : TestSlot) (around : Option (List SimpleTest))
    (code : Int) (t : Token) : Option Progress :=
  if t.terminal = .variableName then
    some (o.putSimple slot around { relational := some ⟨code, { variableName := some t.string }⟩ },
      .testedVariable)
  else t.constant?.map fun c =>
    (o.putSimple slot around { relational := some ⟨code, { constant := some c }⟩ }, .constant)

/-- A simple test begins. -/
def OpenTest.startSimple? (o : OpenTest) (slot : TestSlot) (around : Option (List SimpleTest))
    (t : Token) : Option Progress :=
  match relationCode? t.terminal with
  | some code => some (.test o slot (.relation around code), .relation)
  | none =>
    if t.terminal = .doubleLess then
      some (.test o slot (.disjunction around []), .disjunctionStart)
    else o.single? slot around 0 t

/-- A test begins. -/
def OpenTest.start? (o : OpenTest) (slot : TestSlot) (t : Token) : Option Progress :=
  if t.terminal = .leftBrace then some (.test o slot (.conjunctive []), .conjunctiveStart)
  else o.startSimple? slot none t

/-- Inside a test. -/
def OpenTest.step? (o : OpenTest) (slot : TestSlot) (part : TestPart) (t : Token) :
    Option Progress :=
  match part with
  | .start => o.start? slot t
  | .conjunctive tests =>
    if t.terminal = .rightBrace then
      if tests.isEmpty then none
      else some (o.put slot { conjunctive := some ⟨tests⟩ }, .conjunctiveEnd)
    else o.startSimple? slot (some tests) t
  | .relation around code => o.single? slot around code t
  | .disjunction around constants =>
    if t.terminal = .doubleGreater then
      if constants.isEmpty then none
      else some (o.putSimple slot around { disjunction := some ⟨constants⟩ }, .disjunctionEnd)
    else t.constant?.map fun c =>
      (.test o slot (.disjunction around (constants ++ [c])), .constant)

/-- Another value is tested, another attribute test begins, or the condition ends. -/
def OpenTest.next? (o : OpenTest) (t : Token) : Option Progress :=
  match t.terminal with
  | .caret | .minus | .rightParen => o.close.step? t
  | _ => o.start? .value t

/-! ### Steps on the right side -/

/-- A constant or a variable as a value, with the place after it. -/
def Token.value? (t : Token) : Option (RhsValue × Place) :=
  if t.terminal = .variableName then some ({ variableName := some t.string }, .valueVariable)
  else t.constant?.map fun c => ({ constant := some c }, .constant)

/-- A value begins. -/
def ValueSlot.start? (slot : ValueSlot) (t : Token) : Option Progress :=
  if t.terminal = .leftParen then some (.callStart slot [], .callStart)
  else do
    let (made, place) ← t.value?
    let state ← slot.put? made
    pure (state, place)

/-- An action makes attribute values, or calls a function. -/
def RightSide.start? (side : RightSide) (t : Token) : Option Progress :=
  if t.terminal = .variableName then
    some (.make { side, variableName := t.string }, .makeVariable)
  else if isFunctionName t.terminal then
    some (.call (.action side) [] { functionName := t.string }, .functionName)
  else none

/-- After a value or a preference. -/
def OpenAttribute.step? (a : OpenAttribute) (v : ValueMake) (comma : Bool) (t : Token) :
    Option Progress :=
  match unaryPreferenceCode? t.terminal, binaryPreferenceCode? t.terminal with
  | some code, _ => some (.value a (v.push (.ofNatural code)) true, .preference)
  | none, some code => some (.preference a v code, .preference)
  | none, none =>
    match t.terminal with
    | .comma => if comma then some (.value a v false, .preferenceComma) else none
    | .caret => some (.makePath { make := a.close v }, .makePathStep)
    | .rightParen => some (.actions (a.close v).close, .actionEnd)
    | _ => ValueSlot.start? (.value { a with values := a.values ++ [v] }) t

/-- After a preference that may have a referent: a value is its referent, anything else means that
the referent was left out. -/
def OpenAttribute.stepPreference? (a : OpenAttribute) (v : ValueMake) (code : Int) (t : Token) :
    Option Progress :=
  if t.terminal ∈ Place.values then ValueSlot.start? (.referent a v code) t
  else a.step? (v.push (.ofForced code)) true t

/-- Inside a function call. -/
def OpenCall.step? (c : OpenCall) (slot : ValueSlot) (around : List OpenCall) (t : Token) :
    Option Progress :=
  match t.terminal with
  | .leftParen => some (.callStart slot (c :: around), .callStart)
  | .rightParen =>
    let value : RhsValue := { call := some ⟨c.functionName, c.arguments⟩ }
    match around with
    | [] => (slot.put? value).map (·, .callEnd)
    | outer :: rest =>
      some (.call slot rest { outer with arguments := outer.arguments ++ [value] }, .callEnd)
  | _ => t.value?.map fun (value, place) =>
    (.call slot around { c with arguments := c.arguments ++ [value] }, place)

/-! ### The reader -/

/-- Read one token; none if it does not belong here. -/
def State.step? (state : State) (t : Token) : Option Progress :=
  match state with
  | .start => if t.terminal = .symbol then some (.heading { name := t.string }, .name) else none
  | .heading h => h.step? t
  | .clauses c => c.step? t
  | .negation c => c.stepNegated? t
  | .conditionStart c negated =>
    match t.terminal with
    | .symbol => some (.conditionClass c negated t.string, .conditionClass)
    | .variableName =>
      some (.condition { clauses := c, negated, hasState := false, variableName := t.string },
        .identifier)
    | _ => none
  | .conditionClass c negated word =>
    if t.terminal = .variableName then
      some (.condition
        { clauses := c, negated, hasState := word == "state", variableName := t.string },
        .identifier)
    else none
  | .condition o => o.step? t
  | .testNegation o =>
    if t.terminal = .caret then
      some (.test { condition := o, negated := true } .path .start, .pathStep)
    else none
  | .test o slot part => o.step? slot part t
  | .testedPath o =>
    if t.terminal = .dot then some (.test o .path .start, .pathStep) else o.next? t
  | .testedValue o v =>
    if t.terminal = .plus then some (.acceptable (o.pushValue v true), .acceptable)
    else (o.pushValue v false).next? t
  | .acceptable o => o.next? t
  | .actions side =>
    if t.terminal = .leftParen then some (.actionStart side, .actionStart) else none
  | .actionStart side => side.start? t
  | .make m =>
    if t.terminal = .caret then some (.makePath { make := m }, .makePathStep) else none
  | .makePath a => ValueSlot.start? (.path a) t
  | .madePath a =>
    if t.terminal = .dot then some (.makePath a, .makePathStep) else ValueSlot.start? (.value a) t
  | .value a v comma => a.step? v comma t
  | .preference a v code => a.stepPreference? v code t
  | .callStart slot around =>
    if isFunctionName t.terminal then
      some (.call slot around { functionName := t.string }, .functionName)
    else none
  | .call slot around c => c.step? slot around t

end SoarProject.Rule
