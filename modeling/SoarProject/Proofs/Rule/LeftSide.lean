import SoarProject.Proofs.Rule.Progress

/-!
# Reading the words of a left side

The words of well-formed conditions lead from the situation before them to the one behind them, with the
conditions in it. There is one lemma for each kind of part, in the order in which the parts are built.

* `Rule.Test.leads`: from before a test to behind it.
* `Rule.AttributeValueTest.leads`: the same for the tests of an attribute path and its values.
* `Rule.Condition.leads_allWords`: the same for conditions, however they are nested.
-/

namespace SoarProject.Rule

variable {style : Style}

/-! ### Tests -/

/-- The part of a test before a simple test. -/
def TestPart.before : Option (List SimpleTest) → TestPart
  | none => .start
  | some tests => .conjunctive tests

section Tests

variable (o : OpenTest) (slot : TestSlot) (around : Option (List SimpleTest))

/-- What may follow a simple test. -/
def simpleFollow : List Terminal := .rightBrace :: Place.testFollow

/-- A variable or a constant is read after a relation. -/
theorem SingleTest.leads {a : State} {code : Int} {t : SingleTest} (h : t.Proper)
    (hw : ∀ w ∈ t.words, w.Written style)
    (ha : ∀ token : Token, token.terminal ∈ Place.singles →
      a.step? token = o.single? slot around code token) :
    a.Leads style Place.singles t.words
      (o.putSimple slot around { relational := some ⟨code, t⟩ }) simpleFollow := by
  obtain ⟨_ | v, _ | c⟩ := t
  · exact h.elim
  · -- A constant is accepted as it is; it is no variable, which is asked for first.
    have hwritten := hw (.constant c) (by simp [words])
    obtain ⟨hreadable, hconstant⟩ := hwritten.constant h
    have hwelcome := Word.terminal_constant_mem h
    refine .word (q := .constant) hreadable (List.mem_cons_of_mem _ hwelcome) (fun position => ?_)
      (by decide)
    rw [ha _ (List.mem_cons_of_mem _ hwelcome), OpenTest.single?, if_neg, hconstant, Option.map_some]
    rintro heq
    have hvariable : (Word.constant c).terminal = .variableName := heq
    rw [hvariable] at hwelcome
    exact absurd hwelcome (by decide)
  · have hwritten := hw (.variableName v) (by simp [words])
    refine .word (q := .testedVariable) (Word.readable_variableName hwritten.1)
      List.mem_cons_self (fun position => ?_) (by decide)
    rw [ha _ List.mem_cons_self]
    simp [OpenTest.single?, Token.string, Word.token, Word.terminal, Word.chars]
  · exact h.elim

/-- Before a simple test, the tokens at which one may begin are read alike. -/
theorem State.step?_before {token : Token} (h : token.terminal ∈ Place.simpleTests) :
    (State.test o slot (.before around)).step? token = o.startSimple? slot around token := by
  have hbraces : token.terminal ≠ .leftBrace ∧ token.terminal ≠ .rightBrace := by
    constructor <;> exact fun heq => absurd (heq ▸ h) (by decide)
  cases around with
  | none => exact if_neg hbraces.1
  | some tests => exact if_neg hbraces.2

/-- The sign of a relation is read. -/
theorem relationCode?_terminalOf {code : Int} (h : IsCodeOf relationSigns code) :
    relationCode? (terminalOf relationTerminals code) = some code ∧
      (terminalOf relationTerminals code).sign ≠ [] ∧
      terminalOf relationTerminals code ∈ Place.simpleTests := by
  obtain ⟨hlower, hupper⟩ := h
  have hcode : code = 0 ∨ code = 1 ∨ code = 2 ∨ code = 3 ∨ code = 4 ∨ code = 5 ∨ code = 6 := by
    have : relationSigns.length = 7 := rfl
    omega
  rcases hcode with rfl | rfl | rfl | rfl | rfl | rfl | rfl <;> decide

/-- A comparison is read, with or without the sign of an equality. -/
theorem RelationalTest.leads {t : RelationalTest} (h : t.Proper)
    (hw : ∀ w ∈ t.words style, w.Written style) :
    (State.test o slot (.before around)).Leads style Place.simpleTests (t.words style)
      (o.putSimple slot around { relational := some t }) simpleFollow := by
  obtain ⟨code, single⟩ := t
  obtain ⟨hcode, hsingle⟩ := h
  have hw' : ∀ w ∈ single.words, w.Written style := fun w hmem =>
    hw w (List.mem_append_right _ hmem)
  unfold words
  split
  · next hequality =>
    -- Equality is written without a sign, and the single test begins at once.
    rw [List.nil_append]
    refine .of_subset (by decide) (single.leads o slot around hsingle hw' fun token htoken => ?_)
    have hmem : token.terminal ∈ Place.simpleTests := List.mem_append_right _ htoken
    have hnone : relationCode? token.terminal = none ∧ token.terminal ≠ .doubleLess := by
      revert htoken
      cases token.terminal <;> decide
    rw [State.step?_before o slot around hmem, OpenTest.startSimple?, hnone.1]
    dsimp only
    rw [if_neg hnone.2]
    exact congrArg (fun code => o.single? slot around code token) hequality.1.symm
  · obtain ⟨hrelation, hsign, hmem⟩ := relationCode?_terminalOf hcode
    refine .sign (b := .test o slot (.relation around code)) (q := .relation) _ hsign hmem
      (fun position => ?_) (by decide) (single.leads o slot around hsingle hw' fun token _ => rfl)
    rw [State.step?_before o slot around hmem, OpenTest.startSimple?]
    dsimp only
    rw [hrelation]

/-- A choice between constants is read. -/
theorem DisjunctionTest.leads {t : DisjunctionTest} (h : t.WellFormed)
    (hw : ∀ w ∈ t.words, w.Written style) :
    (State.test o slot (.before around)).Leads style Place.simpleTests t.words
      (o.putSimple slot around { disjunction := some t }) simpleFollow := by
  obtain ⟨constants⟩ := t
  obtain ⟨hne, hproper⟩ := h
  have hw' : ∀ c ∈ constants, (Word.constant c).Written style := fun c hc =>
    hw _ (by simp [words, hc])
  have hmem : Terminal.doubleLess ∈ Place.simpleTests := by decide
  refine .sign (b := .test o slot (.disjunction around [])) (q := .disjunctionStart) .doubleLess
    (by decide) (by decide) (fun _ => State.step?_before o slot around hmem) (U := Place.constants) (by decide) ?_
  refine .trans (b := .test o slot (.disjunction around constants))
    (U := .doubleGreater :: Place.constants) ?_ ?_
  · -- The constants one after the other, and the closing sign behind at least one of them.
    rw [List.map_eq_flatMap]
    refine State.Leads.flatMap_of_ne_nil
      (f := fun before => .test o slot (.disjunction around before)) (by decide)
      (fun before c hc => ?_) hne []
    obtain ⟨hreadable, hconstant⟩ := (hw' c hc).constant (hproper c hc)
    have hwelcome := Word.terminal_constant_mem (hproper c hc)
    refine .word (q := .constant) hreadable hwelcome (fun position => ?_) (by decide)
    change OpenTest.step? o slot (.disjunction around before) _ = _
    rw [OpenTest.step?, if_neg, hconstant, Option.map_some]
    intro heq
    have hgreater : (Word.constant c).terminal = .doubleGreater := heq
    rw [hgreater] at hwelcome
    exact absurd hwelcome (by decide)
  · refine .lastSign (q := .disjunctionEnd) .doubleGreater (by decide) (by decide)
      (fun _ => ?_) (by decide)
    have hempty : constants.isEmpty = false := by simpa using hne
    change (if constants.isEmpty then none else _) = _
    rw [hempty]
    rfl

/-- A simple test is read. -/
theorem SimpleTest.leads {t : SimpleTest} (h : t.WellFormed)
    (hw : ∀ w ∈ t.words style, w.Written style) :
    (State.test o slot (.before around)).Leads style Place.simpleTests (t.words style)
      (o.putSimple slot around t) simpleFollow := by
  obtain ⟨_ | d, _ | r⟩ := t
  · exact h.elim
  · have hwords : words style ⟨none, some r⟩ = r.words style := by simp [words]
    rw [hwords] at hw ⊢
    exact r.leads o slot around h hw
  · have hwords : words style ⟨some d, none⟩ = d.words := by simp [words]
    rw [hwords] at hw ⊢
    exact d.leads o slot around h hw
  · exact h.elim

/-- The terminals at which a test may begin. -/
def testFirst : List Terminal := .leftBrace :: Place.simpleTests

/-- A test is read, and put where it goes. -/
theorem Test.leads {t : Test} (h : t.WellFormed) (hw : ∀ w ∈ t.words style, w.Written style) :
    (State.test o slot .start).Leads style testFirst (t.words style) (o.put slot t)
      Place.testFollow := by
  obtain ⟨_ | ⟨⟨tests⟩⟩, _ | s⟩ := t
  · exact h.elim
  · have hwords : words style ⟨none, some s⟩ = s.words style := by simp [words]
    rw [hwords] at hw ⊢
    -- A simple test that stands alone.
    have hread := (s.leads o slot none h hw).trans (.of_subset (U := Place.testFollow) (by decide) .refl)
    rw [List.append_nil] at hread
    exact .of_subset (by decide) hread
  · have hwords : words style ⟨some ⟨tests⟩, none⟩ =
        .sign .leftBrace :: (tests.flatMap (SimpleTest.words style) ++ [.sign .rightBrace]) := by
      simp [words, ConjunctiveTest.words]
    rw [hwords] at hw ⊢
    -- A conjunction in braces, with at least one test in it.
    obtain ⟨hne, hall⟩ := h
    have hw' : ∀ s ∈ tests, ∀ w ∈ s.words style, w.Written style := fun s hs w hmem =>
      hw w (List.mem_cons_of_mem _ (List.mem_append_left _ (List.mem_flatMap.mpr ⟨s, hs, hmem⟩)))
    refine .sign (b := .test o slot (.conjunctive [])) (q := .conjunctiveStart) .leftBrace
      (by decide) (by decide) (fun _ => rfl) (U := Place.simpleTests) (by decide) ?_
    refine .trans (b := .test o slot (.conjunctive tests)) (U := simpleFollow) ?_ ?_
    · exact State.Leads.flatMap_of_ne_nil
        (f := fun before => .test o slot (.conjunctive before)) (by decide)
        (fun before s hs => s.leads o slot (some before) (hall s hs) (hw' s hs)) hne []
    · refine .lastSign (q := .conjunctiveEnd) .rightBrace (by decide) (by decide)
        (fun _ => ?_) (by decide)
      have hempty : tests.isEmpty = false := by simpa using hne
      change (if tests.isEmpty then none else _) = _
      rw [hempty]
      rfl
  · exact h.elim

end Tests

/-! ### Attribute tests -/

section AttributeTests

variable (o : OpenTest) (c : OpenCondition)

/-- The words of a path lead behind its last step. -/
theorem leads_path {attributes : List AttributeTest} (hne : attributes ≠ [])
    (hall : ∀ a ∈ attributes, a.WellFormed)
    (hw : ∀ a ∈ attributes, ∀ w ∈ a.test.words style, w.Written style) :
    (State.test { o with attributes := [] } .path .start).Leads style testFirst
      (dotted (attributes.map fun a => a.test.words style)) (.testedPath { o with attributes })
      Place.testFollow := by
  refine .dotted (f := fun before => .test { o with attributes := before } .path .start)
    (h := fun before => .testedPath { o with attributes := before }) (q := .pathStep) (by decide)
    (fun before a ha => ?_) (fun _ _ => rfl) (by decide) hne
  exact Test.leads { o with attributes := before } .path (hall a ha) (hw a ha)

/-- A token at which a test may begin begins one behind the test of a value. -/
theorem OpenTest.next?_eq_start? {t : Token} (h : t.terminal ∈ testFirst) :
    o.next? t = o.start? .value t := by
  unfold next?
  split
  · next heq => exact absurd (heq ▸ h) (by decide)
  · next heq => exact absurd (heq ▸ h) (by decide)
  · next heq => exact absurd (heq ▸ h) (by decide)
  · rfl

/-- The terminals that may follow the tests of an attribute. -/
def attributeFollow : List Terminal := Place.identifier.expected

/-- A token that ends the tests of an attribute closes them. -/
theorem OpenTest.next?_eq_step? {t : Token} (h : t.terminal ∈ attributeFollow) :
    o.next? t = o.close.step? t := by
  unfold next?
  split
  · rfl
  · rfl
  · rfl
  · next hcaret hminus hparen =>
    simp only [attributeFollow, Place.expected, List.mem_cons, List.not_mem_nil, or_false] at h
    rcases h with heq | heq | heq
    · exact absurd heq hparen
    · exact absurd heq hminus
    · exact absurd heq hcaret

/-- The terminals that may follow the test of a value. -/
def valueTestFollow : List Terminal := Place.acceptable.expected

/-- The test of a value is read, and is complete before whatever else may follow. -/
theorem ValueTest.leads {v : ValueTest} (h : v.WellFormed)
    (hw : ∀ w ∈ v.words style, w.Written style) :
    (State.acceptable o).Leads style valueTestFollow (v.words style)
      (.acceptable { o with values := o.values ++ [v] }) valueTestFollow := by
  obtain ⟨test, acceptable⟩ := v
  have htest : (State.acceptable o).Leads style valueTestFollow (test.words style)
      (.testedValue o test) Place.testFollow := by
    exact .of_alike (b := .test o .value .start) (U := testFirst) (by decide)
      (fun t ht => o.next?_eq_start? ht) rfl
      (test.leads o .value h fun w hmem => hw w (List.mem_append_left _ hmem))
  rw [words]
  -- The sign for acceptable belongs to the value before it.
  cases acceptable with
  | true =>
    exact htest.trans (.lastSign (q := .acceptable) .plus (by decide) (by decide) (fun _ => rfl)
      (by decide))
  -- Without the sign, the next token belongs to what follows the value.
  | false =>
    rw [if_neg Bool.false_ne_true]
    refine htest.trans (.of_alike (b := .acceptable (o.pushValue test false)) (U := valueTestFollow)
      (by decide) (fun t ht => ?_) rfl .refl)
    change (if t.terminal = .plus then _ else (o.pushValue test false).next? t) = _
    refine if_neg fun hplus => ?_
    exact absurd (hplus ▸ ht) (by decide)

/-- The tests of an attribute path and its values are read. -/
theorem AttributeValueTest.leads {t : AttributeValueTest} (h : t.WellFormed)
    (hw : ∀ w ∈ t.words style, w.Written style) :
    (State.condition c).Leads style attributeFollow (t.words style)
      (.condition { c with tests := c.tests ++ [t] }) attributeFollow := by
  obtain ⟨attributes, values, negated⟩ := t
  obtain ⟨hne, hattributes, hvalues⟩ := h
  have hw' : (∀ a ∈ attributes, ∀ w ∈ a.test.words style, w.Written style) ∧
      ∀ v ∈ values, ∀ w ∈ v.words style, w.Written style := by
    constructor
    · exact fun a ha w hmem => hw w (List.mem_append_right _ (List.mem_cons_of_mem _
        (List.mem_append_left _ (mem_dotted (List.mem_map_of_mem ha) hmem))))
    · exact fun v hv w hmem => hw w (List.mem_append_right _ (List.mem_cons_of_mem _
        (List.mem_append_right _ (List.mem_flatMap.mpr ⟨v, hv, hmem⟩))))
  let start : OpenTest := { condition := c, negated }
  let read : OpenTest := { condition := c, negated, attributes, values }
  -- The path, the values behind it, and the end of the test.
  have hpath := leads_path start hne hattributes hw'.1
  have hlist : (State.acceptable { start with attributes }).Leads style valueTestFollow
      (values.flatMap (ValueTest.words style)) (.acceptable read) valueTestFollow :=
    State.Leads.flatMap (f := fun before =>
        .acceptable { condition := c, negated, attributes, values := before })
      (fun before v hv => v.leads _ (hvalues v hv) (hw'.2 v hv)) []
  have hvalues : (State.testedPath { start with attributes }).Leads style Place.testFollow
      (values.flatMap (ValueTest.words style)) (.acceptable read) valueTestFollow := by
    refine .of_alike (b := .acceptable { start with attributes }) (U := valueTestFollow) (by decide)
      (fun t ht => ?_) rfl hlist
    change (if t.terminal = .dot then _ else OpenTest.next? { start with attributes } t) = _
    refine if_neg fun hdot => ?_
    exact absurd (hdot ▸ ht) (by decide)
  have hclose : (State.acceptable read).Leads style valueTestFollow []
      (.condition { c with tests := c.tests ++ [⟨attributes, values, negated⟩] }) attributeFollow := by
    exact .of_alike (b := .condition read.close) (by decide) (fun t ht => read.next?_eq_step? ht) rfl
      .refl
  have hall := hpath.trans (hvalues.trans hclose)
  rw [List.append_nil] at hall
  rw [words]
  -- A negation stands before the path.
  cases negated with
  | true =>
    exact .sign (q := .testNegation) (U := [.caret]) .minus (by decide) (by decide) (fun _ => rfl)
      (by decide) (.sign (q := .pathStep) .caret (by decide) (by decide) (fun _ => rfl) (by decide)
        hall)
  | false =>
    exact .sign (q := .pathStep) .caret (by decide) (by decide) (fun _ => rfl) (by decide) hall

end AttributeTests

/-! ### Conditions -/

/-- What is open before a condition whose minus sign has been read, if it is negated. -/
def Clauses.before (c : Clauses) (negated : Bool) : State :=
  if negated then .negation c else .clauses c

/-- The terminals at which a condition without its minus sign may begin. -/
def positiveFirst : List Terminal := Place.negation.expected

/-- The terminals at which a condition may begin. -/
def conditionFirst : List Terminal := Place.conjunctionStart.expected

/-- The terminals that may follow a condition. -/
def conditionFollow : List Terminal := Place.conditionEnd.expected

/-- The tests of one identifier are read. -/
theorem IdentifierCondition.leads (c : Clauses) (negated : Bool) {i : IdentifierCondition}
    (h : i.WellFormed) (hw : ∀ w ∈ i.words style, w.Written style) :
    (c.before negated).Leads style positiveFirst (i.words style)
      (.clauses (c.push { positive := { identifier := some i }, negated })) conditionFollow := by
  obtain ⟨variableName, tests, hasState⟩ := i
  have hvariable : (Word.variableName variableName).Readable style :=
    Word.readable_variableName (hw _ (by simp [words])).1
  have hw' : ∀ t ∈ tests, ∀ w ∈ t.words style, w.Written style := fun t ht w hmem =>
    hw w (List.mem_cons_of_mem _ (List.mem_append_right _ (List.mem_cons_of_mem _
      (List.mem_append_left _ (List.mem_flatMap.mpr ⟨t, ht, hmem⟩)))))
  let start : OpenCondition := { clauses := c, negated, hasState, variableName }
  -- The tests in their order, and the closing parenthesis.
  have htests : (State.condition start).Leads style attributeFollow
      (tests.flatMap (AttributeValueTest.words style)) (.condition { start with tests })
      attributeFollow :=
    State.Leads.flatMap
      (f := fun before => .condition { start with tests := before })
      (fun before t ht => t.leads _ (h t ht) (hw' t ht)) []
  have hrest := htests.trans (V := conditionFollow) (.lastSign (q := .conditionEnd) .rightParen
    (by decide) (by decide) (fun _ => rfl) (by decide))
  have hname : String.ofList variableName.toList = variableName := String.ofList_toList
  refine .sign (b := .conditionStart c negated) (U := Place.conditionStart.expected)
    (q := .conditionStart) .leftParen (by decide) (by decide) (fun _ => ?_) (by decide) ?_
  · cases negated <;> rfl
  · -- The class comes before the variable, if it is written.
    cases hasState with
    | true =>
      refine .cons (b := .conditionClass c negated "state") (q := .conditionClass)
        (U := [.variableName]) (Word.readable_symbol (by decide)) (by decide) (fun _ => rfl)
        (by decide) ?_
      refine .cons (q := .identifier) hvariable (List.mem_singleton.mpr rfl) (fun _ => ?_)
        (by decide) hrest
      exact congrArg (fun name => some (State.condition { start with variableName := name }, _)) hname
    | false =>
      have hwelcome : Terminal.variableName ∈ Place.conditionStart.expected := by decide
      refine .cons (q := .identifier) hvariable hwelcome (fun _ => ?_) (by decide) hrest
      exact congrArg (fun name => some (State.condition { start with variableName := name }, _)) hname

mutual

/-- The tests of one identifier, or several conditions in braces, are read. -/
theorem PositiveCondition.leads : ∀ (c : Clauses) (negated : Bool) {p : PositiveCondition},
    p.WellFormed → (∀ w ∈ p.words style, w.Written style) →
      (c.before negated).Leads style positiveFirst (p.words style)
        (.clauses (c.push { positive := p, negated })) conditionFollow
  | c, negated, ⟨some _, none⟩, h, hw => IdentifierCondition.leads c negated h hw
  | c, negated, ⟨none, some conditions⟩, h, hw => by
    rw [PositiveCondition.words] at hw ⊢
    have hinner := Condition.leads_allWords
      { heading := c.heading, enclosing := (negated, c.conditions) :: c.enclosing } h.1 h.2
      fun w hmem => hw w (List.mem_cons_of_mem _ (List.mem_append_left _ hmem))
    refine .sign (q := .conjunctionStart) .leftBrace (by decide) (by decide) (fun _ => ?_)
      (by decide) (hinner.trans (.lastSign (q := .conditionEnd) .rightBrace (by decide)
        (by decide) (fun _ => ?_) (by decide)))
    · cases negated <;> rfl
    · -- The conjunction that is closed is not empty.
      cases conditions with
      | nil => exact absurd rfl h.1
      | cons first rest => rfl
  | _, _, ⟨some _, some _⟩, h, _ => h.elim
  | _, _, ⟨none, none⟩, h, _ => h.elim

/-- A condition is read. -/
theorem Condition.leads : ∀ (c : Clauses) {x : Condition}, x.WellFormed →
    (∀ w ∈ x.words style, w.Written style) →
      (State.clauses c).Leads style conditionFirst (x.words style) (.clauses (c.push x))
        conditionFollow
  | c, ⟨positive, true⟩, h, hw => by
    have hread := PositiveCondition.leads c true (p := positive) h fun w hmem =>
      hw w (List.mem_append_right _ hmem)
    exact .sign (q := .negation) .minus (by decide) (by decide) (fun _ => rfl) (by decide) hread
  | c, ⟨positive, false⟩, h, hw => by
    have hread := PositiveCondition.leads c false (p := positive) h fun w hmem =>
      hw w (List.mem_append_right _ hmem)
    exact .of_subset (by decide) hread

/-- One condition at least is read. -/
theorem Condition.leads_allWords : ∀ (c : Clauses) {conditions : List Condition},
    conditions ≠ [] → Condition.AllWellFormed conditions →
      (∀ w ∈ Condition.allWords style conditions, w.Written style) →
        (State.clauses c).Leads style conditionFirst (Condition.allWords style conditions)
          (.clauses { c with conditions := c.conditions ++ conditions }) conditionFollow
  | _, [], hne, _, _ => absurd rfl hne
  | c, [x], _, h, hw => by
    rw [Condition.allWords, Condition.allWords, List.append_nil] at hw ⊢
    exact Condition.leads c h.1 hw
  | c, x :: y :: rest, _, h, hw => by
    rw [Condition.allWords] at hw ⊢
    have hfirst := Condition.leads c h.1 fun w hmem => hw w (List.mem_append_left _ hmem)
    have hne : y :: rest ≠ [] := by simp
    have hrest := Condition.leads_allWords (c.push x) hne h.2 fun w hmem =>
      hw w (List.mem_append_right _ hmem)
    -- The first condition is among the clauses when the second one is read.
    have hpush : (c.push x).conditions ++ y :: rest = c.conditions ++ x :: y :: rest := by
      simp [Clauses.push]
    rw [hpush] at hrest
    exact hfirst.trans (.of_subset (by decide) hrest)

end

end SoarProject.Rule
