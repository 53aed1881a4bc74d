import SoarProject.Proofs.Rule.Shape
import SoarProject.Rule.Framing

/-!
# Productions that are read

Whatever a reader takes for complete is well-formed: it closes a list that must have an entry only if
there is one, fills one alternative of each part, and takes the codes of relations and preferences from
their signs.

* `Rule.State.WellFormed`: whatever is complete inside an open production is well-formed.
* `Rule.State.proceeds_step?`: reading a token keeps that.
* `Rule.wellFormed_of_parseProduction`: a production that a text reads as is well-formed.
-/

namespace SoarProject.Rule

theorem forall_mem_concat {α : Type} {P : α → Prop} {parts : List α} {a : α}
    (h : ∀ b ∈ parts, P b) (ha : P a) : ∀ b ∈ parts ++ [a], P b := by
  intro b hb
  rcases List.mem_append.mp hb with hb | hb
  · exact h b hb
  · rwa [List.mem_singleton.mp hb]

/-! ### Open parts -/

/-- The complete conditions are well-formed. -/
def Clauses.WellFormed (c : Clauses) : Prop :=
  (∀ level ∈ c.enclosing, ∀ x ∈ level.2, x.WellFormed) ∧ ∀ x ∈ c.conditions, x.WellFormed

/-- The complete attribute tests are well-formed. -/
def OpenCondition.WellFormed (o : OpenCondition) : Prop :=
  o.clauses.WellFormed ∧ ∀ t ∈ o.tests, t.WellFormed

/-- The complete steps and values are well-formed. -/
def OpenTest.WellFormed (o : OpenTest) : Prop :=
  o.condition.WellFormed ∧ (∀ a ∈ o.attributes, a.WellFormed) ∧ ∀ v ∈ o.values, v.WellFormed

/-- A value is tested only after a step of the path. -/
def TestSlot.Suits (o : OpenTest) : TestSlot → Prop
  | .path => True
  | .value => o.attributes ≠ []

/-- The complete tests around a simple test are well-formed. -/
def AreAround (around : Option (List SimpleTest)) : Prop :=
  ∀ tests ∈ around, ∀ t ∈ tests, t.WellFormed

/-- What is complete of a test is well-formed. -/
def TestPart.WellFormed : TestPart → Prop
  | .start => True
  | .conjunctive tests => ∀ t ∈ tests, t.WellFormed
  | .relation around code => AreAround around ∧ IsCodeOf relationSigns code
  | .disjunction around constants => AreAround around ∧ ∀ c ∈ constants, c.Proper

/-- There is a condition, and the complete actions are well-formed. -/
def RightSide.WellFormed (s : RightSide) : Prop :=
  (s.conditions ≠ [] ∧ ∀ c ∈ s.conditions, c.WellFormed) ∧ ∀ a ∈ s.actions, a.WellFormed

/-- The complete attributes are well-formed. -/
def OpenMake.WellFormed (m : OpenMake) : Prop := m.side.WellFormed ∧ ∀ a ∈ m.makes, a.WellFormed

/-- The complete steps and values are well-formed. -/
def OpenAttribute.WellFormed (a : OpenAttribute) : Prop :=
  a.make.WellFormed ∧ (∀ v ∈ a.path, v.Proper) ∧ ∀ v ∈ a.values, v.WellFormed

/-- What is around the place of a value is well-formed. Values come after a step of the path. -/
def ValueSlot.WellFormed : ValueSlot → Prop
  | .action side => side.WellFormed
  | .path a => a.WellFormed
  | .value a => a.WellFormed ∧ a.path ≠ []
  | .referent a v code =>
    a.WellFormed ∧ a.path ≠ [] ∧ v.WellFormed ∧ IsPreferenceOf referentSigns code

/-- The complete arguments are proper. -/
def OpenCall.Proper (c : OpenCall) : Prop := ∀ v ∈ c.arguments, v.Proper

/-- Whatever is complete is well-formed. -/
def State.WellFormed : State → Prop
  | .start | .heading _ => True
  | .clauses c | .negation c | .conditionStart c _ | .conditionClass c _ _ => c.WellFormed
  | .condition o | .testNegation o => o.WellFormed
  | .test o slot part => o.WellFormed ∧ slot.Suits o ∧ part.WellFormed
  | .testedPath o | .acceptable o => o.WellFormed ∧ o.attributes ≠ []
  | .testedValue o t => o.WellFormed ∧ o.attributes ≠ [] ∧ t.WellFormed
  | .actions side | .actionStart side => side.WellFormed
  | .make m => m.WellFormed
  | .makePath a => a.WellFormed
  | .madePath a => a.WellFormed ∧ a.path ≠ []
  | .value a v _ => a.WellFormed ∧ a.path ≠ [] ∧ v.WellFormed
  | .preference a v code =>
    a.WellFormed ∧ a.path ≠ [] ∧ v.WellFormed ∧ IsPreferenceOf referentSigns code
  | .callStart slot around => slot.WellFormed ∧ ∀ c ∈ around, c.Proper
  | .call slot around c => slot.WellFormed ∧ (∀ c ∈ around, c.Proper) ∧ c.Proper

/-- If reading goes on, whatever is complete is well-formed. -/
def Proceeds (found : Option Progress) : Prop := ∀ next ∈ found, next.1.WellFormed

/-- A token that is refused. -/
@[simp]
theorem proceeds_none : Proceeds none := fun _ hnext => by cases hnext

/-- A token that is taken. -/
@[simp]
theorem proceeds_some {state : State} {place : Place} :
    Proceeds (some (state, place)) ↔ state.WellFormed := by
  simp [Proceeds]

/-- What is taken depends on something that a token may stand for. -/
theorem proceeds_map {α : Type} {found : Option α} {f : α → Progress}
    (h : ∀ a, found = some a → (f a).1.WellFormed) : Proceeds (found.map f) := by
  intro next hnext
  obtain ⟨a, ha, rfl⟩ := Option.map_eq_some_iff.mp hnext
  exact h a ha

/-! ### Closing parts -/

/-- A complete condition is added. -/
theorem Clauses.WellFormed.push {c : Clauses} (h : c.WellFormed) {condition : Condition}
    (hcondition : condition.WellFormed) : (c.push condition).WellFormed :=
  ⟨h.1, forall_mem_concat h.2 hcondition⟩

/-- A condition on one identifier is closed. -/
theorem OpenCondition.WellFormed.close {o : OpenCondition} (h : o.WellFormed) :
    o.close.WellFormed := by
  refine h.1.push ?_
  rw [Condition.WellFormed, PositiveCondition.WellFormed]
  exact h.2

section Tests

variable {o : OpenTest} (h : o.WellFormed)

include h

/-- An attribute test with a path is closed. -/
theorem OpenTest.WellFormed.close (hpath : o.attributes ≠ []) : o.close.WellFormed :=
  ⟨h.1.1, forall_mem_concat h.1.2 ⟨hpath, h.2⟩⟩

/-- The test of a value is added. -/
theorem OpenTest.WellFormed.pushValue {test : Test} (htest : test.WellFormed) (acceptable : Bool) :
    (o.pushValue test acceptable).WellFormed :=
  ⟨h.1, h.2.1, forall_mem_concat h.2.2 htest⟩

variable {slot : TestSlot} (hslot : slot.Suits o)

include hslot

theorem OpenTest.WellFormed.put {test : Test} (htest : test.WellFormed) :
    (o.put slot test).WellFormed := by
  cases slot with
  | path => exact ⟨⟨h.1, forall_mem_concat h.2.1 htest, h.2.2⟩, by simp⟩
  | value => exact ⟨h, hslot, htest⟩

/-- A complete simple test is put where it goes. -/
theorem OpenTest.WellFormed.putSimple {around : Option (List SimpleTest)} (haround : AreAround around)
    {simple : SimpleTest} (hsimple : simple.WellFormed) :
    (o.putSimple slot around simple).WellFormed := by
  cases around with
  | none => exact h.put hslot hsimple
  | some tests => exact ⟨h, hslot, forall_mem_concat (haround tests rfl) hsimple⟩

end Tests

/-- An attribute with a path is closed. -/
theorem OpenAttribute.WellFormed.close {a : OpenAttribute} (h : a.WellFormed) (hpath : a.path ≠ [])
    {v : ValueMake} (hv : v.WellFormed) : (a.close v).WellFormed :=
  ⟨h.1.1, forall_mem_concat h.1.2 ⟨⟨hpath, h.2.1⟩, by simp, forall_mem_concat h.2.2 hv⟩⟩

/-- An action that makes an attribute at least is closed. -/
theorem OpenMake.WellFormed.close {m : OpenMake} (h : m.WellFormed) (hmakes : m.makes ≠ []) :
    m.close.WellFormed :=
  ⟨h.1.1, forall_mem_concat h.1.2 ⟨hmakes, h.2⟩⟩

/-- A preference is added to a value. -/
theorem ValueMake.WellFormed.push {v : ValueMake} (h : v.WellFormed) {p : PreferenceSpecifier}
    (hp : p.WellFormed) : (v.push p).WellFormed :=
  ⟨h.1, forall_mem_concat h.2 hp⟩

/-- A value is put where it goes. -/
theorem ValueSlot.WellFormed.put? {slot : ValueSlot} (h : slot.WellFormed) {value : RhsValue}
    (hvalue : value.Proper) {state : State} (hput : slot.put? value = some state) :
    state.WellFormed := by
  cases slot with
  | action side =>
    obtain ⟨call, hcall, rfl⟩ := Option.map_eq_some_iff.mp hput
    refine ⟨h.1, forall_mem_concat h.2 ?_⟩
    obtain ⟨c, f, v⟩ := value
    obtain rfl : f = some call := hcall
    -- A value that is a call is nothing else.
    cases c <;> cases v <;> simp only [RhsValue.Proper] at hvalue
    exact hvalue
  | path a =>
    cases hput
    exact ⟨⟨h.1, forall_mem_concat h.2.1 hvalue, h.2.2⟩, by simp⟩
  | value a =>
    cases hput
    exact ⟨h.1, h.2, hvalue, by simp⟩
  | referent a v code =>
    cases hput
    obtain ⟨ha, hpath, hv, hcode⟩ := h
    exact ⟨ha, hpath, hv.push ⟨rfl, hcode, hvalue⟩⟩

/-! ### Reading a token -/

/-- The code of a relation has a sign. -/
theorem isCodeOf_of_relationCode? {t : Terminal} {code : Int} (h : relationCode? t = some code) :
    IsCodeOf relationSigns code := by
  unfold relationCode? at h
  split at h <;> cases h <;> decide

/-- The code of a preference that never has a referent is that of its sign. -/
theorem isPreferenceOf_of_unaryPreferenceCode? {t : Terminal} {code : Int}
    (h : unaryPreferenceCode? t = some code) : IsPreferenceOf naturalSigns code := by
  unfold unaryPreferenceCode? at h
  unfold IsPreferenceOf
  split at h <;> cases h <;> decide

/-- The code of a preference that may have a referent is that of its sign. -/
theorem isPreferenceOf_of_binaryPreferenceCode? {t : Terminal} {code : Int}
    (h : binaryPreferenceCode? t = some code) : IsPreferenceOf referentSigns code := by
  unfold binaryPreferenceCode? at h
  unfold IsPreferenceOf
  split at h <;> cases h <;> decide

/-- A constant that a token writes is proper. -/
theorem Token.proper_of_constant? {t : Token} {c : Constant} (h : t.constant? = some c) :
    c.Proper := by
  unfold constant? at h
  split at h
  · cases h
    exact Or.inr (Or.inr ⟨_, rfl⟩)
  · cases h
    exact Or.inr (Or.inr ⟨_, rfl⟩)
  · obtain ⟨l, -, rfl⟩ := Option.map_eq_some_iff.mp h
    exact Or.inl ⟨_, rfl⟩
  · obtain ⟨l, -, rfl⟩ := Option.map_eq_some_iff.mp h
    exact Or.inr (Or.inl ⟨_, rfl⟩)
  · cases h

/-- A value that a token writes is proper. -/
theorem Token.proper_of_value? {t : Token} {value : RhsValue} {place : Place}
    (h : t.value? = some (value, place)) : value.Proper := by
  unfold value? at h
  split at h
  · cases h
    trivial
  · obtain ⟨c, hc, heq⟩ := Option.map_eq_some_iff.mp h
    cases heq
    exact proper_of_constant? hc

/-- Between conditions. -/
theorem Clauses.proceeds_step? {c : Clauses} (h : c.WellFormed) (t : Token) :
    Proceeds (c.step? t) := by
  unfold step?
  split
  · exact proceeds_some.mpr h
  · exact proceeds_some.mpr h
  · exact proceeds_some.mpr ⟨List.forall_mem_cons.mpr ⟨h.2, h.1⟩, by simp⟩
  · -- A conjunction is closed.
    split
    · next negated before enclosing first rest henclosing hconditions =>
      have hlevels := h.1
      have hinner := h.2
      rw [henclosing, List.forall_mem_cons] at hlevels
      rw [hconditions] at hinner
      refine proceeds_some.mpr ⟨hlevels.2, forall_mem_concat hlevels.1 ?_⟩
      rw [Condition.WellFormed, PositiveCondition.WellFormed]
      exact ⟨by simp, Condition.allWellFormed_iff.mpr hinner⟩
    · exact proceeds_none
  · -- The left side ends.
    split
    · next hends =>
      have hne : c.conditions ≠ [] := by simpa using (Bool.and_eq_true_iff.mp hends).2
      exact proceeds_some.mpr ⟨⟨hne, h.2⟩, by simp⟩
    · exact proceeds_none
  · exact proceeds_none

/-- In the heading. -/
theorem Heading.proceeds_step? (h : Heading) (t : Token) : Proceeds (h.step? t) := by
  unfold step?
  split
  · split
    · exact proceeds_some.mpr trivial
    · exact proceeds_none
  · exact proceeds_some.mpr trivial
  · exact Clauses.proceeds_step? ⟨by simp, by simp⟩ t

/-- After the minus sign of a condition. -/
theorem Clauses.proceeds_stepNegated? {c : Clauses} (h : c.WellFormed) (t : Token) :
    Proceeds (c.stepNegated? t) := by
  unfold stepNegated?
  split
  · exact proceeds_some.mpr h
  · exact proceeds_some.mpr ⟨List.forall_mem_cons.mpr ⟨h.2, h.1⟩, by simp⟩
  · exact proceeds_none

/-- Between attribute tests. -/
theorem OpenCondition.proceeds_step? {o : OpenCondition} (h : o.WellFormed) (t : Token) :
    Proceeds (o.step? t) := by
  unfold step?
  split
  · exact proceeds_some.mpr ⟨⟨h, by simp, by simp⟩, trivial, trivial⟩
  · exact proceeds_some.mpr h
  · exact proceeds_some.mpr h.close
  · exact proceeds_none

section Tests

variable {o : OpenTest} (h : o.WellFormed) {slot : TestSlot} (t : Token)

include h

section Slots

variable (hslot : slot.Suits o)

include hslot

/-- After a relation. -/
theorem OpenTest.proceeds_single? {around : Option (List SimpleTest)} (haround : AreAround around)
    {code : Int} (hcode : IsCodeOf relationSigns code) :
    Proceeds (o.single? slot around code t) := by
  unfold single?
  split
  · exact proceeds_some.mpr (h.putSimple hslot haround ⟨hcode, trivial⟩)
  · exact proceeds_map fun c hc =>
      h.putSimple hslot haround ⟨hcode, Token.proper_of_constant? hc⟩

/-- Before a simple test. -/
theorem OpenTest.proceeds_startSimple? {around : Option (List SimpleTest)}
    (haround : AreAround around) : Proceeds (o.startSimple? slot around t) := by
  unfold startSimple?
  split
  · next code hcode =>
    exact proceeds_some.mpr ⟨h, hslot, haround, isCodeOf_of_relationCode? hcode⟩
  · split
    · exact proceeds_some.mpr ⟨h, hslot, haround, by simp⟩
    · exact o.proceeds_single? h t hslot haround (by decide)

/-- Before a test. -/
theorem OpenTest.proceeds_start? : Proceeds (o.start? slot t) := by
  unfold start?
  split
  · exact proceeds_some.mpr ⟨h, hslot, by simp [TestPart.WellFormed]⟩
  · exact o.proceeds_startSimple? h t hslot (by simp [AreAround])

/-- Inside a test. -/
theorem OpenTest.proceeds_step? {part : TestPart} (hpart : part.WellFormed) :
    Proceeds (o.step? slot part t) := by
  cases part with
  | start => exact o.proceeds_start? h t hslot
  -- A conjunction is closed behind a test, and a disjunction behind a constant; none is empty.
  | conjunctive tests =>
    simp only [step?]
    split
    · split
      · exact proceeds_none
      · next hne => exact proceeds_some.mpr (h.put hslot ⟨by simpa using hne, hpart⟩)
    · refine o.proceeds_startSimple? h t hslot ?_
      rintro tests' ⟨⟩
      exact hpart
  | relation around code => exact o.proceeds_single? h t hslot hpart.1 hpart.2
  | disjunction around constants =>
    simp only [step?]
    split
    · split
      · exact proceeds_none
      · next hne =>
        exact proceeds_some.mpr (h.putSimple hslot hpart.1 ⟨by simpa using hne, hpart.2⟩)
    · exact proceeds_map fun c hc =>
        ⟨h, hslot, hpart.1, forall_mem_concat hpart.2 (Token.proper_of_constant? hc)⟩

end Slots

/-- After the test of a value. -/
theorem OpenTest.proceeds_next? (hpath : o.attributes ≠ []) : Proceeds (o.next? t) := by
  unfold next?
  split
  · exact OpenCondition.proceeds_step? (h.close hpath) t
  · exact OpenCondition.proceeds_step? (h.close hpath) t
  · exact OpenCondition.proceeds_step? (h.close hpath) t
  · exact o.proceeds_start? h t hpath

end Tests

/-- Before a value on the right side. -/
theorem ValueSlot.proceeds_start? (slot : ValueSlot) (h : slot.WellFormed) (t : Token) :
    Proceeds (slot.start? t) := by
  unfold start?
  split
  · exact proceeds_some.mpr ⟨h, by simp⟩
  · intro next hnext
    obtain ⟨⟨made, place⟩, hmade, hnext⟩ := Option.bind_eq_some_iff.mp hnext
    obtain ⟨state, hstate, heq⟩ := Option.bind_eq_some_iff.mp hnext
    cases heq
    exact h.put? (Token.proper_of_value? hmade) hstate

/-- Before an action. -/
theorem RightSide.proceeds_start? {side : RightSide} (h : side.WellFormed) (t : Token) :
    Proceeds (side.start? t) := by
  unfold start?
  split
  · exact proceeds_some.mpr ⟨h, by simp⟩
  · split
    · exact proceeds_some.mpr ⟨h, by simp, by simp [OpenCall.Proper]⟩
    · exact proceeds_none

section Values

variable {a : OpenAttribute} {v : ValueMake} (h : a.WellFormed) (hpath : a.path ≠ [])
  (hv : v.WellFormed) (t : Token)

include h hpath hv

/-- After a value or a preference. -/
theorem OpenAttribute.proceeds_step? (comma : Bool) : Proceeds (a.step? v comma t) := by
  unfold step?
  split
  · next code hcode =>
    have hpushed : (v.push (.ofNatural code)).WellFormed :=
      hv.push ⟨rfl, isPreferenceOf_of_unaryPreferenceCode? hcode⟩
    exact proceeds_some.mpr ⟨h, hpath, hpushed⟩
  · next code _ hcode =>
    exact proceeds_some.mpr ⟨h, hpath, hv, isPreferenceOf_of_binaryPreferenceCode? hcode⟩
  · split
    · split
      · exact proceeds_some.mpr ⟨h, hpath, hv⟩
      · exact proceeds_none
    · -- A caret closes this attribute, and a bracket closes the action as well.
      exact proceeds_some.mpr ⟨h.close hpath hv, by simp, by simp⟩
    · exact proceeds_some.mpr ((h.close hpath hv).close (by simp [close]))
    · refine ValueSlot.proceeds_start? _ ?_ t
      exact ⟨⟨h.1, h.2.1, forall_mem_concat h.2.2 hv⟩, hpath⟩

/-- After a preference that may have a referent. -/
theorem OpenAttribute.proceeds_stepPreference? {code : Int}
    (hcode : IsPreferenceOf referentSigns code) : Proceeds (a.stepPreference? v code t) := by
  unfold stepPreference?
  split
  · exact (ValueSlot.referent a v code).proceeds_start? ⟨h, hpath, hv, hcode⟩ t
  · have hpushed : (v.push (.ofForced code)).WellFormed := hv.push ⟨rfl, hcode⟩
    exact a.proceeds_step? h hpath hpushed t true

end Values

/-- Inside a function call. -/
theorem OpenCall.proceeds_step? {c : OpenCall} (hc : c.Proper) {slot : ValueSlot}
    (hslot : slot.WellFormed) {around : List OpenCall} (haround : ∀ d ∈ around, d.Proper)
    (t : Token) : Proceeds (c.step? slot around t) := by
  unfold step?
  split
  · exact proceeds_some.mpr ⟨hslot, List.forall_mem_cons.mpr ⟨hc, haround⟩⟩
  · have hvalue : RhsValue.Proper { call := some ⟨c.functionName, c.arguments⟩ } := by
      rw [RhsValue.Proper, FunctionCall.Proper]
      exact RhsValue.allProper_iff.mpr hc
    -- The finished call goes into the slot, or into the call around it.
    dsimp only
    split
    · exact proceeds_map fun state hstate => hslot.put? hvalue hstate
    · rw [List.forall_mem_cons] at haround
      exact proceeds_some.mpr ⟨hslot, haround.2, forall_mem_concat haround.1 hvalue⟩
  · exact proceeds_map fun made hmade =>
      ⟨hslot, haround, forall_mem_concat hc (Token.proper_of_value? hmade)⟩

/-- Whatever is complete stays well-formed when a token is read. -/
theorem State.proceeds_step? {state : State} (h : state.WellFormed) (t : Token) :
    Proceeds (state.step? t) := by
  unfold step?
  -- One case for each kind of state, in the order of the definition.
  split
  · split
    · exact proceeds_some.mpr trivial
    · exact proceeds_none
  · exact Heading.proceeds_step? _ t
  · exact Clauses.proceeds_step? h t
  · exact Clauses.proceeds_stepNegated? h t
  · split
    · exact proceeds_some.mpr h
    · exact proceeds_some.mpr ⟨h, by simp⟩
    · exact proceeds_none
  · split
    · exact proceeds_some.mpr ⟨h, by simp⟩
    · exact proceeds_none
  · exact OpenCondition.proceeds_step? h t
  · split
    · exact proceeds_some.mpr ⟨⟨h, by simp, by simp⟩, trivial, trivial⟩
    · exact proceeds_none
  · exact OpenTest.proceeds_step? h.1 t h.2.1 h.2.2
  · split
    · exact proceeds_some.mpr ⟨h.1, trivial, trivial⟩
    · exact OpenTest.proceeds_next? h.1 t h.2
  · split
    · exact proceeds_some.mpr ⟨h.1.pushValue h.2.2 true, h.2.1⟩
    · exact OpenTest.proceeds_next? (h.1.pushValue h.2.2 false) t h.2.1
  · exact OpenTest.proceeds_next? h.1 t h.2
  · split
    · exact proceeds_some.mpr h
    · exact proceeds_none
  · exact RightSide.proceeds_start? h t
  · split
    · exact proceeds_some.mpr ⟨h, by simp, by simp⟩
    · exact proceeds_none
  · next a => exact (ValueSlot.path a).proceeds_start? h t
  · next a =>
    split
    · exact proceeds_some.mpr h.1
    · exact (ValueSlot.value a).proceeds_start? h t
  · exact OpenAttribute.proceeds_step? h.1 h.2.1 h.2.2 t _
  · exact OpenAttribute.proceeds_stepPreference? h.1 h.2.1 h.2.2.1 t h.2.2.2
  · split
    · exact proceeds_some.mpr ⟨h.1, h.2, by simp [OpenCall.Proper]⟩
    · exact proceeds_none
  · exact OpenCall.proceeds_step? h.2.2 h.1 h.2.1 t

/-! ### Reading a text -/

/-- A reader that takes a token goes on with well-formed parts. -/
theorem Reader.wellFormed_of_accept {r r' : Reader} {t : Token} (h : r.state.WellFormed)
    (haccept : r.accept t = .ok r') : r'.state.WellFormed := by
  unfold accept at haccept
  split at haccept
  · cases haccept
  · split at haccept
    · next state place hstep =>
      cases haccept
      exact State.proceeds_step? h t _ hstep
    · cases haccept

/-- A reader that ends gives a well-formed production. -/
theorem Reader.wellFormed_of_run {r : Reader} {p : Position} {s : List Char} (h : r.state.WellFormed)
    {production : Production} (hrun : r.run p s = .ok production) : production.WellFormed := by
  fun_induction Reader.run r p s with
  -- Only a right side that is complete holds a production, and that is the invariant of the state.
  | case1 r =>
    unfold Reader.finish at hrun
    split at hrun
    · next state hstate =>
      cases hrun
      unfold State.production? at hstate
      split at hstate
      · next side hside =>
        cases hstate
        rw [hside] at h
        exact h
      · cases hstate
    · cases hrun
  | case2 => cases hrun
  | case3 => cases hrun
  | case4 r p s p' c rest _ terminal piece rest' _ r' haccept ih =>
    exact ih (Reader.wellFormed_of_accept h haccept) hrun

/-- What a text reads as is well-formed. -/
theorem wellFormed_of_parseProduction {text : String} {p : Production}
    (h : parseProduction text = .ok p) : p.WellFormed := by
  unfold parseProduction at h
  split at h
  · cases h
  · have hstart : ({} : Reader).state.WellFormed := trivial
    exact Reader.wellFormed_of_run hstart h

/-- What a text reads as is proper. -/
theorem proper_of_parseProduction {text : String} {p : Production}
    (h : parseProduction text = .ok p) : p.Proper :=
  (wellFormed_of_parseProduction h).proper

end SoarProject.Rule
