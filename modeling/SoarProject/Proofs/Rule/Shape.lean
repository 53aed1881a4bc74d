import SoarProject.Rule.Production

/-!
# The shape of parts

A part with alternatives could hold none of them, or several; a list of parts could be empty where the
language wants one at least; a code or a constant could be of a kind that no table knows.

* `Rule.Production.Proper`: each part holds exactly one of its alternatives, and its codes and constants
  are of known kinds.
* `Rule.Production.WellFormed`: besides that, the lists that must have an entry have one, and each
  preference is of the kind that its sign calls for.
* `Rule.Production.WellFormed.proper`: a well-formed production is proper.
-/

namespace SoarProject.Rule

/-! ### Proper parts -/

/-- A code that has a sign. -/
def IsCodeOf (signs : List String) (code : Int) : Prop := 0 ≤ code ∧ code < signs.length

instance (signs : List String) (code : Int) : Decidable (IsCodeOf signs code) := by
  unfold IsCodeOf
  infer_instance

/-- A constant whose value is of the kind that its code says. -/
def Constant.Proper (c : Constant) : Prop :=
  (∃ n, c = .integer n) ∨ (∃ x, c = .floating x) ∨ ∃ s, c = .symbolic s

/-- Either a variable or a constant. -/
def SingleTest.Proper : SingleTest → Prop
  | ⟨some _, none⟩ => True
  | ⟨none, some c⟩ => c.Proper
  | _ => False

/-- A comparison whose code has a sign. -/
def RelationalTest.Proper (t : RelationalTest) : Prop :=
  IsCodeOf relationSigns t.relation ∧ t.single.Proper

/-- A choice between proper constants. -/
def DisjunctionTest.Proper (t : DisjunctionTest) : Prop := ∀ c ∈ t.constants, c.Proper

/-- Either a choice or a comparison. -/
def SimpleTest.Proper : SimpleTest → Prop
  | ⟨some d, none⟩ => d.Proper
  | ⟨none, some t⟩ => t.Proper
  | _ => False

/-- Several proper tests. -/
def ConjunctiveTest.Proper (t : ConjunctiveTest) : Prop := ∀ s ∈ t.simpleTests, s.Proper

/-- Either several tests or a single one. -/
def Test.Proper : Test → Prop
  | ⟨some c, none⟩ => c.Proper
  | ⟨none, some s⟩ => s.Proper
  | _ => False

/-- A proper step of an attribute path. -/
def AttributeTest.Proper (t : AttributeTest) : Prop := t.test.Proper

/-- The proper test of a value. -/
def ValueTest.Proper (t : ValueTest) : Prop := t.test.Proper

/-- Proper tests of a path and its values. -/
def AttributeValueTest.Proper (t : AttributeValueTest) : Prop :=
  (∀ a ∈ t.attributes, a.Proper) ∧ ∀ v ∈ t.values, v.Proper

/-- Proper tests of one identifier. -/
def IdentifierCondition.Proper (c : IdentifierCondition) : Prop := ∀ t ∈ c.tests, t.Proper

mutual

/-- Either the tests of one identifier or several conditions. -/
def PositiveCondition.Proper : PositiveCondition → Prop
  | ⟨some i, none⟩ => i.Proper
  | ⟨none, some conditions⟩ => Condition.AllProper conditions
  | _ => False

/-- A proper condition. -/
def Condition.Proper : Condition → Prop
  | ⟨positive, _⟩ => positive.Proper

/-- Several proper conditions. -/
def Condition.AllProper : List Condition → Prop
  | [] => True
  | c :: rest => c.Proper ∧ Condition.AllProper rest

end

mutual

/-- Either a constant, a function call or a variable. -/
def RhsValue.Proper : RhsValue → Prop
  | ⟨some c, none, none⟩ => c.Proper
  | ⟨none, some call, none⟩ => call.Proper
  | ⟨none, none, some _⟩ => True
  | _ => False

/-- A call with proper arguments. -/
def FunctionCall.Proper : FunctionCall → Prop
  | ⟨_, arguments⟩ => RhsValue.AllProper arguments

/-- Several proper values. -/
def RhsValue.AllProper : List RhsValue → Prop
  | [] => True
  | v :: rest => v.Proper ∧ RhsValue.AllProper rest

end

/-- A preference of one of its three kinds, with a code that has a sign. -/
def PreferenceSpecifier.Proper : PreferenceSpecifier → Prop
  | ⟨code, some n, none, none⟩ => IsCodeOf preferenceSigns code ∧ IsCodeOf preferenceSigns n.kind
  | ⟨code, none, some f, none⟩ => IsCodeOf preferenceSigns code ∧ IsCodeOf preferenceSigns f.kind
  | ⟨code, none, none, some b⟩ =>
    IsCodeOf preferenceSigns code ∧ IsCodeOf preferenceSigns b.kind ∧ b.referent.Proper
  | _ => False

/-- A proper value with proper preferences. -/
def ValueMake.Proper (m : ValueMake) : Prop := m.value.Proper ∧ ∀ p ∈ m.preferences, p.Proper

/-- A proper path with proper values. -/
def AttributeMake.Proper (m : AttributeMake) : Prop :=
  (∀ v ∈ m.path, v.Proper) ∧ ∀ v ∈ m.values, v.Proper

/-- Proper attributes of an identifier. -/
def VariableMake.Proper (m : VariableMake) : Prop := ∀ a ∈ m.makes, a.Proper

/-- Either new attribute values or a function call. -/
def Action.Proper : Action → Prop
  | ⟨some m, none⟩ => m.Proper
  | ⟨none, some call⟩ => call.Proper
  | _ => False

/-- A production with proper conditions and actions. -/
def Production.Proper (p : Production) : Prop :=
  (∀ c ∈ p.conditions, c.Proper) ∧ ∀ a ∈ p.actions, a.Proper

/-- Several conditions are proper if each of them is. -/
theorem Condition.allProper_iff {conditions : List Condition} :
    Condition.AllProper conditions ↔ ∀ c ∈ conditions, c.Proper := by
  induction conditions with
  | nil => simp [Condition.AllProper]
  | cons c rest ih => rw [Condition.AllProper, ih, List.forall_mem_cons]

/-- Several values are proper if each of them is. -/
theorem RhsValue.allProper_iff {values : List RhsValue} :
    RhsValue.AllProper values ↔ ∀ v ∈ values, v.Proper := by
  induction values with
  | nil => simp [RhsValue.AllProper]
  | cons v rest ih => rw [RhsValue.AllProper, ih, List.forall_mem_cons]

/-! ### Well-formed parts -/

/-- The signs of the preferences that never have a referent. -/
def naturalSigns : List String := ["+", "-", "!", "~", "@"]

/-- The signs of the preferences that may have a referent. -/
def referentSigns : List String := [">", "=", "<", "&"]

/-- The code of a preference that has one of these signs. -/
def IsPreferenceOf (signs : List String) (code : Int) : Prop :=
  ∃ sign ∈ signs, code = preferenceSigns.idxOf sign

/-- A choice between one constant at least. -/
def DisjunctionTest.WellFormed (t : DisjunctionTest) : Prop := t.constants ≠ [] ∧ t.Proper

/-- Either a choice or a comparison. -/
def SimpleTest.WellFormed : SimpleTest → Prop
  | ⟨some d, none⟩ => d.WellFormed
  | ⟨none, some t⟩ => t.Proper
  | _ => False

/-- One test at least. -/
def ConjunctiveTest.WellFormed (t : ConjunctiveTest) : Prop :=
  t.simpleTests ≠ [] ∧ ∀ s ∈ t.simpleTests, s.WellFormed

/-- Either several tests or a single one. -/
def Test.WellFormed : Test → Prop
  | ⟨some c, none⟩ => c.WellFormed
  | ⟨none, some s⟩ => s.WellFormed
  | _ => False

/-- A well-formed step of an attribute path. -/
def AttributeTest.WellFormed (t : AttributeTest) : Prop := t.test.WellFormed

/-- The well-formed test of a value. -/
def ValueTest.WellFormed (t : ValueTest) : Prop := t.test.WellFormed

/-- A path of one step at least, with its values. -/
def AttributeValueTest.WellFormed (t : AttributeValueTest) : Prop :=
  t.attributes ≠ [] ∧ (∀ a ∈ t.attributes, a.WellFormed) ∧ ∀ v ∈ t.values, v.WellFormed

/-- Well-formed tests of one identifier. -/
def IdentifierCondition.WellFormed (c : IdentifierCondition) : Prop := ∀ t ∈ c.tests, t.WellFormed

mutual

/-- Either the tests of one identifier or one condition at least. -/
def PositiveCondition.WellFormed : PositiveCondition → Prop
  | ⟨some i, none⟩ => i.WellFormed
  | ⟨none, some conditions⟩ => conditions ≠ [] ∧ Condition.AllWellFormed conditions
  | _ => False

/-- A well-formed condition. -/
def Condition.WellFormed : Condition → Prop
  | ⟨positive, _⟩ => positive.WellFormed

/-- Several well-formed conditions. -/
def Condition.AllWellFormed : List Condition → Prop
  | [] => True
  | c :: rest => c.WellFormed ∧ Condition.AllWellFormed rest

end

/-- A preference of one of its three kinds, by its sign; the kind has the same code. -/
def PreferenceSpecifier.WellFormed : PreferenceSpecifier → Prop
  | ⟨code, some n, none, none⟩ => n.kind = code ∧ IsPreferenceOf naturalSigns code
  | ⟨code, none, some f, none⟩ => f.kind = code ∧ IsPreferenceOf referentSigns code
  | ⟨code, none, none, some b⟩ =>
    b.kind = code ∧ IsPreferenceOf referentSigns code ∧ b.referent.Proper
  | _ => False

/-- A proper value with well-formed preferences. -/
def ValueMake.WellFormed (m : ValueMake) : Prop :=
  m.value.Proper ∧ ∀ p ∈ m.preferences, p.WellFormed

/-- A path of one step at least, with one value at least. -/
def AttributeMake.WellFormed (m : AttributeMake) : Prop :=
  (m.path ≠ [] ∧ ∀ v ∈ m.path, v.Proper) ∧ m.values ≠ [] ∧ ∀ v ∈ m.values, v.WellFormed

/-- One attribute at least. -/
def VariableMake.WellFormed (m : VariableMake) : Prop := m.makes ≠ [] ∧ ∀ a ∈ m.makes, a.WellFormed

/-- Either new attribute values or a function call. -/
def Action.WellFormed : Action → Prop
  | ⟨some m, none⟩ => m.WellFormed
  | ⟨none, some call⟩ => call.Proper
  | _ => False

/-- One condition at least, with well-formed actions. -/
def Production.WellFormed (p : Production) : Prop :=
  (p.conditions ≠ [] ∧ ∀ c ∈ p.conditions, c.WellFormed) ∧ ∀ a ∈ p.actions, a.WellFormed

/-- Several conditions are well-formed if each of them is. -/
theorem Condition.allWellFormed_iff {conditions : List Condition} :
    Condition.AllWellFormed conditions ↔ ∀ c ∈ conditions, c.WellFormed := by
  induction conditions with
  | nil => simp [Condition.AllWellFormed]
  | cons c rest ih => rw [Condition.AllWellFormed, ih, List.forall_mem_cons]

/-! ### Well-formed parts are proper -/

/-- The codes of preferences are in range. -/
theorem IsPreferenceOf.isCodeOf {signs : List String} {code : Int} (h : IsPreferenceOf signs code)
    (hsigns : signs ⊆ preferenceSigns) : IsCodeOf preferenceSigns code := by
  obtain ⟨sign, hsign, rfl⟩ := h
  have := List.idxOf_lt_length_of_mem (hsigns hsign)
  exact ⟨Int.natCast_nonneg _, by exact_mod_cast this⟩

/-- A simple test. -/
theorem SimpleTest.WellFormed.proper {t : SimpleTest} (h : t.WellFormed) : t.Proper := by
  obtain ⟨_ | d, _ | r⟩ := t
  · exact h
  · exact h
  · exact h.2
  · exact h

/-- A test. -/
theorem Test.WellFormed.proper {t : Test} (h : t.WellFormed) : t.Proper := by
  obtain ⟨_ | c, _ | s⟩ := t
  · exact h
  · exact SimpleTest.WellFormed.proper h
  · exact fun s hs => (h.2 s hs).proper
  · exact h

/-- The test of an attribute path and its values. -/
theorem AttributeValueTest.WellFormed.proper {t : AttributeValueTest} (h : t.WellFormed) :
    t.Proper :=
  ⟨fun a ha => Test.WellFormed.proper (h.2.1 a ha), fun v hv => Test.WellFormed.proper (h.2.2 v hv)⟩

mutual

/-- The tests of one identifier, or several conditions. -/
theorem PositiveCondition.WellFormed.proper : ∀ {c : PositiveCondition}, c.WellFormed → c.Proper
  | ⟨some _, none⟩, h => fun t ht => (h t ht).proper
  | ⟨none, some _⟩, h => Condition.allProper_of_allWellFormed h.2
  | ⟨some _, some _⟩, h => h.elim
  | ⟨none, none⟩, h => h.elim

/-- A condition. -/
theorem Condition.WellFormed.proper : ∀ {c : Condition}, c.WellFormed → c.Proper
  | ⟨_, _⟩, h => PositiveCondition.WellFormed.proper h

/-- Several conditions. -/
theorem Condition.allProper_of_allWellFormed : ∀ {conditions : List Condition},
    Condition.AllWellFormed conditions → Condition.AllProper conditions
  | [], _ => trivial
  | _ :: _, h => ⟨h.1.proper, Condition.allProper_of_allWellFormed h.2⟩

end

/-- A preference. -/
theorem PreferenceSpecifier.WellFormed.proper {p : PreferenceSpecifier} (h : p.WellFormed) :
    p.Proper := by
  have hnatural : naturalSigns ⊆ preferenceSigns := by decide
  have hreferent : referentSigns ⊆ preferenceSigns := by decide
  obtain ⟨code, _ | n, _ | f, _ | b⟩ := p
  · exact h
  · obtain ⟨hkind, hcode, hreferent'⟩ := h
    exact ⟨hcode.isCodeOf hreferent, hkind ▸ hcode.isCodeOf hreferent, hreferent'⟩
  · exact ⟨h.2.isCodeOf hreferent, h.1 ▸ h.2.isCodeOf hreferent⟩
  · exact h
  · exact ⟨h.2.isCodeOf hnatural, h.1 ▸ h.2.isCodeOf hnatural⟩
  · exact h
  · exact h
  · exact h

/-- An attribute with its values. -/
theorem AttributeMake.WellFormed.proper {m : AttributeMake} (h : m.WellFormed) : m.Proper :=
  ⟨h.1.2, fun v hv => ⟨(h.2.2 v hv).1, fun p hp => ((h.2.2 v hv).2 p hp).proper⟩⟩

/-- An action. -/
theorem Action.WellFormed.proper {a : Action} (h : a.WellFormed) : a.Proper := by
  obtain ⟨_ | m, _ | call⟩ := a
  · exact h
  · exact h
  · exact fun a ha => (h.2 a ha).proper
  · exact h

/-- A well-formed production is proper. -/
theorem Production.WellFormed.proper {p : Production} (h : p.WellFormed) : p.Proper :=
  ⟨fun c hc => (h.1.2 c hc).proper, fun a ha => (h.2 a ha).proper⟩

end SoarProject.Rule
