import SoarProject.Proofs.Schema.Project
import SoarProject.Rule.Outline

/-!
# Outlines of productions

The parts of a production fill attributes only: no entry of their outlines sets an id or a key. So the
only key of a stored part is the one that it gets for the part it belongs to.

* `Rule.Outline.Plain`: every entry of an outline sets attributes only.
* `Rule.Production.plain_of_mem_parts`: the outlines of all parts of a production are of this kind.
-/

namespace SoarProject.Rule

/-- An entry that sets attributes only. -/
def Entry.Plain (e : Entry) : Prop := ∀ name ∈ e.columns.map (·.1), IsAttribute name

/-- An outline whose entries set attributes only. -/
inductive Outline.Plain : Outline → Prop
  | entry {kind : PartKind} {e : Entry} {children : List Outline} (he : e.Plain)
      (hchildren : ∀ o ∈ children, Outline.Plain o) : Outline.Plain (.entry kind e children)
  | faulty {kind : PartKind} {failure : Failure} : Outline.Plain (.faulty kind failure)
  | foreign {kind : String} : Outline.Plain (.foreign kind)

/-- An entry sets attributes only if the names of its columns are attributes. -/
theorem Entry.plain_of_names {e : Entry} (names : List String) (h : e.columns.map (·.1) = names)
    (hnames : ∀ name ∈ names, IsAttribute name) : e.Plain := by
  rwa [Entry.Plain, h]

namespace Outline

/-- An outline whose entry may fail to be made. -/
theorem plain_ofEntry {kind : PartKind} {entry : Except Failure Entry} {children : List Outline}
    (he : ∀ e, entry = .ok e → e.Plain) (hchildren : ∀ o ∈ children, o.Plain) :
    (ofEntry kind entry children).Plain := by
  unfold ofEntry
  split
  · exact .entry (he _ rfl) hchildren
  · exact .faulty

/-- The outline of a part that may be missing. -/
theorem plain_outlineOf? {α : Type} {outline : α → Outline} {part : Option α}
    (h : ∀ a, (outline a).Plain) : (outlineOf? outline part).Plain := by
  cases part with
  | none => exact .foreign
  | some a => exact h a

theorem plain_of_mem_map {α : Type} {outline : α → Outline} {parts : List α}
    (h : ∀ a, (outline a).Plain) : ∀ o ∈ parts.map outline, o.Plain := by
  intro o ho
  obtain ⟨a, -, rfl⟩ := List.mem_map.mp ho
  exact h a

theorem plain_of_mem_singleton {o : Outline} (h : o.Plain) : ∀ o' ∈ [o], o'.Plain := by
  intro o' ho'
  rwa [List.mem_singleton.mp ho']

theorem plain_of_mem_append {os os' : List Outline} (h : ∀ o ∈ os, o.Plain)
    (h' : ∀ o ∈ os', o.Plain) : ∀ o ∈ os ++ os', o.Plain :=
  fun o ho => (List.mem_append.mp ho).elim (h o) (h' o)

end Outline

open Outline

/-! ### Entries that may fail -/

namespace Entry

/-- An entry that is made once a code has a sign. -/
theorem plain_of_signOf {signs : List String} {code : Value} {f : String → Entry} {e : Entry}
    (h : (do return f (← signOf signs code)) = Except.ok e) (hf : ∀ sign, (f sign).Plain) :
    e.Plain := by
  cases hsign : signOf signs code with
  | error failure => simp [hsign, Bind.bind, Except.bind] at h
  | ok sign =>
    rw [hsign] at h
    cases h
    exact hf sign

/-- A comparison sets its relation. -/
theorem plain_relationalTest {code : Value} {e : Entry} (h : relationalTest code = .ok e) :
    e.Plain :=
  plain_of_signOf h fun _ => plain_of_names ["relation"] rfl (by decide)

/-- A constant sets its kind and the column for its value. -/
theorem plain_constant {kind value : Value} {e : Entry} (h : constant kind value = .ok e) :
    e.Plain := by
  unfold constant constantColumn at h
  split at h
  · cases h
    exact plain_of_names ["constant_type", "integer_const"] rfl (by decide)
  · cases h
    exact plain_of_names ["constant_type", "floating_const"] rfl (by decide)
  · cases h
    exact plain_of_names ["constant_type", "symbolic_const"] rfl (by decide)
  · cases h

/-- A preference sets its code. -/
theorem plain_preference {t : Table} {code : Value} {e : Entry} (h : preference t code = .ok e) :
    e.Plain :=
  plain_of_signOf h fun _ => plain_of_names ["preference_specifier_type"] rfl (by decide)

/-- The preference of a value sets its code and whether it has a referent. -/
theorem plain_preferenceSpecifier {isUnary : Bool} {code : Value} {e : Entry}
    (h : preferenceSpecifier isUnary code = .ok e) : e.Plain :=
  plain_of_signOf h fun _ =>
    plain_of_names ["is_unary_preference", "preference_specifier_type"] rfl (by decide)

/-- A value on the right side sets what it is. -/
theorem plain_rhsValue {isConstant isCall : Bool} {v : Value} :
    (rhsValue isConstant isCall v).Plain := by
  unfold rhsValue
  split
  · exact plain_of_names ["is_constant", "is_function_call", "is_variable"] rfl (by decide)
  · split
    · exact plain_of_names ["is_constant", "is_function_call", "is_variable"] rfl (by decide)
    · exact plain_of_names ["is_constant", "is_function_call", "is_variable", "variable"] rfl
        (by decide)

end Entry

open Entry (plain_of_names)

/-! ### Left side -/

/-- A constant. -/
theorem Constant.plain_outline (c : Constant) : c.outline.Plain :=
  plain_ofEntry (fun _ => Entry.plain_constant) (by simp)

/-- A test for a variable or a constant. -/
theorem SingleTest.plain_outline (t : SingleTest) : t.outline.Plain := by
  unfold outline
  split
  · next c _ =>
    exact .entry (plain_of_names ["is_constant"] rfl (by decide))
      (plain_of_mem_singleton c.plain_outline)
  · exact .entry (plain_of_names ["is_constant", "variable"] rfl (by decide)) (by simp)

/-- A comparison. -/
theorem RelationalTest.plain_outline (t : RelationalTest) : t.outline.Plain :=
  plain_ofEntry (fun _ => Entry.plain_relationalTest) (plain_of_mem_singleton t.single.plain_outline)

/-- A choice between constants. -/
theorem DisjunctionTest.plain_outline (t : DisjunctionTest) : t.outline.Plain :=
  .entry (plain_of_names [] rfl (by simp)) (plain_of_mem_map Constant.plain_outline)

/-- A choice or a comparison. -/
theorem SimpleTest.plain_outline (t : SimpleTest) : t.outline.Plain := by
  refine .entry (plain_of_names ["is_disjunction_test"] rfl (by decide)) (plain_of_mem_singleton ?_)
  split
  · next d _ => exact d.plain_outline
  · exact plain_outlineOf? RelationalTest.plain_outline

/-- Several tests together. -/
theorem ConjunctiveTest.plain_outline (t : ConjunctiveTest) : t.outline.Plain :=
  .entry (plain_of_names [] rfl (by simp)) (plain_of_mem_map SimpleTest.plain_outline)

/-- One simple test or several together. -/
theorem Test.plain_outline (t : Test) : t.outline.Plain := by
  refine .entry (plain_of_names ["is_conjunctive_test"] rfl (by decide)) (plain_of_mem_singleton ?_)
  split
  · next c _ => exact c.plain_outline
  · exact plain_outlineOf? SimpleTest.plain_outline

/-- One step of an attribute path. -/
theorem AttributeTest.plain_outline (t : AttributeTest) : t.outline.Plain :=
  .entry (plain_of_names [] rfl (by simp)) (plain_of_mem_singleton t.test.plain_outline)

/-- The test of a value. -/
theorem ValueTest.plain_outline (t : ValueTest) : t.outline.Plain :=
  .entry (plain_of_names ["has_acceptable_preference"] rfl (by decide))
    (plain_of_mem_singleton t.test.plain_outline)

/-- The test of an attribute path and its values. -/
theorem AttributeValueTest.plain_outline (t : AttributeValueTest) : t.outline.Plain :=
  .entry (plain_of_names ["is_negated"] rfl (by decide))
    (plain_of_mem_append (plain_of_mem_map AttributeTest.plain_outline)
      (plain_of_mem_map ValueTest.plain_outline))

/-- The tests of one identifier. -/
theorem IdentifierCondition.plain_outline (c : IdentifierCondition) : c.outline.Plain :=
  .entry (plain_of_names ["has_state", "variable"] rfl (by decide))
    (plain_of_mem_map AttributeValueTest.plain_outline)

mutual

/-- The tests of one identifier, or several conditions together. -/
theorem PositiveCondition.plain_outline : ∀ c : PositiveCondition, c.outline.Plain
  | ⟨_, some conditions⟩ =>
    .entry (plain_of_names ["is_conjunction"] rfl (by decide))
      (Condition.plain_of_mem_outlines conditions)
  | ⟨_, none⟩ =>
    .entry (plain_of_names ["is_conjunction"] rfl (by decide))
      (plain_of_mem_singleton (plain_outlineOf? IdentifierCondition.plain_outline))

/-- A condition that may be negated. -/
theorem Condition.plain_outline : ∀ c : Condition, c.outline.Plain
  | ⟨positive, _⟩ =>
    .entry (plain_of_names ["is_negated"] rfl (by decide))
      (plain_of_mem_singleton positive.plain_outline)

/-- Several conditions. -/
theorem Condition.plain_of_mem_outlines :
    ∀ cs : List Condition, ∀ o ∈ Condition.outlines cs, o.Plain
  | [] => fun _ ho => absurd ho List.not_mem_nil
  | c :: rest => by
    intro o ho
    rcases List.mem_cons.mp ho with rfl | ho
    · exact c.plain_outline
    · exact Condition.plain_of_mem_outlines rest o ho

end

/-! ### Right side -/

mutual

/-- A value on the right side. -/
theorem RhsValue.plain_outline : ∀ v : RhsValue, v.outline.Plain
  | ⟨some c, _, _⟩ => .entry Entry.plain_rhsValue (plain_of_mem_singleton c.plain_outline)
  | ⟨none, some call, _⟩ => .entry Entry.plain_rhsValue (plain_of_mem_singleton call.plain_outline)
  | ⟨none, none, _⟩ => .entry Entry.plain_rhsValue (by simp)

/-- A function call with its arguments. -/
theorem FunctionCall.plain_outline : ∀ c : FunctionCall, c.outline.Plain
  | ⟨_, arguments⟩ =>
    .entry (plain_of_names ["function_name"] rfl (by decide))
      (RhsValue.plain_of_mem_outlines arguments)

/-- Several values. -/
theorem RhsValue.plain_of_mem_outlines : ∀ vs : List RhsValue, ∀ o ∈ RhsValue.outlines vs, o.Plain
  | [] => fun _ ho => absurd ho List.not_mem_nil
  | v :: rest => by
    intro o ho
    rcases List.mem_cons.mp ho with rfl | ho
    · exact v.plain_outline
    · exact RhsValue.plain_of_mem_outlines rest o ho

end

/-- The preference of a value with what it consists of. -/
theorem PreferenceSpecifier.plain_outline (p : PreferenceSpecifier) : p.outline.Plain := by
  refine plain_ofEntry (fun _ => Entry.plain_preferenceSpecifier) (plain_of_mem_singleton ?_)
  split
  · exact plain_ofEntry (fun _ => Entry.plain_preference) (by simp)
  · exact plain_ofEntry (fun _ => Entry.plain_preference) (by simp)
  · exact plain_outlineOf? fun b => plain_ofEntry (fun _ => Entry.plain_preference)
      (plain_of_mem_singleton b.referent.plain_outline)

/-- A value with its preferences. -/
theorem ValueMake.plain_outline (m : ValueMake) : m.outline.Plain := by
  refine .entry (plain_of_names [] rfl (by simp)) fun o ho => ?_
  rcases List.mem_cons.mp ho with rfl | ho
  · exact m.value.plain_outline
  · exact plain_of_mem_map PreferenceSpecifier.plain_outline o ho

/-- The values that an attribute path gets. -/
theorem AttributeMake.plain_outline (m : AttributeMake) : m.outline.Plain :=
  .entry (plain_of_names [] rfl (by simp))
    (plain_of_mem_append (plain_of_mem_map RhsValue.plain_outline)
      (plain_of_mem_map ValueMake.plain_outline))

/-- The attributes that an identifier gets. -/
theorem VariableMake.plain_outline (m : VariableMake) : m.outline.Plain :=
  .entry (plain_of_names ["variable"] rfl (by decide)) (plain_of_mem_map AttributeMake.plain_outline)

/-- An action. -/
theorem Action.plain_outline (a : Action) : a.outline.Plain := by
  refine .entry (plain_of_names ["is_var_attr_val_make"] rfl (by decide)) (plain_of_mem_singleton ?_)
  split
  · next m _ => exact m.plain_outline
  · exact plain_outlineOf? FunctionCall.plain_outline

/-- The parts of a production set attributes only. -/
theorem Production.plain_of_mem_parts (p : Production) : ∀ o ∈ p.parts, o.Plain :=
  plain_of_mem_append (plain_of_mem_map Condition.plain_outline)
    (plain_of_mem_map Action.plain_outline)

end SoarProject.Rule
