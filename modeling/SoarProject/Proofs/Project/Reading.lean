import SoarProject.Proofs.Project.Storing

/-!
# Reading stored parts

What is stored below a rule tells what the rule consists of. A part is read from the columns of its row
and from the rows below it, those of one table in the order of their ids. Parts that nest are read as
deep as a store can go.

* `Store.readRule`: the conditions and actions that the rows below a rule hold.
* `Store.StoresBelow.readRule_eq`: reading gives back what was stored for a proper production.
-/

namespace SoarProject

open Registry Rule

namespace Store

variable {α : Type} {st : Store} {r c : Row} {t u : Table} {n : Nat}

/-! ### Columns and children -/

/-- The cell of a row in a column. -/
def cell (st : Store) (r : Row) (column : String) : Cell :=
  ((st.rows r.table).find? fun record => r.id == .int record.id).elim .null (·.get column)

/-- A flag of a row. -/
def flag (st : Store) (r : Row) (column : String) : Option Bool :=
  match st.cell r column with
  | .int 0 => some false
  | .int 1 => some true
  | _ => none

/-- An integer of a row. -/
def integer (st : Store) (r : Row) (column : String) : Option Int :=
  match st.cell r column with
  | .int n => some n
  | _ => none

/-- A floating-point number of a row. -/
def number (st : Store) (r : Row) (column : String) : Option Float :=
  match st.cell r column with
  | .real x => some x
  | _ => none

/-- A text of a row. -/
def text (st : Store) (r : Row) (column : String) : Option String :=
  match st.cell r column with
  | .text s => some s
  | _ => none

/-- What the children of a row in a table are read as. -/
def readAll (st : Store) (r : Row) (t : Table) (read : Row → Option α) : Option (List α) :=
  (st.childrenIn r t).mapM read

/-- What the only child of a row in a table is read as. -/
def readOnly (st : Store) (r : Row) (t : Table) (read : Row → Option α) : Option α :=
  match st.childrenIn r t with
  | [c] => read c
  | _ => none

/-! ### Left side -/

/-- A constant: its kind tells the column of its value. -/
def readConstant (st : Store) (r : Row) : Option Constant :=
  match st.cell r "constant_type" with
  | .int 0 => (st.integer r "integer_const").map .integer
  | .int 1 => (st.number r "floating_const").map .floating
  | .int 2 => (st.text r "symbolic_const").map .symbolic
  | _ => none

/-- A test for a variable or a constant. -/
def readSingleTest (st : Store) (r : Row) : Option SingleTest := do
  if ← st.flag r "is_constant" then
    return { constant := some (← st.readOnly r .constants st.readConstant) }
  else return { variableName := some (← st.text r "variable") }

/-- A comparison. -/
def readRelationalTest (st : Store) (r : Row) : Option RelationalTest := do
  let relation ← st.integer r "relation"
  return { relation, single := ← st.readOnly r .singleTests st.readSingleTest }

/-- A choice between constants. -/
def readDisjunctionTest (st : Store) (r : Row) : Option DisjunctionTest := do
  return { constants := ← st.readAll r .constants st.readConstant }

/-- A choice or a comparison. -/
def readSimpleTest (st : Store) (r : Row) : Option SimpleTest := do
  if ← st.flag r "is_disjunction_test" then
    return { disjunction := some (← st.readOnly r .disjunctionTests st.readDisjunctionTest) }
  else return { relational := some (← st.readOnly r .relationalTests st.readRelationalTest) }

/-- Several tests together. -/
def readConjunctiveTest (st : Store) (r : Row) : Option ConjunctiveTest := do
  return { simpleTests := ← st.readAll r .simpleTests st.readSimpleTest }

/-- One simple test or several together. -/
def readTest (st : Store) (r : Row) : Option Test := do
  if ← st.flag r "is_conjunctive_test" then
    return { conjunctive := some (← st.readOnly r .conjunctiveTests st.readConjunctiveTest) }
  else return { simple := some (← st.readOnly r .simpleTests st.readSimpleTest) }

/-- One step of an attribute path. -/
def readAttributeTest (st : Store) (r : Row) : Option AttributeTest := do
  return { test := ← st.readOnly r .tests st.readTest }

/-- The test of a value. -/
def readValueTest (st : Store) (r : Row) : Option ValueTest := do
  let acceptable ← st.flag r "has_acceptable_preference"
  return { test := ← st.readOnly r .tests st.readTest, acceptable }

/-- The test of an attribute path and its values. -/
def readAttributeValueTest (st : Store) (r : Row) : Option AttributeValueTest := do
  let negated ← st.flag r "is_negated"
  let attributes ← st.readAll r .attributeTests st.readAttributeTest
  return { attributes, values := ← st.readAll r .valueTests st.readValueTest, negated }

/-- The tests of one identifier. -/
def readIdentifierCondition (st : Store) (r : Row) : Option IdentifierCondition := do
  let variableName ← st.text r "variable"
  let tests ← st.readAll r .attributeValueTests st.readAttributeValueTest
  return { variableName, tests, hasState := ← st.flag r "has_state" }

/-- The tests of one identifier, or several conditions together. -/
def readPositiveCondition (st : Store) (readCondition : Row → Option Condition) (r : Row) :
    Option PositiveCondition := do
  if ← st.flag r "is_conjunction" then
    return { conjunction := some (← st.readAll r .conditions readCondition) }
  else
    return {
      identifier := some (← st.readOnly r .conditionForOneIdentifiers st.readIdentifierCondition) }

/-- A condition that is nested up to a depth. -/
def readCondition (st : Store) : Nat → Row → Option Condition
  | 0, _ => none
  | depth + 1, r => do
    let negated ← st.flag r "is_negated"
    let read := st.readPositiveCondition (st.readCondition depth)
    return { positive := ← st.readOnly r .positiveConditions read, negated }

/-! ### Right side -/

/-- A function call with its arguments. -/
def readFunctionCall (st : Store) (readValue : Row → Option RhsValue) (r : Row) :
    Option FunctionCall := do
  let functionName ← st.text r "function_name"
  return { functionName, arguments := ← st.readAll r .rhsValues readValue }

/-- A value that is nested up to a depth. -/
def readRhsValue (st : Store) : Nat → Row → Option RhsValue
  | 0, _ => none
  | depth + 1, r => do
    if ← st.flag r "is_constant" then
      return { constant := some (← st.readOnly r .constants st.readConstant) }
    else if ← st.flag r "is_function_call" then
      let read := st.readFunctionCall (st.readRhsValue depth)
      return { call := some (← st.readOnly r .functionCalls read) }
    else return { variableName := some (← st.text r "variable") }

/-- A preference that never has a referent. -/
def readNaturallyUnaryPreference (st : Store) (r : Row) : Option NaturallyUnaryPreference := do
  return { kind := ← st.integer r "preference_specifier_type" }

/-- A preference whose referent was left out. -/
def readForcedUnaryPreference (st : Store) (r : Row) : Option ForcedUnaryPreference := do
  return { kind := ← st.integer r "preference_specifier_type" }

/-- As deep as any rows of a store are nested. -/
def depth (st : Store) : Nat := (st.size + 1) * (st.size + 1)

/-- A preference with its referent. -/
def readBinaryPreference (st : Store) (r : Row) : Option BinaryPreference := do
  let kind ← st.integer r "preference_specifier_type"
  return { kind, referent := ← st.readOnly r .rhsValues (st.readRhsValue st.depth) }

/-- The preference of a value: a unary one is in one of two tables. -/
def readPreferenceSpecifier (st : Store) (r : Row) : Option PreferenceSpecifier := do
  let kind ← st.integer r "preference_specifier_type"
  if ← st.flag r "is_unary_preference" then
    if (st.childrenIn r .forcedUnaryPreferences).isEmpty then
      let read := st.readNaturallyUnaryPreference
      return { kind, natural := some (← st.readOnly r .naturallyUnaryPreferences read) }
    else
      let read := st.readForcedUnaryPreference
      return { kind, forced := some (← st.readOnly r .forcedUnaryPreferences read) }
  else return { kind, binary := some (← st.readOnly r .binaryPreferences st.readBinaryPreference) }

/-- A value with its preferences. -/
def readValueMake (st : Store) (r : Row) : Option ValueMake := do
  let value ← st.readOnly r .rhsValues (st.readRhsValue st.depth)
  return { value, preferences := ← st.readAll r .preferenceSpecifiers st.readPreferenceSpecifier }

/-- The values that an attribute path gets. -/
def readAttributeMake (st : Store) (r : Row) : Option AttributeMake := do
  let path ← st.readAll r .rhsValues (st.readRhsValue st.depth)
  return { path, values := ← st.readAll r .valueMakes st.readValueMake }

/-- The attributes that an identifier gets. -/
def readVariableMake (st : Store) (r : Row) : Option VariableMake := do
  let variableName ← st.text r "variable"
  return { variableName, makes := ← st.readAll r .attributeValueMakes st.readAttributeMake }

/-- New attribute values, or a function call. -/
def readAction (st : Store) (r : Row) : Option Action := do
  if ← st.flag r "is_var_attr_val_make" then
    return { make := some (← st.readOnly r .varAttrValMakes st.readVariableMake) }
  else
    let read := st.readFunctionCall (st.readRhsValue st.depth)
    return { call := some (← st.readOnly r .functionCalls read) }

/-- The conditions and actions of a rule. -/
def readRule (st : Store) (r : Row) : Option (List Condition × List Action) := do
  let conditions ← st.readAll r .conditions (st.readCondition st.depth)
  return (conditions, ← st.readAll r .actions st.readAction)

end Store

/-! ### Tables of parts -/

namespace Rule

/-- A constant is stored in its table. -/
theorem Constant.table?_outline {c : Constant} (h : c.Proper) :
    c.outline.table? = some .constants := by
  rcases h with ⟨n, rfl⟩ | ⟨x, rfl⟩ | ⟨s, rfl⟩ <;> rfl

/-- A test for a variable or a constant is stored in its table. -/
theorem SingleTest.table?_outline (t : SingleTest) : t.outline.table? = some .singleTests := by
  unfold outline
  split <;> rfl

/-- A comparison is stored in its table. -/
theorem RelationalTest.table?_outline {t : RelationalTest} (h : t.Proper) :
    t.outline.table? = some .relationalTests := by
  obtain ⟨e, he, htable, -⟩ := Entry.exists_relationalTest h.1
  rw [outline, he]
  exact congrArg some htable

/-- A condition on identifiers is stored in its table. -/
theorem PositiveCondition.table?_outline (c : PositiveCondition) :
    c.outline.table? = some .positiveConditions := by
  obtain ⟨identifier, _ | conditions⟩ := c <;> rfl

/-- A value is stored in its table. -/
theorem RhsValue.table?_outline (v : RhsValue) : v.outline.table? = some .rhsValues := by
  obtain ⟨_ | c, _ | call, v⟩ := v
  · rfl
  all_goals
    simp [outline, Outline.table?, Entry.rhsValue, Entry.remarked]

/-- A function call is stored in its table. -/
theorem FunctionCall.table?_outline (c : FunctionCall) :
    c.outline.table? = some .functionCalls := by
  obtain ⟨functionName, arguments⟩ := c
  rfl

/-- A preference with its referent is stored in its table. -/
theorem BinaryPreference.table?_outline (b : BinaryPreference)
    (h : IsCodeOf preferenceSigns b.kind) : b.outline.table? = some .binaryPreferences := by
  obtain ⟨e, he, htable, -⟩ := Entry.exists_preference h (t := .binaryPreferences) (by decide)
  rw [outline, he]
  exact congrArg some htable

/-- The preference of a value is stored in its table. -/
theorem PreferenceSpecifier.table?_outline {p : PreferenceSpecifier} (h : p.Proper) :
    p.outline.table? = some .preferenceSpecifiers := by
  obtain ⟨e, he, htable, -⟩ := Entry.exists_preferenceSpecifier h.isCodeOf p.binary.isNone
  rw [outline, he]
  exact congrArg some htable

theorem Condition.outlines_eq_map (conditions : List Condition) :
    Condition.outlines conditions = conditions.map Condition.outline := by
  induction conditions with
  | nil => rfl
  | cons c rest ih => rw [Condition.outlines, ih, List.map_cons]

theorem RhsValue.outlines_eq_map (values : List RhsValue) :
    RhsValue.outlines values = values.map RhsValue.outline := by
  induction values with
  | nil => rfl
  | cons v rest ih => rw [RhsValue.outlines, ih, List.map_cons]

/-- A condition is stored in its table. -/
theorem Condition.table?_outline (c : Condition) : c.outline.table? = some .conditions := by
  obtain ⟨positive, negated⟩ := c
  rfl

namespace Outline

variable {os os' : List Outline} {t u : Table}

theorem filter_eq_self (h : ∀ o ∈ os, o.table? = some t) : os.filter (·.table? = some t) = os := by
  rw [List.filter_eq_self]
  intro o ho
  simpa using h o ho

theorem filter_eq_nil (h : ∀ o ∈ os, o.table? = some u) (hne : u ≠ t) :
    os.filter (·.table? = some t) = [] := by
  rw [List.filter_eq_nil_iff]
  intro o ho
  simpa [h o ho] using hne

theorem filter_append_left (h : ∀ o ∈ os, o.table? = some t) (h' : ∀ o ∈ os', o.table? = some u)
    (hne : u ≠ t) : (os ++ os').filter (·.table? = some t) = os := by
  rw [List.filter_append, filter_eq_self h, filter_eq_nil h' hne, List.append_nil]

theorem filter_append_right (h : ∀ o ∈ os, o.table? = some u) (h' : ∀ o ∈ os', o.table? = some t)
    (hne : u ≠ t) : (os ++ os').filter (·.table? = some t) = os' := by
  rw [List.filter_append, filter_eq_nil h hne, filter_eq_self h', List.nil_append]

end Outline

end Rule

namespace Store

variable {α : Type} {st : Store} {r c : Row} {t u : Table} {n : Nat}

/-! ### What is stored -/

/-- The cells of an existing row are those of its record. -/
theorem Sound.cell_eq (h : st.Sound) {record : Record} (hrecord : record ∈ st.rows r.table)
    (hid : r.id = .int record.id) (column : String) : st.cell r column = record.get column := by
  have hfound : (st.rows r.table).find? (fun record => r.id == .int record.id) = some record := by
    obtain ⟨found, hfound⟩ : ∃ found,
        (st.rows r.table).find? (fun record => r.id == .int record.id) = some found :=
      Option.isSome_iff_exists.mp (List.find?_isSome.mpr ⟨record, hrecord, by simp [hid]⟩)
    have hfound_id : (r.id == .int found.id) = true :=
      List.find?_some (p := fun record : Record => r.id == .int record.id) hfound
    have heq := h.eq_of_id_eq (List.mem_of_find?_eq_some hfound) hrecord
      (Cell.int.inj ((eq_of_beq hfound_id).symm.trans hid))
    rw [hfound, heq]
  rw [cell, hfound]
  rfl

/-- Rows of one table hold the outlines of that table. -/
theorem StoresAll.filter {rows : List Row} {os : List Outline} (h : st.StoresAll rows os)
    (t : Table) :
    st.StoresAll (rows.filter (·.table = t)) (os.filter (·.table? = some t)) := by
  rw [storesAll_iff] at h ⊢
  induction h with
  | nil => exact .nil
  | @cons c o rows os hstores _ ih =>
    have htable : o.table? = some t ↔ c.table = t := by
      rw [hstores.table?_eq, Option.some.injEq]
    by_cases ht : c.table = t
    · simpa [htable, ht] using ⟨hstores, ih⟩
    · simpa [htable, ht] using ih

theorem storesAll_nil_iff {rows : List Row} : st.StoresAll rows [] ↔ rows = [] := by
  rw [storesAll_iff, List.forall₂_nil_right_iff]

theorem storesAll_cons_iff {rows : List Row} {o : Outline} {os : List Outline} :
    st.StoresAll rows (o :: os) ↔
      ∃ c rest, st.Stores c o ∧ st.StoresAll rest os ∧ rows = c :: rest := by
  simp only [storesAll_iff, List.forall₂_cons_right_iff]

/-- Each of some rows is read as the part that it holds. -/
theorem StoresAll.mapM_eq {read : Row → Option α} {outline : α → Outline} {parts : List α}
    {rows : List Row} (h : st.StoresAll rows (parts.map outline))
    (hread : ∀ a ∈ parts, ∀ c, st.Stores c (outline a) → read c = some a) :
    rows.mapM read = some parts := by
  induction parts generalizing rows with
  | nil =>
    rw [storesAll_nil_iff.mp h]
    rfl
  | cons a rest ih =>
    rw [List.forall_mem_cons] at hread
    obtain ⟨c, rows, hc, hrows, rfl⟩ := storesAll_cons_iff.mp h
    rw [List.mapM_cons, hread.1 c hc, ih hrows hread.2]
    rfl

/-- The children of a row hold outlines, in each table in their order. -/
def StoresBelow (st : Store) (r : Row) (os : List Outline) : Prop :=
  ∃ rows, st.StoresAll rows os ∧ ∀ t, st.childrenIn r t = rows.filter (·.table = t)

namespace StoresBelow

variable {os : List Outline} {outline : α → Outline} {parts : List α} {read : Row → Option α}
  (hs : st.StoresBelow r os)

include hs

/-- The children of a row in a table hold the outlines of that table. -/
theorem storesAll_childrenIn (t : Table) :
    st.StoresAll (st.childrenIn r t) (os.filter (·.table? = some t)) := by
  obtain ⟨rows, hrows, hchildren⟩ := hs
  rw [hchildren]
  exact hrows.filter t

theorem readAll_eq (hchildren : os.filter (·.table? = some t) = parts.map outline)
    (hread : ∀ a ∈ parts, ∀ c, st.Stores c (outline a) → read c = some a) :
    st.readAll r t read = some parts := by
  have hrows := hs.storesAll_childrenIn t
  rw [hchildren] at hrows
  exact hrows.mapM_eq hread

/-- The children of a row are read if all of them are of one table. -/
theorem readAll_eq_of_table? (hchildren : os = parts.map outline)
    (htable : ∀ a ∈ parts, (outline a).table? = some t)
    (hread : ∀ a ∈ parts, ∀ c, st.Stores c (outline a) → read c = some a) :
    st.readAll r t read = some parts :=
  hs.readAll_eq (by rw [hchildren, Outline.filter_eq_self (List.forall_mem_map.mpr htable)]) hread

/-- There are children in the table of the only outline, and in no other table. -/
theorem isEmpty_childrenIn {o : Outline} (hos : os = [o]) (htable : o.table? = some u) :
    (st.childrenIn r t).isEmpty = !decide (u = t) := by
  have hrows := hs.storesAll_childrenIn t
  by_cases hut : u = t
  · rw [hos, Outline.filter_eq_self (by simpa [← hut] using htable)] at hrows
    obtain ⟨c, rest, -, -, heq⟩ := storesAll_cons_iff.mp hrows
    simp [heq, hut]
  · rw [hos, Outline.filter_eq_nil (by simpa using htable) hut] at hrows
    simp [storesAll_nil_iff.mp hrows, hut]

end StoresBelow

namespace Stores

variable {kind : PartKind} {e : Entry} {children : List Outline} {o : Outline}
  (hs : st.Stores r (.entry kind e children))

include hs

theorem has : st.Has r := by
  rw [Stores] at hs
  obtain ⟨htable, ⟨record, hrecord, hid, -⟩, -⟩ := hs
  exact ⟨record, htable ▸ hrecord, hid⟩

theorem cell_eq (h : st.Sound) {column : String} {v : Value} (hv : (column, v) ∈ e.columns) :
    st.cell r column = v.cell := by
  rw [Stores] at hs
  obtain ⟨htable, ⟨record, hrecord, hid, hshows⟩, -⟩ := hs
  rw [h.cell_eq (htable ▸ hrecord) hid]
  exact hshows.1 _ (List.mem_append_left _ hv)

theorem flag_eq (h : st.Sound) {column : String} {b : Bool} (hb : (column, .flag b) ∈ e.columns) :
    st.flag r column = some b := by
  rw [flag, hs.cell_eq h hb]
  cases b <;> rfl

theorem integer_eq (h : st.Sound) {column : String} {n : Int} (hn : (column, .int n) ∈ e.columns) :
    st.integer r column = some n := by
  rw [integer, hs.cell_eq h hn]
  rfl

theorem text_eq (h : st.Sound) {column : String} {s : String} (hv : (column, .text s) ∈ e.columns) :
    st.text r column = some s := by
  rw [text, hs.cell_eq h hv]
  rfl

/-- The children of an entry are kept. -/
theorem below : st.StoresBelow r children := by
  rw [Stores] at hs
  exact hs.2.2

/-- The only child of a row in a table is read. -/
theorem readOnly_eq (h : st.Integral) {read : Row → Option α} {a : α}
    (hchildren : children.filter (·.table? = some t) = [o])
    (hread : ∀ c, st.IsParent r c → st.Stores c o → read c = some a) :
    st.readOnly r t read = some a := by
  have hrows := hs.below.storesAll_childrenIn t
  rw [hchildren] at hrows
  obtain ⟨c, rows, hc, hnone, hrow⟩ := storesAll_cons_iff.mp hrows
  rw [storesAll_nil_iff.mp hnone] at hrow
  rw [readOnly, hrow]
  refine hread c (h.isParent_of_mem_childrenIn hs.has (t := t) ?_) hc
  rw [hrow]
  exact List.mem_cons_self

/-- The child of a row is read if it is the only one. -/
theorem readOnly_eq_of_table? (h : st.Integral) {read : Row → Option α} {a : α}
    (hchildren : children = [o]) (htable : o.table? = some t)
    (hread : ∀ c, st.IsParent r c → st.Stores c o → read c = some a) :
    st.readOnly r t read = some a :=
  hs.readOnly_eq h (by simp [hchildren, htable]) hread

end Stores

/-! ### Reading the left side -/

/-- A constant is read back. -/
theorem readConstant_eq (h : st.Integral) {c : Constant} (hc : c.Proper)
    (hs : st.Stores r c.outline) :
    st.readConstant r = some c := by
  have hsound := h.toSound
  -- The stored type says in which of the three columns the value stands.
  rcases hc with ⟨n, rfl⟩ | ⟨x, rfl⟩ | ⟨s, rfl⟩
  · have hkind : st.cell r "constant_type" = .int 0 := hs.cell_eq hsound List.mem_cons_self
    rw [readConstant, hkind]
    rw [hs.integer_eq hsound (List.mem_cons_of_mem _ List.mem_cons_self)]
    rfl
  · have hkind : st.cell r "constant_type" = .int 1 := hs.cell_eq hsound List.mem_cons_self
    have hvalue := hs.cell_eq hsound (List.mem_cons_of_mem _ List.mem_cons_self)
    rw [readConstant, hkind]
    rw [number, hvalue]
    rfl
  · have hkind : st.cell r "constant_type" = .int 2 := hs.cell_eq hsound List.mem_cons_self
    rw [readConstant, hkind]
    rw [hs.text_eq hsound (List.mem_cons_of_mem _ List.mem_cons_self)]
    rfl

/-- A test for a variable or a constant is read back. -/
theorem readSingleTest_eq (h : st.Integral) {a : SingleTest} (ha : a.Proper)
    (hs : st.Stores r a.outline) :
    st.readSingleTest r = some a := by
  have hsound := h.toSound
  obtain ⟨_ | v, _ | c⟩ := a
  · exact ha.elim
  · have hflag := hs.flag_eq hsound (b := true) List.mem_cons_self
    have hconstant := hs.readOnly_eq_of_table? h rfl (Constant.table?_outline ha)
      fun c _ => readConstant_eq h ha
    simp [readSingleTest, hflag, hconstant]
  · have hflag := hs.flag_eq hsound (b := false) List.mem_cons_self
    have hvariable := hs.text_eq hsound (List.mem_cons_of_mem _ List.mem_cons_self)
    simp [readSingleTest, hflag, hvariable]
  · exact ha.elim

/-- A comparison is read back. -/
theorem readRelationalTest_eq (h : st.Integral) {a : RelationalTest} (ha : a.Proper)
    (hs : st.Stores r a.outline) :
    st.readRelationalTest r = some a := by
  obtain ⟨e, he, -, hcolumns, -⟩ := Entry.exists_relationalTest ha.1
  rw [RelationalTest.outline, he] at hs
  have hrelation := hs.integer_eq h.toSound (by rw [hcolumns]; exact List.mem_cons_self)
  have hsingle := hs.readOnly_eq_of_table? h rfl a.single.table?_outline
    fun c _ => readSingleTest_eq h ha.2
  simp [readRelationalTest, hrelation, hsingle]

theorem readDisjunctionTest_eq (h : st.Integral) {a : DisjunctionTest} (ha : a.Proper)
    (hs : st.Stores r a.outline) :
    st.readDisjunctionTest r = some a := by
  have hconstants := hs.below.readAll_eq_of_table? rfl (fun c hc => Constant.table?_outline (ha c hc))
    fun c hc _ => readConstant_eq h (ha c hc)
  simp [readDisjunctionTest, hconstants]

/-- A choice or a comparison is read back. -/
theorem readSimpleTest_eq (h : st.Integral) {a : SimpleTest} (ha : a.Proper)
    (hs : st.Stores r a.outline) :
    st.readSimpleTest r = some a := by
  obtain ⟨_ | d, _ | t⟩ := a
  · exact ha.elim
  · have hflag := hs.flag_eq h.toSound (b := false) List.mem_cons_self
    have htable : t.outline.table? = some .relationalTests := RelationalTest.table?_outline ha
    have htest := hs.readOnly_eq_of_table? h rfl htable fun c _ => readRelationalTest_eq h ha
    simp [readSimpleTest, hflag, htest]
  · have hflag := hs.flag_eq h.toSound (b := true) List.mem_cons_self
    have htest := hs.readOnly_eq_of_table? (t := .disjunctionTests) h rfl rfl
      fun c _ => readDisjunctionTest_eq h ha
    simp [readSimpleTest, hflag, htest]
  · exact ha.elim

theorem readConjunctiveTest_eq (h : st.Integral) {a : ConjunctiveTest} (ha : a.Proper)
    (hs : st.Stores r a.outline) :
    st.readConjunctiveTest r = some a := by
  have htests := hs.below.readAll_eq_of_table? (t := .simpleTests) rfl (fun _ _ => rfl)
    fun t ht _ => readSimpleTest_eq h (ha t ht)
  simp [readConjunctiveTest, htests]

/-- One simple test or several together are read back. -/
theorem readTest_eq (h : st.Integral) {a : Test} (ha : a.Proper) (hs : st.Stores r a.outline) :
    st.readTest r = some a := by
  obtain ⟨_ | t, _ | s⟩ := a
  · exact ha.elim
  · have hflag := hs.flag_eq h.toSound (b := false) List.mem_cons_self
    have htest := hs.readOnly_eq_of_table? (t := .simpleTests) h rfl rfl
      fun c _ => readSimpleTest_eq h ha
    simp [readTest, hflag, htest]
  · have hflag := hs.flag_eq h.toSound (b := true) List.mem_cons_self
    have htest := hs.readOnly_eq_of_table? (t := .conjunctiveTests) h rfl rfl
      fun c _ => readConjunctiveTest_eq h ha
    simp [readTest, hflag, htest]
  · exact ha.elim

theorem readAttributeTest_eq (h : st.Integral) {a : AttributeTest} (ha : a.Proper)
    (hs : st.Stores r a.outline) :
    st.readAttributeTest r = some a := by
  have htest := hs.readOnly_eq_of_table? (t := .tests) h rfl rfl fun c _ => readTest_eq h ha
  simp [readAttributeTest, htest]

theorem readValueTest_eq (h : st.Integral) {a : ValueTest} (ha : a.Proper)
    (hs : st.Stores r a.outline) :
    st.readValueTest r = some a := by
  have hflag := hs.flag_eq h.toSound List.mem_cons_self
  have htest := hs.readOnly_eq_of_table? (t := .tests) h rfl rfl fun c _ => readTest_eq h ha
  simp [readValueTest, hflag, htest]

/-- The test of an attribute path and its values is read back. -/
theorem readAttributeValueTest_eq (h : st.Integral) {a : AttributeValueTest} (ha : a.Proper)
    (hs : st.Stores r a.outline) : st.readAttributeValueTest r = some a := by
  have hflag := hs.flag_eq h.toSound List.mem_cons_self
  have hattributes := hs.below.readAll_eq (Outline.filter_append_left (t := .attributeTests)
    (u := .valueTests) (List.forall_mem_map.mpr fun _ _ => rfl)
    (List.forall_mem_map.mpr fun _ _ => rfl) (by decide)) fun t ht _ => readAttributeTest_eq h (ha.1 t ht)
  have hvalues := hs.below.readAll_eq (Outline.filter_append_right (t := .valueTests)
    (u := .attributeTests) (List.forall_mem_map.mpr fun _ _ => rfl)
    (List.forall_mem_map.mpr fun _ _ => rfl) (by decide)) fun t ht _ => readValueTest_eq h (ha.2 t ht)
  simp [readAttributeValueTest, hflag, hattributes, hvalues]

/-- The tests of one identifier are read back. -/
theorem readIdentifierCondition_eq (h : st.Integral) {a : IdentifierCondition} (ha : a.Proper)
    (hs : st.Stores r a.outline) : st.readIdentifierCondition r = some a := by
  have hsound := h.toSound
  have hflag := hs.flag_eq hsound List.mem_cons_self
  have hvariable := hs.text_eq hsound (List.mem_cons_of_mem _ List.mem_cons_self)
  have htests := hs.below.readAll_eq_of_table? (t := .attributeValueTests) rfl (fun _ _ => rfl)
    fun t ht _ => readAttributeValueTest_eq h (ha t ht)
  simp [readIdentifierCondition, hflag, hvariable, htests]

/-- A step to a child leaves less to read. -/
theorem need_lt (h : st.Integral) (hrc : st.IsParent r c) : st.need c < st.need r :=
  (Within.refl st).need_lt_of_isParent h.acyclic hrc

mutual

/-- The tests of one identifier, or several conditions together, are read back. -/
theorem readPositiveCondition_eq (h : st.Integral) : ∀ {a : PositiveCondition} {r : Row}
    {n : Nat}, a.Proper →
    st.need r ≤ n → st.Stores r a.outline →
      st.readPositiveCondition (st.readCondition n) r = some a
  | ⟨none, some conditions⟩, r, n, ha, hn, hs => by
    have hflag := hs.flag_eq h.toSound (b := true) List.mem_cons_self
    have hrows := hs.below.storesAll_childrenIn .conditions
    -- The subtrees of the conditions are smaller than that of the group, so the fuel is enough for them.
    rw [Outline.filter_eq_self (Condition.outlines_eq_map conditions ▸ List.forall_mem_map.mpr
      fun c _ => c.table?_outline)] at hrows
    have hconditions := readConditions_eq h ha (fun c hc =>
      Nat.le_of_lt_succ (Nat.lt_of_lt_of_le (need_lt h (h.isParent_of_mem_childrenIn hs.has hc))
        (Nat.le_succ_of_le hn))) hrows
    simp [readPositiveCondition, hflag, readAll, hconditions]
  | ⟨some i, none⟩, r, n, ha, hn, hs => by
    have hflag := hs.flag_eq h.toSound (b := false) List.mem_cons_self
    have hidentifier := hs.readOnly_eq_of_table? (t := .conditionForOneIdentifiers) h rfl rfl
      fun c _ => readIdentifierCondition_eq h ha
    simp [readPositiveCondition, hflag, hidentifier]
  | ⟨some _, some _⟩, _, _, ha, _, _ => ha.elim
  | ⟨none, none⟩, _, _, ha, _, _ => ha.elim

/-- A condition is read back. -/
theorem readCondition_eq (h : st.Integral) : ∀ {a : Condition} {r : Row} {n : Nat}, a.Proper →
    st.need r ≤ n →
    st.Stores r a.outline → st.readCondition n r = some a
  | ⟨positive, negated⟩, r, 0, ha, hn, hs => absurd hn (Nat.not_succ_le_zero _)
  | ⟨positive, negated⟩, r, n + 1, ha, hn, hs => by
    have hflag := hs.flag_eq h.toSound (b := negated) List.mem_cons_self
    have hpositive := hs.readOnly_eq_of_table? h rfl positive.table?_outline fun c hrc =>
      readPositiveCondition_eq h ha (Nat.le_of_lt_succ (Nat.lt_of_lt_of_le (need_lt h hrc) hn))
    simp [readCondition, hflag, hpositive]

/-- Several conditions are read back. -/
theorem readConditions_eq (h : st.Integral) : ∀ {conditions : List Condition} {rows : List Row}
    {n : Nat},
    Condition.AllProper conditions → (∀ c ∈ rows, st.need c ≤ n) →
      st.StoresAll rows (Condition.outlines conditions) →
        rows.mapM (st.readCondition n) = some conditions
  | [], rows, n, _, _, hs => by
    rw [storesAll_nil_iff.mp hs]
    rfl
  | a :: rest, rows, n, ha, hn, hs => by
    obtain ⟨c, rows, hc, hrows, rfl⟩ := storesAll_cons_iff.mp hs
    rw [List.forall_mem_cons] at hn
    rw [List.mapM_cons, readCondition_eq h ha.1 hn.1 hc, readConditions_eq h ha.2 hn.2 hrows]
    rfl

end

/-! ### Reading the right side -/

mutual

/-- A value is read back. -/
theorem readRhsValue_eq (h : st.Integral) : ∀ {a : RhsValue} {r : Row} {n : Nat}, a.Proper →
    st.need r ≤ n → st.Stores r a.outline → st.readRhsValue n r = some a
  | _, _, 0, _, hn, _ => absurd hn (Nat.not_succ_le_zero _)
  | ⟨some c, none, none⟩, r, n + 1, ha, hn, hs => by
    have hconstant := hs.flag_eq h.toSound (b := true) List.mem_cons_self
    have hread := hs.readOnly_eq_of_table? h rfl (Constant.table?_outline ha)
      fun c _ => readConstant_eq h ha
    simp [readRhsValue, hconstant, hread]
  | ⟨none, some call, none⟩, r, n + 1, ha, hn, hs => by
    have hconstant := hs.flag_eq h.toSound (b := false) List.mem_cons_self
    have hcall := hs.flag_eq h.toSound (b := true) (List.mem_cons_of_mem _ List.mem_cons_self)
    -- Only a call is read with fuel; its subtree is smaller.
    have hread := hs.readOnly_eq_of_table? h rfl call.table?_outline fun c hrc =>
      readFunctionCall_eq h ha (Nat.le_of_lt_succ (Nat.lt_of_lt_of_le (need_lt h hrc) hn))
    simp [readRhsValue, hconstant, hcall, hread]
  | ⟨none, none, some v⟩, r, n + 1, ha, hn, hs => by
    have hconstant := hs.flag_eq h.toSound (b := false) List.mem_cons_self
    have hcall := hs.flag_eq h.toSound (b := false) (List.mem_cons_of_mem _ List.mem_cons_self)
    have hvariable : st.text r "variable" = some v :=
      hs.text_eq h.toSound (by simp [Entry.rhsValue, Entry.remarked, Value.ofText?])
    simp [readRhsValue, hconstant, hcall, hvariable]
  | ⟨some _, some _, _⟩, _, _, ha, _, _ => ha.elim
  | ⟨some _, none, some _⟩, _, _, ha, _, _ => ha.elim
  | ⟨none, some _, some _⟩, _, _, ha, _, _ => ha.elim
  | ⟨none, none, none⟩, _, _, ha, _, _ => ha.elim

/-- A function call is read back. -/
theorem readFunctionCall_eq (h : st.Integral) : ∀ {a : FunctionCall} {r : Row} {n : Nat}, a.Proper →
    st.need r ≤ n → st.Stores r a.outline →
      st.readFunctionCall (st.readRhsValue n) r = some a
  | ⟨functionName, arguments⟩, r, n, ha, hn, hs => by
    have hname := hs.text_eq h.toSound List.mem_cons_self
    have hrows := hs.below.storesAll_childrenIn .rhsValues
    rw [Outline.filter_eq_self (RhsValue.outlines_eq_map arguments ▸ List.forall_mem_map.mpr
      fun v _ => v.table?_outline)] at hrows
    have harguments := readRhsValues_eq h ha (fun c hc => Nat.le_of_lt (Nat.lt_of_lt_of_le
      (need_lt h (h.isParent_of_mem_childrenIn hs.has hc)) hn)) hrows
    simp [readFunctionCall, hname, readAll, harguments]

/-- Several values are read back. -/
theorem readRhsValues_eq (h : st.Integral) : ∀ {values : List RhsValue} {rows : List Row} {n : Nat},
    RhsValue.AllProper values → (∀ c ∈ rows, st.need c ≤ n) →
      st.StoresAll rows (RhsValue.outlines values) →
        rows.mapM (st.readRhsValue n) = some values
  | [], rows, n, _, _, hs => by
    rw [storesAll_nil_iff.mp hs]
    rfl
  | a :: rest, rows, n, ha, hn, hs => by
    obtain ⟨c, rows, hc, hrows, rfl⟩ := storesAll_cons_iff.mp hs
    rw [List.forall_mem_cons] at hn
    rw [List.mapM_cons, readRhsValue_eq h ha.1 hn.1 hc, readRhsValues_eq h ha.2 hn.2 hrows]
    rfl

end

/-- A preference with its referent is read back. -/
theorem readBinaryPreference_eq (h : st.Integral) {a : BinaryPreference}
    (hcode : IsCodeOf preferenceSigns a.kind) (ha : a.referent.Proper)
    (hs : st.Stores r a.outline) : st.readBinaryPreference r = some a := by
  obtain ⟨e, he, -, hcolumns, -⟩ := Entry.exists_preference hcode (t := .binaryPreferences) (by decide)
  rw [BinaryPreference.outline, he] at hs
  have hkind := hs.integer_eq h.toSound (by rw [hcolumns]; exact List.mem_cons_self)
  have hreferent := hs.readOnly_eq_of_table? h rfl a.referent.table?_outline
    fun c _ => readRhsValue_eq h ha (st.need_le_size c)
  simp [readBinaryPreference, hkind, depth, hreferent]

/-- The table of a preference, and the code that its row keeps. -/
theorem table?_and_integer_of_preference (h : st.Integral) (kind : PartKind) {code : Int}
    (hcode : IsCodeOf preferenceSigns code)
    (ht : ("preference_specifier_type", .integer) ∈ t.columns) :
    (Outline.ofEntry kind (Entry.preference t (.int code)) []).table? = some t ∧
      ∀ c, st.Stores c (.ofEntry kind (Entry.preference t (.int code)) []) →
        st.integer c "preference_specifier_type" = some code := by
  obtain ⟨e, he, htable, hcolumns, -⟩ := Entry.exists_preference hcode ht
  rw [he]
  refine ⟨congrArg some htable, fun c hs => ?_⟩
  exact hs.integer_eq h.toSound (by rw [hcolumns]; exact List.mem_cons_self)

/-- The preference of a value is read back. -/
theorem readPreferenceSpecifier_eq (h : st.Integral) {a : PreferenceSpecifier} (ha : a.Proper)
    (hs : st.Stores r a.outline) : st.readPreferenceSpecifier r = some a := by
  obtain ⟨e, he, -, hcolumns, -⟩ := Entry.exists_preferenceSpecifier ha.isCodeOf a.binary.isNone
  rw [PreferenceSpecifier.outline, he] at hs
  have hkind := hs.integer_eq h.toSound
    (by rw [hcolumns]; exact List.mem_cons_of_mem _ List.mem_cons_self)
  have hunary := hs.flag_eq h.toSound (by rw [hcolumns]; exact List.mem_cons_self)
  clear hcolumns
  obtain ⟨code, _ | n, _ | f, _ | b⟩ := a
  · exact ha.elim
  · -- A binary preference is read from a table of its own.
    have hbinary := hs.readOnly_eq_of_table? h rfl (b.table?_outline ha.2.1)
      fun c _ => readBinaryPreference_eq h ha.2.1 ha.2.2
    simp [readPreferenceSpecifier, hkind, hunary, hbinary]
  · -- A forced unary one: a child of its table is there, so the natural ones are not looked at.
    obtain ⟨htable, hcode⟩ := table?_and_integer_of_preference h .forcedUnaryPreference
      (t := .forcedUnaryPreferences) ha.2 (by decide)
    have hsome := hs.below.isEmpty_childrenIn (t := .forcedUnaryPreferences) rfl htable
    have hforced : st.readOnly r .forcedUnaryPreferences st.readForcedUnaryPreference = some f := by
      refine hs.readOnly_eq_of_table? h rfl htable fun c _ hc => ?_
      simp [readForcedUnaryPreference, hcode c hc]
    simp [readPreferenceSpecifier, hkind, hunary, hsome, hforced]
  · exact ha.elim
  · -- A natural unary one: no child of the forced table is there.
    obtain ⟨htable, hcode⟩ := table?_and_integer_of_preference h .naturallyUnaryPreference
      (t := .naturallyUnaryPreferences) ha.2 (by decide)
    have hnone := hs.below.isEmpty_childrenIn (t := .forcedUnaryPreferences) rfl htable
    have hnatural :
        st.readOnly r .naturallyUnaryPreferences st.readNaturallyUnaryPreference = some n := by
      refine hs.readOnly_eq_of_table? h rfl htable fun c _ hc => ?_
      simp [readNaturallyUnaryPreference, hcode c hc]
    simp [readPreferenceSpecifier, hkind, hunary, hnone, hnatural]
  · exact ha.elim
  · exact ha.elim
  · exact ha.elim

/-- A value with its preferences is read back. -/
theorem readValueMake_eq (h : st.Integral) {a : ValueMake} (ha : a.Proper)
    (hs : st.Stores r a.outline) : st.readValueMake r = some a := by
  have htable : ∀ o ∈ [a.value.outline], o.table? = some .rhsValues := by
    simpa using a.value.table?_outline
  have htables : ∀ o ∈ a.preferences.map PreferenceSpecifier.outline,
      o.table? = some .preferenceSpecifiers :=
    List.forall_mem_map.mpr fun p hp => (PreferenceSpecifier.table?_outline (ha.2 p hp))
  have hvalue := hs.readOnly_eq h (Outline.filter_append_left htable htables (by decide))
    fun c _ => readRhsValue_eq h ha.1 (st.need_le_size c)
  have hpreferences := hs.below.readAll_eq (Outline.filter_append_right htable htables (by decide))
    fun p hp _ => readPreferenceSpecifier_eq h (ha.2 p hp)
  simp [readValueMake, depth, hvalue, hpreferences]

/-- The values that an attribute path gets are read back. -/
theorem readAttributeMake_eq (h : st.Integral) {a : AttributeMake} (ha : a.Proper)
    (hs : st.Stores r a.outline) : st.readAttributeMake r = some a := by
  have htable : ∀ o ∈ a.path.map RhsValue.outline, o.table? = some .rhsValues :=
    List.forall_mem_map.mpr fun v _ => v.table?_outline
  have htables : ∀ o ∈ a.values.map ValueMake.outline, o.table? = some .valueMakes :=
    List.forall_mem_map.mpr fun _ _ => rfl
  have hpath := hs.below.readAll_eq (Outline.filter_append_left htable htables (by decide))
    fun v hv c => readRhsValue_eq h (ha.1 v hv) (st.need_le_size c)
  have hvalues := hs.below.readAll_eq (Outline.filter_append_right htable htables (by decide))
    fun v hv _ => readValueMake_eq h (ha.2 v hv)
  simp [readAttributeMake, depth, hpath, hvalues]

theorem readVariableMake_eq (h : st.Integral) {a : VariableMake} (ha : a.Proper)
    (hs : st.Stores r a.outline) : st.readVariableMake r = some a := by
  have hvariable := hs.text_eq h.toSound List.mem_cons_self
  have hmakes := hs.below.readAll_eq_of_table? (t := .attributeValueMakes) rfl (fun _ _ => rfl)
    fun m hm _ => readAttributeMake_eq h (ha m hm)
  simp [readVariableMake, hvariable, hmakes]

/-- New attribute values, or a function call, are read back. -/
theorem readAction_eq (h : st.Integral) {a : Action} (ha : a.Proper) (hs : st.Stores r a.outline) :
    st.readAction r = some a := by
  obtain ⟨_ | m, _ | call⟩ := a
  · exact ha.elim
  · have hflag := hs.flag_eq h.toSound (b := false) List.mem_cons_self
    have hcall := hs.readOnly_eq_of_table? h rfl call.table?_outline
      fun c _ => readFunctionCall_eq h ha (st.need_le_size c)
    simp [readAction, depth, hflag, hcall]
  · have hflag := hs.flag_eq h.toSound (b := true) List.mem_cons_self
    have hmake := hs.readOnly_eq_of_table? (t := .varAttrValMakes) h rfl rfl
      fun c _ => readVariableMake_eq h ha
    simp [readAction, hflag, hmake]
  · exact ha.elim

/-- The conditions and actions of a production whose parts are stored below a rule are read back. -/
theorem StoresBelow.readRule_eq (h : st.Integral) {p : Production} (hp : p.Proper)
    (hs : st.StoresBelow r p.parts) : st.readRule r = some (p.conditions, p.actions) := by
  have htable : ∀ o ∈ p.conditions.map Condition.outline, o.table? = some .conditions :=
    List.forall_mem_map.mpr fun c _ => c.table?_outline
  have htables : ∀ o ∈ p.actions.map Action.outline, o.table? = some .actions :=
    List.forall_mem_map.mpr fun _ _ => rfl
  have hconditions := hs.readAll_eq (Outline.filter_append_left htable htables (by decide))
    fun a ha c => readCondition_eq h (hp.1 a ha) (st.need_le_size c)
  have hactions := hs.readAll_eq (Outline.filter_append_right htable htables (by decide))
    fun a ha _ => readAction_eq h (hp.2 a ha)
  simp [readRule, depth, hconditions, hactions]

end Store

end SoarProject
