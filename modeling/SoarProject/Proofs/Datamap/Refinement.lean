import SoarProject.Proofs.Project.Saving
import SoarProject.Proofs.Rule.Triples

/-!
# Triples of a stored production

What is read off the rows below a rule is what the production says that was stored there. For each part
of a production there is one lemma: where a row holds the part as it is kept, the query for the part finds
its values.

* `Store.storesAll_identifiers`, `Store.storesAll_makes`: the rows of a table below a rule hold the parts
  of that table in the order of the text.
* `finds_productionTriples`: the triples of a stored production are found.
* `extractTriples_storeProduction`: storing a production and reading its triples gives those of the
  production alone.
-/

namespace SoarProject

open Registry Rule

variable {α β : Type} {st : Store} {r c : Row} {t u : Table} {kind : PartKind} {e : Entry}
  {os : List Outline} {o : Outline} {name : String} {v : Value}

/-! ### Columns and children -/

namespace Row

/-- The value of a column of an existing row is found. -/
theorem finds_column (h : st.Sound) (hr : st.Has r)
    (hcolumn : name ∈ project.columnNamesOf r.table) :
    (r.column name).Finds st st.Fits (· = st.cell r name) := by
  obtain ⟨record, hrecord, hid⟩ := hr
  have hnames : ∀ other ∈ [name], other ∈ project.columnNamesOf r.table := by simpa using hcolumn
  -- The record of the row is found whenever its id can be bound.
  have hfound : (r.record? [name]).Finds st st.Fits (· = some record) := by
    have hrow : r = .ofId r.table record.id := by rw [Row.ofId, ← hid]
    have hfits : st.Fits → (Row.ofId r.table record.id).Fits := fun hfits =>
      hfits.row (Store.has_ofId_of_mem hrecord)
    rw [hrow]
    exact ((finds_record? h hnames).mono_sure hfits).mono fun found hall =>
      (hall record).mpr ⟨hrecord, rfl⟩
  -- The registry has the column, so the guard lets it pass.
  have hknown : (project.columnType? r.table name).isNone = false := by
    rw [← Option.not_isSome, Store.columnType?_isSome hcolumn]
    rfl
  unfold column
  refine Query.Finds.registry ?_
  rw [hknown, denoted_of_mem_columnNamesOf hcolumn]
  simp only [Bool.false_eq_true, if_false, pure_bind, bind_assoc]
  refine Query.Finds.orDefault (hfound.bind ?_) fun w s e hs hrun => ?_
  · rintro _ rfl
    exact Query.Finds.pure (h.cell_eq hrecord hid name).symm
  · -- The default answers for a storage error only, and a look-up of these names raises none.
    refine record?_run_ne_storage h hs hnames e ?_
    have hsteps : ∀ {q : Query (Option Record)} {f : Option Record → Cell},
        (q >>= fun found => pure (f found)).run s = q.run s >>= fun found => .ok (f found) :=
      fun {_ _} => rfl
    rw [hsteps] at hrun
    cases hq : (r.record? [name]).run s with
    | error e' =>
      rw [hq] at hrun
      cases hrun
      rfl
    | ok found =>
      rw [hq] at hrun
      cases hrun

end Row

namespace Store

/-- What is found for each of some rows that hold parts. -/
theorem StoresAll.finds_mapM {f : Row → Query β} {g : α → β} {outline : α → Outline}
    {parts : List α} {rows : List Row} (hs : st.StoresAll rows (parts.map outline))
    (hf : ∀ a ∈ parts, ∀ c, st.Stores c (outline a) → (f c).Finds st st.Fits (· = g a)) :
    (rows.mapM f).Finds st st.Fits (· = parts.map g) := by
  induction parts generalizing rows with
  | nil =>
    rw [storesAll_nil_iff.mp hs]
    exact Query.Finds.pure rfl
  | cons a rest ih =>
    rw [List.forall_mem_cons] at hf
    obtain ⟨c, rows, hc, hrows, rfl⟩ := storesAll_cons_iff.mp hs
    rw [List.mapM_cons]
    -- The first row stands for the first part, and the rest follows by induction.
    refine (hf.1 c hc).bind ?_
    rintro _ rfl
    refine (ih hrows hf.2).bind ?_
    rintro _ rfl
    exact Query.Finds.pure rfl

/-- The children of a row in a table hold the parts that are stored there. -/
theorem StoresBelow.storesAll_parts (hs : st.StoresBelow r (Outline.allKept os)) (t : Table)
    {outline : α → Outline} {parts : List α}
    (hos : os.filter (·.table? = some t) = parts.map outline) :
    st.StoresAll (st.childrenIn r t) (parts.map fun a => (outline a).kept) := by
  have hrows := hs.storesAll_childrenIn t
  have hkept : (Outline.allKept os).filter (·.table? = some t) =
      parts.map fun a => (outline a).kept := by
    rw [Outline.allKept_eq_map, List.filter_map]
    simp only [Function.comp_def, Outline.table?_kept, hos, List.map_map]
  rwa [hkept] at hrows

namespace Stores

variable (hs : st.Stores r (Outline.entry kind e os).kept)

include hs

/-- A column of an entry is found as it is kept. -/
theorem finds_column (h : st.Sound) (t : Table) (column : String × ColumnType) (ht : e.table = t)
    (hcolumn : column ∈ t.columns) (hv : (column.1, v) ∈ (e.kept kind).columns) :
    (r.column column.1).Finds st st.Fits (· = v.cell) := by
  rw [Outline.kept] at hs
  have htable : r.table = t := (Option.some.inj hs.table?_eq).symm.trans ht
  rw [← hs.cell_eq h hv]
  exact Row.finds_column h hs.has
    (htable ▸ mem_columnNamesOf_of_columnType? (columnType?_of_mem_columns hcolumn))

/-- The variable of an entry is found. -/
theorem finds_storedVariable? (h : st.Sound) (t : Table) (ht : e.table = t)
    (hcolumn : ("variable", .string) ∈ t.columns) {s : String}
    (hv : ("variable", .text s) ∈ (e.kept kind).columns) :
    r.storedVariable?.Finds st st.Fits (· = nonEmpty? s) := by
  unfold Row.storedVariable?
  refine (hs.finds_column h t ("variable", .string) ht hcolumn hv).bind ?_
  rintro _ rfl
  refine Query.Finds.pure ?_
  simp only [Value.cell, Cell.isTrue, nonEmpty?, bne_iff_ne, ne_eq, ite_not]
  rfl

/-- The children of an entry in a table are found. They hold the parts that are stored there. -/
theorem finds_parts (h : st.Sound) (t : Table) {outline : α → Outline} {parts : List α}
    (hos : os.filter (·.table? = some t) = parts.map outline) :
    ∃ rows, (r.childrenOfType t).Finds st st.Fits (· = rows) ∧
      st.StoresAll rows (parts.map fun a => (outline a).kept) := by
  rw [Outline.kept] at hs
  exact ⟨_, (Row.finds_childrenOfType h.shaped).mono_sure fun hfits => hfits.row hs.has,
    hs.below.storesAll_parts t hos⟩

/-- The only child of an entry in a table is found. -/
theorem finds_firstChild (h : st.Sound) (hos : os.filter (·.table? = some t) = [o]) :
    ∃ c, st.Stores c o.kept ∧ (r.firstChild? t).Finds st st.Fits (· = some c) := by
  have hparts : os.filter (·.table? = some t) = [o].map id := by simpa using hos
  obtain ⟨rows, hfinds, hrows⟩ := hs.finds_parts h t hparts
  obtain ⟨c, rest, hc, -, rfl⟩ := storesAll_cons_iff.mp hrows
  refine ⟨c, hc, hfinds.bind ?_⟩
  rintro _ rfl
  exact Query.Finds.pure rfl

/-- The only child of an entry is found. -/
theorem finds_onlyChild (h : st.Sound) (hos : os = [o]) (ht : o.table? = some t) :
    ∃ c, st.Stores c o.kept ∧ (r.firstChild? t).Finds st st.Fits (· = some c) :=
  hs.finds_firstChild h (by simp [hos, ht])

end Stores

end Store

/-! ### Values -/

/-- Whether a flag is set is seen from its cell. -/
theorem isTrue_flag (b : Bool) : (Value.flag b).cell.isTrue = b := by
  cases b <;> rfl

/-- A floating-point number is kept as one, unless it is not a number. -/
theorem kept_float (x : Float) :
    (Value.float x).kept = .null ∨ ∃ y, (Value.float x).kept = .float y := by
  by_cases hx : x.isNaN = true
  · left
    rw [Value.kept, Value.bound, if_pos hx]
    rfl
  · right
    rw [Value.kept, Value.bound, if_neg hx, StoredType.store, Cell.toReal, Cell.toNumber]
    cases integralValue? x with
    | none => exact ⟨_, rfl⟩
    | some n => exact ⟨_, rfl⟩

namespace Row

variable (h : st.Integral)

include h

/-- The value of a constant is found. -/
theorem finds_constantValue? {a : Constant} (ha : a.Proper) (hs : st.Stores r a.outline.kept) :
    r.constantValue?.Finds st st.Fits (· = a.typedValue?) := by
  have hsound := h.toSound
  have htail : ∀ {a b : String × Value}, b ∈ [a, b] := List.mem_cons_of_mem _ List.mem_cons_self
  unfold constantValue?
  rcases ha with ⟨n, rfl⟩ | ⟨x, rfl⟩ | ⟨s, rfl⟩
  · refine (hs.finds_column (v := .int 0) hsound .constants ("constant_type", .integer) rfl
      (by decide) List.mem_cons_self).bind ?_
    rintro _ rfl
    refine (hs.finds_column (v := .int n) hsound .constants ("integer_const", .integer) rfl
      (by decide) htail).bind ?_
    rintro _ rfl
    exact Query.Finds.pure rfl
  · refine (hs.finds_column (v := .int 1) hsound .constants ("constant_type", .integer) rfl
      (by decide) List.mem_cons_self).bind ?_
    rintro _ rfl
    refine (hs.finds_column (v := (Value.float x).kept) hsound .constants
      ("floating_const", .float) rfl (by decide) htail).bind ?_
    rintro _ rfl
    rw [Constant.typedValue?, Constant.floating]
    -- A float that is no number is kept as null, and has no value.
    rcases kept_float x with hnull | ⟨y, hy⟩
    · rw [hnull]
      exact Query.Finds.pure rfl
    · rw [hy]
      exact Query.Finds.pure rfl
  · refine (hs.finds_column (v := .int 2) hsound .constants ("constant_type", .integer) rfl
      (by decide) List.mem_cons_self).bind ?_
    rintro _ rfl
    refine (hs.finds_column (v := .text s) hsound .constants ("symbolic_const", .string) rfl
      (by decide) htail).bind ?_
    rintro _ rfl
    exact Query.Finds.pure rfl

/-- The value of the only constant below a row is found. -/
theorem finds_firstConstantValue? {a : Constant} (ha : a.Proper)
    (hs : st.Stores r (Outline.entry kind e os).kept) (hos : os = [a.outline]) :
    r.firstConstantValue?.Finds st st.Fits (· = a.typedValue?) := by
  obtain ⟨c, hc, hfirst⟩ := hs.finds_onlyChild h.toSound hos (Constant.table?_outline ha)
  unfold firstConstantValue?
  refine hfirst.bind ?_
  rintro _ rfl
  exact finds_constantValue? h ha hc

/-- The value of a test for one value is found. -/
theorem finds_singleTestValue? {a : SingleTest} (ha : a.Proper) (hs : st.Stores r a.outline.kept) :
    r.singleTestValue?.Finds st st.Fits (· = a.typedValue?) := by
  have hsound := h.toSound
  unfold singleTestValue?
  -- Of the four shapes only a constant and a variable are proper.
  obtain ⟨_ | s, _ | a⟩ := a
  · exact ha.elim
  · refine (hs.finds_column (v := .flag true) hsound .singleTests ("is_constant", .integer) rfl
      (by decide) List.mem_cons_self).bind ?_
    rintro _ rfl
    exact finds_firstConstantValue? h ha hs rfl
  · refine (hs.finds_column (v := .flag false) hsound .singleTests ("is_constant", .integer) rfl
      (by decide) List.mem_cons_self).bind ?_
    rintro _ rfl
    refine (hs.finds_storedVariable? hsound .singleTests rfl (by decide)
      (List.mem_cons_of_mem _ List.mem_cons_self)).bind ?_
    rintro _ rfl
    exact Query.Finds.pure rfl
  · exact ha.elim

/-- The constants of a choice are found. -/
theorem finds_disjunctionValues {a : DisjunctionTest} (ha : a.Proper)
    (hs : st.Stores r a.outline.kept) :
    r.disjunctionValues.Finds st st.Fits (· = a.typedValues) := by
  obtain ⟨rows, hfinds, hrows⟩ := hs.finds_parts h.toSound .constants
    (Outline.filter_eq_self (List.forall_mem_map.mpr fun c hc => Constant.table?_outline (ha c hc)))
  unfold disjunctionValues
  refine hfinds.bind ?_
  rintro _ rfl
  refine (hrows.finds_mapM fun a' ha' c hc => finds_constantValue? h (ha a' ha') hc).bind ?_
  rintro _ rfl
  refine Query.Finds.pure ?_
  rw [DisjunctionTest.typedValues, List.reduceOption, List.filterMap_map, List.map_filterMap]
  rfl

/-- The values of a simple test are found. -/
theorem finds_simpleTestValues {a : SimpleTest} (ha : a.Proper) (hs : st.Stores r a.outline.kept) :
    r.simpleTestValues.Finds st st.Fits (· = a.typedValues) := by
  have hsound := h.toSound
  unfold simpleTestValues
  obtain ⟨_ | d, _ | t⟩ := a
  · exact ha.elim
  · -- The flag says that there is no disjunction; the one child leads to the single test.
    refine (hs.finds_column (v := .flag false) hsound .simpleTests
      ("is_disjunction_test", .integer) rfl (by decide) List.mem_cons_self).bind ?_
    rintro _ rfl
    obtain ⟨c, hc, hfirst⟩ := hs.finds_onlyChild (o := t.outline) hsound rfl
      (RelationalTest.table?_outline ha)
    refine hfirst.bind ?_
    rintro _ rfl
    obtain ⟨e, he, -⟩ := Entry.exists_relationalTest ha.1
    rw [RelationalTest.outline, he] at hc
    obtain ⟨d, hd, hfirst⟩ := hc.finds_onlyChild hsound rfl t.single.table?_outline
    refine hfirst.bind ?_
    rintro _ rfl
    refine (finds_singleTestValue? h ha.2 hd).bind ?_
    rintro _ rfl
    exact Query.Finds.pure rfl
  · refine (hs.finds_column (v := .flag true) hsound .simpleTests
      ("is_disjunction_test", .integer) rfl (by decide) List.mem_cons_self).bind ?_
    rintro _ rfl
    obtain ⟨c, hc, hfirst⟩ := hs.finds_onlyChild (t := .disjunctionTests) hsound rfl rfl
    refine hfirst.bind ?_
    rintro _ rfl
    exact finds_disjunctionValues h ha hc
  · exact ha.elim

/-- The values of a test are found. -/
theorem finds_testValues {a : Test} (ha : a.Proper) (hs : st.Stores r a.outline.kept) :
    r.testValues.Finds st st.Fits (· = a.typedValues) := by
  have hsound := h.toSound
  unfold testValues
  obtain ⟨_ | t, _ | s⟩ := a
  · exact ha.elim
  · refine (hs.finds_column (v := .flag false) hsound .tests ("is_conjunctive_test", .integer) rfl
      (by decide) List.mem_cons_self).bind ?_
    rintro _ rfl
    obtain ⟨c, hc, hfirst⟩ := hs.finds_onlyChild (t := .simpleTests) hsound rfl rfl
    refine hfirst.bind ?_
    rintro _ rfl
    exact finds_simpleTestValues h ha hc
  · refine (hs.finds_column (v := .flag true) hsound .tests ("is_conjunctive_test", .integer) rfl
      (by decide) List.mem_cons_self).bind ?_
    rintro _ rfl
    obtain ⟨c, hc, hfirst⟩ := hs.finds_onlyChild (t := .conjunctiveTests) hsound rfl rfl
    refine hfirst.bind ?_
    rintro _ rfl
    -- All simple tests of the conjunction are read, and the first variable among them is picked.
    obtain ⟨rows, hfinds, hrows⟩ := hc.finds_parts hsound .simpleTests
      (Outline.filter_eq_self (List.forall_mem_map.mpr fun s _ => rfl))
    refine hfinds.bind ?_
    rintro _ rfl
    refine (hrows.finds_mapM fun s hs' d hd => finds_simpleTestValues h (ha s hs') hd).bind ?_
    rintro _ rfl
    refine Query.Finds.pure ?_
    rw [conjunctionValues_eq_firstVariable, ← List.flatMap_def]
    rfl
  · exact ha.elim

/-- The values of the only test below a row are found. -/
theorem finds_firstTestValues {a : Test} (ha : a.Proper)
    (hs : st.Stores r (Outline.entry kind e os).kept) (hos : os = [a.outline]) :
    r.firstTestValues.Finds st st.Fits (· = a.typedValues) := by
  obtain ⟨c, hc, hfirst⟩ := hs.finds_onlyChild (t := .tests) h.toSound hos rfl
  unfold firstTestValues
  refine hfirst.bind ?_
  rintro _ rfl
  exact finds_testValues h ha hc

/-- The attribute that the only test below a row names is found. -/
theorem finds_testedAttribute? {a : AttributeTest} (ha : a.Proper)
    (hs : st.Stores r a.outline.kept) :
    r.testedAttribute?.Finds st st.Fits (· = a.test.attribute?) := by
  unfold testedAttribute?
  refine (finds_firstTestValues h ha hs rfl).bind ?_
  rintro _ rfl
  rw [Test.attribute?]
  generalize a.test.typedValues = values
  obtain _ | ⟨⟨_ | _ | _ | _, name⟩, _ | _⟩ := values <;> exact Query.Finds.pure rfl

/-- The value on a right side is found. -/
theorem finds_rhsValue? {a : RhsValue} (ha : a.Proper) (hs : st.Stores r a.outline.kept) :
    r.rhsValue?.Finds st st.Fits (· = a.typedValue?) := by
  have hsound := h.toSound
  have hsecond : ∀ {a b : String × Value} {l : List (String × Value)}, b ∈ a :: b :: l :=
    List.mem_cons_of_mem _ List.mem_cons_self
  have hthird : ∀ {a b c : String × Value} {l : List (String × Value)}, c ∈ a :: b :: c :: l :=
    List.mem_cons_of_mem _ hsecond
  unfold rhsValue?
  -- The flags are read first: whether it is a variable, then whether it is a constant.
  match a, ha with
  | ⟨some a, none, none⟩, ha =>
    refine (hs.finds_column (v := .flag false) hsound .rhsValues ("is_variable", .integer) rfl
      (by decide) hthird).bind ?_
    rintro _ rfl
    refine (hs.finds_column (v := .flag true) hsound .rhsValues ("is_constant", .integer) rfl
      (by decide) List.mem_cons_self).bind ?_
    rintro _ rfl
    exact finds_firstConstantValue? h ha hs rfl
  -- A function call is neither, and has no value.
  | ⟨none, some call, none⟩, ha =>
    refine (hs.finds_column (v := .flag false) hsound .rhsValues ("is_variable", .integer) rfl
      (by decide) hthird).bind ?_
    rintro _ rfl
    refine (hs.finds_column (v := .flag false) hsound .rhsValues ("is_constant", .integer) rfl
      (by decide) List.mem_cons_self).bind ?_
    rintro _ rfl
    exact Query.Finds.pure rfl
  | ⟨none, none, some s⟩, _ =>
    refine (hs.finds_column (v := .flag true) hsound .rhsValues ("is_variable", .integer) rfl
      (by decide) hthird).bind ?_
    rintro _ rfl
    refine (hs.finds_storedVariable? hsound .rhsValues rfl (by decide)
      (List.mem_cons_of_mem _ hthird)).bind ?_
    rintro _ rfl
    exact Query.Finds.pure rfl
  | ⟨some _, some _, _⟩, ha | ⟨some _, none, some _⟩, ha | ⟨none, some _, some _⟩, ha
  | ⟨none, none, none⟩, ha => exact ha.elim

/-- The attribute that a value on a right side names is found. -/
theorem finds_rhsAttribute? {a : RhsValue} (ha : a.Proper) (hs : st.Stores r a.outline.kept) :
    r.rhsAttribute?.Finds st st.Fits (· = a.typedValue?.bind symbol?) := by
  unfold rhsAttribute?
  refine (finds_rhsValue? h ha hs).bind ?_
  rintro _ rfl
  obtain _ | ⟨_ | _ | _ | _, name⟩ := a.typedValue? <;> exact Query.Finds.pure rfl

end Row

/-! ### Accesses -/

/-- The attributes along a path are found, if there are any. -/
theorem finds_attributePath {attribute? : Row → Query (Option String)} {g : α → Option String}
    {outline : α → Outline} {parts : List α} {rows : List Row}
    (hs : st.StoresAll rows (parts.map outline))
    (hf : ∀ a ∈ parts, ∀ c, st.Stores c (outline a) → (attribute? c).Finds st st.Fits (· = g a)) :
    (attributePath attribute? rows).Finds st st.Fits (· = (parts.map g).mapM id) := by
  induction parts generalizing rows with
  | nil =>
    rw [Store.storesAll_nil_iff.mp hs]
    exact Query.Finds.pure rfl
  | cons a rest ih =>
    rw [List.forall_mem_cons] at hf
    obtain ⟨c, rows, hc, hrows, rfl⟩ := Store.storesAll_cons_iff.mp hs
    -- One attribute without a name, and the path as a whole has none.
    rw [attributePath, List.map_cons, List.mapM_cons]
    refine (hf.1 c hc).bind ?_
    rintro _ rfl
    cases g a with
    | none => exact Query.Finds.pure rfl
    | some name =>
      refine (ih hrows hf.2).bind ?_
      rintro _ rfl
      refine Query.Finds.pure ?_
      cases (rest.map g).mapM id <;> rfl

/-- The accesses along a path to some values are found. -/
theorem finds_accesses {subject : String} {path : List Row}
    {attribute? : Row → Query (Option String)} {values : Query (List TypedValue)}
    {attributes : List (Option String)} {found : List TypedValue}
    (hpath : (attributePath attribute? path).Finds st st.Fits (· = attributes.mapM id))
    (hvalues : values.Finds st st.Fits (· = found)) :
    (attributeTriples subject path attribute? values).Finds st st.Fits
      (· = accesses subject attributes found) := by
  unfold attributeTriples
  refine hpath.bind ?_
  rintro _ rfl
  unfold accesses
  -- One attribute without a name, and the path gives no triple.
  cases attributes.mapM id with
  | none => exact Query.Finds.pure rfl
  | some names =>
    cases names with
    | nil => exact Query.Finds.pure (by simp [pathSteps])
    | cons name rest =>
      refine hvalues.bind ?_
      rintro found rfl
      cases found with
      | nil => exact Query.Finds.pure rfl
      | cons v found =>
        -- Each value found is an access by the last attribute.
        refine Query.Finds.pure ((pathTriples_eq_pathSteps subject (name :: rest) (v :: found)).trans ?_)
        exact (if_neg (List.cons_ne_nil v found)).symm

/-- The accesses below some rows that name variables are found. -/
theorem finds_storedTriples {rule : Row} {holders parts : Table}
    {triples : String → Row → Query (List Triple)} {subject? : α → Option String}
    {found : String → α → List Triple} {outline : α → Outline} {as : List α} {rows : List Row}
    (hrows : (rule.descendants holders).Finds st st.Fits (· = rows))
    (hs : st.StoresAll rows (as.map fun a => (outline a).kept))
    (hsubject : ∀ a ∈ as, ∀ c, st.Stores c (outline a).kept →
      c.storedVariable?.Finds st st.Fits (· = subject? a))
    (hparts : ∀ a ∈ as, ∀ c, st.Stores c (outline a).kept → ∀ subject, ∃ cs,
      (c.childrenOfType parts).Finds st st.Fits (· = cs) ∧
        (cs.mapM (triples subject)).Finds st st.Fits (fun lists => lists.flatten = found subject a)) :
    (triplesBelow rule holders parts triples).Finds st st.Fits
      (· = as.flatMap fun a => (subject? a).elim [] fun subject => found subject a) := by
  unfold triplesBelow
  -- The holders of a subject are read in the order in which they are stored.
  refine hrows.bind ?_
  rintro _ rfl
  refine (hs.finds_mapM (g := fun a => (subject? a).elim [] fun subject => found subject a)
    fun a ha c hc => ?_).bind ?_
  · refine (hsubject a ha c hc).bind ?_
    rintro _ rfl
    cases subject? a with
    | none => exact Query.Finds.pure rfl
    | some subject =>
      obtain ⟨cs, hcs, hlists⟩ := hparts a ha c hc subject
      refine hcs.bind ?_
      rintro _ rfl
      exact hlists.bind fun lists hlists => Query.Finds.pure hlists
  · rintro _ rfl
    exact Query.Finds.pure List.flatMap_def.symm

section Accesses

variable (h : st.Integral) {subject : String}

include h

/-- The accesses that a test of an attribute path makes are found. -/
theorem finds_testTriples {a : AttributeValueTest} (ha : a.Proper)
    (hs : st.Stores r a.outline.kept) :
    (testTriples subject r).Finds st st.Fits (· = a.accesses subject) := by
  -- Attributes and values are children of one row, told apart by their tables.
  obtain ⟨path, hpath, hattributes⟩ := hs.finds_parts h.toSound .attributeTests
    (Outline.filter_append_left (u := .valueTests) (List.forall_mem_map.mpr fun _ _ => rfl)
      (List.forall_mem_map.mpr fun _ _ => rfl) (by decide))
  obtain ⟨tests, htests, hvalues⟩ := hs.finds_parts h.toSound .valueTests
    (Outline.filter_append_right (u := .attributeTests) (List.forall_mem_map.mpr fun _ _ => rfl)
      (List.forall_mem_map.mpr fun _ _ => rfl) (by decide))
  unfold testTriples
  refine hpath.bind ?_
  rintro _ rfl
  refine finds_accesses
    (finds_attributePath hattributes fun b hb c => Row.finds_testedAttribute? h (ha.1 b hb)) ?_
  refine htests.bind ?_
  rintro _ rfl
  refine (hvalues.finds_mapM fun b hb c hc =>
    Row.finds_firstTestValues h (ha.2 b hb) hc rfl).bind ?_
  rintro _ rfl
  exact Query.Finds.pure List.flatMap_def.symm

/-- The accesses that new values of an attribute path make are found. -/
theorem finds_makeTriples {a : AttributeMake} (ha : a.Proper) (hs : st.Stores r a.outline.kept) :
    (makeTriples subject r).Finds st st.Fits (· = a.accesses subject) := by
  have hpathTable : ∀ o ∈ a.path.map RhsValue.outline, o.table? = some .rhsValues :=
    List.forall_mem_map.mpr fun v _ => v.table?_outline
  have hvalueTable : ∀ o ∈ a.values.map ValueMake.outline, o.table? = some .valueMakes :=
    List.forall_mem_map.mpr fun _ _ => rfl
  -- Path and values are children of one row, told apart by their tables.
  obtain ⟨path, hpath, hattributes⟩ := hs.finds_parts h.toSound .rhsValues
    (Outline.filter_append_left hpathTable hvalueTable (by decide))
  obtain ⟨makes, hmakes, hvalues⟩ := hs.finds_parts h.toSound .valueMakes
    (Outline.filter_append_right hpathTable hvalueTable (by decide))
  unfold makeTriples
  refine hpath.bind ?_
  rintro _ rfl
  refine finds_accesses
    (finds_attributePath hattributes fun b hb c => Row.finds_rhsAttribute? h (ha.1 b hb)) ?_
  refine hmakes.bind ?_
  rintro _ rfl
  refine (hvalues.finds_mapM (g := fun m => m.value.typedValue?) fun b hb c hc => ?_).bind ?_
  · -- The value of a make is its first child; preferences stand behind it.
    have htables : ∀ o ∈ b.preferences.map PreferenceSpecifier.outline,
        o.table? = some .preferenceSpecifiers :=
      List.forall_mem_map.mpr fun p hp => PreferenceSpecifier.table?_outline ((ha.2 b hb).2 p hp)
    have hvalue : ∀ o ∈ [b.value.outline], o.table? = some .rhsValues := by
      simpa using b.value.table?_outline
    obtain ⟨d, hd, hfirst⟩ := hc.finds_firstChild h.toSound
      (Outline.filter_append_left hvalue htables (by decide))
    refine hfirst.bind ?_
    rintro _ rfl
    exact Row.finds_rhsValue? h (ha.2 b hb).1 hd
  · rintro _ rfl
    refine Query.Finds.pure ?_
    rw [List.reduceOption, List.filterMap_map]
    rfl

end Accesses

/-! ### Rows of a table below a rule -/

namespace Store

theorem StoresAll.append {rows rows' : List Row} {os os' : List Outline} (h : st.StoresAll rows os)
    (h' : st.StoresAll rows' os') : st.StoresAll (rows ++ rows') (os ++ os') := by
  rw [storesAll_iff] at h h' ⊢
  exact List.rel_append h h'

/-- The children of an entry are all in one table, if its outlines are. -/
theorem Stores.descendantsIn_eq (h : st.Integral)
    (hs : st.Stores r (Outline.entry kind e os).kept) (w : Table) (hw : e.table = w)
    (hu : u ∈ project.childrenOf w) (hos : ∀ o ∈ os, o.table? = some u) :
    st.descendantsIn r t = (st.childrenIn r u).flatMap fun c =>
      st.descendantsIn c t ++ if u = t then [c] else [] := by
  rw [Outline.kept] at hs
  have htable : w = r.table := hw.symm.trans (Option.some.inj hs.table?_eq)
  refine h.descendantsIn_eq_of_table (htable ▸ hu) fun w _ hne c hc => ?_
  have hnone : os.filter (·.table? = some w) = ([] : List Outline).map id :=
    Outline.filter_eq_nil hos hne.symm
  rw [storesAll_nil_iff.mp (hs.below.storesAll_parts w hnone)] at hc
  cases hc

/-- The tables of what is tested about an identifier. -/
def testTables : List Table :=
  [.attributeValueTests, .attributeTests, .valueTests, .tests, .conjunctiveTests, .simpleTests,
    .disjunctionTests, .relationalTests, .singleTests, .constants]

/-- The tables of conditions and what is below them. -/
def conditionTables : List Table :=
  [.conditions, .positiveConditions, .conditionForOneIdentifiers] ++ testTables

/-- The tables of what is made of an attribute, or of a function call. -/
def makeTables : List Table :=
  [.attributeValueMakes, .rhsValues, .functionCalls, .valueMakes, .preferenceSpecifiers,
    .naturallyUnaryPreferences, .forcedUnaryPreferences, .binaryPreferences, .constants]

/-- The tables of actions and what is below them. -/
def actionTables : List Table := [.actions, .varAttrValMakes] ++ makeTables

mutual

/-- The rows below a part of a condition that hold tests of an identifier. -/
theorem storesAll_positiveIdentifiers (h : st.Integral) : ∀ {a : PositiveCondition} {r : Row}, a.Proper →
    st.Stores r a.outline.kept → st.StoresAll (st.descendantsIn r .conditionForOneIdentifiers)
      (a.identifiers.map fun i => i.outline.kept)
  | ⟨none, some conditions⟩, r, ha, hs => by
    -- A group holds conditions only, and the claim for all of them is the mutual one.
    have htables : ∀ o ∈ Condition.outlines conditions, o.table? = some .conditions := by
      rw [Condition.outlines_eq_map]
      exact List.forall_mem_map.mpr fun c _ => c.table?_outline
    have hparts : (Condition.outlines conditions).filter (·.table? = some .conditions) =
        conditions.map Condition.outline := by
      rw [Outline.filter_eq_self htables, Condition.outlines_eq_map]
    rw [hs.descendantsIn_eq h .positiveConditions rfl (by decide) htables]
    exact storesAll_allIdentifiers h ha (hs.below.storesAll_parts .conditions hparts)
  | ⟨some i, none⟩, r, ha, hs => by
    -- A single condition is the only child, with nothing of the kind below it.
    have htables : ∀ o ∈ [i.outline], o.table? = some .conditionForOneIdentifiers := by
      intro o ho
      rw [List.mem_singleton.mp ho]
      rfl
    have hparts : [i.outline].filter (·.table? = some .conditionForOneIdentifiers) =
        [i].map IdentifierCondition.outline := Outline.filter_eq_self htables
    have hrows := hs.below.storesAll_parts .conditionForOneIdentifiers hparts
    obtain ⟨c, rest, hc, hrest, hrow⟩ := storesAll_cons_iff.mp hrows
    have htable : Table.conditionForOneIdentifiers = c.table := Option.some.inj hc.table?_eq
    have hnone : st.descendantsIn c .conditionForOneIdentifiers = [] :=
      descendantsIn_eq_nil testTables (by rw [← htable]; decide) (by decide)
        (by decide)
    rw [hs.descendantsIn_eq h .positiveConditions rfl (by decide) htables, hrow, storesAll_nil_iff.mp hrest,
      List.flatMap_singleton, hnone, if_pos rfl]
    exact ⟨hc, trivial⟩
  | ⟨some _, some _⟩, _, ha, _ => ha.elim
  | ⟨none, none⟩, _, ha, _ => ha.elim

/-- The rows below a condition that hold tests of an identifier. -/
theorem storesAll_conditionIdentifiers (h : st.Integral) : ∀ {a : Condition} {r : Row}, a.Proper →
    st.Stores r a.outline.kept → st.StoresAll (st.descendantsIn r .conditionForOneIdentifiers)
      (a.identifiers.map fun i => i.outline.kept)
  | ⟨positive, negated⟩, r, ha, hs => by
    have htables : ∀ o ∈ [positive.outline], o.table? = some .positiveConditions := by
      simpa using positive.table?_outline
    have hparts : [positive.outline].filter (·.table? = some .positiveConditions) =
        [positive].map PositiveCondition.outline := Outline.filter_eq_self htables
    obtain ⟨c, rest, hc, hrest, hrow⟩ :=
      storesAll_cons_iff.mp (hs.below.storesAll_parts .positiveConditions hparts)
    rw [hs.descendantsIn_eq h .conditions rfl (by decide) htables, hrow, storesAll_nil_iff.mp hrest,
      List.flatMap_singleton, if_neg (by decide), List.append_nil]
    exact storesAll_positiveIdentifiers h ha hc

/-- The rows below several conditions that hold tests of an identifier. -/
theorem storesAll_allIdentifiers (h : st.Integral) : ∀ {conditions : List Condition} {rows : List Row},
    Condition.AllProper conditions → st.StoresAll rows (conditions.map fun c => c.outline.kept) →
      st.StoresAll (rows.flatMap fun c => st.descendantsIn c .conditionForOneIdentifiers ++ [])
        ((Condition.allIdentifiers conditions).map fun i => i.outline.kept)
  | [], rows, _, hs => by
    rw [storesAll_nil_iff.mp hs]
    trivial
  | a :: rest, rows, ha, hs => by
    obtain ⟨c, rows, hc, hrows, rfl⟩ := storesAll_cons_iff.mp hs
    rw [List.flatMap_cons, List.append_nil, Condition.allIdentifiers, List.map_append]
    exact (storesAll_conditionIdentifiers h ha.1 hc).append
      (storesAll_allIdentifiers h ha.2 hrows)

end

section Descendants

variable (h : st.Integral)

include h

/-- The row below an action that holds new attributes of an identifier, if there is one. -/
theorem storesAll_actionMakes {a : Action} (ha : a.Proper) (hs : st.Stores r a.outline.kept) :
    st.StoresAll (st.descendantsIn r .varAttrValMakes) (a.make.toList.map fun m => m.outline.kept) := by
  obtain ⟨_ | m, _ | call⟩ := a
  · exact ha.elim
  · -- A call holds no make anywhere.
    have htables : ∀ o ∈ [call.outline], o.table? = some .functionCalls := by
      simpa using call.table?_outline
    have hnone : ∀ c ∈ st.childrenIn r .functionCalls, st.descendantsIn c .varAttrValMakes = [] := by
      intro c hc
      exact descendantsIn_eq_nil makeTables
        (by rw [table_of_mem_childrenIn hc]; decide) (by decide) (by decide)
    rw [hs.descendantsIn_eq h .actions rfl (by decide) htables,
      List.flatMap_eq_nil_iff.mpr fun c hc => by rw [hnone c hc]; rfl]
    trivial
  · -- A make is the only child, with no other make below it.
    have htables : ∀ o ∈ [m.outline], o.table? = some .varAttrValMakes := by
      intro o ho
      rw [List.mem_singleton.mp ho]
      rfl
    have hparts : [m.outline].filter (·.table? = some .varAttrValMakes) =
        [m].map VariableMake.outline := Outline.filter_eq_self htables
    obtain ⟨c, rest, hc, hrest, hrow⟩ :=
      storesAll_cons_iff.mp (hs.below.storesAll_parts .varAttrValMakes hparts)
    have htable : Table.varAttrValMakes = c.table := Option.some.inj hc.table?_eq
    have hnone : st.descendantsIn c .varAttrValMakes = [] :=
      descendantsIn_eq_nil makeTables (by rw [← htable]; decide) (by decide)
        (by decide)
    rw [hs.descendantsIn_eq h .actions rfl (by decide) htables, hrow,
      storesAll_nil_iff.mp hrest, List.flatMap_singleton, hnone, if_pos rfl]
    exact ⟨hc, trivial⟩
  · exact ha.elim

/-- The rows below several actions that hold new attributes of an identifier. -/
theorem storesAll_makes {actions : List Action} {rows : List Row} (ha : ∀ a ∈ actions, a.Proper)
    (hs : st.StoresAll rows (actions.map fun a => a.outline.kept)) :
    st.StoresAll (rows.flatMap fun c => st.descendantsIn c .varAttrValMakes ++ [])
      ((actions.filterMap (·.make)).map fun m => m.outline.kept) := by
  induction actions generalizing rows with
  | nil =>
    rw [storesAll_nil_iff.mp hs]
    trivial
  | cons a rest ih =>
    rw [List.forall_mem_cons] at ha
    obtain ⟨c, rows, hc, hrows, rfl⟩ := storesAll_cons_iff.mp hs
    -- Only an action that makes something contributes to the list.
    have hsplit : ((a :: rest).filterMap (·.make)).map (fun m => m.outline.kept) =
        a.make.toList.map (fun m => m.outline.kept) ++
          (rest.filterMap (·.make)).map (fun m => m.outline.kept) := by
      rw [List.filterMap_cons]
      cases a.make <;> rfl
    rw [List.flatMap_cons, List.append_nil, hsplit]
    exact (storesAll_actionMakes h ha.1 hc).append (ih ha.2 hrows)

namespace StoresBelow

variable {p : Production} (htable : r.table = .rules) (hp : p.Proper)
  (hs : st.StoresBelow r (Outline.allKept p.parts))

include htable hp hs

/-- The rows below a rule that hold tests of an identifier come in the order of the text. -/
theorem storesAll_identifiers :
    st.StoresAll (st.descendantsIn r .conditionForOneIdentifiers)
      (p.identifiers.map fun i => i.outline.kept) := by
  have hparts : p.parts.filter (·.table? = some .conditions) = p.conditions.map Condition.outline :=
    Outline.filter_append_left (u := .actions) (List.forall_mem_map.mpr fun c _ => c.table?_outline)
      (List.forall_mem_map.mpr fun _ _ => rfl) (by decide)
  -- Identifiers hang below the conditions alone; the actions of the rule have none.
  have hdescendants := h.descendantsIn_eq_of_table (t := .conditionForOneIdentifiers)
    (u := .conditions) (by rw [htable]; decide) fun w hw hne c hc => by
      rw [htable] at hw
      have hbelow : ∀ w ∈ project.childrenOf .rules, w ≠ .conditions →
          w ≠ .conditionForOneIdentifiers ∧ ∀ u ∈ project.childrenOf w, u ∈ actionTables := by
        decide
      refine ⟨(hbelow w hw hne).1, descendantsIn_eq_nil actionTables ?_ (by decide)
        (by decide)⟩
      rw [table_of_mem_childrenIn hc]
      exact (hbelow w hw hne).2
  rw [hdescendants]
  exact storesAll_allIdentifiers h (Condition.allProper_iff.mpr hp.1)
    (hs.storesAll_parts .conditions hparts)

/-- The rows below a rule that hold new attributes of an identifier come in the order of the text. -/
theorem storesAll_makes :
    st.StoresAll (st.descendantsIn r .varAttrValMakes) (p.makes.map fun m => m.outline.kept) := by
  have hparts : p.parts.filter (·.table? = some .actions) = p.actions.map Action.outline :=
    Outline.filter_append_right (u := .conditions)
      (List.forall_mem_map.mpr fun c _ => c.table?_outline)
      (List.forall_mem_map.mpr fun _ _ => rfl) (by decide)
  -- Makes hang below the actions alone.
  have hdescendants := h.descendantsIn_eq_of_table (t := .varAttrValMakes) (u := .actions)
    (by rw [htable]; decide) fun w hw hne c hc => by
      rw [htable] at hw
      have hbelow : ∀ w ∈ project.childrenOf .rules, w ≠ .actions →
          w ≠ .varAttrValMakes ∧ ∀ u ∈ project.childrenOf w, u ∈ conditionTables := by
        decide
      refine ⟨(hbelow w hw hne).1, descendantsIn_eq_nil conditionTables ?_ (by decide)
        (by decide)⟩
      rw [table_of_mem_childrenIn hc]
      exact (hbelow w hw hne).2
  rw [hdescendants]
  exact Store.storesAll_makes h hp.2 (hs.storesAll_parts .actions hparts)

end StoresBelow

end Descendants

end Store

/-! ### Rules -/

section Rules

variable {p : Production} (h : st.Integral) (hr : st.Has r) (htable : r.table = .rules)
  (hp : p.Proper) (hs : st.StoresBelow r (Outline.allKept p.parts))

include h hr htable hp hs

/-- The variables that a rule binds to a state are found. -/
theorem finds_stateVariables : (stateVariables r).Finds st st.Fits (· = p.stateVariables) := by
  have hrows := hs.storesAll_identifiers h htable hp
  unfold stateVariables
  refine (Row.finds_descendants h hr).bind ?_
  rintro _ rfl
  refine (hrows.finds_mapM (g := fun i => if i.hasState then nonEmpty? i.variableName else none)
    fun i _ c hc => ?_).bind ?_
  · refine (hc.finds_column (v := .flag i.hasState) h.toSound .conditionForOneIdentifiers
      ("has_state", .integer) rfl (by decide) List.mem_cons_self).bind ?_
    rintro _ rfl
    rw [isTrue_flag]
    -- The flag and the variable were stored from the same condition.
    cases i.hasState with
    | true =>
      exact hc.finds_storedVariable? h.toSound .conditionForOneIdentifiers rfl (by decide)
        (List.mem_cons_of_mem _ List.mem_cons_self)
    | false => exact Query.Finds.pure rfl
  · rintro _ rfl
    refine Query.Finds.pure ?_
    rw [Production.stateVariables, List.reduceOption, List.filterMap_map, List.filterMap_filter]
    rfl

/-- The accesses of the conditions of a rule are found. -/
theorem finds_testTriplesBelow :
    (triplesBelow r .conditionForOneIdentifiers .attributeValueTests testTriples).Finds st st.Fits
      (· = p.identifiers.flatMap (·.accesses)) := by
  have hproper : ∀ i ∈ p.identifiers, i.Proper := Production.proper_of_mem_identifiers hp
  refine finds_storedTriples (Row.finds_descendants h hr) (hs.storesAll_identifiers h htable hp)
    (fun i _ c hc => hc.finds_storedVariable? h.toSound .conditionForOneIdentifiers rfl (by decide)
      (List.mem_cons_of_mem _ List.mem_cons_self)) fun i hi c hc subject => ?_
  obtain ⟨cs, hcs, hrows⟩ := hc.finds_parts h.toSound .attributeValueTests
    (Outline.filter_eq_self (List.forall_mem_map.mpr fun _ _ => rfl))
  refine ⟨cs, hcs, (hrows.finds_mapM fun a ha d hd =>
    finds_testTriples h (hproper i hi a ha) hd).mono ?_⟩
  rintro _ rfl
  exact List.flatMap_def.symm

/-- The accesses of the actions of a rule are found. -/
theorem finds_makeTriplesBelow :
    (triplesBelow r .varAttrValMakes .attributeValueMakes makeTriples).Finds st st.Fits
      (· = p.makes.flatMap (·.accesses)) := by
  have hproper : ∀ m ∈ p.makes, m.Proper := Production.proper_of_mem_makes hp
  refine finds_storedTriples (Row.finds_descendants h hr) (hs.storesAll_makes h htable hp)
    (fun m _ c hc => hc.finds_storedVariable? h.toSound .varAttrValMakes rfl (by decide)
      List.mem_cons_self) fun m hm c hc subject => ?_
  obtain ⟨cs, hcs, hrows⟩ := hc.finds_parts h.toSound .attributeValueMakes
    (Outline.filter_eq_self (List.forall_mem_map.mpr fun _ _ => rfl))
  refine ⟨cs, hcs, (hrows.finds_mapM fun a ha d hd =>
    finds_makeTriples h (hproper m hm a ha) hd).mono ?_⟩
  rintro _ rfl
  exact List.flatMap_def.symm

/-- The triples of a stored production are found. -/
theorem finds_productionTriples {v : View} (hv : v.row = r) :
    (extractTriples v).Finds st st.Fits fun found =>
      found.1 = .link p.triples ∧ found.2.row = r := by
  subst hv
  unfold extractTriples
  refine (finds_stateVariables h hr htable hp hs).bind ?_
  rintro _ rfl
  refine (finds_testTriplesBelow h hr htable hp hs).bind ?_
  rintro _ rfl
  refine (finds_makeTriplesBelow h hr htable hp hs).bind ?_
  rintro _ rfl
  refine ((View.finds_name h.toSound).mono_sure fun hfits => hfits.row hr).bind fun found hfound =>
    Query.Finds.pure ⟨?_, hfound⟩
  -- The comparison of triples agrees with the first of each access.
  have hdistinct := distinctTriples_eq_firstOfEach p.isText_of_mem_accesses
  rw [Production.accesses] at hdistinct
  rw [hdistinct]
  rfl

end Rules

/-- A proper production whose integers fit is stored below any rule without parts, and the triples that are
read off its rows are those of the production alone. -/
theorem extractTriples_storeProduction {s : Session} {v : View} {p : Production}
    (hopen : s.Opens true st) (h : st.Integral) (hr : st.Has v.row) (htable : v.row.table = .rules)
    (hbare : ∀ c, ¬ st.IsParent v.row c) (hp : p.Proper) (hfit : IntegersFit p.constants)
    (hroom : st.Room (Outline.sizes p.parts)) :
    ∃ s' v', (storeProduction v.row p).run.run s = (.ok (), s') ∧
      (extractTriples v).run s' = .ok (.link p.triples, v') := by
  obtain ⟨⟨⟩, s', st₁, hrun, hopen₁, hframes, hstores, hfits⟩ :=
    (ends_storeProduction_kept h hr htable hbare hp hfit hroom).exists_ok (fun _ hE => hE) hopen
  have hfound := finds_productionTriples hframes.integral hframes.has htable hp hstores (v := v) rfl
    true s' hopen₁
  -- A store that fits lets no query fail.
  cases hresult : (extractTriples v).run s' with
  | error e =>
    rw [hresult] at hfound
    exact absurd hfits hfound
  | ok found =>
    rw [hresult] at hfound
    obtain ⟨network, v'⟩ := found
    obtain rfl : network = .link p.triples := hfound.1
    exact ⟨s', v', hrun, hresult⟩

/-- A production with a path of three attributes that is written twice, a negated condition, a choice, several
tests with two variables and several without any. -/
def variedText : String :=
  "sp\x7bnew (state <s> ^io.in.top <i>) -(<i> ^size \x7b> 3 <n> <> <m>\x7d ^<a> 1)
    (<i> ^mass \x7b> 3 < 9\x7d ^hue << red 7 >>) --> (<s> ^io.in.top <i> ^done yes (f 2))\x7d"

/-- The triples of that production. -/
def variedTriples : List Triple :=
  [⟨"<s>", "io", .text "<s>*io", .identifier, true⟩,
    ⟨"<s>*io", "in", .text "<s>*io*in", .identifier, false⟩,
    ⟨"<s>*io*in", "top", .text "<i>", .identifier, false⟩,
    ⟨"<i>", "size", .text "<n>", .identifier, false⟩,
    ⟨"<i>", "mass", .text "3", .integer, false⟩,
    ⟨"<i>", "mass", .text "9", .integer, false⟩,
    ⟨"<i>", "hue", .text "red", .string, false⟩,
    ⟨"<i>", "hue", .text "7", .string, false⟩,
    ⟨"<s>", "done", .text "yes", .string, true⟩]

/-- A production is stored below the only rule of a store, and its triples are read. -/
theorem extractTriples_storeProduction_varied :
    ∃ p s' v', parseProduction variedText = .ok p ∧ p.triples = variedTriples ∧
      (storeProduction (.ofId .rules 1) p).run.run
        { registry := project, connection := .memory Store.bareRule } = (.ok (), s') ∧
      (extractTriples (Row.ofId .rules 1).view).run s' = .ok (.link variedTriples, v') := by
  -- Parsing is evaluated; storing and reading it back come from the theorem.
  have hparsed : ((parseProduction variedText).toOption.any fun p =>
      Outline.sizes p.parts < 200 && p.constants.all isExact && p.triples = variedTriples) = true := by
    decide +kernel
  obtain ⟨hstore, hrows⟩ := Store.integral_bareRule
  cases hparse : parseProduction variedText with
  | error e =>
    rw [hparse] at hparsed
    exact absurd hparsed Bool.false_ne_true
  | ok p =>
    rw [hparse] at hparsed
    obtain ⟨⟨hsize, hexact⟩, htriples⟩ : (Outline.sizes p.parts < 200 ∧
        p.constants.all isExact = true) ∧ p.triples = variedTriples := by
      simpa [Except.toOption] using hparsed
    -- A store with one rule leaves room for any production of this size.
    have hroom : Store.bareRule.Room (Outline.sizes p.parts) := by
      have hmax : maxInteger = 0x7fffffffffffffff := rfl
      have hid : ∀ t, ∀ record ∈ Store.bareRule.rows t, record.id = 1 := by
        rintro t record hrecord
        obtain ⟨-, rfl⟩ := (hrows t record).mp hrecord
        rfl
      refine ⟨fun t record hrecord => ?_, by omega, fun t record hrecord => ?_⟩
      · rw [hid t record hrecord]
        decide
      · have := hid t record hrecord
        omega
    -- Nothing hangs below the rule yet: it is the only record, and rules are not kept below rules.
    have hbare : ∀ c, ¬ Store.bareRule.IsParent (.ofId .rules 1) c := by
      rintro c ⟨hparent, -, record, hrecord, -⟩
      obtain ⟨htable, -⟩ := (hrows _ _).mp hrecord
      rw [htable] at hparent
      exact absurd hparent (by decide +kernel)
    obtain ⟨s', v', hrun, hread⟩ := extractTriples_storeProduction
      (s := { registry := project, connection := .memory Store.bareRule })
      (v := (Row.ofId .rules 1).view) ⟨rfl, rfl, rfl⟩ hstore
      (Store.has_ofId_of_mem ((hrows _ Store.savedRule).mpr ⟨rfl, rfl⟩)) rfl hbare
      (proper_of_parseProduction hparse) (areKept_of_isExact hexact).1 hroom
    exact ⟨p, s', v', rfl, htriples, hrun, htriples ▸ hread⟩

end SoarProject
