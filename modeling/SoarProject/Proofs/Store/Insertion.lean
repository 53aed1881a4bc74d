import SoarProject.Proofs.Session.Effect
import SoarProject.Proofs.Store.Contents

/-!
# New records

What the columns of a new record hold. The values for its columns are arranged, prepared and converted
before the record is made; `insert_eq_ok` says what becomes of each of them.
-/

namespace SoarProject

open Registry

variable {t : Table} {values : List (String × Value)} {c : String}

/-! ### Conversions -/

/-- Values are arranged in the order of columns. -/
theorem lookup_filterMap_names {α : Type} (find : String → Option α) (names : List String) :
    (names.filterMap fun c => (find c).map (c, ·)).lookup c =
      if c ∈ names then find c else none := by
  induction names with
  | nil => rfl
  | cons name names ih =>
    rw [List.filterMap_cons]
    -- The names may repeat, but each one finds the same.
    by_cases hc : c = name
    · subst hc
      cases hfind : find c with
      | none => simp [ih, hfind]
      | some a => simp
    · cases hfind : find name with
      | none => simp [ih, hc]
      | some a => simp [List.lookup_cons, ih, hc, beq_eq_false_iff_ne.mpr hc]

/-- What a lookup finds in a list whose values were converted one by one, under names that stay. -/
theorem lookup_of_mapM_eq_ok {α β : Type} {f : String → α → Except Failure β}
    {rename : String → String} {xs : List (String × α)} {ys : List (String × β)}
    (hrename : ∀ x ∈ xs, rename x.1 = x.1)
    (h : xs.mapM (fun (c, a) => return (rename c, ← f c a)) = .ok ys) :
    (xs.lookup c = none → ys.lookup c = none) ∧
      ∀ a, xs.lookup c = some a → ∃ b, f c a = .ok b ∧ ys.lookup c = some b := by
  induction xs generalizing ys with
  | nil =>
    cases h
    simp
  | cons x xs ih =>
    obtain ⟨name, a⟩ := x
    rw [List.mapM_cons] at h
    obtain ⟨y, hy, h⟩ := exceptBind_eq_ok.mp h
    obtain ⟨b, hb, hy⟩ := exceptBind_eq_ok.mp hy
    obtain ⟨ys', hys', h⟩ := exceptBind_eq_ok.mp h
    cases hy
    cases h
    rw [List.lookup_cons, List.lookup_cons, hrename (name, a) List.mem_cons_self]
    -- The first of that name, or one further on.
    by_cases hc : c = name
    · subst hc
      simp [hb]
    · simpa [beq_eq_false_iff_ne.mpr hc] using
        ih (fun x hx => hrename x (List.mem_cons_of_mem _ hx)) hys'

/-- What a lookup finds among cells that were made from values. -/
theorem lookup_of_toCells_eq_ok {cells : List (String × Cell)}
    (h : Store.toCells values = .ok cells) :
    (values.lookup c = none → cells.lookup c = none) ∧
      ∀ v, values.lookup c = some v →
        ∃ place cell, v.toCell place = .ok cell ∧ cells.lookup c = some cell := by
  obtain ⟨converted, hconverted, hcells⟩ := exceptBind_eq_ok.mp h
  cases hcells
  clear h
  -- The place of a value is its position; it counts on from wherever the list begins.
  unfold Value.toCells at hconverted
  generalize 0 = start at hconverted
  induction values generalizing converted start with
  | nil => simp
  | cons x values ih =>
    obtain ⟨name, v⟩ := x
    rw [List.map_cons, List.zipIdx_cons, List.mapM_cons] at hconverted
    obtain ⟨cell, hcell, hconverted⟩ := exceptBind_eq_ok.mp hconverted
    obtain ⟨rest, hrest, hconverted⟩ := exceptBind_eq_ok.mp hconverted
    cases hconverted
    rw [List.map_cons, List.zip_cons_cons, List.lookup_cons, List.lookup_cons]
    by_cases hc : c = name
    · subst hc
      simpa using ⟨_, hcell⟩
    · simpa [beq_eq_false_iff_ne.mpr hc] using ih rest (start + 1) hrest

/-- What a lookup finds among the cells of a new record. -/
theorem lookup_newCells {columns : List Column} {cells : List (String × Cell)} :
    (Store.newCells columns cells).lookup c =
      (columns.find? (·.name == c)).map fun column =>
        column.type.store ((cells.lookup c).getD .null) := by
  induction columns with
  | nil => rfl
  | cons column columns ih =>
    rw [Store.newCells, List.map_cons, List.lookup_cons, List.find?_cons]
    by_cases hc : c = column.name
    · simp [hc]
    · rw [beq_eq_false_iff_ne.mpr hc, beq_eq_false_iff_ne.mpr (Ne.symm hc)]
      exact ih

/-! ### Inserting -/

/-- A record whose columns were made from values; of several values for a column the last one counts. -/
def Record.MadeFrom (r : Record) (t : Table) (values : List (String × Value)) : Prop :=
  ∀ c type, c ≠ "id" → project.columnType? t c = some type →
    (values.reverse.lookup c = none → r.get c = type.store .null) ∧
      ∀ v, values.reverse.lookup c = some v → ∃ prepared place cell,
        type.prepare v = .ok prepared ∧ prepared.toCell place = .ok cell ∧ r.get c = type.store cell

/-- A column with a type is a column of its table. -/
theorem mem_columnNamesOf_of_columnType? {type : StoredType}
    (h : project.columnType? t c = some type) : c ∈ project.columnNamesOf t := by
  unfold columnType? at h
  split at h
  · next hid => exact hid ▸ List.mem_cons_self
  · obtain ⟨column, hcolumn, -⟩ := Option.map_eq_some_iff.mp h
    have hname := List.find?_some hcolumn
    exact List.mem_cons_of_mem _ (List.mem_map.mpr
      ⟨column, List.mem_of_find?_eq_some hcolumn, eq_of_beq hname⟩)

/-- What a lookup finds among prepared values. -/
theorem lookup_of_prepare_eq_ok {prepared : List (String × Value)}
    (h : project.prepare t values = .ok prepared) (hc : c ∈ project.columnNamesOf t) :
    (values.reverse.lookup c = none → prepared.lookup c = none) ∧
      ∀ v, values.reverse.lookup c = some v →
        ∃ v', ((project.columnType? t c).getD .text).prepare v = .ok v' ∧
          prepared.lookup c = some v' := by
  -- The names are column names, which denote themselves.
  have hname : ∀ x ∈ project.arrange t values, Identifier.denoted x.1 = x.1 := by
    intro x hx
    obtain ⟨name, hname, hx⟩ := List.mem_filterMap.mp hx
    obtain ⟨v, -, rfl⟩ := Option.map_eq_some_iff.mp hx
    exact denoted_of_mem_columnNamesOf hname
  have harranged : (project.arrange t values).lookup c = values.reverse.lookup c := by
    rw [arrange, lookup_filterMap_names, if_pos hc]
  rw [← harranged]
  exact lookup_of_mapM_eq_ok (f := fun c v => ((project.columnType? t c).getD .text).prepare v)
    hname h

/-- A new record is made from the values that it was prepared from. -/
theorem madeFrom_of_prepare {prepared : List (String × Value)} {cells : List (String × Cell)}
    (hprepared : project.prepare t values = .ok prepared)
    (hcells : Store.toCells prepared = .ok cells) (id : Int) :
    Record.MadeFrom ⟨id, Store.newCells (project.columnsOf t) cells⟩ t values := by
  intro c type hid htype
  have hc := mem_columnNamesOf_of_columnType? htype
  have hfound := lookup_of_prepare_eq_ok hprepared hc
  have hget : Record.get ⟨id, Store.newCells (project.columnsOf t) cells⟩ c =
      type.store ((cells.lookup c).getD .null) := by
    rw [columnType?, if_neg hid] at htype
    obtain ⟨column, hcolumn, rfl⟩ := Option.map_eq_some_iff.mp htype
    rw [Record.get, if_neg hid, lookup_newCells, hcolumn]
    rfl
  rw [hget]
  -- A column without a value is null, and one with a value holds what was made of it.
  constructor
  · intro hnone
    rw [(lookup_of_toCells_eq_ok hcells).1 (hfound.1 hnone)]
    rfl
  · intro v hv
    obtain ⟨v', hv', hlookup⟩ := hfound.2 v hv
    obtain ⟨place, cell, hcell, hlookup⟩ := (lookup_of_toCells_eq_ok hcells).2 v' hlookup
    rw [htype] at hv'
    exact ⟨v', place, cell, hv', hcell, by rw [hlookup]; rfl⟩

/-- A record has a cell for each column of a table. -/
def Record.Fills (r : Record) (t : Table) : Prop :=
  r.cells.map (·.1) = (project.columnsOf t).map (·.name)

/-- A new record has all cells. -/
theorem fills_newCells (id : Int) (cells : List (String × Cell)) :
    Record.Fills ⟨id, Store.newCells (project.columnsOf t) cells⟩ t := by
  rw [Record.Fills, Store.newCells, List.map_map]
  rfl

/-- What a column keeps of a value that it neither refuses nor converts. -/
def Value.cell : Value → Cell
  | .bool b => .int (if b then 1 else 0)
  | .int n => .int n
  | .float x => .real x
  | .text s => .text s
  | _ => .null

/-- A column keeps a value as it is. -/
def StoredType.Keeps (type : StoredType) (v : Value) : Prop :=
  type.prepare v = .ok v ∧ (∀ place, v.toCell place = .ok v.cell) ∧ type.store v.cell = v.cell

/-- The columns of a table keep some values as they are. -/
def Table.Keeps (t : Table) (values : List (String × Value)) : Prop :=
  ∀ v ∈ values, ∃ type, project.columnType? t v.1 = some type ∧ type.Keeps v.2

/-- What is put into a column for a value: there is no cell for what is not a number. -/
def Value.bound : Value → Cell
  | .float x => if x.isNaN then .null else .real x
  | v => v.cell

/-- A column takes a value, which it may convert. -/
def StoredType.Takes (type : StoredType) (v : Value) : Prop :=
  type.prepare v = .ok v ∧ ∀ place, v.toCell place = .ok v.bound

/-- The columns of a table take some values. -/
def Table.Takes (t : Table) (values : List (String × Value)) : Prop :=
  ∀ v ∈ values, ∃ type, project.columnType? t v.1 = some type ∧ type.Takes v.2

/-- The columns of a table prepare some values as they are. -/
def Table.Prepares (t : Table) (values : List (String × Value)) : Prop :=
  ∀ v ∈ values, ∃ type, project.columnType? t v.1 = some type ∧ type.prepare v.2 = .ok v.2

/-- The columns of a table prepare what they take. -/
theorem Table.Takes.prepares (h : t.Takes values) : t.Prepares values := fun v hv => by
  obtain ⟨type, htype, htakes⟩ := h v hv
  exact ⟨type, htype, htakes.1⟩

/-- What a value is bound as if there is a cell for it. -/
theorem Value.eq_bound_of_toCell {v : Value} {place : Nat} {cell : Cell}
    (h : v.toCell place = .ok cell) : cell = v.bound := by
  cases v with
  | int n =>
    rw [toCell] at h
    split at h <;> cases h
    rfl
  | list | dictionary | part => cases h
  | _ => exact (Except.ok.inj h).symm

/-- A column takes what it keeps. -/
theorem StoredType.Keeps.takes {type : StoredType} {v : Value} (h : type.Keeps v) : type.Takes v :=
  ⟨h.1, fun place => (Value.eq_bound_of_toCell (h.2.1 place)) ▸ h.2.1 place⟩

/-- The columns of a table take what they keep. -/
theorem Table.Keeps.takes (h : t.Keeps values) : t.Takes values := fun v hv => by
  obtain ⟨type, htype, hkeeps⟩ := h v hv
  exact ⟨type, htype, hkeeps.takes⟩

/-- A column of floating-point numbers takes any of them. -/
theorem StoredType.takes_float {x : Float} : StoredType.float.Takes (.float x) :=
  ⟨rfl, fun _ => rfl⟩

/-- A value for a column of its type. A number may be too large, or may be converted. -/
def StoredType.Matches : StoredType → Value → Prop
  | .integer, .int _ | .float, .float _ | .text, .text _ => True
  | _, _ => False

/-- A column prepares values of its type as they are. -/
theorem StoredType.Matches.prepare {type : StoredType} {v : Value} (h : type.Matches v) :
    type.prepare v = .ok v := by
  cases type <;> cases v <;> first | exact h.elim | rfl

/-- What a column of its type keeps of a value that it takes: floating-point numbers may be converted. -/
def Value.kept : Value → Value
  | .float x => (StoredType.float.store (Value.float x).bound).toValue
  | v => v

/-- A cell is what is kept of its value. -/
theorem Cell.cell_toValue (c : Cell) : c.toValue.cell = c := by
  cases c <;> rfl

/-- What is stored for a value in a column of its type. -/
theorem StoredType.Matches.store_bound {type : StoredType} {v : Value} (h : type.Matches v) :
    type.store v.bound = v.kept.cell := by
  cases type <;> cases v <;> try exact h.elim
  · rfl
  · exact (Cell.cell_toValue _).symm
  · rfl

theorem StoredType.keeps_int {n : Int} (h : fitsInteger n = true) :
    StoredType.integer.Keeps (.int n) := by
  refine ⟨rfl, fun _ => ?_, rfl⟩
  rw [Value.toCell, if_pos h]
  rfl

theorem StoredType.keeps_text {s : String} :
    StoredType.text.Keeps (.text s) ∧ StoredType.name.Keeps (.text s) :=
  ⟨⟨rfl, fun _ => rfl, rfl⟩, ⟨rfl, fun _ => rfl, rfl⟩⟩

/-- A column takes values of its type, if integers fit. -/
theorem StoredType.Matches.takes {type : StoredType} {v : Value} (h : type.Matches v)
    (hfits : ∀ n, v = .int n → fitsInteger n = true) : type.Takes v := by
  cases type <;> cases v <;> try exact h.elim
  · exact (keeps_int (hfits _ rfl)).takes
  · exact takes_float
  · exact keeps_text.1.takes

theorem StoredType.store_null (type : StoredType) : type.store .null = .null := by
  cases type <;> rfl

theorem Record.MadeFrom.get_eq_null {r : Record} (h : r.MadeFrom t values) {type : StoredType}
    (hc : c ≠ "id") (htype : project.columnType? t c = some type)
    (hnone : values.reverse.lookup c = none) : r.get c = .null := by
  rw [(h c type hc htype).1 hnone, type.store_null]

/-- A record holds what its columns make of the values that they take. -/
theorem Record.MadeFrom.get_eq_store {r : Record} (h : r.MadeFrom t values) {type : StoredType}
    (hc : c ≠ "id") (htype : project.columnType? t c = some type) {v : Value} (htakes : type.Takes v)
    (hv : values.reverse.lookup c = some v) : r.get c = type.store v.bound := by
  obtain ⟨prepared, place, cell, hprepared, hplaced, hget⟩ := (h c type hc htype).2 v hv
  rw [htakes.1] at hprepared
  cases hprepared
  rw [hget, Value.eq_bound_of_toCell hplaced]

/-- What is arranged for the columns of a table are some of the values. -/
theorem mem_of_mem_arrange {r : Registry} {x : String × Value} (hx : x ∈ r.arrange t values) :
    x ∈ values ∧ x.1 ∈ r.columnNamesOf t := by
  obtain ⟨name, hname, hx⟩ := List.mem_filterMap.mp hx
  obtain ⟨v, hv, rfl⟩ := Option.map_eq_some_iff.mp hx
  exact ⟨List.mem_reverse.mp (mem_of_lookup_eq_some hv), hname⟩

/-- Values are prepared as they are if the columns of any registry do so and are kept under their names. -/
theorem prepare_eq_arrange {r : Registry} (h : ∀ v ∈ values,
    ((r.columnType? t v.1).getD .text).prepare v.2 = .ok v.2 ∧ Identifier.denoted v.1 = v.1) :
    r.prepare t values = .ok (r.arrange t values) := by
  have hall := fun x hx => h x (mem_of_mem_arrange (r := r) (t := t) hx).1
  unfold prepare
  generalize r.arrange t values = arranged at hall
  induction arranged with
  | nil => rfl
  | cons x rest ih =>
    obtain ⟨hprepare, hname⟩ := hall x List.mem_cons_self
    rw [List.mapM_cons, ih fun y hy => hall y (List.mem_cons_of_mem _ hy)]
    simp only [hprepare, hname]
    rfl

theorem prepare_eq_ok (h : t.Prepares values) :
    project.prepare t values = .ok (project.arrange t values) := by
  refine prepare_eq_arrange fun v hv => ?_
  obtain ⟨type, htype, hprepare⟩ := h v hv
  rw [htype]
  exact ⟨hprepare, denoted_of_mem_columnNamesOf (mem_columnNamesOf_of_columnType? htype)⟩

/-- Values that have cells are turned into them. -/
theorem toCells_eq_ok (h : ∀ v ∈ values, ∀ place, v.2.toCell place = .ok v.2.bound) :
    Store.toCells values = .ok (values.map fun v => (v.1, v.2.bound)) := by
  -- The place counts on along the list, so the induction is for every start.
  have hcells : ∀ start, ((values.map (·.2)).zipIdx start).mapM (fun x => x.1.toCell (x.2 + 1)) =
      .ok (values.map (·.2.bound)) := by
    induction values with
    | nil => exact fun _ => rfl
    | cons x rest ih =>
      intro start
      rw [List.map_cons, List.zipIdx_cons, List.mapM_cons,
        ih (fun v hv => h v (List.mem_cons_of_mem _ hv)) (start + 1)]
      simp only [h x List.mem_cons_self]
      rfl
  have htoCells : Value.toCells (values.map (·.2)) = .ok (values.map (·.2.bound)) := hcells 0
  rw [Store.toCells, htoCells]
  change Except.ok _ = _
  rw [List.zip_map']

/-- Values that are taken can be inserted where the next id is free. -/
theorem Store.Shaped.exists_insert {s : Store} (h : s.Shaped) (htakes : t.Takes values)
    (hid : values.reverse.lookup "id" = none)
    (hfree : ∀ record ∈ s.rows t, record.id ≠ nextId (s.rows t)) :
    ∃ r, s.insert (.entity t) (project.arrange t values) = .ok r := by
  have hall : ∀ x ∈ project.arrange t values, x.1 ∈ project.columnNamesOf t ∧
      ∀ place, x.2.toCell place = .ok x.2.bound := by
    intro x hx
    obtain ⟨hvalue, hname⟩ := mem_of_mem_arrange hx
    obtain ⟨type, -, -, hcell⟩ := htakes x hvalue
    exact ⟨hname, hcell⟩
  -- Each step of the insertion succeeds: the cells, the columns, the id.
  obtain ⟨cells, hcells⟩ : ∃ cells, toCells (project.arrange t values) = .ok cells :=
    ⟨_, toCells_eq_ok fun x hx => (hall x hx).2⟩
  have hknown : (project.arrange t values).find? (fun x =>
      ((Relation.records (project.columnsOf t) (s.rows t)).columnType? x.1).isNone) = none := by
    rw [List.find?_eq_none]
    intro x hx
    rw [columnType?_records, Option.isNone_iff_eq_none]
    exact Option.isSome_iff_ne_none.mp (columnType?_isSome (hall x hx).1)
  have hnew : cells.lookup "id" = none := by
    refine (lookup_of_toCells_eq_ok hcells).1 ?_
    rw [arrange, lookup_filterMap_names, hid, ite_self]
  have hunused : (s.rows t).any (·.id == nextId (s.rows t)) = false := by
    simpa using hfree
  let record : Record := ⟨nextId (s.rows t), newCells (project.columnsOf t) cells⟩
  refine ⟨(s.setRows t (insertRecord record (s.rows t)), record.id), ?_⟩
  rw [Store.insert, h.relation_entity]
  refine exceptBind_eq_ok.mpr ⟨_, rfl, ?_⟩
  dsimp only
  rw [hknown]
  refine exceptBind_eq_ok.mpr ⟨cells, hcells, ?_⟩
  refine exceptBind_eq_ok.mpr ⟨record.id, ?_, ?_⟩
  · rw [hnew]
    rfl
  · rw [hunused]
    rfl

/-- A record that is inserted without an id gets the next one. -/
theorem Store.Shaped.insert_eq_ok {s : Store} (h : s.Shaped) {s' : Store} {id : Int}
    (hs : s.insert (.entity t) values = .ok (s', id)) (hid : values.lookup "id" = none) :
    ∃ cells, Store.toCells values = .ok cells ∧ id = nextId (s.rows t) ∧
      s' = s.setRows t
        (insertRecord ⟨id, Store.newCells (project.columnsOf t) cells⟩ (s.rows t)) := by
  rw [Store.insert, h.relation_entity] at hs
  obtain ⟨_, ⟨⟩, hs⟩ := exceptBind_eq_ok.mp hs
  dsimp only at hs
  split at hs
  · cases hs
  · obtain ⟨cells, hcells, hs⟩ := exceptBind_eq_ok.mp hs
    obtain ⟨new, hnew, hs⟩ := exceptBind_eq_ok.mp hs
    -- No id is given, so the next one is taken.
    rw [(lookup_of_toCells_eq_ok hcells).1 hid] at hnew
    cases hnew
    refine ⟨cells, hcells, ?_⟩
    split at hs
    · cases hs
    · cases hs
      exact ⟨rfl, rfl⟩

/-- Inserting a record ends with the next id for it, and with its columns made from the values. It
succeeds if the columns take the values. -/
theorem Change.Ends.insert {w : Bool} {st : Store} {Q : Int → Store → Prop} {E : Store → Prop}
    (hshaped : st.Shaped) (hid : values.reverse.lookup "id" = none)
    (hQ : ∀ r : Record, r.id = nextId (st.rows t) → r.MadeFrom t values → r.Fills t →
      Q r.id (st.setRows t (insertRecord r (st.rows t))))
    (hE : ¬ (w = true ∧ t.Takes values ∧ ∀ r ∈ st.rows t, r.id ≠ nextId (st.rows t)) → E st) :
    (Change.insert t values).Ends w st Q E := by
  unfold Change.insert
  refine Change.Ends.registry (Change.Ends.mutate ?_ fun hfailed => hE ?_)
  · intro st' id _ hinserted
    dsimp only at hinserted
    split at hinserted
    · cases hinserted
    · obtain ⟨prepared, hprepared, hinserted⟩ := exceptBind_eq_ok.mp hinserted
      have hprepared' := (lookup_of_prepare_eq_ok hprepared List.mem_cons_self).1 hid
      obtain ⟨cells, hcells, rfl, rfl⟩ := hshaped.insert_eq_ok hinserted hprepared'
      exact hQ ⟨_, _⟩ rfl (madeFrom_of_prepare hprepared hcells _) (fills_newCells _ _)
  · -- If it fails although it may write, some value was not taken.
    rintro ⟨hwritable, htakes, hfree⟩
    rcases hfailed with hreadonly | ⟨e, he⟩
    · exact Bool.false_ne_true (hreadonly.symm.trans hwritable)
    · have hknown : (values.any fun x => (project.columnType? t x.1).isNone) = false := by
        rw [List.any_eq_false]
        intro x hx
        obtain ⟨type, htype, -⟩ := htakes x hx
        simp [htype]
      obtain ⟨r, hr⟩ := hshaped.exists_insert htakes hid hfree
      dsimp only at he
      rw [hknown, prepare_eq_ok htakes.prepares] at he
      cases hr.symm.trans he

/-- Nothing is inserted in a session that may not be changed. -/
theorem Change.ends_insert_readOnly {st : Store} :
    (Change.insert t values).Ends false st (fun _ _ => False) (· = st) := by
  unfold Change.insert
  exact Change.Ends.registry (Change.Ends.mutate (fun _ _ hwritable => absurd hwritable (by decide))
    fun _ => rfl)

end SoarProject
