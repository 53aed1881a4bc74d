import SoarProject.Proofs.Store.Growth

/-!
# Changing columns

Giving a row another name, or another value in an attribute, leaves all rows with their keys and joins.
A view stays one of its row, whatever it remembers.

* `Store.Renews`: what stays as it is.
* `Store.setCell`: what a value that its column keeps makes of a store.
* `View.ends_updateAll`: what a change of columns through a view depends on.
* `View.ends_update`, `View.ends_rename`: a change through a view.
* `View.ends_update_kept`: a change to a value that its column keeps.
* `View.finds_name`: looking at the name through a view.
* `ViewChange.ends_update`, `ViewChange.ends_rename`, `ViewChange.ends_name`: the same as changes through a
  view that is kept.
-/

namespace SoarProject

open Registry

variable {w : Bool} {st st' : Store} {r p c : Row} {t : Table} {v : View} {column : String}

/-- Cells that are set leave those in other columns. -/
theorem Record.get_set {record : Record} {cells : List (String × Cell)}
    (h : cells.lookup column = none) : (record.set cells).get column = record.get column := by
  unfold get set
  split
  · rfl
  · rw [lookup_map_value (fun name old => (cells.lookup name).getD old)]
    cases record.cells.lookup column <;> simp [h]

namespace Store

/-- Columns other than ids and keys are changed. -/
structure Renews (st st' : Store) : Prop where
  integral : st'.Integral
  has_iff : ∀ r, st'.Has r ↔ st.Has r
  isParent_iff : ∀ p c, st'.IsParent p c ↔ st.IsParent p c
  pairs_eq : ∀ n, st'.pairsOf n = st.pairsOf n

theorem Renews.refl (h : st.Integral) : st.Renews st where
  integral := h
  has_iff _ := Iff.rfl
  isParent_iff _ _ := Iff.rfl
  pairs_eq _ := rfl

theorem Renews.trans {st'' : Store} (h : st.Renews st') (h' : st'.Renews st'') : st.Renews st'' where
  integral := h'.integral
  has_iff r := (h'.has_iff r).trans (h.has_iff r)
  isParent_iff p c := (h'.isParent_iff p c).trans (h.isParent_iff p c)
  pairs_eq n := (h'.pairs_eq n).trans (h.pairs_eq n)

/-- Records change apart from their ids and keys. -/
theorem Integral.renews_mapRows (h : st.Integral) (f : Record → Record)
    (hid : ∀ record, (f record).id = record.id)
    (hkeys : ∀ record, ∀ p ∈ project.parentsOf t, (f record).get p.idName = record.get p.idName) :
    st.Renews (st.setRows t ((st.rows t).map f)) where
  integral := h.mapRows f (fun record _ => hid record) fun record _ => hkeys record
  has_iff r := by
    -- Ids are kept, so the same rows exist.
    simp only [Has, h.shaped.rows_setRows]
    split
    · next ht => simp [hid, ht]
    · rfl
  isParent_iff p c := by
    -- Keys are kept too, so each row has the parents it had.
    simp only [IsParent, h.shaped.rows_setRows]
    split
    · next ht =>
      rw [ht]
      refine and_congr_right fun hp => and_congr_right fun _ => ?_
      simp [hid, hkeys _ _ hp]
    · rfl
  pairs_eq _ := h.shaped.pairsOf_setRows _

end Store

/-- Changing columns of a record gives each record its place, and leaves the other columns. -/
theorem Store.Shaped.exists_map_of_updateRecord (h : st.Shaped) {key : Cell}
    {values prepared : List (String × Value)} (hprepared : project.prepare t values = .ok prepared)
    (hupdated : st.updateRecord t key prepared = .ok st') :
    ∃ f : Record → Record, st' = st.setRows t ((st.rows t).map f) ∧
      (∀ record, (f record).id = record.id ∧ (f record).cells.map (·.1) = record.cells.map (·.1)) ∧
      ∀ c ∈ project.columnNamesOf t, (∀ v ∈ values, v.1 ≠ c) → ∀ record, (f record).get c = record.get c := by
  obtain ⟨stored, hstored, rfl⟩ := h.updateRecord_eq_ok hupdated
  refine ⟨_, rfl, fun record => ?_, fun c hc hother record => ?_⟩
  · split
    · refine ⟨rfl, ?_⟩
      rw [Record.set, List.map_map]
      rfl
    · exact ⟨rfl, rfl⟩
  · -- No other column is among those that were prepared.
    have hnone : prepared.lookup c = none := by
      refine (lookup_of_prepare_eq_ok hprepared hc).1 (List.lookup_eq_none_iff.mpr fun v hv => ?_)
      exact bne_iff_ne.mpr (hother v (List.mem_reverse.mp hv)).symm
    split
    · refine Record.get_set (List.lookup_eq_none_iff.mpr fun x hx => bne_iff_ne.mpr ?_)
      rintro hname
      obtain ⟨y, hy, hyname⟩ := List.mem_map.mp (hstored x hx)
      have := List.lookup_eq_none_iff.mp hnone y hy
      rw [hyname, ← hname] at this
      exact bne_iff_ne.mp this rfl
    · rfl

/-- Prepared attributes are stored; no key is. -/
theorem Store.Integral.renews_updateRecord (h : st.Integral) {key : Cell}
    {values prepared : List (String × Value)} (hplain : ∀ v ∈ values, IsAttribute v.1)
    (hprepared : project.prepare t values = .ok prepared)
    (hupdated : st.updateRecord t key prepared = .ok st') : st.Renews st' := by
  obtain ⟨f, rfl, hid, hkept⟩ := h.shaped.exists_map_of_updateRecord hprepared hupdated
  refine h.renews_mapRows f (fun record => (hid record).1) fun record p hp => ?_
  exact hkept _ (mem_columnNamesOf_of_columnType? (columnType?_idName hp))
    (fun v hv => (hplain v hv).ne_idName p) record

/-! ### Values that are kept -/

/-- Put a cell into a column of a row. -/
def Store.setCell (st : Store) (r : Row) (column : String) (cell : Cell) : Store :=
  st.setRows r.table ((st.rows r.table).map fun record =>
    if r.id.identifies (.int record.id) then record.set [(column, cell)] else record)

/-- Putting a cell into an attribute leaves all rows with their keys and joins. -/
theorem Store.Integral.renews_setCell (h : st.Integral) (hcolumn : IsAttribute column) (cell : Cell) :
    st.Renews (st.setCell r column cell) := by
  refine h.renews_mapRows _ (fun record => ?_) fun record p _ => ?_
  · split <;> rfl
  · split
    · refine Record.get_set ?_
      simp [List.lookup_cons, beq_eq_false_iff_ne.mpr (hcolumn.ne_idName p).symm]
    · rfl

/-- A single value is arranged as it is. -/
theorem arrange_singleton {value : Value} (h : column ∈ project.columnNamesOf t) :
    project.arrange t [(column, value)] = [(column, value)] := by
  have hnodup := nodup_columnNamesOf t
  unfold arrange
  generalize project.columnNamesOf t = names at h hnodup
  induction names with
  | nil => exact absurd h List.not_mem_nil
  | cons name names ih =>
    rw [List.nodup_cons] at hnodup
    -- The column occurs once, so the names behind it find nothing.
    by_cases hname : name = column
    · subst hname
      have hnone : ∀ other ∈ names, [(name, value)].reverse.lookup other = none := by
        intro other hother
        have hne : other ≠ name := fun heq => hnodup.1 (heq ▸ hother)
        simp [List.lookup_cons, beq_eq_false_iff_ne.mpr hne]
      have hrest : names.filterMap (fun other =>
          ([(name, value)].reverse.lookup other).map (other, ·)) = [] := by
        rw [List.filterMap_eq_nil_iff]
        intro other hother
        rw [hnone other hother]
        rfl
      rw [List.filterMap_cons, hrest]
      simp
    · have hmem := (List.mem_cons.mp h).resolve_left (Ne.symm hname)
      have hnone : [(column, value)].reverse.lookup name = none := by
        simp [List.lookup_cons, beq_eq_false_iff_ne.mpr hname]
      rw [List.filterMap_cons, hnone]
      exact ih hmem hnodup.2

/-- A value that its column keeps is put into the column. -/
theorem Store.Shaped.updateRecord_eq (h : st.Shaped) (hfits : r.Fits) {type : StoredType}
    (htype : project.columnType? r.table column = some type) {value : Value}
    (hkeeps : type.Keeps value) :
    st.updateRecord r.table r.id [(column, value)] = .ok (st.setCell r column value.cell) := by
  obtain ⟨-, hcell, hstore⟩ := hkeeps
  have hfound : (Relation.records (project.columnsOf r.table) (st.rows r.table)).columnType? column =
      some type := htype
  have hcells : toCells [(column, value)] = .ok [(column, value.cell)] := by
    simp only [toCells, Value.toCells, List.map_cons, List.map_nil, List.zipIdx_cons, List.zipIdx_nil,
      List.mapM_cons, List.mapM_nil, hcell]
    rfl
  rw [updateRecord, h.relation_entity]
  refine exceptBind_eq_ok.mpr ⟨_, rfl, ?_⟩
  -- The column exists and takes the value, so no check of the update fails.
  rw [List.find?_cons_of_neg (by simp [hfound]), List.find?_nil]
  refine exceptBind_eq_ok.mpr ⟨_, hcells, exceptBind_eq_ok.mpr ⟨(), checkKey_eq_ok hfits, ?_⟩⟩
  simp only [List.map_cons, List.map_nil, hfound, Option.getD_some, hstore]
  rfl

namespace View

/-- A view once columns were changed through it: a name that was changed is not remembered. -/
def after (v : View) (columns : List String) : View := if "name" ∈ columns then v.row.view else v

/-- A view stays one of its row. -/
@[simp]
theorem row_after (v : View) (columns : List String) : (v.after columns).row = v.row := by
  unfold after
  split <;> rfl

/-- Changing columns gives what the store makes of them, unless one is not there or refuses its value. -/
theorem ends_updateAll {columns : List String} {values : List Value} {Q : View → Store → Prop}
    {E : Store → Prop} (hnone : columns = [] → Q v st)
    (hQ : ∀ prepared st', project.prepare v.row.table (columns.zip values) = .ok prepared →
      st.updateRecord v.row.table v.row.id prepared = .ok st' → Q (v.after columns) st')
    (hE : ¬ (w = true ∧ columns.length = values.length ∧
      (∀ c ∈ columns, c ≠ "id" ∧ c ≠ Row.idParameter ∧ (project.columnType? v.row.table c).isSome) ∧
      ∃ prepared st', project.prepare v.row.table (columns.zip values) = .ok prepared ∧
        st.updateRecord v.row.table v.row.id prepared = .ok st') → E st) :
    (v.updateAll columns values).Ends w st Q E := by
  unfold updateAll
  by_cases hlength : columns.length = values.length
  -- The checks come in the order of the code: lengths, no columns at all, unknown columns.
  swap
  · rw [if_pos hlength]
    exact Change.Ends.bind (Change.Ends.throw (hE fun hsure => hlength hsure.2.1))
  rw [if_neg (not_not.mpr hlength)]
  by_cases hempty : columns = []
  · subst hempty
    exact Change.Ends.pure (hnone rfl)
  rw [if_neg (by simpa using hempty)]
  refine Change.Ends.registry ?_
  cases hfound : columns.find? fun c => c = "id" ∨ (project.columnType? v.row.table c).isNone with
  | some c =>
    refine Change.Ends.bind (Change.Ends.throw (hE ?_))
    rintro ⟨-, -, hcolumns, -⟩
    obtain ⟨hid, -, htype⟩ := hcolumns c (List.mem_of_find?_eq_some hfound)
    have hbad := List.find?_some hfound
    simp [hid, Option.isSome_iff_ne_none.mp htype] at hbad
  -- All checks passed, and only the statement itself can still fail.
  | none =>
    refine Change.Ends.bind (Change.Ends.mutate ?_ ?_)
    · rintro st' ⟨⟩ - hresult
      dsimp only at hresult
      split at hresult
      · cases hresult
      · obtain ⟨prepared, hprepared, hresult⟩ := exceptBind_eq_ok.mp hresult
        obtain ⟨st₁, hupdated, heq⟩ := exceptBind_eq_ok.mp hresult
        cases heq
        exact Change.Ends.pure (hQ prepared st' hprepared hupdated)
    · intro hfailed
      refine hE ?_
      rintro ⟨hwritable, -, hcolumns, prepared, st', hprepared, hupdated⟩
      rcases hfailed with hreadonly | ⟨e, he⟩
      · exact Bool.false_ne_true (hreadonly.symm.trans hwritable)
      · have hclash : Row.idParameter ∉ columns := fun hmem => (hcolumns _ hmem).2.1 rfl
        simp only [if_neg hclash, hprepared] at he
        change (st.updateRecord v.row.table v.row.id prepared >>= fun st' => .ok (st', ())) =
          .error e at he
        rw [hupdated] at he
        cases he

/-- Changing a column gives what the store makes of it, unless the column is not there or refuses the
value. -/
theorem ends_updateRecord {value : Value} {Q : View → Store → Prop} {E : Store → Prop}
    (hQ : ∀ prepared st', project.prepare v.row.table [(column, value)] = .ok prepared →
      st.updateRecord v.row.table v.row.id prepared = .ok st' → Q (v.after [column]) st')
    (hE : ¬ (w = true ∧ column ≠ "id" ∧ column ≠ Row.idParameter ∧
      (project.columnType? v.row.table column).isSome ∧
      ∃ prepared st', project.prepare v.row.table [(column, value)] = .ok prepared ∧
        st.updateRecord v.row.table v.row.id prepared = .ok st') → E st) :
    (v.update column value).Ends w st Q E := by
  refine ends_updateAll (fun hnone => absurd hnone (List.cons_ne_nil _ _)) hQ fun hnot => hE ?_
  rintro ⟨hwritable, hid, hparameter, htype, hsure⟩
  exact hnot ⟨hwritable, rfl, by simp [hid, hparameter, htype], hsure⟩

/-- Changing an attribute leaves all rows with their keys and joins. -/
theorem ends_update (h : st.Integral) (hcolumn : IsAttribute column) {value : Value} :
    (v.update column value).Ends w st (fun v' st' => v'.row = v.row ∧ st.Renews st')
      (fun st' => st' = st) :=
  ends_updateRecord (fun _ _ hprepared hupdated =>
    ⟨row_after v _, h.renews_updateRecord (by simpa using hcolumn) hprepared hupdated⟩) fun _ => rfl

/-- A value that its column keeps is put into the column. -/
theorem ends_update_kept (h : st.Integral) (hfits : v.row.Fits) (hcolumn : IsAttribute column)
    (hparameter : column ≠ Row.idParameter) {type : StoredType}
    (htype : project.columnType? v.row.table column = some type) {value : Value}
    (hkeeps : type.Keeps value) :
    (v.update column value).Ends true st
      (fun v' st' => v' = v.after [column] ∧ st' = st.setCell v.row column value.cell)
      (fun _ => False) := by
  -- One value of a known column is prepared as it is.
  have hprepared : project.prepare v.row.table [(column, value)] = .ok [(column, value)] := by
    have hall : v.row.table.Keeps [(column, value)] := by
      intro x hx
      rw [List.mem_singleton.mp hx]
      exact ⟨type, htype, hkeeps⟩
    rw [prepare_eq_ok hall.takes.prepares, arrange_singleton (mem_columnNamesOf_of_columnType? htype)]
  have hupdated := h.shaped.updateRecord_eq hfits htype hkeeps
  refine ends_updateRecord (fun prepared st' hprepared' hupdated' => ⟨rfl, ?_⟩) fun hnot =>
    hnot ⟨rfl, hcolumn.ne_id, hparameter, Option.isSome_iff_exists.mpr ⟨type, htype⟩, _, _, hprepared,
      hupdated⟩
  cases hprepared.symm.trans hprepared'
  cases hupdated.symm.trans hupdated'
  rfl

/-- Renaming a row leaves all rows with their keys and joins. -/
theorem ends_rename (h : st.Integral) {name : Value} :
    (v.rename name).Ends w st (fun v' st' => v'.row = v.row ∧ st.Renews st')
      (fun st' => st' = st) := by
  unfold rename
  refine Change.Ends.bind ((ends_update h (by decide)).mono ?_ fun _ hE => hE)
  rintro v' st' ⟨hrow, hrenews⟩
  exact Change.Ends.pure ⟨hrow, hrenews⟩

/-- Renaming a row puts the text into its name, and the view remembers it. -/
theorem ends_rename_kept (h : st.Integral) (hfits : v.row.Fits) {name : String} :
    (v.rename (.text name)).Ends true st
      (fun v' st' => v' = v.row.named (.text name) ∧ st' = st.setCell v.row "name" (.text name))
      (fun _ => False) := by
  unfold rename
  refine Change.Ends.bind ((ends_update_kept h hfits (by decide) (by decide) (columnType?_name _)
    StoredType.keeps_text.2).mono ?_ fun _ hE => hE)
  rintro v' st' ⟨rfl, hst'⟩
  exact Change.Ends.pure ⟨by rw [row_after], hst'⟩

/-- Looking at the name through a view, the view stays one of its row. -/
theorem finds_name (h : st.Sound) :
    v.name.Finds st v.row.Fits (fun found => found.2.row = v.row) := by
  unfold name
  split
  · exact Query.Finds.pure rfl
  · have hname : ∀ c ∈ ["name"].map Identifier.denoted ++ ["id"],
        c ∈ project.columnNamesOf v.row.table := by
      have hdenoted : ["name"].map Identifier.denoted = ["name"] := by decide
      rw [hdenoted]
      simp [columnNamesOf, columnsOf]
    have hrecord : (some <$> v.row.record? ["name"]).Finds st v.row.Fits fun _ => True :=
      Query.Finds.map (Query.Finds.bind (Query.finds_recordsWhere h.shaped hname) fun _ _ =>
        Query.Finds.pure trivial)
    refine hrecord.orDefault_any.bind fun found _ => ?_
    -- Nothing, no record, or a record: in all cases the view is still of the row.
    rcases found with _ | _ | record
    · exact Query.Finds.pure rfl
    · exact Query.Finds.pure rfl
    · dsimp only
      split
      · exact Query.Finds.pure rfl
      · exact Query.Finds.pure rfl

end View

namespace ViewChange

/-- The name is looked at through a view. -/
theorem ends_name (h : st.Sound) {Q : Value → Store → Prop} {E : Store → Prop}
    (hQ : ∀ name, Q name st) (hE : ¬ r.Fits → E st) : ViewChange.name.Ends w st r Q E := by
  refine Ends.through fun v hv => ?_
  have hends : ((liftM v.name : Change (Value × View)) >>= Pure.pure).Ends w st
      (fun found st' => found.2.row = r ∧ Q found.1 st') E :=
    Change.Ends.query (View.finds_name h) (fun found hfound =>
      Change.Ends.pure ⟨hfound.trans hv, hQ found.1⟩) fun hnot => hE (hv ▸ hnot)
  rwa [bind_pure] at hends

/-- An attribute is changed through a view. -/
theorem ends_update (h : st.Integral) {column : String} (hcolumn : IsAttribute column)
    {value : Value} :
    (ViewChange.update column value).Ends w st r (fun _ st' => st.Renews st')
      (fun st' => st' = st) := by
  refine Ends.through fun v hv => ?_
  refine Change.Ends.bind ((View.ends_update h hcolumn).mono ?_ fun _ hE => hE)
  rintro v' st' ⟨hrow, hrenews⟩
  exact Change.Ends.pure ⟨hrow.trans hv, hrenews⟩

/-- A row is renamed through a view. -/
theorem ends_rename (h : st.Integral) {name : Value} :
    (ViewChange.rename name).Ends w st r (fun _ st' => st.Renews st') (fun st' => st' = st) := by
  refine Ends.through fun v hv => ?_
  refine Change.Ends.bind ((View.ends_rename h).mono ?_ fun _ hE => hE)
  rintro v' st' ⟨hrow, hrenews⟩
  exact Change.Ends.pure ⟨hrow.trans hv, hrenews⟩

end ViewChange

end SoarProject
