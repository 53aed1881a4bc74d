import SoarProject.Proofs.Row.JoinRefinement
import SoarProject.Proofs.Store.Room

/-!
# New rows in a store of any registry

A store that is laid out for a registry has the columns that the registry calls for, and takes new rows
with a name, below a row or on their own. A new record comes behind the others of its table, and nothing
else changes.

* `Store.LaidOut`: the stores of a registry, whatever keys and pairs name.
* `NewRow`: a row that is put into a store, with its record.
* `Store.LaidOut.insert_eq`, `Session.Follows.run_insert`: inserting a row puts it behind the others.
* `Store.Gains`: some rows were put into a store, in their order.
* `Store.Serves`: a store of a registry with its joins, and with room for new rows.
-/

namespace SoarProject

open Registry

variable {r : Registry} {s : Session} {st st' st'' : Store} {t : Table} {n : RelationName} {k l : Nat}

/-! ### Values for columns -/

/-- Where no name occurs twice, it does not matter from which end one is looked up. -/
theorem lookup_reverse {β : Type} {l : List (String × β)} (h : (l.map (·.1)).Nodup) (c : String) :
    l.reverse.lookup c = l.lookup c := by
  have hreverse : (l.reverse.map (·.1)).Nodup := by rwa [List.map_reverse, List.nodup_reverse]
  refine Option.ext fun b => ?_
  rw [lookup_eq_some_iff_mem h, lookup_eq_some_iff_mem hreverse, List.mem_reverse]

/-- What is found among values that were arranged for the columns of a table, if all are for columns. -/
theorem Registry.lookup_arrange {values : List (String × Value)} (hnodup : (values.map (·.1)).Nodup)
    (hcolumns : ∀ v ∈ values, v.1 ∈ r.columnNamesOf t) (c : String) :
    (r.arrange t values).lookup c = values.lookup c := by
  rw [arrange, lookup_filterMap_names, lookup_reverse hnodup, ite_eq_left_iff]
  intro hc
  refine (List.lookup_eq_none_iff.mpr fun v hv => bne_iff_ne.mpr ?_).symm
  rintro rfl
  exact hc (hcolumns v hv)

/-- The name of a record is kept under its own name. -/
theorem Identifier.denoted_name : denoted "name" = "name" := denoted_eq_self (by decide)

/-- A column that is kept under its name is one of the relation of its table. -/
theorem Registry.columnType?_denoted_ne_none {c : String} (hc : c ∈ (r.columnsOf t).map (·.name))
    (hname : Identifier.denoted c = c) (rows : List Record) :
    (Relation.records ((r.columnsOf t).map Column.denoted) rows).columnType? c ≠ none := by
  obtain ⟨column, hcolumn, rfl⟩ := List.mem_map.mp hc
  rw [Relation.columnType?]
  split
  · exact Option.some_ne_none _
  · rw [Ne, Option.map_eq_none_iff, List.find?_eq_none, not_forall]
    refine ⟨column.denoted, fun hnone => hnone (List.mem_map_of_mem hcolumn) ?_⟩
    rw [Column.denoted, hname]
    exact beq_self_eq_true _

theorem Store.newCells_congr {columns : List Column} {cells cells' : List (String × Cell)}
    (h : ∀ c, cells.lookup c = cells'.lookup c) :
    newCells columns cells = newCells columns cells' := by
  simp only [newCells, h]

/-! ### Stores of a registry -/

namespace Store

/-- Every table is there with the columns that a registry calls for, and its records stand in the order of
their ids. -/
structure LaidOut (st : Store) (r : Registry) : Prop where
  find?_entity : ∀ t, st.find? (.entity t) =
    some (.records ((r.columnsOf t).map Column.denoted) (st.rows t))
  /-- The records of a table have ascending ids. -/
  ids_ascend : ∀ t, (st.rows t).Pairwise (·.id < ·.id)

/-- Where only the layout is there, every table is there without records. -/
theorem HasLayout.find?_entity (h : st.HasLayout r) (hr : r.Coherent) (t : Table) :
    st.find? (.entity t) = some (.records ((r.columnsOf t).map Column.denoted) []) :=
  h.find?_eq hr (List.mem_append_left _ (List.mem_append_left _
    (List.mem_map.mpr ⟨t, Table.mem_all t, rfl⟩)))

theorem HasLayout.rows_eq (h : st.HasLayout r) (hr : r.Coherent) (t : Table) : st.rows t = [] := by
  rw [rows, h.find?_entity hr]

/-- A store with the layout of a registry is laid out. -/
theorem HasLayout.laidOut (h : st.HasLayout r) (hr : r.Coherent) : st.LaidOut r where
  find?_entity t := by rw [h.rows_eq hr, h.find?_entity hr]
  ids_ascend t := by
    rw [h.rows_eq hr]
    exact List.Pairwise.nil

/-- Pairs of a join do not matter. -/
theorem LaidOut.setPairs (h : st.LaidOut r) (hn : r.Declares n) (pairs : List CellPair) :
    (st.setPairs n pairs).LaidOut r where
  find?_entity t := by
    have hne : RelationName.entity t ≠ n := by
      rintro rfl
      exact hn
    rw [Carries.rows_setPairs hn, Store.setPairs, find?_put, if_neg hne, h.find?_entity]
  ids_ascend t := by
    rw [Carries.rows_setPairs hn]
    exact h.ids_ascend t

end Store

/-! ### New rows -/

/-- The id of a row can stand in a key column. -/
def Row.IsKey (p : Row) : Prop := ∃ id : Int, p.id = .int id ∧ fitsInteger id = true

/-- The id of an existing row can stand there, if all ids fit. -/
theorem Store.Fits.isKey {x : Row} (h : st.Fits) (hx : st.Has x) : x.IsKey := by
  obtain ⟨id, hid⟩ := hx.id_eq
  exact ⟨id, hid, h.row hx id hid⟩

/-- A row that is put into a store with a name, below a row or on its own. -/
structure NewRow where
  /-- The table. -/
  table : Table
  /-- The id. -/
  id : Int
  /-- The name. -/
  name : String
  /-- The row that it is below. -/
  parent? : Option Row := none

namespace NewRow

variable {new : NewRow}

/-- The row. -/
def row (new : NewRow) : Row := .ofId new.table new.id

/-- What columns hold. -/
def cells (new : NewRow) : List (String × Cell) :=
  ("name", .text new.name) :: new.parent?.toList.map fun p => (p.table.idName, p.id)

/-- What columns are given. -/
def values (new : NewRow) : List (String × Value) := new.cells.map fun c => (c.1, c.2.toValue)

/-- The record: its name, and the id of the row that it is below in the key column for that. All other
columns hold nothing. -/
def record (r : Registry) (new : NewRow) : Record :=
  ⟨new.id, Store.newCells ((r.columnsOf new.table).map Column.denoted) new.cells⟩

/-- The table has a key column for the row that the new one is below, and this row can be named there. -/
def HasPlace (r : Registry) (new : NewRow) : Prop :=
  ∀ p, new.parent? = some p → p.table ∈ r.parentsOf new.table ∧ p.IsKey

/-- A column of a new row holds its name, or is a key column. -/
theorem mem_cells {c : String × Cell} : c ∈ new.cells ↔
    c = ("name", .text new.name) ∨ ∃ p, new.parent? = some p ∧ c = (p.table.idName, p.id) := by
  simp [cells, eq_comm]

/-- No column of a new row is given twice. -/
theorem nodup_cells (new : NewRow) : (new.cells.map (·.1)).Nodup := by
  rw [cells]
  cases new.parent? with
  | none => simp
  | some p => simp [name_ne_idName]

/-- Values are given for the columns that hold something. -/
theorem map_fst_values (new : NewRow) : new.values.map (·.1) = new.cells.map (·.1) := by
  rw [values, List.map_map]
  rfl

section Place

variable (h : new.HasPlace r)

include h

/-- A column of a new row has a type that keeps what it is given. -/
theorem HasPlace.keeps {c : String × Cell} (hc : c ∈ new.cells) :
    c.1 ≠ "id" ∧ Identifier.denoted c.1 = c.1 ∧ c.2.toValue.bound = c.2 ∧
      ∃ type, r.columnType? new.table c.1 = some type ∧ type.Takes c.2.toValue := by
  rcases mem_cells.mp hc with rfl | ⟨p, hp, rfl⟩
  · have hid : "name" ≠ "id" := by decide
    exact ⟨hid, Identifier.denoted_name, rfl, _, columnType?_name _, StoredType.keeps_text.2.takes⟩
  · obtain ⟨htable, id, hid, hfits⟩ := h p hp
    simp only [hid]
    exact ⟨(id_ne_idName _).symm, denoted_idName _, rfl, _, columnType?_idName htable,
      (StoredType.keeps_int hfits).takes⟩

/-- The same for the values that are given. -/
theorem HasPlace.takes {v : String × Value} (hv : v ∈ new.values) :
    v.1 ≠ "id" ∧ Identifier.denoted v.1 = v.1 ∧
      ∃ type, r.columnType? new.table v.1 = some type ∧ type.Takes v.2 := by
  obtain ⟨c, hc, rfl⟩ := List.mem_map.mp hv
  obtain ⟨hid, hname, -, htype⟩ := h.keeps hc
  exact ⟨hid, hname, htype⟩

/-- Values are given for columns of the table. -/
theorem HasPlace.mem_columnNamesOf {v : String × Value} (hv : v ∈ new.values) :
    v.1 ∈ r.columnNamesOf new.table := by
  obtain ⟨hid, -, type, htype, -⟩ := h.takes hv
  rw [columnType?, if_neg hid] at htype
  obtain ⟨column, hcolumn, -⟩ := Option.map_eq_some_iff.mp htype
  have hname := List.find?_some hcolumn
  exact List.mem_cons_of_mem _ (List.mem_map.mpr
    ⟨column, List.mem_of_find?_eq_some hcolumn, eq_of_beq hname⟩)

end Place

end NewRow

namespace Store

variable {new : NewRow} {news news' : List NewRow}

/-- Put a new row behind the others of its table. -/
def append (st : Store) (r : Registry) (new : NewRow) : Store :=
  st.put (.entity new.table)
    (.records ((r.columnsOf new.table).map Column.denoted) (st.rows new.table ++ [new.record r]))

/-- The values that are arranged for a new row are those of its columns. -/
theorem lookup_arrange_values (h : new.HasPlace r) (c : String) :
    ((r.arrange new.table new.values).map fun v => (v.1, v.2.bound)).lookup c = new.cells.lookup c := by
  have hnodup : (new.values.map (·.1)).Nodup := new.map_fst_values ▸ new.nodup_cells
  have hvalues : new.values.lookup c = (new.cells.lookup c).map Cell.toValue :=
    lookup_map_value (fun _ => Cell.toValue) new.cells c
  refine (lookup_map_value (fun _ => Value.bound) _ c).trans ?_
  rw [lookup_arrange hnodup (fun v hv => h.mem_columnNamesOf hv), hvalues]
  cases hfound : new.cells.lookup c with
  | none => rfl
  | some cell => exact congrArg some (h.keeps (mem_of_lookup_eq_some hfound)).2.2.1

namespace LaidOut

variable (h : st.LaidOut r)

include h

theorem rows_append (new : NewRow) (t : Table) :
    (st.append r new).rows t = if t = new.table then st.rows t ++ [new.record r] else st.rows t := by
  rw [rows, append, find?_put]
  by_cases ht : t = new.table
  · simp [ht, h.find?_entity new.table]
  · simp [ht, rows]

/-- The next id is larger than the others. -/
theorem id_lt (hid : new.id = nextId (st.rows new.table)) {old : Record}
    (hold : old ∈ st.rows new.table) : old.id < new.id := by
  rw [hid]
  exact lt_nextId_of_pairwise (h.ids_ascend _) hold

/-- With a new row that has the next id, a store is still laid out. -/
theorem append (hid : new.id = nextId (st.rows new.table)) : (st.append r new).LaidOut r where
  find?_entity t := by
    rw [h.rows_append, Store.append, find?_put]
    by_cases ht : t = new.table
    · simp [ht, h.find?_entity new.table]
    · simpa [ht] using h.find?_entity t
  ids_ascend t := by
    rw [h.rows_append]
    split
    · next ht =>
      subst ht
      -- The id is new, so it lies above the old ones.
      refine List.pairwise_append.mpr ⟨h.ids_ascend _, List.pairwise_singleton _ _, ?_⟩
      rintro old hold _ hnew
      rw [List.mem_singleton.mp hnew]
      exact h.id_lt hid hold
    · exact h.ids_ascend t

/-- What a new row is given is put behind the others. -/
theorem insert_eq (hplace : new.HasPlace r) (hid : new.id = nextId (st.rows new.table)) :
    (r.prepare new.table new.values >>= st.insert (.entity new.table)) =
      .ok (st.append r new, new.id) := by
  -- All values are taken by their columns, so preparing them cannot fail.
  have hprepare : r.prepare new.table new.values = .ok (r.arrange new.table new.values) := by
    refine prepare_eq_arrange fun v hv => ?_
    obtain ⟨-, hname, type, htype, htakes⟩ := hplace.takes hv
    rw [htype]
    exact ⟨htakes.1, hname⟩
  have hcells : toCells (r.arrange new.table new.values) = .ok _ := toCells_eq_ok fun v hv => by
    obtain ⟨-, -, type, -, htakes⟩ := hplace.takes (mem_of_mem_arrange hv).1
    exact htakes.2
  have hlookup := lookup_arrange_values hplace
  -- Each value has a column of the table to go to.
  have hknown : (r.arrange new.table new.values).find? (fun v =>
      ((Relation.records ((r.columnsOf new.table).map Column.denoted)
        (st.rows new.table)).columnType? v.1).isNone) = none := by
    rw [List.find?_eq_none]
    intro v hv
    obtain ⟨hvalue, hcolumn⟩ := mem_of_mem_arrange hv
    obtain ⟨hid, hname, -⟩ := hplace.takes hvalue
    rw [Option.isNone_iff_eq_none]
    exact columnType?_denoted_ne_none ((List.mem_cons.mp hcolumn).resolve_left hid) hname _
  have hnoid : new.cells.lookup "id" = none := by
    refine List.lookup_eq_none_iff.mpr fun c hc => bne_iff_ne.mpr ?_
    exact (hplace.keeps hc).1.symm
  -- The id is the next one: it is free, and larger than those before.
  have hunused : (st.rows new.table).any (·.id == new.id) = false := by
    rw [List.any_eq_false]
    intro old hold
    rw [beq_iff_eq]
    exact Int.ne_of_lt (h.id_lt hid hold)
  have hlast : insertRecord (new.record r) (st.rows new.table) = st.rows new.table ++ [new.record r] :=
    insertRecord_eq_append fun _ hold => h.id_lt hid hold
  rw [hprepare]
  change st.insert _ _ = _
  rw [Store.insert, relation, h.find?_entity]
  refine exceptBind_eq_ok.mpr ⟨_, rfl, ?_⟩
  dsimp only
  rw [hknown]
  refine exceptBind_eq_ok.mpr ⟨_, hcells, exceptBind_eq_ok.mpr ⟨new.id, ?_, ?_⟩⟩
  · rw [hlookup, hnoid, hid]
    rfl
  · rw [hunused, newCells_congr hlookup]
    change Except.ok (st.put _ (.records _ (insertRecord (new.record r) _)), _) = _
    rw [hlast]
    rfl

/-- A new row takes some of the room. -/
theorem room_append (hid : new.id = nextId (st.rows new.table)) (hroom : st.Room (k + 1)) :
    (st.append r new).Room k := by
  refine hroom.of_rows fun t record hrecord => ?_
  rw [h.rows_append] at hrecord
  split at hrecord
  · next ht =>
    refine (List.mem_append.mp hrecord).imp id fun hnew => ?_
    rw [List.mem_singleton.mp hnew, ht]
    exact hid
  · exact .inl hrecord

end LaidOut

/-! ### Rows that were put in -/

/-- Some rows were put behind those of their tables, in their order. -/
def Gains (st : Store) (r : Registry) (st' : Store) (news : List NewRow) : Prop :=
  ∀ t, st'.rows t = st.rows t ++ (news.filter (·.table = t)).map (NewRow.record r)

theorem Gains.refl (st : Store) : st.Gains r st [] := fun t => (List.append_nil (st.rows t)).symm

theorem Gains.trans (h : st.Gains r st' news) (h' : st'.Gains r st'' news') :
    st.Gains r st'' (news ++ news') := fun t => by
  rw [h' t, h t, List.filter_append, List.map_append, List.append_assoc]

theorem LaidOut.gains_append (h : st.LaidOut r) (new : NewRow) : st.Gains r (st.append r new) [new] := by
  intro t
  rw [h.rows_append]
  by_cases ht : t = new.table
  · simp [ht]
  · simp [ht, Ne.symm ht]

namespace Gains

variable (h : st.Gains r st' news)

include h

theorem has {x : Row} (hx : st.Has x) : st'.Has x := by
  obtain ⟨record, hrecord, hid⟩ := hx
  rw [Has, h x.table]
  exact ⟨record, List.mem_append_left _ hrecord, hid⟩

/-- A row that was put in is there. -/
theorem has_new (hnew : new ∈ news) : st'.Has new.row := by
  refine ⟨new.record r, ?_, rfl⟩
  rw [h]
  exact List.mem_append_right _ (List.mem_map_of_mem (List.mem_filter.mpr ⟨hnew, decide_eq_true rfl⟩))

end Gains

end Store

/-! ### Inserting -/

namespace Store

variable {sets : JoinSets} {new : NewRow}

/-- A store is laid out for a registry and has the joins of some sets recorded, with room for some more
records in every table. -/
structure Serves (st : Store) (r : Registry) (sets : JoinSets) (k : Nat) : Prop where
  laidOut : st.LaidOut r
  carries : st.Carries r
  represents : st.Represents r sets
  room : st.Room k

theorem Serves.mono (h : st.Serves r sets l) (hle : k ≤ l) : st.Serves r sets k :=
  { h with room := h.room.mono hle }

/-- A new row with the next id takes some of the room. -/
theorem Serves.append (h : st.Serves r sets (k + 1)) (hid : new.id = nextId (st.rows new.table)) :
    (st.append r new).Serves r sets k := by
  obtain ⟨hcarries, hpairs⟩ := h.carries.put_entity new.table
    (.records ((r.columnsOf new.table).map Column.denoted) (st.rows new.table ++ [new.record r]))
  exact ⟨h.laidOut.append hid, hcarries, h.represents.congr hpairs, h.laidOut.room_append hid h.room⟩

/-- With other pairs of a join, other sets are recorded, and all rows are there as before. -/
theorem Serves.of_pairs {sets' : JoinSets} {pairs : List CellPair} (h : st.Serves r sets k)
    (hn : r.Declares n) (hst' : st' = st ∨ st' = st.setPairs n pairs) (hcarries : st'.Carries r)
    (hsets' : st'.Represents r sets') : st'.Serves r sets' k ∧ st.Gains r st' [] := by
  -- Only join records are written, and rows are stored elsewhere.
  have hrows : ∀ t, st'.rows t = st.rows t := by
    intro t
    rcases hst' with rfl | rfl
    · rfl
    · exact Carries.rows_setPairs hn pairs t
  refine ⟨⟨?_, hcarries, hsets', h.room.of_has fun x hx => ?_⟩, fun t => ?_⟩
  · rcases hst' with rfl | rfl
    · exact h.laidOut
    · exact h.laidOut.setPairs hn pairs
  · rwa [Has, hrows] at hx
  · rw [hrows]
    exact (List.append_nil _).symm

end Store

/-- A new row is inserted. -/
theorem Session.Follows.run_insert {new : NewRow} (hs : s.Follows r true st) (h : st.LaidOut r)
    (hplace : new.HasPlace r) (hid : new.id = nextId (st.rows new.table)) :
    ∃ s', (Change.insert new.table new.values).run.run s = (.ok new.id, s') ∧
      s'.Follows r true (st.append r new) := by
  have hcolumns : (new.values.any fun v => (r.columnType? new.table v.1).isNone) = false := by
    rw [List.any_eq_false]
    intro v hv
    obtain ⟨-, -, type, htype, -⟩ := hplace.takes hv
    simp [htype]
  -- The body of the insertion, named so that it can be evaluated on the store at hand.
  let insertion (store : Store) : Except Failure (Store × Int) := do
    if new.values.any fun v => (r.columnType? new.table v.1).isNone then
      throw (.storage .unknownColumn)
    store.insert (.entity new.table) (← r.prepare new.table new.values)
  have hinsertion : insertion st = .ok (st.append r new, new.id) := by
    dsimp only [insertion]
    rw [hcolumns]
    exact h.insert_eq hplace hid
  obtain ⟨s', hrun, hs'⟩ := hs.run_mutate hinsertion
  exact ⟨s', (Change.run_query hs.run_registry).trans hrun, hs'⟩

end SoarProject
