import SoarProject.Proofs.Schema.Project

/-!
# The contents of a store

A store of a project holds records for each table and pairs for each declared join. This module says
what the operations of a store do in these terms.

* `Store.Shaped`: every relation of the project is there, with its columns.
* `Store.records_eq`, `Store.recordsWhere_eq`, `Store.pairs_eq`: what is looked up.
* `Store.removePairs_eq`, `Store.deleteRecord_eq`, `Store.addPair_eq_ok`, `Store.updateRecord_eq_ok`:
  what is left of records and pairs.
-/

namespace SoarProject

/-! ### Results -/

theorem exceptBind_eq_ok {α β : Type} {x : Except Failure α} {f : α → Except Failure β} {b : β} :
    (x >>= f) = .ok b ↔ ∃ a, x = .ok a ∧ f a = .ok b := by
  cases x with
  | error e => simp [Bind.bind, Except.bind]
  | ok a => simp [Bind.bind, Except.bind]

/-- What a lookup finds where the values of a list are changed. -/
theorem lookup_map_value {α β γ : Type} [BEq α] (f : α → β → γ) [LawfulBEq α] (l : List (α × β))
    (k : α) : (l.map fun (a, b) => (a, f a b)).lookup k = (l.lookup k).map (f k) := by
  induction l with
  | nil => rfl
  | cons p l ih =>
    obtain ⟨a, b⟩ := p
    simp only [List.map_cons, List.lookup_cons]
    cases h : k == a with
    | true => simp [eq_of_beq h]
    | false => simpa using ih

namespace RelationName

/-- The name of a declared join. -/
def IsJoin : RelationName → Prop
  | .join a b => (a, b) ∈ Registry.project.joinedPairs
  | .directed a b => (a, b) ∈ Registry.project.directedPairs
  | _ => False

/-- The columns of a join. -/
def joinColumns : RelationName → String × String
  | .directed .. => ("parent_id", "child_id")
  | _ => ("first_id", "second_id")

end RelationName

namespace Store

variable {s : Store} {t u : Table} {n m : RelationName}

/-- The records of a table. -/
def rows (s : Store) (t : Table) : List Record :=
  match s.find? (.entity t) with
  | some (.records _ rows) => rows
  | _ => []

/-- The pairs of a join. -/
def pairsOf (s : Store) (n : RelationName) : List CellPair :=
  match s.find? n with
  | some (.pairs _ _ rows) => rows
  | _ => []

/-- Every relation of the project is there, with its columns. -/
structure Shaped (s : Store) : Prop where
  find?_entity : ∀ t, s.find? (.entity t) = some (.records (Registry.project.columnsOf t) (s.rows t))
  find?_join : ∀ n : RelationName, n.IsJoin →
    s.find? n = some (.pairs n.joinColumns.1 n.joinColumns.2 (s.pairsOf n))

/-- Replace the records of a table. -/
def setRows (s : Store) (t : Table) (rows : List Record) : Store :=
  s.put (.entity t) (.records (Registry.project.columnsOf t) rows)

/-- Replace the pairs of a join. -/
def setPairs (s : Store) (n : RelationName) (pairs : List CellPair) : Store :=
  s.put n (.pairs n.joinColumns.1 n.joinColumns.2 pairs)

/-- What is found after a relation was replaced. -/
theorem find?_put (r : Relation) :
    (s.put n r).find? m = if m = n then (s.find? n).map (fun _ => r) else s.find? m := by
  rw [find?, put, lookup_map_value (fun m old => if m = n then r else old)]
  by_cases h : m = n
  · simp [h, find?]
  · simp [h, find?]

namespace Shaped

variable (h : s.Shaped)

include h

/-- The records after those of a table were replaced. -/
theorem rows_setRows (rows : List Record) :
    (s.setRows t rows).rows u = if u = t then rows else s.rows u := by
  rw [Store.rows, setRows, find?_put]
  by_cases hu : u = t
  · simp [hu, h.find?_entity t]
  · simp [hu, Store.rows]

/-- Replacing records leaves all pairs. -/
theorem pairsOf_setRows (rows : List Record) : (s.setRows t rows).pairsOf n = s.pairsOf n := by
  rw [pairsOf, setRows, find?_put]
  by_cases hn : n = .entity t
  · simp [hn, h.find?_entity t, pairsOf]
  · simp [hn, pairsOf]

omit h in
/-- Replacing pairs leaves all records. -/
theorem rows_setPairs (hn : n.IsJoin) (pairs : List CellPair) :
    (s.setPairs n pairs).rows t = s.rows t := by
  rw [Store.rows, setPairs, find?_put]
  have hne : RelationName.entity t ≠ n := by
    rintro rfl
    exact hn
  simp [hne, Store.rows]

/-- The pairs after those of a join were replaced. -/
theorem pairsOf_setPairs (hn : n.IsJoin) (pairs : List CellPair) :
    (s.setPairs n pairs).pairsOf m = if m = n then pairs else s.pairsOf m := by
  rw [pairsOf, setPairs, find?_put]
  by_cases hm : m = n
  · simp [hm, h.find?_join n hn]
  · simp [hm, pairsOf]

/-- Replacing records leaves the shape. -/
theorem setRows (rows : List Record) : (s.setRows t rows).Shaped where
  find?_entity u := by
    rw [h.rows_setRows, Store.setRows, find?_put]
    by_cases hu : u = t
    · simp [hu, h.find?_entity t]
    · simp [hu, h.find?_entity u]
  find?_join n hn := by
    rw [h.pairsOf_setRows, Store.setRows, find?_put]
    have hne : n ≠ .entity t := by
      rintro rfl
      exact hn
    simpa [hne] using h.find?_join n hn

/-- Replacing pairs leaves the shape. -/
theorem setPairs (hn : n.IsJoin) (pairs : List CellPair) : (s.setPairs n pairs).Shaped where
  find?_entity u := by
    rw [rows_setPairs hn, Store.setPairs, find?_put]
    have hne : RelationName.entity u ≠ n := by
      rintro rfl
      exact hn
    simpa [hne] using h.find?_entity u
  find?_join m hm := by
    rw [h.pairsOf_setPairs hn, Store.setPairs, find?_put]
    by_cases hmn : m = n
    · simp [hmn, h.find?_join n hn]
    · simpa [hmn] using h.find?_join m hm

/-! ### Looking up -/

/-- The relation of a table. -/
theorem relation_entity :
    s.relation (.entity t) = .ok (.records (Registry.project.columnsOf t) (s.rows t)) := by
  rw [relation, h.find?_entity t]

/-- The relation of a join. -/
theorem relation_join (hn : n.IsJoin) :
    s.relation n = .ok (.pairs n.joinColumns.1 n.joinColumns.2 (s.pairsOf n)) := by
  rw [relation, h.find?_join n hn]

end Shaped

/-- The type of a column is that in the registry. -/
theorem columnType?_records (rows : List Record) (c : String) :
    (Relation.records (Registry.project.columnsOf t) rows).columnType? c =
      Registry.project.columnType? t c := rfl

/-- The columns of a table have a type. -/
theorem columnType?_isSome {c : String} (hc : c ∈ Registry.project.columnNamesOf t) :
    (Registry.project.columnType? t c).isSome = true := by
  rw [Registry.columnType?]
  split
  · rfl
  · next hid =>
    rcases List.mem_cons.mp hc with rfl | hc
    · exact absurd rfl hid
    · obtain ⟨column, hcolumn, rfl⟩ := List.mem_map.mp hc
      rw [Option.isSome_map, List.find?_isSome]
      exact ⟨column, hcolumn, by simp⟩

/-- The columns of a table are accepted. -/
theorem checkColumns_eq_ok {used : List String} (rows : List Record)
    (hused : ∀ c ∈ used, c ∈ Registry.project.columnNamesOf t) :
    checkColumns n (.records (Registry.project.columnsOf t) rows) used = .ok () := by
  have hnone : used.find? (fun c =>
      ((Relation.records (Registry.project.columnsOf t) rows).columnType? c).isNone) = none := by
    rw [List.find?_eq_none]
    intro c hc
    rw [columnType?_records, Option.isNone_iff_eq_none]
    exact Option.isSome_iff_ne_none.mp (columnType?_isSome (hused c hc))
  rw [checkColumns, hnone]

/-- Cells come under the names of their values. -/
theorem fst_mem_of_mem_toCells {values : List (String × Value)} {cells : List (String × Cell)}
    (hcells : toCells values = .ok cells) {c : String × Cell} (hc : c ∈ cells) :
    c.1 ∈ values.map (·.1) := by
  obtain ⟨converted, -, hzip⟩ := exceptBind_eq_ok.mp hcells
  cases hzip
  exact (List.of_mem_zip hc).1

namespace Shaped

variable (h : s.Shaped)

include h

theorem records_eq {used : List String} (hused : ∀ c ∈ used, c ∈ Registry.project.columnNamesOf t) :
    s.records t used = .ok (s.rows t) := by
  rw [records, h.relation_entity]
  change (checkColumns _ _ used >>= fun _ => _) = _
  rw [checkColumns_eq_ok _ hused]
  rfl

theorem recordsWhere_eq {used : List String} {column : String} (key : Cell)
    (hused : ∀ c ∈ used ++ [column], c ∈ Registry.project.columnNamesOf t) :
    s.recordsWhere t used column key =
      checkKey key >>= fun _ => .ok ((s.rows t).filter fun r => key.identifies (r.get column)) := by
  rw [recordsWhere, h.records_eq hused]
  rfl

theorem pairs_eq (hn : n.IsJoin) : s.pairs n = .ok (CellPair.sort (s.pairsOf n)) := by
  rw [pairs, h.relation_join hn]
  rfl

/-! ### Changing -/

theorem removePairs_eq (hn : n.IsJoin) (keys : List Cell) (p : CellPair → Bool) :
    s.removePairs n keys p =
      keys.forM checkKey >>= fun _ => .ok (s.setPairs n ((s.pairsOf n).filter (!p ·))) := by
  rw [removePairs, h.relation_join hn]
  rfl

/-- The record of an id is deleted, if the id fits. -/
theorem deleteRecord_eq (id : Cell) :
    s.deleteRecord t id = checkKey id >>= fun _ =>
      .ok (s.setRows t ((s.rows t).filter fun row => !id.identifies (.int row.id))) := by
  rw [deleteRecord, h.relation_entity]
  rfl

omit h in
/-- A pair of ids is put behind others unless it is there already. -/
theorem withPair_eq (first second : String) (pairs : List CellPair) (a b : Int) :
    Relation.withPair n first second pairs (.int a, .int b) =
      if (.int a, .int b) ∈ pairs then .error (Relation.repeatedPair n first second)
      else .ok (pairs ++ [(.int a, .int b)]) := by
  unfold Relation.withPair
  change (if (Cell.int a, Cell.int b) ∈ pairs then _ else _) = _
  split <;> rfl

/-- A pair of ids is added unless it is there already, if the ids fit. -/
theorem addPair_eq (hn : n.IsJoin) (a b : Int) :
    s.addPair n (.int a, .int b) = checkKey (.int a) >>= fun _ => checkKey (.int b) >>= fun _ =>
      if (.int a, .int b) ∈ s.pairsOf n then
        .error (Relation.repeatedPair n n.joinColumns.1 n.joinColumns.2)
      else .ok (s.setPairs n (s.pairsOf n ++ [(.int a, .int b)])) := by
  rw [addPair, h.relation_join hn]
  change (checkKey _ >>= fun _ => checkKey _ >>= fun _ => _) = _
  congr 1
  funext _
  congr 1
  funext _
  change (Relation.withPair n _ _ (s.pairsOf n) _ >>= fun rows => .ok (s.setPairs n rows)) = _
  rw [withPair_eq]
  split <;> rfl

/-- Changing columns of a record sets their cells. -/
theorem updateRecord_eq_ok {id : Cell} {values : List (String × Value)} {s' : Store}
    (hs : s.updateRecord t id values = .ok s') :
    ∃ stored : List (String × Cell), (∀ c ∈ stored, c.1 ∈ values.map (·.1)) ∧
      s' = s.setRows t ((s.rows t).map fun row =>
        if id.identifies (.int row.id) then row.set stored else row) := by
  rw [updateRecord, h.relation_entity] at hs
  obtain ⟨_, ⟨⟩, hs⟩ := exceptBind_eq_ok.mp hs
  dsimp only at hs
  split at hs
  · cases hs
  · -- Only known columns were given, and their cells are stored under the same names.
    obtain ⟨cells, hcells, hs⟩ := exceptBind_eq_ok.mp hs
    obtain ⟨-, -, hs⟩ := exceptBind_eq_ok.mp hs
    cases hs
    refine ⟨_, ?_, rfl⟩
    intro c hc
    obtain ⟨⟨name, cell⟩, hcell, rfl⟩ := List.mem_map.mp hc
    have hname := fst_mem_of_mem_toCells hcells hcell
    exact hname

end Shaped

end Store

end SoarProject
