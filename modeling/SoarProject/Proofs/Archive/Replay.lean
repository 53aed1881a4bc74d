import SoarProject.Proofs.Archive.Contents
import SoarProject.Proofs.Store.Integrity

/-!
# Carrying out the statements of a dump

What the statements of a dump do to a store that has the relations of the registry. Those that create
something leave the store as it is; the others put the records of a relation behind each other.

* `Statement.Replays`: statements that turn a store into another one.
* `DumpTable.Creatable.turns_creation`: what creates a relation does nothing once it is there.
* `DumpTable.Creatable.replays_insertions`: the statements for its records fill an empty relation.
-/

namespace SoarProject

namespace Statement

variable {text : String} {texts texts' : List String} {s s' s'' : Store}

/-- A text that is one statement, which turns a store into another one. -/
def Turns (text : String) (s s' : Store) : Prop :=
  Whole text ∧ ∃ outcome, execute text [] s = .ok (s', outcome)

/-- A text turns a store into what its statement makes of it. -/
theorem ReadsAs.turns {st st' : Statement} (h : ReadsAs text st) (hresolve : st.resolve s = .ok st')
    (hcount : st'.parameterCount = 0) (hperform : st'.perform [] s = .ok (s', none)) :
    Turns text s s' := by
  refine ⟨h.whole, ⟨none, st'.writes s⟩, ?_⟩
  rw [execute, h.ofText_eq]
  dsimp only
  rw [hresolve]
  change (if [].length ≠ st'.parameterCount then _ else _) = _
  rw [hcount, if_neg (by simp)]
  change (st'.perform [] s >>= fun _ => _) = _
  rw [hperform]
  rfl

/-- Texts that are statements, which turn a store into another one, one after the other. -/
inductive Replays : List String → Store → Store → Prop
  | nil (s : Store) : Replays [] s s
  | cons {text : String} {texts : List String} {s s' s'' : Store} :
    Turns text s s' → Replays texts s' s'' → Replays (text :: texts) s s''

namespace Replays

theorem whole (h : Replays texts s s') : ∀ text ∈ texts, Whole text := by
  induction h with
  | nil => exact List.forall_mem_nil _
  | cons hturns _ ih => exact List.forall_mem_cons.mpr ⟨hturns.1, ih⟩

theorem append (h : Replays texts s s') (h' : Replays texts' s' s'') :
    Replays (texts ++ texts') s s'' := by
  induction h with
  | nil => exact h'
  | cons hturns _ ih => exact .cons hturns (ih h')

theorem of_forall (h : ∀ text ∈ texts, Turns text s s) : Replays texts s s := by
  induction texts with
  | nil => exact .nil s
  | cons text texts ih =>
    obtain ⟨hturns, hrest⟩ := List.forall_mem_cons.mp h
    exact .cons hturns (ih hrest)

end Replays

end Statement

/-! ### Stores that are prepared -/

namespace Store

variable {s : Store} {r : Registry} {n m : RelationName} {relation : Relation}

/-- A store with the relations and the indexes that a registry calls for. -/
structure Prepared (s : Store) (r : Registry) : Prop where
  names_eq : s.relations.map (·.1) = r.layout.map (·.1)
  hasIndex : ∀ e ∈ r.layout, ∀ c ∈ r.indexedColumns e.1 e.2, s.hasIndex (e.1.indexName c) = true

/-- The relations that a registry calls for are declarable. -/
theorem isDeclarable_of_mem_layout (h : n ∈ r.layout.map (·.1)) : n.IsDeclarable := by
  simp only [Registry.layout, List.map_append, List.mem_append, List.mem_map] at h
  obtain (⟨_, ⟨_, -, rfl⟩, rfl⟩ | ⟨_, ⟨_, -, rfl⟩, rfl⟩) | ⟨_, ⟨_, -, rfl⟩, rfl⟩ := h <;> trivial

namespace Prepared

variable (h : s.Prepared r)

include h

theorem put (n : RelationName) (relation : Relation) : (s.put n relation).Prepared r where
  names_eq := by
    rw [Store.put, List.map_map]
    exact h.names_eq
  hasIndex := h.hasIndex

/-- Only relations that the registry calls for are there. -/
theorem mem_layout (hfind : s.find? n = some relation) : n ∈ r.layout.map (·.1) := by
  rw [← h.names_eq]
  by_contra hn
  rw [find?_eq_none hn] at hfind
  cases hfind

theorem locate_text (hfind : s.find? n = some relation) : s.locate n.text = n := by
  have hnames := h.names_eq
  refine Store.locate_text (fun m hm => isDeclarable_of_mem_layout (hnames ▸ hm)) ?_
  rw [hnames]
  exact h.mem_layout hfind

theorem named_text (hfind : s.find? n = some relation) :
    s.named ⟨none, n.text⟩ = .ok (n, relation) := by
  rw [named, named?, h.locate_text hfind, hfind]
  rfl

end Prepared

theorem find?_put_self (hfind : s.find? n = some relation) (relation' : Relation) :
    (s.put n relation').find? n = some relation' := by
  rw [find?_put, if_pos rfl, hfind]
  rfl

/-- Only what was put in the place of a relation last is left. -/
theorem put_put (relation relation' : Relation) :
    (s.put n relation).put n relation' = s.put n relation' := by
  simp only [put, List.map_map]
  congr 1
  refine List.map_congr_left fun e _ => ?_
  simp only [Function.comp_apply]
  split <;> rfl

/-- To put the contents of a relation in their place changes nothing. -/
theorem put_self (hnames : (s.relations.map (·.1)).Nodup) (hfind : s.find? n = some relation) :
    s.put n relation = s := by
  have hsame : ∀ e ∈ s.relations, (e.1, if e.1 = n then relation else e.2) = e := by
    intro e he
    split
    · next hname =>
      have hfound : s.find? e.1 = some e.2 := (lookup_eq_some_iff_mem hnames).mpr he
      rw [hname, hfind] at hfound
      rw [Option.some.inj hfound]
    · rfl
  have hmap : (s.relations.map fun e => (e.1, if e.1 = n then relation else e.2)) = s.relations :=
    (List.map_congr_left hsame).trans (List.map_id _)
  exact with_relations hmap.symm

end Store

/-! ### Statements that create something -/

namespace DumpTable

open Statement

variable {d : DumpTable} {s : Store} {r : Registry} {relation : Relation}
  {record : List (String × Cell)}

theorem columnNames_eq (d : DumpTable) :
    d.shape.toRelation.columnNames = d.columns.map (·.name) := by
  obtain ⟨n, shape, indexed⟩ := d
  cases shape <;> rfl

/-- The statement that creates a relation leaves a store that has it as it is. -/
theorem Creatable.turns_createTable (hd : d.Creatable) (hs : s.Prepared r)
    (hfind : s.find? d.name = some relation) : Turns (createTableText d.name.text d.shape) s s := by
  have hbare := RelationName.isBare_text hd.declarable
  have hcolumns : ∀ c ∈ d.shape.toRelation.columnNames, Identifier.Readable c := by
    rw [d.columnNames_eq]
    exact List.forall_mem_map.mpr hd.readable
  have hreads := readsAs_createTableText hbare.readable hcolumns
  rw [hbare.denoted_eq] at hreads
  have hlocate := hs.locate_text hfind
  have hresolve : (Statement.createTable d.name.text d.shape.denoted true).resolve s =
      .ok (.createTable d.name.text d.shape.denoted true) := by
    rw [resolve, hlocate, hfind]
    rfl
  refine hreads.turns hresolve rfl ?_
  -- The table exists, so the statement leaves the store as it is.
  rw [perform, hlocate, Store.create, hfind]
  rfl

/-- The statement that creates an index leaves a store that has it as it is. -/
theorem Creatable.turns_createIndex (hd : d.Creatable) (hs : s.Prepared r)
    (hfind : s.find? d.name = some relation) {column : String} (hcolumn : column ∈ d.indexed)
    (hindex : s.hasIndex (d.name.indexName column) = true) :
    Turns (createIndexText (d.name.indexName column) d.name.text column) s s := by
  obtain ⟨hsnake, hreadable⟩ := hd.indexed column hcolumn
  have hbare := RelationName.isBare_text hd.declarable
  have hname := RelationName.isBare_indexName hd.declarable hsnake
  have hreads := readsAs_createIndexText hname.readable hbare.readable hreadable
  rw [hbare.denoted_eq, hname.denoted_eq] at hreads
  have hresolve : (Statement.createIndex (d.name.indexName column) d.name.text
      [Identifier.denoted column] true).resolve s =
        .ok (.createIndex (d.name.indexName column) d.name.text [Identifier.denoted column] true) := by
    rw [resolve, hs.locate_text hfind, hfind]
    dsimp only
    rw [hindex]
    rfl
  refine hreads.turns hresolve rfl ?_
  rw [perform, hindex]
  rfl

/-- What creates a relation and its indexes leaves a store that has them as it is. -/
theorem Creatable.turns_creation (hd : d.Creatable) (hs : s.Prepared r)
    (hfind : s.find? d.name = some relation)
    (hindex : ∀ c ∈ d.indexed, s.hasIndex (d.name.indexName c) = true) :
    ∀ text ∈ d.creation, Turns text s s := by
  rw [creation, List.forall_mem_cons, List.forall_mem_map]
  refine ⟨hd.turns_createTable hs hfind, fun c hc => ?_⟩
  have hc : c ∈ d.indexed := (List.mergeSort_perm _ _).mem_iff.mp hc
  exact hd.turns_createIndex hs hfind hc (hindex c hc)

/-! ### Statements that add a record -/

/-- The columns of a relation are those of the registry, as a store knows them. -/
theorem Creatable.columnNames_of_cleared (hd : d.Creatable)
    (hshape : relation.cleared = d.shape.toRelation.denoted) :
    relation.columnNames = d.columns.map (·.denoted.name) := by
  rw [hd.columnNames_eq, ← hshape]
  cases relation <;> rfl

/-- The statement that adds a record names the columns of its relation. -/
theorem Creatable.resolve_statementOf (hd : d.Creatable) (hs : s.Prepared r) (h : d.Aligned record)
    (hreal : ∀ x, .real x ∈ record.map (·.2) → Number.ReadsBack x)
    (hfind : s.find? d.name = some relation)
    (hshape : relation.cleared = d.shape.toRelation.denoted) :
    (d.statementOf record).resolve s = .ok (d.statementOf record) := by
  have hchanged : changedRelation s ⟨none, d.name.text⟩ = .ok relation := by
    rw [changedRelation, RelationName.catalogue?_text hd.declarable, hs.named_text hfind]
    rfl
  -- The relation has the columns that the statement names, in the same spelling.
  have hcolumn : ∀ column ∈ d.columns.map (·.denoted.name), relation.resolve? column = some column := by
    intro column hcolumn
    unfold Relation.resolve?
    rw [hd.columnNames_of_cleared hshape, Identifier.find?_same hd.distinct hcolumn]
    rfl
  -- Only a bare word would fail the check, and no value is written as one.
  have hcheck : ∀ v ∈ d.columns.map (valueOf record), v.check = .ok () := by
    refine List.forall_mem_map.mpr fun c hc => ?_
    have hliteral := (hd.valueOf_eq h hreal c hc).2.1
    cases hv : valueOf record c with
    | word =>
      rw [hv] at hliteral
      exact hliteral.elim
    | parameter | null | integer | number | text => rfl
  rw [statementOf, resolve, hchanged, ok_bind, mapM_eq_ok (g := id) ?_, ok_bind, forM_eq_ok hcheck, ok_bind,
    List.map_id, if_neg (by simp)]
  · rfl
  · intro column hmem
    rw [hcolumn column hmem]
    rfl

/-- A record is added by its statement if the store adds its cells. -/
theorem Creatable.turns_insertion (hd : d.Creatable) (hs : s.Prepared r) (h : d.Aligned record)
    (hreal : ∀ x, .real x ∈ record.map (·.2) → Number.ReadsBack x)
    (hfind : s.find? d.name = some relation)
    (hshape : relation.cleared = d.shape.toRelation.denoted) {s' : Store} {i : Int}
    (hinsert : s.insert d.name (record.map fun f => (f.1, f.2.toValue)) = .ok (s', i)) :
    Turns (d.insertionText record) s s' := by
  have hvalues := hd.valueOf_eq h hreal
  refine (hd.insertion_eq h hreal).2.turns (hd.resolve_statementOf hs h hreal hfind hshape) ?_ ?_
  · -- No value waits for a parameter.
    refine List.countP_eq_zero.mpr (List.forall_mem_map.mpr fun c hc => ?_)
    have hliteral := (hvalues c hc).2.1
    cases hv : valueOf record c with
    | parameter =>
      rw [hv] at hliteral
      exact hliteral.elim
    | word | null | integer | number | text => simp
  · -- The values stand for the cells that the record was written from.
    have hcells : (d.columns.map (·.denoted.name)).zip
        ((d.columns.map (valueOf record)).map fun v => (v.cell []).toValue) =
          record.map fun f => (f.1, f.2.toValue) := by
      rw [List.map_map, List.zip_map']
      conv => rhs; rw [h.eq_map hd, List.map_map]
      refine List.map_congr_left fun c hc => ?_
      simp only [Function.comp_apply, (hvalues c hc).2.2]
    rw [statementOf, perform, hs.named_text hfind, ok_bind]
    dsimp only
    rw [hcells, hinsert]
    rfl

/-- The cells of a record are those for its values. -/
theorem Aligned.toCells_eq (h : d.Aligned record) (hd : d.Creatable) :
    Store.toCells (record.map fun f => (f.1, f.2.toValue)) = .ok record := by
  have hcell : ∀ f ∈ record, ∀ place, f.2.toValue.toCell place = .ok f.2 := by
    rw [h.eq_map hd]
    exact List.forall_mem_map.mpr fun c hc => (h.holds c hc).toCell_toValue
  have hcells : Value.toCells ((record.map fun f => (f.1, f.2.toValue)).map (·.2)) =
      .ok (record.map (·.2)) := by
    -- The place of a value is only used in the error for one that is refused.
    have hplaced : ∀ p ∈ record.zipIdx, p.1.2.toValue.toCell (p.2 + 1) = .ok p.1.2 := fun p hp =>
      hcell p.1 (List.fst_mem_of_mem_zipIdx hp) _
    rw [Value.toCells, List.map_map, List.zipIdx_map, List.mapM_map]
    refine (mapM_eq_ok hplaced).trans ?_
    conv => rhs; rw [← List.zipIdx_map_fst 0 record, List.map_map]
    rfl
  rw [Store.toCells, hcells, ok_bind, List.map_map, List.zip_map']
  exact congrArg Except.ok (List.map_id record)

/-- Every column of a record is there. -/
theorem Creatable.find?_missing (hd : d.Creatable) (h : d.Aligned record)
    (hshape : relation.cleared = d.shape.toRelation.denoted) :
    (record.map fun f => (f.1, f.2.toValue)).find? (fun x => (relation.columnType? x.1).isNone) = none := by
  rw [List.find?_eq_none]
  refine List.forall_mem_map.mpr fun f hf => ?_
  have hname : f.1 ∈ relation.columnNames := by
    rw [hd.columnNames_of_cleared hshape, ← h.names]
    exact List.mem_map_of_mem hf
  simp [Option.isSome_iff_ne_none.mp (isSome_columnType? hname)]

/-- A record with a larger id than all others is added behind them. -/
theorem Creatable.insert_record (hd : d.Creatable) {columns : List Column} {rows : List Record}
    {row : Record} (h : d.Aligned row.fields) (hfind : s.find? d.name = some (.records columns rows))
    (hshape : (Relation.records columns rows).cleared = d.shape.toRelation.denoted)
    (hlast : ∀ other ∈ rows, other.id < row.id) :
    s.insert d.name (row.fields.map fun f => (f.1, f.2.toValue)) =
      .ok (s.put d.name (.records columns (rows ++ [row])), row.id) := by
  -- All ids before are smaller, and so the id is not taken.
  have hnew : rows.any (·.id == row.id) = false := by
    rw [List.any_eq_false]
    intro other hother
    have hlt := hlast other hother
    simp only [beq_iff_eq]
    omega
  have hmissing := hd.find?_missing h hshape
  -- What is stored for a cell is the cell itself, since its column kept it before.
  have hcells : Store.newCells columns row.fields = row.cells := by
    have hfields := h.eq_map hd
    have hholds := h.holds
    obtain ⟨n, shape, indexed⟩ := d
    cases shape with
    | pairs => cases hshape
    | records columns' =>
      obtain rfl : columns = columns'.map Column.denoted := (Relation.records.inj hshape).1
      have htail : row.cells = columns'.map fun c => (c.denoted.name, cellOf row.fields c) :=
        (List.cons.inj hfields).2
      rw [htail, Store.newCells, List.map_map]
      refine List.map_congr_left fun c hc => ?_
      have hkept := (hholds c (List.mem_cons_of_mem _ hc)).store_eq
      rw [Function.comp_apply]
      exact congrArg (c.denoted.name, ·) hkept
  have hid : (row.fields.lookup "id").getD .null = .int row.id := rfl
  rw [Store.insert, Store.relation, hfind, ok_bind, hmissing]
  dsimp only
  rw [h.toCells_eq hd]
  -- The id is the one that is given, and the record comes behind the others.
  change (Store.chooseId rows ((row.fields.lookup "id").getD .null) >>= fun i => _) = _
  rw [hid]
  change (if rows.any (·.id == row.id) = true then _ else _) = _
  rw [hnew, hcells, if_neg Bool.false_ne_true, Store.insertRecord_eq_append hlast]
  rfl

/-- A pair of ids that is not there is added behind the others. -/
theorem Creatable.insert_pair (hd : d.Creatable) {first second : String} {pairs : List CellPair}
    {a b : Int} (h : d.Aligned (CellPair.fields first second (.int a, .int b)))
    (hfind : s.find? d.name = some (.pairs first second pairs))
    (hshape : (Relation.pairs first second pairs).cleared = d.shape.toRelation.denoted)
    (hnew : (.int a, .int b) ∉ pairs) :
    s.insert d.name ((CellPair.fields first second (.int a, .int b)).map fun f => (f.1, f.2.toValue)) =
      .ok (s.put d.name (.pairs first second (pairs ++ [(.int a, .int b)])), 0) := by
  have hmissing := hd.find?_missing h hshape
  have hne : second ≠ first := by
    have hnodup := hd.nodup
    rw [← h.names] at hnodup
    have hfirst := (List.nodup_cons.mp hnodup).1
    exact fun heq => hfirst (by simp [heq])
  -- Each key is found under the name of its column.
  have hcells : ((CellPair.fields first second (.int a, .int b)).lookup first).getD .null = .int a ∧
      ((CellPair.fields first second (.int a, .int b)).lookup second).getD .null = .int b := by
    simp [CellPair.fields, List.lookup_cons, beq_false_of_ne hne]
  rw [Store.insert, Store.relation, hfind, ok_bind, hmissing]
  dsimp only
  rw [h.toCells_eq hd]
  change (Relation.withPair d.name first second pairs
    (((CellPair.fields first second _).lookup first).getD .null,
      ((CellPair.fields first second _).lookup second).getD .null) >>= fun rows => _) = _
  rw [hcells.1, hcells.2]
  change ((if (Cell.int a, Cell.int b) ∈ pairs then _ else _) >>= fun rows => _) = _
  rw [if_neg hnew]
  rfl

/-- Statements that put one entry after the other behind those of a relation fill it. -/
theorem replays_entries {α : Type} {n : RelationName} {entries : List α} (build : List α → Relation)
    {text : α → String} (hnodup : (r.layout.map (·.1)).Nodup) (hs : s.Prepared r)
    (hfind : s.find? n = some (build []))
    (hstep : ∀ done x rest, entries = done ++ x :: rest → ∀ t : Store, t.Prepared r →
      t.find? n = some (build done) → Turns (text x) t (t.put n (build (done ++ [x])))) :
    Replays (entries.map text) s (s.put n (build entries)) := by
  -- The entries that are done already stand in the relation.
  have hrest : ∀ rest done, entries = done ++ rest → ∀ t : Store, t.Prepared r →
      t.find? n = some (build done) → Replays (rest.map text) t (t.put n (build entries)) := by
    intro rest
    induction rest with
    | nil =>
      intro done hentries t ht hfound
      rw [List.append_nil] at hentries
      rw [hentries, Store.put_self (ht.names_eq ▸ hnodup) hfound]
      exact .nil t
    | cons x rest ih =>
      intro done hentries t ht hfound
      have hnext := ih (done ++ [x]) (by rw [hentries]; simp) _ (ht.put n _)
        (Store.find?_put_self hfound (build (done ++ [x])))
      rw [Store.put_put] at hnext
      exact .cons (hstep done x rest hentries t ht hfound) hnext
  exact hrest entries [] rfl s hs hfind

/-- The statements for the records of a relation fill it, if it is empty. -/
theorem Creatable.replays_insertions (hd : d.Creatable) (hnodup : (r.layout.map (·.1)).Nodup)
    (hs : s.Prepared r) (hfind : s.find? d.name = some relation.cleared)
    (hshape : relation.cleared = d.shape.toRelation.denoted) (htyped : relation.Typed)
    (hreal : relation.ReadsBack) :
    Replays (relation.fields.map d.insertionText) s (s.put d.name relation.ordered) := by
  have haligned := hd.aligned hshape htyped
  cases relation with
  | records columns rows =>
    rw [Relation.fields, List.map_map]
    refine replays_entries (.records columns) hnodup hs hfind ?_
    intro done row rest hrows t ht hfound
    have hmem : row.fields ∈ (Relation.records columns rows).stored :=
      List.mem_map_of_mem (by rw [hrows]; simp)
    -- Records are written in the order of their ids, each behind all that are there.
    have hlast : ∀ other ∈ done, other.id < row.id := by
      have hascend := htyped.1
      rw [hrows, List.pairwise_append] at hascend
      exact fun other hother => hascend.2.2 other hother row List.mem_cons_self
    exact hd.turns_insertion ht (haligned _ hmem) (hreal _ hmem) hfound hshape
      (hd.insert_record (haligned _ hmem) hfound hshape hlast)
  | pairs first second rows =>
    rw [Relation.fields, List.map_map]
    refine replays_entries (.pairs first second) hnodup hs hfind ?_
    intro done pair rest hrows t ht hfound
    have hpair : pair ∈ rows := CellPair.mem_sort.mp (by rw [hrows]; simp)
    have hmem : CellPair.fields first second pair ∈ (Relation.pairs first second rows).stored :=
      List.mem_map_of_mem hpair
    -- No pair is recorded twice, so none is refused when it is written back.
    have hnew : pair ∉ done := by
      have hdistinct := (CellPair.perm_sort rows).nodup_iff.mpr htyped.1
      rw [hrows, List.nodup_append] at hdistinct
      exact fun hdone => hdistinct.2.2 pair hdone pair List.mem_cons_self rfl
    obtain ⟨a, b, rfl, -⟩ := htyped.2 pair hpair
    exact hd.turns_insertion ht (haligned _ hmem) (hreal _ hmem) hfound hshape
      (hd.insert_pair (haligned _ hmem) hfound hshape hnew)

end DumpTable

end SoarProject
