import SoarProject.Archive.Dump
import SoarProject.Proofs.Row.Lookup
import SoarProject.Proofs.Statement.Reading
import SoarProject.Proofs.Store.Insertion
import SoarProject.Proofs.Store.Layout
import SoarProject.Proofs.Store.Naming
import SoarProject.Statement.Execution

/-!
# What a dump writes

A store conforms to a registry if it has the relations that the registry calls for, with cells of their
declared types. A dump of such a store writes one statement for each record, which holds the cells of the
record under the names of their columns.

* `Relation.Typed`, `Store.Conforms`: the stores that have a dump.
* `Relation.Typed.fields_ordered`: the order in which a relation is written.
* `DumpTable.Creatable`: a relation whose statements can be read back.
* `DumpTable.Creatable.insertion_eq`: the statement for a record.
-/

namespace SoarProject

/-! ### Stores that conform to a registry -/

/-- A cell of its declared type, as a column keeps it: null, an integer that fits, a finite number, or a
text without the character that ends a text. -/
def StoredType.Holds : StoredType → Cell → Prop
  | _, .null => True
  | .integer, .int n => fitsInteger n = true
  | .float, .real x => x.isFinite = true ∧ StoredType.float.store (.real x) = .real x
  | .name, .text s | .text, .text s => '\x00' ∉ s.toList
  | _, _ => False

/-- The records of a relation have different ids in ascending order, and the cells of its columns with
their types; pairs are different pairs of ids. -/
def Relation.Typed : Relation → Prop
  | .records columns rows =>
    rows.Pairwise (·.id < ·.id) ∧ ∀ row ∈ rows, fitsInteger row.id = true ∧
      row.cells.map (·.1) = columns.map (·.name) ∧ ∀ c ∈ columns, c.type.Holds (row.get c.name)
  | .pairs _ _ rows =>
    rows.Nodup ∧ ∀ p ∈ rows, ∃ a b, p = (.int a, .int b) ∧ fitsInteger a = true ∧ fitsInteger b = true

/-- Every relation that a registry calls for is there with its columns, and its contents have their
types. -/
def Store.Conforms (s : Store) (r : Registry) : Prop :=
  ∀ e ∈ r.layout, ∃ relation, s.find? e.1 = some relation ∧ relation.cleared = e.2.denoted ∧
    relation.Typed

/-- Every floating-point number in a relation is read back from its literal. -/
def Relation.ReadsBack (relation : Relation) : Prop :=
  ∀ record ∈ relation.stored, ∀ x, .real x ∈ record.map (·.2) → Number.ReadsBack x

/-- Every floating-point number in a store is read back from its literal. -/
def Store.ReadsBack (s : Store) : Prop := ∀ n relation, s.find? n = some relation → relation.ReadsBack

namespace Relation

variable {relation : Relation}

/-- The relation with its pairs in order. -/
def ordered : Relation → Relation
  | .records columns rows => .records columns rows
  | .pairs first second rows => .pairs first second (CellPair.sort rows)

/-- Order changes no column. -/
theorem cleared_ordered (relation : Relation) : relation.ordered.cleared = relation.cleared := by
  cases relation <;> rfl

/-- Order changes no record. -/
theorem mem_stored_ordered {record : List (String × Cell)} :
    record ∈ relation.ordered.stored ↔ record ∈ relation.stored := by
  cases relation with
  | records => rfl
  | pairs => exact ((CellPair.perm_sort _).map _).mem_iff

theorem Typed.ordered (h : relation.Typed) : relation.ordered.Typed := by
  cases relation with
  | records => exact h
  | pairs first second rows =>
    exact ⟨(CellPair.perm_sort rows).nodup_iff.mpr h.1, fun p hp => h.2 p (CellPair.mem_sort.mp hp)⟩

theorem ReadsBack.ordered (h : relation.ReadsBack) : relation.ordered.ReadsBack :=
  fun record hrecord => h record (mem_stored_ordered.mp hrecord)

/-- Records are looked at in order. -/
theorem Typed.fields_ordered (h : relation.Typed) : relation.ordered.fields = relation.fields := by
  cases relation with
  | records => rfl
  | pairs first second rows =>
    have hids : ∀ p ∈ rows, CellPair.IsIds p := by
      intro p hp
      obtain ⟨a, b, hab, -⟩ := h.2 p hp
      exact ⟨a, b, hab⟩
    change (CellPair.sort (CellPair.sort rows)).map _ = _
    rw [CellPair.sort_eq_self (CellPair.pairwise_sort hids)]
    rfl

end Relation

/-! ### Values -/

namespace StoredType.Holds

variable {type : StoredType} {c : Cell} (h : type.Holds c)

include h

/-- A cell of its type is kept by its column. -/
theorem store_eq : type.store c = c := by
  cases c with
  | null => exact store_null type
  | int n => cases type <;> first | rfl | exact h.elim
  | real x =>
    cases type with
    | float => exact h.2
    | integer | name | text => exact h.elim
  | text s => cases type <;> first | rfl | exact h.elim

/-- A cell of its type can be bound as a value. -/
theorem toCell_toValue (place : Nat) : c.toValue.toCell place = .ok c := by
  cases c with
  | null | text => rfl
  | int n =>
    have hfits : fitsInteger n = true := by cases type <;> first | exact h | exact h.elim
    exact if_pos hfits
  | real x =>
    have hfinite : x.isFinite = true := by cases type <;> first | exact h.1 | exact h.elim
    rw [Cell.toValue, Value.toCell, (Number.not_special_of_isFinite hfinite).1]
    rfl

/-- A cell of its type is written as a value that stands for it. -/
theorem exists_term (hreal : ∀ x, c = .real x → Number.ReadsBack x) :
    ∃ v, type.term? c = some v ∧ v.IsLiteral ∧ v.cell [] = c := by
  cases c with
  | null => exact ⟨.null, by cases type <;> rfl, trivial, rfl⟩
  | int n =>
    cases type with
    | integer => exact ⟨.integer n, rfl, h, rfl⟩
    | float | name | text => exact h.elim
  | real x =>
    cases type with
    | float =>
      refine ⟨.number x, ?_, ⟨h.1, hreal x rfl⟩, rfl⟩
      -- A finite float is neither infinite nor NaN, so it is written as a number.
      rw [term?, Term.ofFloat, (Number.not_special_of_isFinite h.1).2]
      rfl
    | integer | name | text => exact h.elim
  | text s =>
    cases type with
    | name | text => exact ⟨.text s, rfl, trivial, rfl⟩
    | integer | float => exact h.elim

end StoredType.Holds

/-! ### Relations that can be read back -/

namespace DumpTable

/-- What a dump writes of a relation of a registry. -/
def ofEntry (r : Registry) (e : RelationName × Relation) : DumpTable :=
  ⟨e.1, .ofRelation e.2, r.indexedColumns e.1 e.2⟩

/-- A relation whose statements can be read back. -/
structure Creatable (d : DumpTable) : Prop where
  declarable : d.name.IsDeclarable
  readable : ∀ c ∈ d.columns, Identifier.Readable c.name
  /-- The store tells the columns apart. -/
  distinct : (d.columns.map (·.denoted.name)).Pairwise fun a b => ¬ Identifier.same b a
  columnNames_eq : d.columns.map (·.denoted.name) = d.shape.toRelation.denoted.columnNames
  indexed : ∀ c ∈ d.indexed, Identifier.IsSnake c ∧ Identifier.Readable c

/-- The relations of a dump are those of the registry. -/
theorem mem_dumpTables {r : Registry} {d : DumpTable} :
    d ∈ r.dumpTables ↔ ∃ e ∈ r.layout, ofEntry r e = d := by
  rw [Registry.dumpTables, (List.mergeSort_perm _ _).mem_iff]
  exact List.mem_map

/-! ### Records -/

/-- The cell of a record in a column. -/
def cellOf (record : List (String × Cell)) (c : Column) : Cell :=
  (record.lookup c.denoted.name).getD .null

/-- A record with the columns of a relation, whose cells have their types. -/
structure Aligned (d : DumpTable) (record : List (String × Cell)) : Prop where
  names : record.map (·.1) = d.columns.map (·.denoted.name)
  holds : ∀ c ∈ d.columns, c.type.Holds (cellOf record c)

variable {d : DumpTable} {record : List (String × Cell)} {relation : Relation}

theorem Creatable.nodup (h : d.Creatable) : (d.columns.map (·.denoted.name)).Nodup := by
  refine h.distinct.imp ?_
  rintro a _ hsame rfl
  exact hsame (Identifier.same_self a)

/-- A list of pairs is told by its first parts, if none is repeated, and by what is found for them. -/
theorem eq_map_lookup {names : List String} (h : record.map (·.1) = names) (hnodup : names.Nodup) :
    record = names.map fun name => (name, (record.lookup name).getD .null) := by
  subst h
  rw [List.map_map]
  conv => lhs; rw [← List.map_id record]
  refine List.map_congr_left fun f hf => ?_
  have hfound : record.lookup f.1 = some f.2 := (lookup_eq_some_iff_mem hnodup).mpr hf
  rw [Function.comp_apply, hfound]
  rfl

theorem Aligned.eq_map (h : d.Aligned record) (hd : d.Creatable) :
    record = d.columns.map fun c => (c.denoted.name, cellOf record c) := by
  have hrecord := eq_map_lookup h.names hd.nodup
  rwa [List.map_map] at hrecord

/-- The records of a relation with its types have its columns. -/
theorem Creatable.aligned (hd : d.Creatable) (hshape : relation.cleared = d.shape.toRelation.denoted)
    (h : relation.Typed) : ∀ record ∈ relation.stored, d.Aligned record := by
  obtain ⟨n, shape, indexed⟩ := d
  have hnodup := hd.nodup
  cases shape with
  | records columns =>
    cases relation with
    | pairs => cases hshape
    | records columns' rows =>
      obtain ⟨rfl⟩ : columns.map Column.denoted = columns' := (Relation.records.inj hshape).1.symm
      rintro _ hrecord
      obtain ⟨row, hrow, rfl⟩ := List.mem_map.mp hrecord
      obtain ⟨hid, hnames, hcells⟩ := h.2 row hrow
      have hdenoted : (Column.mk "id" .integer).denoted.name = "id" := by decide
      -- No column is called like the id, so a look-up passes the id by.
      have hne : ∀ c ∈ columns, c.denoted.name ≠ "id" := by
        intro c hc heq
        have hid : "id" ∉ columns.map (·.denoted.name) := hdenoted ▸ (List.nodup_cons.mp hnodup).1
        exact hid (heq ▸ List.mem_map_of_mem hc)
      refine ⟨?_, List.forall_mem_cons.mpr ⟨?_, fun c hc => ?_⟩⟩
      · change "id" :: row.cells.map (·.1) = (Column.mk "id" .integer).denoted.name :: _
        rw [hnames, hdenoted, List.map_map]
        rfl
      · rw [cellOf, hdenoted]
        exact hid
      · have hget : cellOf row.fields c = row.get c.denoted.name := by
          rw [cellOf, Record.fields, List.lookup_cons, beq_false_of_ne (hne c hc), Record.get,
            if_neg (hne c hc)]
        rw [hget]
        exact hcells c.denoted (List.mem_map_of_mem hc)
  | pairs first second =>
    cases relation with
    | records => cases hshape
    | pairs first' second' rows =>
      obtain ⟨rfl, rfl, -⟩ := Relation.pairs.inj hshape
      intro _ hrecord
      obtain ⟨p, hp, rfl⟩ := List.mem_map.mp hrecord
      obtain ⟨a, b, rfl, ha, hb⟩ := h.2 p hp
      have hnames : [Identifier.denoted first', Identifier.denoted second'] = [first', second'] :=
        hd.columnNames_eq
      simp only [List.cons.injEq, and_true] at hnames
      -- The columns of a join have different names, so each key is looked up in its own place.
      have hne : second' ≠ first' := by
        have hfirst := (List.nodup_cons.mp hnodup).1
        simp only [List.map_cons, List.map_nil, List.mem_singleton, Column.denoted, hnames] at hfirst
        exact Ne.symm hfirst
      refine ⟨?_, ?_⟩
      · simp [CellPair.fields, columns, Column.denoted, hnames]
      · simpa [columns, cellOf, CellPair.fields, Column.denoted, hnames, List.lookup_cons,
          beq_false_of_ne hne] using ⟨ha, hb⟩

/-! ### Statements -/

/-- The columns of a relation are found in it. -/
theorem isSome_columnType? {c : String} (h : c ∈ relation.columnNames) :
    (relation.columnType? c).isSome = true := by
  cases relation with
  | records columns rows =>
    rw [Relation.columnType?]
    split
    · rfl
    · next hid =>
      obtain ⟨column, hcolumn, rfl⟩ := List.mem_map.mp ((List.mem_cons.mp h).resolve_left hid)
      rw [Option.isSome_map, List.find?_isSome]
      exact ⟨column, hcolumn, beq_self_eq_true _⟩
  | pairs first second rows =>
    have hname : c = first ∨ c = second := by simpa [Relation.columnNames] using h
    rw [Relation.columnType?, if_pos hname]
    rfl

/-- The contents of a relation are its records, under the names that the registry has for the columns. -/
theorem Creatable.contents_eq (hd : d.Creatable) {s : Store} (hfind : s.find? d.name = some relation)
    (hshape : relation.cleared = d.shape.toRelation.denoted) :
    d.contents s = .ok (relation.fields.map fun record =>
      d.columns.map fun c => (c.name, cellOf record c)) := by
  -- The dump asks for the declared columns, which are those that the relation has.
  have hnames : d.columns.map (·.denoted.name) = relation.columnNames := by
    rw [hd.columnNames_eq, ← hshape]
    cases relation <;> rfl
  have hcheck : Store.checkColumns d.name relation (d.columns.map (·.denoted.name)) = .ok () := by
    have hnone : (d.columns.map (·.denoted.name)).find? (fun c => (relation.columnType? c).isNone) =
        none := by
      rw [hnames, List.find?_eq_none]
      intro c hc
      simp [Option.isSome_iff_ne_none.mp (isSome_columnType? hc)]
    rw [Store.checkColumns, hnone]
  rw [contents, Store.relation, hfind]
  change (Store.checkColumns d.name relation _ >>= fun _ => _) = _
  rw [hcheck]
  rfl

/-- The value that is written for a cell of a record. -/
def valueOf (record : List (String × Cell)) (c : Column) : Term :=
  (c.type.term? (cellOf record c)).getD .null

/-- The statement that adds a record. -/
def statementOf (d : DumpTable) (record : List (String × Cell)) : Statement :=
  .insert ⟨none, d.name.text⟩ (d.columns.map (·.denoted.name)) (d.columns.map (valueOf record))

/-- The text of that statement. -/
def insertionText (d : DumpTable) (record : List (String × Cell)) : String :=
  Statement.insertText d.name.text (d.columns.map (·.name)) (d.columns.map (valueOf record))

/-- The values that are written for a record with finite numbers are literals for its cells. -/
theorem Creatable.valueOf_eq (hd : d.Creatable) (h : d.Aligned record)
    (hreal : ∀ x, .real x ∈ record.map (·.2) → Number.ReadsBack x) :
    ∀ c ∈ d.columns, c.type.term? (cellOf record c) = some (valueOf record c) ∧
      (valueOf record c).IsLiteral ∧ (valueOf record c).cell [] = cellOf record c := by
  intro c hc
  have hmem : cellOf record c ∈ record.map (·.2) := by
    have hcell : cellOf record c ∈ (d.columns.map fun c => (c.denoted.name, cellOf record c)).map (·.2) :=
      List.mem_map_of_mem (List.mem_map_of_mem hc)
    rwa [← h.eq_map hd] at hcell
  obtain ⟨v, hv, hliteral, hcell⟩ :=
    (h.holds c hc).exists_term fun x hx => hreal x (hx ▸ hmem)
  rw [valueOf, hv]
  exact ⟨rfl, hliteral, hcell⟩

/-- A record is written as a statement that is read back. -/
theorem Creatable.insertion_eq (hd : d.Creatable) (h : d.Aligned record)
    (hreal : ∀ x, .real x ∈ record.map (·.2) → Number.ReadsBack x) :
    d.insertion (d.columns.map fun c => (c.name, cellOf record c)) = .ok (d.insertionText record) ∧
      Statement.ReadsAs (d.insertionText record) (d.statementOf record) := by
  have hvalues := hd.valueOf_eq h hreal
  refine ⟨?_, ?_⟩
  · rw [insertion, ← List.map_prod_left_eq_zip, List.mapM_map, mapM_eq_ok (g := valueOf record) ?_]
    · rfl
    · intro c hc
      rw [Function.comp_apply]
      dsimp only
      rw [(hvalues c hc).1]
  · have hbare := RelationName.isBare_text hd.declarable
    -- Either kind of table has a first column, so there is something to insert.
    have hne : d.columns ≠ [] := by
      unfold columns
      split <;> exact List.cons_ne_nil _ _
    have hreads := Statement.readsAs_insertText hbare.readable (List.forall_mem_map.mpr hd.readable)
      (List.forall_mem_map.mpr fun c hc => (hvalues c hc).2.1) (by simpa using hne) (by simpa using hne)
    rwa [hbare.denoted_eq, List.map_map] at hreads

end DumpTable

/-! ### Registries whose relations can be created -/

namespace Registry

variable {r : Registry}

/-- A registry whose relations can be created, with columns that can be used. -/
structure Creatable (r : Registry) : Prop where
  coherent : r.Coherent
  usable : r.unusableColumn? = none
  created : (Store.createAll {} r true).2 = none

/-- Names that can be used are not empty. -/
theorem ne_empty_of_unusable? {seen names : List String} (h : unusable? seen names = none) :
    ∀ name ∈ names, name ≠ "" := by
  induction names generalizing seen with
  | nil => exact List.forall_mem_nil _
  | cons name rest ih =>
    rw [unusable?] at h
    split at h
    · cases h
    · next hname =>
      split at h
      · cases h
      · exact List.forall_mem_cons.mpr ⟨hname, ih h⟩

/-- The columns of a table can be read back, and a store tells them apart. -/
theorem Creatable.columnsOf (h : r.Creatable) (t : Table) :
    (∀ c ∈ r.columnsOf t, Identifier.Readable c.name) ∧
      ("id" :: (r.columnsOf t).map (·.denoted.name)).Pairwise fun a b => ¬ Identifier.same b a := by
  have husable : unusable? [] (r.columnNamesOf t) = none :=
    List.findSome?_eq_none_iff.mp h.usable t (Table.mem_all t)
  -- The creation went through, so it met no column that it refuses.
  have hcreatable : Store.uncreatable? ["id"] (r.columnsOf t) = none := by
    have hmem : (RelationName.entity t, Relation.records (r.columnsOf t) []) ∈ r.layout := by
      simp [layout, Table.mem_all]
    have hnames : (({} : Store).relations.map (·.1) ++ r.layout.map (·.1)).Nodup :=
      h.coherent.nodup_layout
    exact Store.uncreatableColumn?_eq_none hnames h.created _ hmem
  obtain ⟨hkeyword, hid, hdistinct⟩ := Store.uncreatable?_eq_none_iff.mp hcreatable
  refine ⟨fun c hc => ⟨?_, hkeyword c hc⟩, List.pairwise_cons.mpr ⟨?_, List.pairwise_map.mpr hdistinct⟩⟩
  · exact ne_empty_of_unusable? husable _ (List.mem_cons_of_mem _ (List.mem_map_of_mem hc))
  · exact List.forall_mem_map.mpr fun c hc => hid c hc "id" (by simp)

end Registry

/-- A relation of pairs can be read back, if the names of its columns are bare. -/
theorem DumpTable.creatable_pairs {n : RelationName} (hn : n.IsDeclarable) {first second : String}
    (hfirst : Identifier.IsBare first) (hsecond : Identifier.IsBare second) (hne : second ≠ first) :
    (DumpTable.mk n (.pairs first second) [first, second]).Creatable where
  declarable := hn
  readable := by simpa [columns] using ⟨hfirst.readable, hsecond.readable⟩
  distinct := by
    have hdifferent : ¬ Identifier.same second first := fun hsame =>
      hne (hsecond.isSnake.isSmall.eq_of_same hfirst.isSnake.isSmall hsame)
    simpa [columns, Column.denoted, hfirst.denoted_eq, hsecond.denoted_eq] using hdifferent
  columnNames_eq := by
    simp [columns, Column.denoted, hfirst.denoted_eq, hsecond.denoted_eq, Shape.toRelation,
      Relation.denoted, Relation.columnNames]
  indexed := by
    simpa using ⟨⟨hfirst.isSnake, hfirst.readable⟩, hsecond.isSnake, hsecond.readable⟩

/-- The name of a key is made of small letters and underscores. -/
theorem Table.isSnake_idName (t : Table) : Identifier.IsSnake t.idName := by
  have hname := t.isBare_tableName.isSnake
  refine Identifier.IsSnake.append ?_ (by decide)
  rw [Identifier.isSnake_iff, shortName, String.toList_ofList]
  exact fun c hc => Identifier.isSnake_iff.mp hname c (((List.dropLast_sublist _).mem hc))

/-- Every relation of such a registry can be read back. -/
theorem Registry.Creatable.dumpTable {r : Registry} (h : r.Creatable) {e : RelationName × Relation}
    (he : e ∈ r.layout) : (DumpTable.ofEntry r e).Creatable := by
  simp only [layout, List.mem_append, List.mem_map] at he
  rcases he with (⟨t, -, rfl⟩ | ⟨p, -, rfl⟩) | ⟨p, -, rfl⟩
  · -- A table has its id before the columns of the registry, and an index for each key.
    obtain ⟨hreadable, hdistinct⟩ := h.columnsOf t
    have hbare : Identifier.IsBare "id" := ⟨by decide, by decide, by decide⟩
    refine ⟨trivial, List.forall_mem_cons.mpr ⟨hbare.readable, hreadable⟩, ?_, ?_, ?_⟩
    · change (Identifier.denoted "id" :: _).Pairwise _
      rw [hbare.denoted_eq]
      exact hdistinct
    · change Identifier.denoted "id" :: _ = "id" :: _
      rw [hbare.denoted_eq, List.map_map]
      rfl
    · intro c hc
      obtain ⟨column, hcolumn, rfl⟩ := List.mem_map.mp hc
      refine ⟨?_, hreadable column ?_⟩
      · obtain ⟨p, -, rfl⟩ := List.mem_map.mp hcolumn
        exact p.isSnake_idName
      · simp [Registry.columnsOf, hcolumn]
  · -- The columns of a join are fixed, and both of them have an index.
    have hn : (RelationName.join p.1 p.2).IsDeclarable := trivial
    exact DumpTable.creatable_pairs hn ⟨by decide, by decide, by decide⟩
      ⟨by decide, by decide, by decide⟩ (by decide)
  · have hn : (RelationName.directed p.1 p.2).IsDeclarable := trivial
    exact DumpTable.creatable_pairs hn ⟨by decide, by decide, by decide⟩
      ⟨by decide, by decide, by decide⟩ (by decide)

end SoarProject
