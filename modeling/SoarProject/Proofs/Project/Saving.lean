import SoarProject.Proofs.Project.Clearing
import SoarProject.Proofs.Project.Counting
import SoarProject.Proofs.Row.Naming
import SoarProject.Proofs.Rule.Reader

/-!
# Saving a rule

Saving a text that reads as a production succeeds. Afterwards the rule keeps the text, the parts of the
production are what is below the rule, and nothing else has changed: no row beside the rule and what is
below it, and no pair.

* `Store.Frames`: nothing has changed but a row and what is below it.
* `Store.Revises`, `Store.Saves`: what saving a rule makes of a store.
* `ViewChange.gives_saveRuleText`: the steps of saving, and what the view remembers.
* `saveRuleText_saves`: saving succeeds, and makes that of the open store.
-/

namespace SoarProject

open Registry Rule

variable {st st₁ st₂ : Store} {r c q : Row} {t : Table} {column : String} {cell : Cell}
  {record : Record}

namespace Store

/-! ### What is beside a row -/

/-- A record whose row is neither `r` nor below it. -/
def IsBeside (st : Store) (r : Row) (t : Table) (record : Record) : Prop :=
  record ∈ st.rows t ∧ .ofId t record.id ≠ r ∧
    ¬ Relation.TransGen st.IsParent r (.ofId t record.id)

/-- Nothing has changed but the row `r` and what is below it. -/
structure Frames (st st₁ : Store) (r : Row) : Prop where
  integral : st₁.Integral
  has : st₁.Has r
  beside_iff : ∀ t record, st₁.IsBeside r t record ↔ st.IsBeside r t record
  pairs_eq : ∀ n : RelationName, n.IsJoin → st₁.pairsOf n = st.pairsOf n

/-- Of changes in a row all that is left is what is beside it. -/
theorem Frames.trans (h : st.Frames st₁ r) (h' : st₁.Frames st₂ r) : st.Frames st₂ r where
  integral := h'.integral
  has := h'.has
  beside_iff t record := (h'.beside_iff t record).trans (h.beside_iff t record)
  pairs_eq n hn := (h'.pairs_eq n hn).trans (h.pairs_eq n hn)

/-- A row that was there is below the rows that it was below. -/
theorem Grows.transGen_of_has (h : st.Grows st₁) (hst : st.Integral)
    (hrc : Relation.TransGen st₁.IsParent r c) (hc : st.Has c) :
    Relation.TransGen st.IsParent r c ∧ st.Has r := by
  induction hrc with
  | single hrc =>
    have hrc := h.isParent_of_has hc hrc
    exact ⟨.single hrc, hst.has_of_isParent hrc⟩
  | tail _ hbc ih =>
    have hbc := h.isParent_of_has hc hbc
    obtain ⟨hrb, hr⟩ := ih (hst.has_of_isParent hbc)
    exact ⟨hrb.tail hbc, hr⟩

/-- Putting a cell into a row changes its record alone. -/
theorem Integral.mem_rows_setCell (h : st.Integral) (hr : st.Has r) :
    record ∈ (st.setCell r column cell).rows t ↔
      (record ∈ st.rows t ∧ .ofId t record.id ≠ r) ∨
        ∃ old ∈ st.rows t, .ofId t old.id = r ∧ record = old.set [(column, cell)] := by
  obtain ⟨id, hid⟩ := hr.exists_id
  rw [setCell, h.shaped.rows_setRows]
  -- In the table of the row exactly the record with its id is changed.
  by_cases ht : t = r.table
  · have hrow : ∀ old : Record, r.id.identifies (.int old.id) = true ↔ .ofId t old.id = r := by
      intro old
      rw [hid, Row.ofId, int_identifies_int, decide_eq_true_iff, ← ht, Row.ofId, Row.mk.injEq]
      simp
    rw [if_pos ht, ← ht, List.mem_map]
    simp only [hrow]
    constructor
    · rintro ⟨old, hold, rfl⟩
      split
      · next heq => exact Or.inr ⟨old, hold, heq, rfl⟩
      · next hne => exact Or.inl ⟨hold, hne⟩
    · rintro (⟨hold, hne⟩ | ⟨old, hold, heq, rfl⟩)
      · exact ⟨record, hold, if_neg hne⟩
      · exact ⟨old, hold, if_pos heq⟩
  · -- No record of another table is touched.
    have hne : ∀ old : Record, .ofId t old.id ≠ r := fun old heq => ht (congrArg Row.table heq)
    rw [if_neg ht]
    simp [hne]

/-- Putting a cell into an attribute of a row changes nothing beside it. -/
theorem Integral.frames_setCell (h : st.Integral) (hr : st.Has r) (hcolumn : IsAttribute column)
    (cell : Cell) : st.Frames (st.setCell r column cell) r where
  integral := (h.renews_setCell hcolumn cell).integral
  has := ((h.renews_setCell hcolumn cell).has_iff r).mpr hr
  beside_iff t record := by
    -- The cell is no key, so the parents are as before.
    have hparent : (st.setCell r column cell).IsParent = st.IsParent :=
      funext fun p => funext fun c => propext ((h.renews_setCell hcolumn cell).isParent_iff p c)
    rw [IsBeside, IsBeside, hparent, h.mem_rows_setCell hr]
    constructor
    · rintro ⟨hrecord | ⟨old, -, heq, rfl⟩, hne, hbelow⟩
      · exact ⟨hrecord.1, hne, hbelow⟩
      · exact absurd heq hne
    · rintro ⟨hrecord, hne, hbelow⟩
      exact ⟨Or.inl ⟨hrecord, hne⟩, hne, hbelow⟩
  pairs_eq n _ := (h.renews_setCell hcolumn cell).pairs_eq n

/-- Clearing a row changes nothing beside it. -/
theorem Clears.frames (h : st.Clears st₁ r) (hst : st.Integral) (hr : st.Has r) :
    st.Frames st₁ r where
  integral := h.integral
  has := (h.has_iff r).mpr ⟨hr, hst.acyclic r⟩
  beside_iff t record := by
    -- Nothing is left below the row that was cleared.
    have hnone : ∀ c, ¬ Relation.TransGen st₁.IsParent r c := fun c hrc => by
      obtain ⟨d, hrd, -⟩ := Relation.TransGen.head'_iff.mp hrc
      exact h.childless d hrd
    constructor
    · rintro ⟨hrecord, hne, -⟩
      refine ⟨h.within.rows_subset t hrecord, hne, ?_⟩
      exact ((h.has_iff _).mp (has_ofId_of_mem hrecord)).2
    · rintro ⟨hrecord, hne, hbelow⟩
      refine ⟨?_, hne, hnone _⟩
      -- A record beside the row is none that was deleted, so it is still there.
      obtain ⟨other, hother, hid⟩ := (h.has_iff _).mpr ⟨has_ofId_of_mem hrecord, hbelow⟩
      have heq := hst.eq_of_id_eq hrecord (h.within.rows_subset t hother) (Cell.int.inj hid)
      rwa [heq]
  pairs_eq := h.pairs_eq

/-- New rows below a row change nothing beside it. -/
theorem Extends.frames {added : List Row} (h : st.Extends st₁ r added) (hst : st.Integral)
    (hr : st.Has r) : st.Frames st₁ r where
  integral := h.grows.integral
  has := h.grows.has hr
  beside_iff t record := by
    constructor
    · rintro ⟨hrecord, hne, hbelow⟩
      -- A record that does not hang below the row was there before, with the same content.
      obtain ⟨old, hold, hid⟩ := (h.below _ (has_ofId_of_mem hrecord)).resolve_right hbelow
      have heq := h.grows.integral.eq_of_id_eq hrecord (h.grows.rows_subset _ hold)
        (Cell.int.inj hid)
      refine ⟨heq ▸ hold, hne, fun hrc => hbelow ?_⟩
      exact Relation.TransGen.mono (fun _ _ hpc => h.grows.isParent hpc) _ _ hrc
    · rintro ⟨hrecord, hne, hbelow⟩
      refine ⟨h.grows.rows_subset _ hrecord, hne, fun hrc => hbelow ?_⟩
      exact (h.grows.transGen_of_has hst hrc (has_ofId_of_mem hrecord)).1
  pairs_eq := h.pairs_eq

/-! ### The row itself -/

/-- Every record has a cell for each column of its table. -/
def Tabular (st : Store) : Prop :=
  ∀ t, ∀ record ∈ st.rows t, record.cells.map (·.1) = (project.columnsOf t).map (·.name)

/-- The record of a row has a cell for each column. -/
def Complete (st : Store) (r : Row) : Prop :=
  ∀ record ∈ st.rows r.table, r.id = .int record.id → record.Fills r.table

/-- Where every record has all cells, that of a row has. -/
theorem Tabular.complete (h : st.Tabular) (r : Row) : st.Complete r :=
  fun record hrecord _ => h r.table record hrecord

/-- With fewer records, that of a row still has all cells. -/
theorem Complete.of_within (h : st.Complete r) (hwithin : st₁.Within st) : st₁.Complete r :=
  fun record hrecord => h record (hwithin.rows_subset r.table hrecord)

/-- A cell that is put into a row is in the place of another one. -/
theorem Integral.tabular_setCell (h : st.Integral) (htabular : st.Tabular) (hr : st.Has r) :
    (st.setCell r column cell).Tabular := by
  intro t record hrecord
  rcases (h.mem_rows_setCell hr).mp hrecord with ⟨hold, -⟩ | ⟨old, hold, -, rfl⟩
  · exact htabular t record hold
  · rw [← htabular t old hold, Record.set, List.map_map]
    rfl

/-- A row still has all cells once a cell was put into it. -/
theorem Integral.complete_setCell (h : st.Integral) (hcomplete : st.Complete r) (hr : st.Has r) :
    (st.setCell r column cell).Complete r := by
  intro record hrecord hid
  rcases (h.mem_rows_setCell hr).mp hrecord with ⟨hold, -⟩ | ⟨old, hold, -, rfl⟩
  · exact hcomplete record hold hid
  · have hcells := hcomplete old hold hid
    rw [Record.Fills, Record.set, List.map_map]
    exact hcells

/-- Where no record is new, a row that is left has the cells that it had. -/
theorem Sound.cell_eq_of_subset (h : st.Sound) (hr : st₁.Has r) (hs : st₁.Sound)
    (hsubset : st₁.rows r.table ⊆ st.rows r.table) : st₁.cell r = st.cell r := by
  obtain ⟨record, hrecord, hid⟩ := hr
  funext column
  rw [hs.cell_eq hrecord hid, h.cell_eq (hsubset hrecord) hid]

/-- A cell that is put into a row is there, if there is such a column. -/
theorem Integral.cell_setCell (h : st.Integral) (hcomplete : st.Complete r) (hr : st.Has r)
    (hcolumn : IsAttribute column) (hmem : column ∈ project.columnNamesOf r.table) :
    (st.setCell r column cell).cell r column = cell := by
  obtain ⟨record, hrecord, hid⟩ := hr
  have hrow : Row.ofId r.table record.id = r := by rw [Row.ofId, ← hid]
  have hset : record.set [(column, cell)] ∈ (st.setCell r column cell).rows r.table :=
    (h.mem_rows_setCell ⟨record, hrecord, hid⟩).mpr (Or.inr ⟨record, hrecord, hrow, rfl⟩)
  -- The record is complete, so it has a cell under the name.
  have hcell : ∃ old, record.cells.lookup column = some old := by
    have hname := (List.mem_cons.mp hmem).resolve_left hcolumn.ne_id
    rw [← hcomplete record hrecord hid] at hname
    obtain ⟨⟨name, old⟩, hentry, rfl⟩ := List.mem_map.mp hname
    cases hlookup : record.cells.lookup name with
    | some old => exact ⟨old, rfl⟩
    | none => exact absurd rfl (bne_iff_ne.mp (List.lookup_eq_none_iff.mp hlookup _ hentry))
  obtain ⟨old, hold⟩ := hcell
  rw [(h.renews_setCell hcolumn cell).integral.cell_eq hset hid, Record.get,
    if_neg hcolumn.ne_id, Record.set, lookup_map_value (fun name old =>
      ([(column, cell)].lookup name).getD old), hold]
  simp

/-- A cell that is put into a row leaves the others. -/
theorem Integral.cell_setCell_of_ne (h : st.Integral) (hr : st.Has r) (hcolumn : IsAttribute column)
    {other : String} (hne : other ≠ column) :
    (st.setCell r column cell).cell r other = st.cell r other := by
  obtain ⟨record, hrecord, hid⟩ := hr
  have hrow : Row.ofId r.table record.id = r := by rw [Row.ofId, ← hid]
  have hset : record.set [(column, cell)] ∈ (st.setCell r column cell).rows r.table :=
    (h.mem_rows_setCell ⟨record, hrecord, hid⟩).mpr (Or.inr ⟨record, hrecord, hrow, rfl⟩)
  rw [(h.renews_setCell hcolumn cell).integral.cell_eq hset hid, h.cell_eq hrecord hid]
  exact Record.get_set (by simp [List.lookup_cons, beq_eq_false_iff_ne.mpr hne])

/-! ### The parts -/

/-- New rows below a row without children hold what is below the row. -/
theorem Extends.storesBelow {rows : List Row} {os : List Outline} (h : st.Extends st₁ r rows)
    (hst : st.Integral) (hr : st.Has r) (hchildless : ∀ c, ¬ st.IsParent r c)
    (hstores : st₁.StoresAll rows os) : st₁.StoresBelow r os := by
  refine ⟨rows, hstores, fun t => ?_⟩
  have hnone : st.childrenIn r t = [] := by
    refine List.eq_nil_iff_forall_not_mem.mpr fun c hc => ?_
    exact hchildless c (hst.isParent_of_mem_childrenIn hr hc)
  rw [h.childrenIn_eq r hr, if_pos rfl, hnone, List.nil_append]

end Store

open Store (Frames)

/-- The parts of a proper production are stored as they are kept, as the last children of a rule. -/
theorem ends_storeProduction_extends {p : Production} {k : Nat} (h : st.Integral) (hr : st.Has r)
    (htable : r.table = .rules) (hp : p.Proper) (hfit : IntegersFit p.constants)
    (hroom : st.Room (Outline.sizes p.parts + k)) :
    (storeProduction r p).Ends true st
      (fun _ st₁ => ∃ rows, st.Extends st₁ r rows ∧ st₁.StoresAll rows (Outline.allKept p.parts) ∧
        st₁.Room k)
      (fun _ => False) := by
  unfold storeProduction
  rw [if_neg (not_not.mpr htable)]
  exact ends_storeOutlines_stored h hr (htable ▸ p.fitsIn_of_mem_parts hp) hfit hroom

/-- Below a rule without parts, the parts of a proper production are stored as they are kept. -/
theorem ends_storeProduction_kept {p : Production} (h : st.Integral) (hr : st.Has r)
    (htable : r.table = .rules) (hchildless : ∀ c, ¬ st.IsParent r c) (hp : p.Proper)
    (hfit : IntegersFit p.constants) (hroom : st.Room (Outline.sizes p.parts)) :
    (storeProduction r p).Ends true st
      (fun _ st₁ => st.Frames st₁ r ∧ st₁.StoresBelow r (Outline.allKept p.parts) ∧ st₁.Fits)
      (fun _ => False) := by
  refine (ends_storeProduction_extends (k := 0) h hr htable hp hfit hroom).mono ?_ fun _ hE => hE
  rintro - st₁ ⟨rows, hextends, hstores, hroom₁⟩
  exact ⟨hextends.frames h hr, hextends.storesBelow h hr hchildless hstores, hroom₁.fits⟩

/-! ### Saving -/

namespace Store

variable {v : View} {text : String} {p : Production}

/-- A row whose name cell is as before has the name that it had. -/
theorem Named.of_cell_eq {name : String} (hname : st.Named r name) (h : st.Sound) (hs : st₁.Sound)
    (hr : st₁.Has r) (hcell : st₁.cell r "name" = st.cell r "name") : st₁.Named r name := by
  obtain ⟨record, hrecord, hid, rfl⟩ := hname
  obtain ⟨record₁, hrecord₁, hid₁⟩ := hr
  rw [hs.cell_eq hrecord₁ hid₁, h.cell_eq hrecord hid] at hcell
  exact ⟨record₁, hrecord₁, hid₁, by rw [Record.label, Record.label, hcell]⟩

/-! ### The name -/

/-- The row `r` gets a name, unless what it is shown by is this name already. -/
def naming (st : Store) (r : Row) (shown : Value) (name : String) : Store :=
  if shown.isText name then st else st.setCell r "name" (.text name)

section Naming

variable {shown : Value} {name : String}

/-- Naming a row leaves all rows with their keys and joins. -/
theorem Integral.renews_naming (h : st.Integral) (shown : Value) (name : String) :
    st.Renews (st.naming r shown name) := by
  unfold naming
  split
  · exact .refl h
  · exact h.renews_setCell (by decide) _

/-- Naming a row changes nothing beside it. -/
theorem Integral.frames_naming (h : st.Integral) (hr : st.Has r) (shown : Value) (name : String) :
    st.Frames (st.naming r shown name) r := by
  unfold naming
  split
  · exact ⟨h, hr, fun _ _ => Iff.rfl, fun _ _ => rfl⟩
  · exact h.frames_setCell hr (by decide) _

/-- Naming a row leaves its other cells. -/
theorem Integral.cell_naming_of_ne (h : st.Integral) (hr : st.Has r) (hne : column ≠ "name") :
    (st.naming r shown name).cell r column = st.cell r column := by
  unfold naming
  split
  · rfl
  · exact h.cell_setCell_of_ne hr (by decide) hne

/-- A row has the name that it is given, or the one that it had. -/
theorem Integral.cell_naming (h : st.Integral) (hcomplete : st.Complete r) (hr : st.Has r) :
    (st.naming r shown name).cell r "name" =
      if shown.isText name then st.cell r "name" else .text name := by
  unfold naming
  split
  · rfl
  · exact h.cell_setCell hcomplete hr (by decide) (mem_columnNamesOf_of_columnType? (columnType?_name _))

end Naming

/-! ### The steps of saving -/

/-- What replacing the parts of a rule through the view `v` makes of a store, step by step: what was below
the row is gone, it gets the name of the production unless the view shows this name already, and the parts of
the production are its children, as they are kept. -/
def Rebuilds (st st' : Store) (v : View) (p : Production) : Prop :=
  ∃ st₁ shown rows, st.Clears st₁ v.row ∧ v.Shows st shown ∧
    (st₁.naming v.row shown p.name).Extends st' v.row rows ∧
    st'.StoresAll rows (Outline.allKept p.parts)

/-- What saving a text through the view `v` makes of a store: the row keeps the text, the parts of the
production as they are kept are what is below it, and nothing else has changed but the name. It is that of
the production, unless the view shows this name already, whatever the name is. -/
structure Revises (st st' : Store) (v : View) (text : String) (p : Production) : Prop extends
    Frames st st' v.row where
  text_eq : st'.cell v.row "raw_text" = .text text
  name_eq : ∃ shown, v.Shows st shown ∧
    st'.cell v.row "name" = if shown.isText p.name then st.cell v.row "name" else .text p.name
  cell_eq : ∀ column, column ≠ "raw_text" → column ≠ "name" →
    st'.cell v.row column = st.cell v.row column
  stores : st'.StoresBelow v.row (Outline.allKept p.parts)

/-- The text is kept, and then the parts are replaced. -/
theorem Rebuilds.revises (hs : (st.setCell v.row "raw_text" (.text text)).Rebuilds st₁ v p)
    (h : st.Integral) (hcomplete : st.Complete v.row) (hr : st.Has v.row) (htable : v.row.table = .rules) :
    st.Revises st₁ v text p := by
  obtain ⟨st₂, shown, rows, hclears, hshows, hextends, hstores⟩ := hs
  have hraw : IsAttribute "raw_text" := by decide
  have hrawmem : "raw_text" ∈ project.columnNamesOf v.row.table := by
    rw [htable]
    decide
  -- The four steps are framed one after the other: text, deletion, name, parts.
  have hkept := h.frames_setCell hr hraw (.text text)
  have hcleared := hclears.frames hkept.integral hkept.has
  have h₂ := hcleared.integral
  have hnamed := h₂.frames_naming hcleared.has shown p.name
  have hstored := hextends.frames hnamed.integral hnamed.has
  -- The cells of the rule, step by step: deletion and parts leave them as they are.
  have hcells : st₂.cell v.row = (st.setCell v.row "raw_text" (.text text)).cell v.row :=
    hkept.integral.cell_eq_of_subset hcleared.has h₂.toSound (hclears.within.rows_subset _)
  have hcells₁ : st₁.cell v.row = (st₂.naming v.row shown p.name).cell v.row :=
    (hstored.integral.cell_eq_of_subset hnamed.has hnamed.integral.toSound
      (hextends.grows.rows_subset _)).symm
  have hrawname : (st.setCell v.row "raw_text" (.text text)).cell v.row "name" = st.cell v.row "name" :=
    h.cell_setCell_of_ne hr hraw (by decide)
  refine { ((hkept.trans hcleared).trans hnamed).trans hstored with
    text_eq := ?_, name_eq := ⟨shown, ?_, ?_⟩, cell_eq := fun column hne hne' => ?_, stores := ?_ }
  · rw [hcells₁, h₂.cell_naming_of_ne hcleared.has (by decide), hcells]
    exact h.cell_setCell hcomplete hr hraw hrawmem
  · exact hshows.imp_right fun ⟨hforgot, name, hname, hnamed⟩ =>
      ⟨hforgot, name, hname, hnamed.of_cell_eq hkept.integral.toSound h.toSound hr hrawname.symm⟩
  · rw [hcells₁, h₂.cell_naming ((h.complete_setCell hcomplete hr).of_within hclears.within) hcleared.has,
      hcells, hrawname]
  · rw [hcells₁, h₂.cell_naming_of_ne hcleared.has hne', hcells, h.cell_setCell_of_ne hr hraw hne]
  · exact hextends.storesBelow hnamed.integral hnamed.has
      (fun c hc => hclears.childless c (((h₂.renews_naming shown p.name).isParent_iff _ c).mp hc)) hstores

/-- The row `r` keeps a text, the parts of a production are what is below it, and nothing else has changed
but its name, which may be that of the production now. -/
structure Saves (st st₁ : Store) (r : Row) (text : String) (p : Production) : Prop extends
    Frames st st₁ r where
  text_eq : st₁.cell r "raw_text" = .text text
  name_eq : st₁.cell r "name" = .text p.name ∨ st₁.cell r "name" = st.cell r "name"
  cell_eq : ∀ column, column ≠ "raw_text" → column ≠ "name" →
    st₁.cell r column = st.cell r column
  stores : st₁.StoresBelow r p.parts
  /-- One row has been stored for each part. -/
  ncard_below : (st₁.belowSet r).ncard = Outline.sizes p.parts
  readRule_eq : st₁.readRule r = some (p.conditions, p.actions)

/-- Where the constants of a proper production are kept, its parts are stored as they are. -/
theorem Revises.saves (hs : st.Revises st₁ v text p) (hp : p.Proper) (hkept : AreKept p.constants) :
    st.Saves st₁ v.row text p := by
  have hstorable : ∀ o ∈ p.parts, o.Storable := fun o ho =>
    (p.fitsIn_of_mem_parts hp o ho).choose_spec.2.2
  have hstores := hs.stores
  rw [Outline.allKept_eq_self hstorable hkept] at hstores
  obtain ⟨shown, -, hname⟩ := hs.name_eq
  refine { hs.toFrames with
    text_eq := hs.text_eq, name_eq := ?_, cell_eq := hs.cell_eq, stores := hstores
    ncard_below := hstores.ncard_below hs.integral hs.has
    readRule_eq := hstores.readRule_eq hs.integral hp }
  split at hname
  · exact Or.inr hname
  · exact Or.inl hname

end Store

namespace ViewChange

variable {v : View} {text : String} {p : Production} {k : Nat}

/-- The parts of a rule are replaced by those of a proper production. Then the view remembers its name. -/
theorem gives_replaceParts (h : st.Integral) (hr : st.Has v.row) (htable : v.row.table = .rules)
    (hp : p.Proper) (hfit : IntegersFit p.constants) (hroom : st.Room (Outline.sizes p.parts + k)) :
    (replaceParts p).Gives st v fun _ v' st' =>
      v' = ⟨v.row, some (.text p.name)⟩ ∧ st.Rebuilds st' v p ∧ st'.Room k := by
  unfold replaceParts
  refine Gives.row (Gives.bind (Gives.lift ((ends_clearRule h hroom.fits hr htable).mono ?_
    fun _ hE => hE)))
  rintro - st₁ hclears
  have hcleared := hclears.frames h hr
  have h₁ := hcleared.integral
  have hroom₁ := hroom.of_has fun _ hq => hclears.within.has hq
  have hcells : st.cell v.row = st₁.cell v.row :=
    (h.toSound.cell_eq_of_subset hcleared.has h₁.toSound (hclears.within.rows_subset _)).symm
  refine Gives.bind ((gives_name h₁.toSound hroom₁.fits hcleared.has).mono ?_)
  rintro shown _ st₁ ⟨hshows, rfl, rfl⟩
  have hshows : v.Shows st shown := hshows.imp_right fun ⟨hforgot, name, hname, hnamed⟩ =>
    ⟨hforgot, name, hname, hnamed.of_cell_eq h₁.toSound h.toSound hr (congrFun hcells "name")⟩
  -- Whether the row is given the name or has it, its parts are stored then.
  have hstored : (storeProduction v.row p).Ends true (st₁.naming v.row shown p.name)
      (fun _ st' => st.Rebuilds st' v p ∧ st'.Room k) fun _ => False := by
    have hrenews := h₁.renews_naming (r := v.row) shown p.name
    refine (ends_storeProduction_extends hrenews.integral ((hrenews.has_iff _).mpr hcleared.has) htable hp
      hfit (hroom₁.of_has fun q hq => (hrenews.has_iff q).mp hq)).mono ?_ fun _ hE => hE
    rintro - st' ⟨rows, hextends, hstores, hroom'⟩
    exact ⟨⟨st₁, shown, rows, hclears, hshows, hextends, hstores⟩, hroom'⟩
  by_cases hshown : shown.isText p.name = true
  · have hsame : st₁.naming v.row shown p.name = st₁ := if_pos hshown
    rw [hsame] at hstored
    rw [if_neg (by simp [hshown]), Value.isText_eq_true_iff.mp hshown]
    exact Gives.lift (hstored.mono (fun _ _ hst' => ⟨rfl, hst'⟩) fun _ hE => hE)
  · have hrenamed : st₁.naming v.row shown p.name = st₁.setCell v.row "name" (.text p.name) := if_neg hshown
    rw [hrenamed] at hstored
    rw [if_pos (by simpa using hshown)]
    refine Gives.bind ((gives_rename_kept (v := ⟨v.row, some shown⟩) h₁
      (hroom₁.fits.row hcleared.has)).mono ?_)
    rintro - _ _ ⟨rfl, rfl⟩
    exact Gives.lift (hstored.mono (fun _ _ hst' => ⟨rfl, hst'⟩) fun _ hE => hE)

/-- A text that reads as a production is saved. Then the view remembers the name of the production. -/
theorem gives_saveRuleText (h : st.Integral) (hr : st.Has v.row) (htable : v.row.table = .rules)
    (hparse : parseProduction text = .ok p) (hfit : IntegersFit p.constants)
    (hroom : st.Room (Outline.sizes p.parts + k)) :
    (saveRuleText text).Gives st v fun _ v' st' => v' = ⟨v.row, some (.text p.name)⟩ ∧
      (st.setCell v.row "raw_text" (.text text)).Rebuilds st' v p ∧ st'.Room k := by
  have hraw : IsAttribute "raw_text" := by decide
  have hcolumn : project.columnType? v.row.table "raw_text" = some .text := by
    rw [htable]
    exact columnType?_of_mem_columns (c := ("raw_text", .string)) List.mem_cons_self
  have hrenews := h.renews_setCell (r := v.row) hraw (.text text)
  unfold saveRuleText
  refine Gives.bind ((Gives.suppressing (gives_update_kept h (hroom.fits.row hr) hraw (by decide) hcolumn
    StoredType.keeps_text.1)).mono ?_)
  -- The text is written before anything is deleted.
  rintro - _ _ ⟨rfl, rfl⟩
  rw [hparse]
  refine Gives.bind ((Gives.batch (gives_replaceParts hrenews.integral ((hrenews.has_iff _).mpr hr) htable
    (proper_of_parseProduction hparse) hfit
    (hroom.of_has fun q hq => (hrenews.has_iff q).mp hq))).mono ?_)
  -- Then come the parts, in a batch, and the name that is shown in the end.
  rintro - _ st₁ ⟨rfl, hrebuilds, hroom₁⟩
  refine Gives.bind (gives_name_of_memo.mono ?_)
  rintro _ _ _ ⟨rfl, rfl, rfl⟩
  exact Gives.pure ⟨rfl, hrebuilds, hroom₁⟩

end ViewChange

/-- Saving a text that reads as a production succeeds on every existing rule, whatever is stored below
it: the rule keeps the text, its parts are those of the production, and nothing else has changed. The
constants of the production must be kept by their columns, and there must be ids for its parts. -/
theorem saveRuleText_saves {s : Session} {v : View} {text : String} {p : Production}
    (hopen : s.Opens true st) (h : st.Integral) (htabular : st.Tabular) (hr : st.Has v.row)
    (htable : v.row.table = .rules) (hparse : parseProduction text = .ok p)
    (hkept : AreKept p.constants) (hroom : st.Room (Outline.sizes p.parts)) :
    ∃ v' s' st₁, (saveRuleText text).run.run (v, s) = (.ok (), v', s') ∧ v'.row = v.row ∧
      s'.Opens true st₁ ∧ st.Saves st₁ v.row text p := by
  obtain ⟨⟨⟩, _, s', st₁, hrun, hopen', rfl, hrebuilds, -⟩ :=
    ViewChange.gives_saveRuleText (k := 0) h hr htable hparse hkept.1 hroom s hopen
  have hrevises := hrebuilds.revises h (htabular.complete _) hr htable
  exact ⟨_, s', st₁, hrun, rfl, hopen', hrevises.saves (proper_of_parseProduction hparse) hkept⟩

/-! ### A rule that is saved again -/

namespace Store

/-- A rule that was saved before. -/
def savedRule : Record :=
  ⟨1, newCells (project.columnsOf .rules)
    [("name", .text "old"), ("raw_text", .text "sp\x7bold(<s>)-->\x7d")]⟩

/-- A condition of that rule. -/
def savedCondition : Record :=
  ⟨1, newCells (project.columnsOf .conditions)
    [("name", .text "condition"), ("rule_id", .int 1), ("is_negated", .int 0)]⟩

/-- A rule without parts. -/
def bareRule : Store := blank.withRecord .rules savedRule

/-- The store of a rule without parts has integrity, and its only row is the rule. -/
theorem integral_bareRule : bareRule.Integral ∧ ∀ t record, record ∈ bareRule.rows t ↔
    t = .rules ∧ record = savedRule := by
  have hid : savedRule.id = nextId (blank.rows .rules) := by rw [rows_blank]; rfl
  have hkeys : ∀ q ∈ project.parentsOf .rules, savedRule.get q.idName = .null := by decide +kernel
  refine ⟨integral_blank.withRecord hid (fun q hq hnull => absurd (hkeys q hq) hnull)
    fun q hq _ _ hnull => absurd (hkeys q hq) hnull, fun t record => ?_⟩
  rw [bareRule, integral_blank.mem_rows_withRecord hid, rows_blank]
  simp

/-- A rule with one condition. -/
def saved : Store :=
  (blank.withRecord .rules savedRule).withRecord .conditions savedCondition

/-- The store of the rule has integrity, and its rows are the rule and its condition. -/
theorem integral_saved : saved.Integral ∧ ∀ t record, record ∈ saved.rows t ↔
    t = .conditions ∧ record = savedCondition ∨ t = .rules ∧ record = savedRule := by
  obtain ⟨hrule, hrows⟩ := integral_bareRule
  have hid' : savedCondition.id =
      nextId (bareRule.rows .conditions) := by
    rw [bareRule, withRecord, integral_blank.shaped.rows_setRows, if_neg (by decide), rows_blank]
    rfl
  have hkeys : ∀ q ∈ project.parentsOf .conditions, savedCondition.get q.idName ≠ .null →
      q = .rules ∧ savedCondition.get q.idName = .int 1 := by decide +kernel
  -- The only key of the condition is that of the rule, which is stored.
  refine ⟨hrule.withRecord hid' (fun q hq hnull => ?_) fun q hq q' hq' hnull hnull' => ?_, ?_⟩
  · obtain ⟨rfl, hkey⟩ := hkeys q hq hnull
    rw [hkey]
    exact ⟨savedRule, (hrows _ _).mpr ⟨rfl, rfl⟩, rfl⟩
  · exact (hkeys q hq hnull).1.trans (hkeys q' hq' hnull').1.symm
  · intro t record
    rw [saved, ← bareRule, hrule.mem_rows_withRecord hid', hrows, or_comm]

end Store

/-- Another text for the rule. -/
def otherText : String := "sp\x7bnew(<s> ^size 3)-->(<s> ^done yes)\x7d"

/-- A rule with a condition is saved with another text. -/
theorem saveRuleText_saves_over :
    ∃ p v' s' st₁, parseProduction otherText = .ok p ∧
      (saveRuleText otherText).run.run
        ((Row.ofId .rules 1).view, { registry := project, connection := .memory Store.saved }) =
          (.ok (), v', s') ∧ s'.Opens true st₁ ∧
      Store.saved.Saves st₁ (.ofId .rules 1) otherText p := by
  obtain ⟨hsaved, hrows⟩ := Store.integral_saved
  -- Parsing is evaluated; that the parts are replaced comes from the theorem.
  have hparsed : ((parseProduction otherText).toOption.any fun p =>
      Outline.sizes p.parts < 100 && p.constants.all isExact) = true := by
    decide +kernel
  cases hparse : parseProduction otherText with
  | error e =>
    rw [hparse] at hparsed
    exact absurd hparsed Bool.false_ne_true
  | ok p =>
    rw [hparse] at hparsed
    obtain ⟨hsize, hexact⟩ : Outline.sizes p.parts < 100 ∧ p.constants.all isExact = true := by
      simpa [Except.toOption] using hparsed
    have hid : ∀ t, ∀ record ∈ Store.saved.rows t, record.id = 1 := by
      intro t record hrecord
      rcases (hrows t record).mp hrecord with ⟨-, rfl⟩ | ⟨-, rfl⟩ <;> rfl
    -- One id is in use in every table, so there is room for the parts.
    have hroom : Store.saved.Room (Outline.sizes p.parts) := by
      have hmax : maxInteger = 0x7fffffffffffffff := rfl
      refine ⟨fun t record hrecord => ?_, by omega, fun t record hrecord => ?_⟩
      · rw [hid t record hrecord]
        decide
      · have := hid t record hrecord
        omega
    have htabular : Store.saved.Tabular := by
      intro t record hrecord
      rcases (hrows t record).mp hrecord with ⟨rfl, rfl⟩ | ⟨rfl, rfl⟩ <;>
        simp [Store.savedCondition, Store.savedRule, Store.newCells]
    obtain ⟨v', s', st₁, hrun, -, hopen, hsaves⟩ := saveRuleText_saves
      (v := (Row.ofId .rules 1).view)
      (s := { registry := project, connection := .memory Store.saved }) ⟨rfl, rfl, rfl⟩ hsaved htabular
      (Store.has_ofId_of_mem ((hrows _ Store.savedRule).mpr (Or.inr ⟨rfl, rfl⟩))) rfl hparse
      (areKept_of_isExact hexact) hroom
    exact ⟨p, v', s', st₁, rfl, hrun, hopen, hsaves⟩

end SoarProject
