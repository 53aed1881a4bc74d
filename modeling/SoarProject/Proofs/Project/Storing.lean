import SoarProject.Proofs.Project.Rules
import SoarProject.Proofs.Rule.Entry
import SoarProject.Proofs.Store.Room

/-!
# Storing parts

Storing an outline that fits below a row succeeds while there is room for new ids and the integers among
its constants fit. It stores just this outline as it is kept: one new record for each entry, below the
record of the entry above it, in the order of the outline.

* `Store.Stores`: the row of a store holds an outline.
* `Store.Extends`: new rows are the last children of a row, and nothing else is new but what is below them.
* `ends_storeOutlines_stored`: storing outlines ends with both.
-/

namespace SoarProject

open Registry Rule

variable {st st₁ st₂ : Store} {p q r c : Row} {t : Table} {rows added : List Row} {k : Nat}

/-! ### Records of entries -/

/-- A record holds the columns of an entry, and no other attribute. -/
def Record.Shows (record : Record) (e : Entry) : Prop :=
  (∀ v ∈ e.values, record.get v.1 = v.2.cell) ∧
    ∀ c ∈ project.columnNamesOf e.table, IsAttribute c → (∀ v ∈ e.values, v.1 ≠ c) →
      record.get c = .null

namespace Rule.Entry.Admitted

variable {kind : PartKind} {e : Entry} {children : List Outline} {u : Table} {id : Int}

/-- The key of a parent is taken with an admitted entry. -/
theorem takes_key (h : e.Admitted kind)
    (hfit : IntegersFit (Outline.entry kind e children).constants)
    (hu : e.table ∈ project.childrenOf u) (hid : fitsInteger id = true) :
    e.table.Takes (e.values ++ [(u.idName, .int id)]) := by
  intro v hv
  rcases List.mem_append.mp hv with hv | hv
  · obtain ⟨type, htype, htakes, -⟩ := h.takes hfit v hv
    exact ⟨type, htype, htakes⟩
  · rw [List.mem_singleton.mp hv]
    exact ⟨_, columnType?_idName (mem_childrenOf_iff.mp hu), (StoredType.keeps_int hid).takes⟩

/-- A record that is made from an admitted entry shows it as it is kept. -/
theorem shows (h : e.Admitted kind) (hfit : IntegersFit (Outline.entry kind e children).constants)
    {record : Record} (hmade : record.MadeFrom e.table (e.values ++ [(u.idName, .int id)])) :
    record.Shows (e.kept kind) := by
  obtain ⟨hattributes, hdistinct⟩ := h.attributes
  -- The key is no attribute, so it does not repeat one.
  have hdistinct : ((e.values ++ [(u.idName, Value.int id)]).reverse.map (·.1)).Nodup := by
    rw [List.map_reverse, List.nodup_reverse, List.map_append, List.nodup_append]
    refine ⟨hdistinct, by simp, ?_⟩
    rintro name hname key hkey rfl
    obtain ⟨v, hv, rfl⟩ := List.mem_map.mp hname
    rw [List.map_singleton, List.mem_singleton] at hkey
    exact (hattributes v hv).ne_idName u hkey
  rw [Record.Shows, Entry.values_kept]
  refine ⟨List.forall_mem_map.mpr fun v hv => ?_, fun c hc hattribute hother => ?_⟩
  · -- A value that is given is found, as the last of its name.
    obtain ⟨type, htype, htakes, hstore⟩ := h.takes hfit v hv
    rw [← hstore]
    refine hmade.get_eq_store (hattributes v hv).ne_id htype htakes ?_
    refine (lookup_eq_some_iff_mem hdistinct).mpr (List.mem_reverse.mpr ?_)
    exact List.mem_append_left _ hv
  · -- Any other column is null.
    have hc : c ∈ project.columnNamesOf e.table := hc
    obtain ⟨type, htype⟩ := Option.isSome_iff_exists.mp (Store.columnType?_isSome hc)
    refine hmade.get_eq_null hattribute.ne_id htype (List.lookup_eq_none_iff.mpr fun v hv => ?_)
    refine bne_iff_ne.mpr ?_
    rcases List.mem_append.mp (List.mem_reverse.mp hv) with hv | hv
    · exact (List.forall_mem_map.mp hother v hv).symm
    · rw [List.mem_singleton.mp hv]
      exact hattribute.ne_idName u

end Rule.Entry.Admitted

namespace Store

/-! ### Room for new records -/

/-- A new record takes some of the room. -/
theorem Room.withRecord (h : st.Room (k + 1)) (hs : st.Sound) {record : Record}
    (hid : record.id = nextId (st.rows t)) : (st.withRecord t record).Room k := by
  refine h.of_rows fun u other hother => ?_
  rcases (hs.mem_rows_withRecord hid).mp hother with hother | ⟨rfl, rfl⟩
  · exact .inl hother
  · exact .inr hid

/-! ### Stored outlines -/

mutual

/-- The row `r` holds an outline: its record shows the first entry, and its children hold the outlines
below that, in each table in their order. -/
def Stores (st : Store) (r : Row) : Outline → Prop
  | .entry _ e children =>
    r.table = e.table ∧ (∃ record ∈ st.rows e.table, r.id = .int record.id ∧ record.Shows e) ∧
      ∃ rows, StoresAll st rows children ∧ ∀ t, st.childrenIn r t = rows.filter (·.table = t)
  | .faulty .. | .foreign _ => False

/-- Rows hold outlines one by one. -/
def StoresAll (st : Store) : List Row → List Outline → Prop
  | [], [] => True
  | r :: rows, o :: os => Stores st r o ∧ StoresAll st rows os
  | [], _ :: _ | _ :: _, [] => False

end

/-- A record of an existing row has the parents that it had before others were added. -/
theorem Grows.isParent_of_has (h : st.Grows st₁) (hc : st.Has c)
    (hpc : st₁.IsParent p c) : st.IsParent p c := by
  obtain ⟨htable, hnull, record, hrecord, hid, hkey⟩ := hpc
  obtain ⟨old, hold, hold_id⟩ := hc
  have heq := h.integral.eq_of_id_eq hrecord (h.rows_subset _ hold)
    (Cell.int.inj (hid.symm.trans hold_id))
  exact ⟨htable, hnull, old, hold, hold_id, heq ▸ hkey⟩

/-- Rows hold outlines one by one if each row holds its own. -/
theorem storesAll_iff {os : List Outline} :
    st.StoresAll rows os ↔ List.Forall₂ st.Stores rows os := by
  induction os generalizing rows with
  | nil => cases rows <;> simp [StoresAll]
  | cons o os ih => cases rows <;> simp [StoresAll, ih]

/-- What a row that holds an outline is the row of. -/
theorem Stores.table?_eq {o : Outline} (h : st.Stores r o) : o.table? = some r.table := by
  cases o with
  | entry kind e children =>
    rw [Stores] at h
    rw [h.1]
    rfl
  | faulty => rw [Stores] at h; exact h.elim
  | foreign => rw [Stores] at h; exact h.elim

mutual

/-- A row keeps holding an outline when only a row above it gets new children. -/
theorem Stores.of_grows (hst : st.Integral) (hgrows : st.Grows st₁)
    (hsame : ∀ q, st.Has q → q ≠ p → ∀ t, st₁.childrenIn q t = st.childrenIn q t) :
    ∀ (o : Outline) (r : Row), Relation.TransGen st.IsParent p r → st.Stores r o → st₁.Stores r o
  | .entry kind e children, r, hbelow, hstores => by
    rw [Stores] at hstores ⊢
    obtain ⟨htable, ⟨record, hrecord, hid, hshows⟩, rows, hrows, hchildren⟩ := hstores
    have hr : st.Has r := ⟨record, htable ▸ hrecord, hid⟩
    -- The keys have no cycle, so a row below `p` is not `p` and keeps its children.
    have hne : r ≠ p := by
      rintro rfl
      exact hst.acyclic r hbelow
    refine ⟨htable, ⟨record, hgrows.rows_subset _ hrecord, hid, hshows⟩, rows, ?_, fun t => ?_⟩
    · refine Stores.all_of_grows hst hgrows hsame children rows (fun c hc => ?_) hrows
      have hmem : c ∈ st.childrenIn r c.table := by
        rw [hchildren, List.mem_filter]
        exact ⟨hc, by simp⟩
      exact hbelow.tail (hst.isParent_of_mem_childrenIn hr hmem)
    · rw [hsame r hr hne, hchildren]
  | .faulty _ _, _, _, hstores => hstores.elim
  | .foreign _, _, _, hstores => hstores.elim

/-- Rows keep holding outlines when only a row above them gets new children. -/
theorem Stores.all_of_grows (hst : st.Integral) (hgrows : st.Grows st₁)
    (hsame : ∀ q, st.Has q → q ≠ p → ∀ t, st₁.childrenIn q t = st.childrenIn q t) :
    ∀ (os : List Outline) (rows : List Row), (∀ r ∈ rows, Relation.TransGen st.IsParent p r) →
      st.StoresAll rows os → st₁.StoresAll rows os
  | [], [], _, hstores => hstores
  | o :: os, r :: rows, hbelow, hstores => by
    rw [StoresAll] at hstores ⊢
    rw [List.forall_mem_cons] at hbelow
    exact ⟨Stores.of_grows hst hgrows hsame o r hbelow.1 hstores.1,
      Stores.all_of_grows hst hgrows hsame os rows hbelow.2 hstores.2⟩
  | [], _ :: _, _, hstores => hstores.elim
  | _ :: _, [], _, hstores => hstores.elim

end

/-! ### New children -/

/-- The rows `added` are the last children of the row `p`, and nothing else is new but what is below
`p`. -/
structure Extends (st st₁ : Store) (p : Row) (added : List Row) : Prop where
  grows : st.Grows st₁
  pairs_eq : ∀ n : RelationName, n.IsJoin → st₁.pairsOf n = st.pairsOf n
  childrenIn_eq : ∀ q, st.Has q → ∀ t, st₁.childrenIn q t =
    st.childrenIn q t ++ if q = p then added.filter (·.table = t) else []
  below : ∀ q, st₁.Has q → st.Has q ∨ Relation.TransGen st₁.IsParent p q

namespace Extends

theorem refl (h : st.Integral) : st.Extends st p [] where
  grows := .refl h
  pairs_eq _ _ := rfl
  childrenIn_eq q _ t := by simp
  below _ hq := Or.inl hq

theorem isParent (h : st.Extends st₁ p added) (hp : st.Has p) (hc : c ∈ added) : st₁.IsParent p c := by
  refine h.grows.integral.isParent_of_mem_childrenIn (h.grows.has hp) (t := c.table) ?_
  rw [h.childrenIn_eq p hp, if_pos rfl]
  exact List.mem_append_right _ (List.mem_filter.mpr ⟨hc, by simp⟩)

/-- Only the row itself gets new children, among those that were there. -/
theorem childrenIn_of_ne (h : st.Extends st₁ p added) (q : Row) (hq : st.Has q) (hne : q ≠ p)
    (t : Table) : st₁.childrenIn q t = st.childrenIn q t := by
  rw [h.childrenIn_eq q hq, if_neg hne, List.append_nil]

/-- More rows are added behind the first ones. -/
theorem trans (h : st.Extends st₁ p [c]) (h' : st₁.Extends st₂ p added) :
    st.Extends st₂ p (c :: added) where
  grows := h.grows.trans h'.grows
  pairs_eq n hn := (h'.pairs_eq n hn).trans (h.pairs_eq n hn)
  childrenIn_eq q hq t := by
    rw [h'.childrenIn_eq q (h.grows.has hq), h.childrenIn_eq q hq, List.append_assoc]
    split
    · rw [← List.filter_append, List.singleton_append]
    · rfl
  below q hq := by
    rcases h'.below q hq with hq | hq
    · refine (h.below q hq).imp_right fun hbelow => ?_
      exact Relation.TransGen.mono (fun _ _ hab => h'.grows.isParent hab) p q hbelow
    · exact Or.inr hq

/-- Rows are added below a new row. -/
theorem trans_below (h : st.Extends st₁ p [c]) (hp : st.Has p) (hc : ¬ st.Has c)
    (h' : st₁.Extends st₂ c added) : st.Extends st₂ p [c] where
  grows := h.grows.trans h'.grows
  pairs_eq n hn := (h'.pairs_eq n hn).trans (h.pairs_eq n hn)
  childrenIn_eq q hq t := by
    have hne : q ≠ c := fun heq => hc (heq ▸ hq)
    rw [h'.childrenIn_of_ne q (h.grows.has hq) hne, h.childrenIn_eq q hq]
  below q hq := by
    have hpc := h'.grows.isParent (h.isParent hp List.mem_cons_self)
    rcases h'.below q hq with hq | hq
    · refine (h.below q hq).imp_right fun hbelow => ?_
      exact Relation.TransGen.mono (fun _ _ hab => h'.grows.isParent hab) p q hbelow
    · exact Or.inr (.head hpc hq)

/-- What has the same records and pairs extends a store in the same way. -/
theorem of_rows_eq (h : st.Extends st₁ p added) (hst : st₂.Integral) (hrows : ∀ t, st₂.rows t = st₁.rows t)
    (hpairs : ∀ n : RelationName, n.IsJoin → st₂.pairsOf n = st₁.pairsOf n) :
    st.Extends st₂ p added where
  grows := {
    integral := hst
    rows_first := fun t => hrows t ▸ h.grows.rows_first t
    pairs_subset := fun n hn => hpairs n hn ▸ h.grows.pairs_subset n hn }
  pairs_eq n hn := (hpairs n hn).trans (h.pairs_eq n hn)
  childrenIn_eq q hq t := by
    rw [← h.childrenIn_eq q hq t, childrenIn, childrenIn, hrows]
  below q hq := by
    -- Parents are read off the records alone, and these are the same.
    have hparent : st₂.IsParent = st₁.IsParent := by
      funext a b
      rw [IsParent, IsParent, hrows]
    rw [Has, hrows] at hq
    rw [hparent]
    exact h.below q hq

end Extends

/-- Putting a cell into an attribute leaves all rows with their children. -/
theorem Integral.childrenIn_setCell (h : st.Integral) {column : String} (hcolumn : IsAttribute column)
    (cell : Cell) (q : Row) (t : Table) :
    (st.setCell r column cell).childrenIn q t = st.childrenIn q t := by
  rw [childrenIn, childrenIn, setCell, h.shaped.rows_setRows]
  split
  · split
    · next ht =>
      subst ht
      rw [List.filter_map, List.map_map]
      -- Neither the key nor the id of a record is the column that is set.
      have hkey (record : Record) : (if r.id.identifies (.int record.id) then
          record.set [(column, cell)] else record).get q.table.idName = record.get q.table.idName := by
        split
        · refine Record.get_set ?_
          simp [List.lookup_cons, beq_eq_false_iff_ne.mpr (hcolumn.ne_idName q.table).symm]
        · rfl
      have hid (record : Record) : (if r.id.identifies (.int record.id) then
          record.set [(column, cell)] else record).id = record.id := by
        split <;> rfl
      simp only [Function.comp_def, hkey, hid]
    · rfl
  · rfl

/-- A new child is still the only one that is new once a cell was put into it. -/
theorem Extends.setCell (h : st.Extends st₁ p [c]) (hp : st.Has p) (hc : ¬ st.Has c) {column : String}
    (hcolumn : IsAttribute column) (cell : Cell) : st.Extends (st₁.setCell c column cell) p [c] := by
  have h₁ := h.grows.integral
  have hrenews := h₁.renews_setCell (r := c) hcolumn cell
  obtain ⟨record₁, -, hid⟩ := (h.isParent hp (List.mem_cons_self (a := c))).has
  refine ⟨⟨hrenews.integral, fun t => ?_, fun n hn => ?_⟩, fun n hn => ?_, fun q hq t => ?_, fun q hq => ?_⟩
  · rw [Store.setCell, h₁.shaped.rows_setRows]
    split
    · next ht =>
      subst ht
      -- No record that was there is that of the new child.
      have hold : (st.rows c.table).map (fun record => if c.id.identifies (.int record.id) then
          record.set [(column, cell)] else record) = st.rows c.table := by
        conv_rhs => rw [← List.map_id (st.rows c.table)]
        refine List.map_congr_left fun record hrecord => if_neg ?_
        rw [hid, int_identifies_int, decide_eq_true_iff]
        intro heq
        exact hc ⟨record, hrecord, heq ▸ hid⟩
      obtain ⟨new, hnew⟩ := h.grows.rows_first c.table
      rw [← hnew, List.map_append, hold]
      exact List.prefix_append _ _
    · exact h.grows.rows_first t
  · rw [hrenews.pairs_eq]
    exact h.grows.pairs_subset n hn
  · rw [hrenews.pairs_eq]
    exact h.pairs_eq n hn
  · rw [h₁.childrenIn_setCell hcolumn]
    exact h.childrenIn_eq q hq t
  · have hparent : (st₁.setCell c column cell).IsParent = st₁.IsParent :=
      funext fun a => funext fun b => propext (hrenews.isParent_iff a b)
    rw [hparent]
    exact h.below q ((hrenews.has_iff q).mp hq)

/-- The children of a row with a new record come with it if it is a child. -/
theorem Sound.childrenIn_withRecord (h : st.Sound) {record : Record}
    (hid : record.id = nextId (st.rows t)) (q : Row) (u : Table) :
    (st.withRecord t record).childrenIn q u = st.childrenIn q u ++
      if u = t ∧ t ∈ project.childrenOf q.table ∧
        q.id.identifies (record.get q.table.idName) = true then [.ofId t record.id] else [] := by
  -- The new record has the largest id, so it is the last of its table.
  have hrows : (st.withRecord t record).rows u =
      st.rows u ++ if u = t then [record] else [] := by
    rw [withRecord, h.shaped.rows_setRows]
    split
    · next hu => rw [hu, insertRecord_eq_append fun other hother => hid ▸ h.lt_nextId hother]
    · rw [List.append_nil]
  unfold childrenIn
  rw [hrows]
  by_cases hu : u = t
  · subst hu
    by_cases hchild : u ∈ project.childrenOf q.table
    · by_cases hkey : q.id.identifies (record.get q.table.idName) = true
      · simp [hchild, hkey]
      · simp [hchild, hkey]
    · simp [hchild]
  · simp [hu]

/-- A record below a row is added behind its other children. -/
theorem Integral.extends_withRecord (h : st.Integral) (hp : st.Has p) {record : Record}
    (hid : record.id = nextId (st.rows t))
    (hfresh : st.Fresh (st.withRecord t record) (.ofId t record.id))
    (hchild : (st.withRecord t record).IsParent p (.ofId t record.id))
    (honly : ∀ q c, (st.withRecord t record).IsParent q c →
      st.IsParent q c ∨ q = p ∧ c = .ofId t record.id) :
    st.Extends (st.withRecord t record) p [.ofId t record.id] where
  grows := hfresh.grows
  pairs_eq := hfresh.pairs_eq
  childrenIn_eq q hq u := by
    have hsplit := h.childrenIn_withRecord hid q u
    have hq' := hfresh.grows.has hq
    rw [hsplit]
    congr 1
    by_cases hu : u = t
    · subst hu
      -- The new row is a child of `p` alone.
      have hiff : u ∈ project.childrenOf q.table ∧
          q.id.identifies (record.get q.table.idName) = true ↔ q = p := by
        constructor
        · intro hkey
          have hmem : .ofId u record.id ∈ (st.withRecord u record).childrenIn q u := by
            rw [hsplit, if_pos ⟨rfl, hkey⟩]
            exact List.mem_append_right _ List.mem_cons_self
          rcases honly q _ (hfresh.grows.integral.isParent_of_mem_childrenIn hq' hmem) with
            hold | ⟨hqp, -⟩
          · exact absurd hold.has hfresh.new
          · exact hqp
        · rintro rfl
          by_contra hkey
          obtain ⟨id, hqid⟩ := hq.exists_id
          have hmem : .ofId u record.id ∈ (st.withRecord u record).childrenIn q u := by
            rw [hqid] at hchild ⊢
            exact hfresh.grows.integral.mem_childrenIn_iff.mpr ⟨rfl, hchild⟩
          rw [hsplit, if_neg fun hall => hkey hall.2, List.append_nil] at hmem
          exact hfresh.new (h.isParent_of_mem_childrenIn hq hmem).has
      by_cases hqp : q = p
      · rw [if_pos ⟨rfl, hiff.mpr hqp⟩, if_pos hqp]
        simp [Row.ofId]
      · rw [if_neg fun hall => hqp (hiff.mp hall.2), if_neg hqp]
    · have hne : t ≠ u := fun heq => hu heq.symm
      simp [hu, Row.ofId, hne]
  below q hq := by
    rcases (h.has_withRecord hid).mp hq with hq | rfl
    · exact Or.inl hq
    · exact Or.inr (.single hchild)

end Store

open Store (Extends Room)

/-! ### Storing -/

/-- The record of an admitted entry is stored. -/
theorem ends_insertEntry {kind : PartKind} {e : Entry} {children : List Outline} (h : st.Integral)
    (hp : st.Has p) (he : e.Admitted kind)
    (hfit : IntegersFit (Outline.entry kind e children).constants)
    (hchild : e.table ∈ project.childrenOf p.table) (hroom : st.Room (k + 1)) :
    (p.insertChild e.table e.values).Ends true st
      (fun id st₁ => st.Extends st₁ p [.ofId e.table id] ∧ st₁.Room k ∧ ¬ st.Has (.ofId e.table id) ∧
        (∀ c, ¬ st₁.IsParent (.ofId e.table id) c) ∧
        ∃ record ∈ st₁.rows e.table, record.id = id ∧ record.Shows (e.kept kind))
      (fun _ => False) := by
  obtain ⟨key, hkey⟩ := hp.exists_id
  have hkeyfits := hroom.fits.row hp key (by rw [hkey])
  refine (Row.ends_insertChild h hp he.attributes.1).mono ?_ ?_
  · -- The record hangs below the parent, and nothing below the record.
    rintro id st₁ ⟨hfresh, hparent, honly, record, hrecord, rfl, hmade, hnext, rfl, -⟩
    refine ⟨h.extends_withRecord hp hnext hfresh hparent honly, hroom.withRecord h.toSound hnext,
      hfresh.new, fun c hc => ?_, record, hrecord, rfl, ?_⟩
    · rcases honly _ c hc with hold | ⟨rfl, -⟩
      · exact hfresh.new (h.has_of_isParent hold)
      · exact hfresh.new hp
    · rw [hkey] at hmade
      exact he.shows hfit hmade
  · -- With the key bound and every value taken the insertion does not fail.
    rintro st' ⟨-, hnot⟩
    refine hnot ⟨rfl, hchild, ?_⟩
    rw [hkey] at hchild ⊢
    exact he.takes_key hfit hchild hkeyfits

/-- Outlines are stored one after the other. -/
theorem ends_storeOutlines_stored_of (h : st.Integral) (hp : st.Has p) {os : List Outline}
    (hroom : st.Room (Outline.sizes os + k))
    (hos : ∀ o ∈ os, ∀ {st : Store} {p : Row} {k : Nat}, st.Integral → st.Has p →
      (∃ t ∈ project.childrenOf p.table, o.table? = some t) → st.Room (o.size + k) →
      (storeOutline p o).Ends true st
        (fun _ st₁ => ∃ c, st.Extends st₁ p [c] ∧ st₁.Stores c o.kept ∧ st₁.Room k) (fun _ => False))
    (htables : ∀ o ∈ os, ∃ t ∈ project.childrenOf p.table, o.table? = some t) :
    (storeOutlines p os).Ends true st
      (fun _ st₁ => ∃ rows, st.Extends st₁ p rows ∧ st₁.StoresAll rows (Outline.allKept os) ∧
        st₁.Room k)
      (fun _ => False) := by
  induction os generalizing st with
  | nil =>
    rw [storeOutlines]
    rw [Outline.sizes, Nat.zero_add] at hroom
    exact Change.Ends.pure ⟨[], .refl h, trivial, hroom⟩
  | cons o rest ih =>
    rw [storeOutlines]
    rw [Outline.sizes, Nat.add_assoc] at hroom
    rw [List.forall_mem_cons] at htables
    refine Change.Ends.bind ((hos o List.mem_cons_self h hp htables.1 hroom).mono ?_ fun _ hE => hE)
    rintro - st₁ ⟨c, hextends, hstores, hroom₁⟩
    have h₁ := hextends.grows.integral
    refine (ih h₁ (hextends.grows.has hp) hroom₁ (fun o' ho' => hos o' (List.mem_cons_of_mem _ ho'))
      htables.2).mono ?_ fun _ hE => hE
    -- The first part keeps what was stored for it while the others are stored behind it.
    rintro - st₂ ⟨rows, hextends', hrows, hroom₂⟩
    refine ⟨c :: rows, hextends.trans hextends', ⟨?_, hrows⟩, hroom₂⟩
    have hpc := hextends.isParent hp (List.mem_cons_self (a := c))
    exact Store.Stores.of_grows h₁ hextends'.grows hextends'.childrenIn_of_ne o.kept c (.single hpc)
      hstores

/-- An outline that fits below a row is stored as its last child. -/
theorem ends_storeOutline_stored {o : Outline} (ho : o.Storable) (hfit : IntegersFit o.constants) :
    ∀ {st : Store} {p : Row} {k : Nat}, st.Integral → st.Has p →
      (∃ t ∈ project.childrenOf p.table, o.table? = some t) → st.Room (o.size + k) →
      (storeOutline p o).Ends true st
        (fun _ st₁ => ∃ c, st.Extends st₁ p [c] ∧ st₁.Stores c o.kept ∧ st₁.Room k)
        (fun _ => False) := by
  induction ho with
  | @entry kind e children he htables hchildren ih =>
    rintro st p k h hp ⟨t, hchild, htable⟩ hroom
    obtain rfl : e.table = t := Option.some.inj htable
    rw [Outline.size, Nat.add_right_comm] at hroom
    rw [storeOutline]
    refine Row.ends_childTables ?_
    rw [if_neg (not_not.mpr hchild)]
    -- The record first, and then its parts in the order of the outline.
    refine Change.Ends.bind ((ends_insertEntry h hp he hfit hchild hroom).mono ?_ fun _ hE => hE)
    rintro id st₁ ⟨hextends, hroom₁, hnew, hchildless, record, hrecord, hid, hshows⟩
    have h₁ := hextends.grows.integral
    have hc : st₁.Has (.ofId e.table id) := ⟨record, hrecord, congrArg Cell.int hid.symm⟩
    refine (ends_storeOutlines_stored_of h₁ hc hroom₁ (fun o ho => ih o ho fun n hn => hfit n ?_)
      htables).mono ?_ fun _ hE => hE
    · exact Outline.allConstants_subset kind e children (Outline.constants_subset ho hn)
    rintro - st₂ ⟨rows, hextends', hrows, hroom₂⟩
    refine ⟨.ofId e.table id, hextends.trans_below hp hnew hextends', ?_, hroom₂⟩
    refine ⟨rfl, ⟨record, hextends'.grows.rows_subset _ hrecord, congrArg Cell.int hid.symm, hshows⟩,
      rows, hrows, fun t => ?_⟩
    -- What is below the record is what was stored there, since it began without children.
    have hnone : st₁.childrenIn (.ofId e.table id) t = [] := by
      refine List.eq_nil_iff_forall_not_mem.mpr fun c hmem => ?_
      exact hchildless c (h₁.isParent_of_mem_childrenIn hc hmem)
    rw [hextends'.childrenIn_eq _ hc, if_pos rfl, hnone, List.nil_append]

/-- Outlines that fit below a row are stored as its last children, in their order. -/
theorem ends_storeOutlines_stored (h : st.Integral) (hp : st.Has p) {os : List Outline}
    (hos : ∀ o ∈ os, ∃ t ∈ project.childrenOf p.table, o.FitsIn t)
    (hfit : IntegersFit (Outline.allConstants os)) (hroom : st.Room (Outline.sizes os + k)) :
    (storeOutlines p os).Ends true st
      (fun _ st₁ => ∃ rows, st.Extends st₁ p rows ∧ st₁.StoresAll rows (Outline.allKept os) ∧
        st₁.Room k)
      (fun _ => False) := by
  have hstorable : ∀ o ∈ os, o.Storable := fun o ho => by
    obtain ⟨t, -, hfits⟩ := hos o ho
    exact hfits.2
  have htables : ∀ o ∈ os, ∃ t ∈ project.childrenOf p.table, o.table? = some t := fun o ho => by
    obtain ⟨t, ht, hfits⟩ := hos o ho
    exact ⟨t, ht, hfits.1⟩
  -- Each outline goes into a table below the parent and stores there as it should.
  exact ends_storeOutlines_stored_of h hp hroom
    (fun o ho => ends_storeOutline_stored (hstorable o ho) fun n hn =>
      hfit n (Outline.constants_subset ho hn)) htables

end SoarProject
