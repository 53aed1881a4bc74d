import SoarProject.Proofs.Row.Joining

/-!
# Growing stores

What a new record adds to a store, given the values that it is made from.

* `Store.Grows`: a store keeps its integrity and everything that is in it.
* `Store.Integral.withLoose`, `Store.Integral.withChild`: a new record without a parent, and one below a
  row. Neither names another row, and nothing names it.
-/

namespace SoarProject

open Registry

namespace Store

variable {st st' st'' : Store} {r p c q : Row} {t : Table} {n : RelationName} {pair : CellPair}
  {values : List (String × Value)} {record : Record}

/-- Everything in a store is still there, with new records behind it, and the store has integrity. -/
structure Grows (st st' : Store) : Prop where
  integral : st'.Integral
  rows_first : ∀ t, st.rows t <+: st'.rows t
  pairs_subset : ∀ n : RelationName, n.IsJoin → st.pairsOf n ⊆ st'.pairsOf n

namespace Grows

theorem refl (h : st.Integral) : st.Grows st where
  integral := h
  rows_first _ := List.prefix_rfl
  pairs_subset _ _ := List.Subset.refl _

theorem trans (h : st.Grows st') (h' : st'.Grows st'') : st.Grows st'' where
  integral := h'.integral
  rows_first t := (h.rows_first t).trans (h'.rows_first t)
  pairs_subset n hn := List.Subset.trans (h.pairs_subset n hn) (h'.pairs_subset n hn)

variable (h : st.Grows st')

include h

theorem rows_subset (t : Table) : st.rows t ⊆ st'.rows t := (h.rows_first t).subset

theorem has (hr : st.Has r) : st'.Has r := by
  obtain ⟨record, hrecord, hid⟩ := hr
  exact ⟨record, h.rows_subset _ hrecord, hid⟩

theorem isParent (hpc : st.IsParent p c) : st'.IsParent p c := by
  obtain ⟨htable, hnull, record, hrecord, hid, hkey⟩ := hpc
  exact ⟨htable, hnull, record, h.rows_subset _ hrecord, hid, hkey⟩

/-- An existing row has no other parent than before. -/
theorem isParent_iff (hc : st.Has c) : st'.IsParent p c ↔ st.IsParent p c := by
  refine ⟨?_, h.isParent⟩
  rintro ⟨htable, hnull, record, hrecord, hid, hkey⟩
  obtain ⟨old, hold, hid'⟩ := hc
  obtain rfl := h.integral.eq_of_id_eq (h.rows_subset _ hold) hrecord
    (Cell.int.inj (hid'.symm.trans hid))
  exact ⟨htable, hnull, old, hold, hid, hkey⟩

theorem isAbove (hpc : st.IsAbove p c) : st'.IsAbove p c :=
  ⟨hpc.1, h.pairs_subset (.directed p.table c.table) hpc.1 hpc.2⟩

end Grows

theorem Joins.grows (h : st.Joins st' n pair) : st.Grows st' where
  integral := h.integral
  rows_first t := ⟨[], by rw [h.rows_eq, List.append_nil]⟩
  pairs_subset m hm := h.old m hm

/-! ### New records -/

/-- A record is added. -/
theorem Integral.grows_withRecord (h : st.Integral) (hid : record.id = nextId (st.rows t))
    (hintegral : (st.withRecord t record).Integral) : st.Grows (st.withRecord t record) where
  integral := hintegral
  rows_first u := by
    rw [Store.withRecord, h.shaped.rows_setRows]
    split
    · next hu =>
      rw [hu, insertRecord_eq_append fun other hother => hid ▸ h.lt_nextId hother]
      exact List.prefix_append _ _
    · exact List.prefix_rfl
  pairs_subset m _ := by
    rw [Store.withRecord, h.shaped.pairsOf_setRows]
    exact List.Subset.refl _

/-- No key of a record holds anything for which no value is given. -/
theorem get_idName_eq_null {u : Table} (h : record.MadeFrom t values)
    (hu : u ∈ project.parentsOf t) (hnone : ∀ v ∈ values, v.1 ≠ u.idName) :
    record.get u.idName = .null := by
  have hlookup : values.reverse.lookup u.idName = none := by
    rw [List.lookup_eq_none_iff]
    intro v hv
    exact bne_iff_ne.mpr (hnone v (List.mem_reverse.mp hv)).symm
  have hget := (h _ .integer (id_ne_idName u).symm (columnType?_idName hu)).1 hlookup
  rw [hget]
  rfl

/-- The key of a record holds the id that is given for it last. -/
theorem get_idName_eq_int {u : Table} {id : Int}
    (h : record.MadeFrom t (values ++ [(u.idName, .int id)])) (hu : u ∈ project.parentsOf t) :
    record.get u.idName = .int id := by
  have hlookup : (values ++ [(u.idName, Value.int id)]).reverse.lookup u.idName =
      some (.int id) := by simp
  obtain ⟨prepared, place, cell, hprepared, hcell, hget⟩ :=
    (h _ .integer (id_ne_idName u).symm (columnType?_idName hu)).2 _ hlookup
  obtain rfl : .int id = prepared := Except.ok.inj hprepared
  rw [hget]
  simp only [Value.toCell] at hcell
  split at hcell
  · cases hcell
    rfl
  · cases hcell

/-- A record without a parent is added. -/
theorem Integral.withLoose (h : st.Integral) (hid : record.id = nextId (st.rows t))
    (hmade : record.MadeFrom t values) (hplain : ∀ v ∈ values, IsAttribute v.1) :
    st.Grows (st.withRecord t record) ∧
      ∀ q c, (st.withRecord t record).IsParent q c → st.IsParent q c := by
  have hnull : ∀ u ∈ project.parentsOf t, record.get u.idName = .null :=
    fun u hu => get_idName_eq_null hmade hu fun v hv => (hplain v hv).ne_idName u
  refine ⟨h.grows_withRecord hid (h.withRecord hid ?_ ?_), fun q c hqc => ?_⟩
  · exact fun u hu hkey => absurd (hnull u hu) hkey
  · exact fun u hu _ _ hkey => absurd (hnull u hu) hkey
  · rcases (h.isParent_withRecord hid).mp hqc with hqc | ⟨-, hq, hid, hkey⟩
    · exact hqc
    · exact absurd (hkey.symm.trans (hnull _ hq)) hid

/-- A record below a row is added. -/
theorem Integral.withChild (h : st.Integral) (hid : record.id = nextId (st.rows t)) {u : Table}
    {id : Int} (hmade : record.MadeFrom t (values ++ [(u.idName, .int id)]))
    (hu : u ∈ project.parentsOf t) (hp : st.Has (.ofId u id))
    (hplain : ∀ v ∈ values, IsAttribute v.1) :
    st.Grows (st.withRecord t record) ∧
      (st.withRecord t record).IsParent (.ofId u id) (.ofId t record.id) ∧
      ∀ q c, (st.withRecord t record).IsParent q c →
        st.IsParent q c ∨ q = .ofId u id ∧ c = .ofId t record.id := by
  have hkey := get_idName_eq_int hmade hu
  -- The key that is given is the only one, as the other values are attributes.
  have hone : ∀ v ∈ project.parentsOf t, record.get v.idName ≠ .null → v = u := by
    intro v hv hnotnull
    by_contra hne
    refine hnotnull (get_idName_eq_null hmade hv fun x hx => ?_)
    rcases List.mem_append.mp hx with hx | hx
    · exact (hplain x hx).ne_idName v
    · rw [List.mem_singleton.mp hx]
      exact fun heq => hne (idName_injective heq).symm
  refine ⟨h.grows_withRecord hid (h.withRecord hid ?_ ?_), ?_, fun q c hqc => ?_⟩
  · intro v hv hnotnull
    rw [hone v hv hnotnull, hkey]
    exact hp
  · intro v hv v' hv' hnotnull hnotnull'
    rw [hone v hv hnotnull, hone v' hv' hnotnull']
  · exact (h.isParent_withRecord hid).mpr (Or.inr ⟨rfl, hu, by simp, hkey⟩)
  · -- The only new parent is the one that the key names.
    rcases (h.isParent_withRecord hid).mp hqc with hqc | ⟨rfl, hq, hnotnull, hkeyq⟩
    · exact Or.inl hqc
    · have hqu := hone _ hq (by rwa [hkeyq])
      rw [hqu, hkey] at hkeyq
      exact Or.inr ⟨by rw [Row.ofId, hkeyq, ← hqu], rfl⟩

end Store

end SoarProject
