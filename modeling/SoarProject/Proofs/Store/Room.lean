import SoarProject.Proofs.Row.Lookup

/-!
# Room for new records

A new record gets the next id of its table, which must fit in a stored integer. How many more records a
table takes depends on its last id only.

* `Store.Room`: in every table there is room for a number of records.
* `Store.Room.fits_nextId`: where there is room, the next id fits.
* `Store.Room.of_rows`: a new record takes some of the room.
-/

namespace SoarProject

namespace Store

variable {st st' : Store} {t : Table} {m n k : Nat}

/-- In every table there is room for the ids of `n` more records. -/
structure Room (st : Store) (n : Nat) : Prop where
  fits : st.Fits
  count_le : (n : Int) ≤ maxInteger
  id_le : ∀ t, ∀ record ∈ st.rows t, record.id + n ≤ maxInteger

/-- The next id is no larger than a bound that all ids are below. -/
theorem nextId_le {rows : List Record} {bound : Int} (hbound : 1 ≤ bound)
    (h : ∀ record ∈ rows, record.id + 1 ≤ bound) : nextId rows ≤ bound := by
  unfold nextId
  cases hlast : rows.getLast? with
  | none => simpa using hbound
  | some last => simpa using h last (List.mem_of_getLast? hlast)

/-- The next id is no smaller than a bound that all ids reach. -/
theorem le_nextId {rows : List Record} {bound : Int} (hbound : bound ≤ 1)
    (h : ∀ record ∈ rows, bound ≤ record.id) : bound ≤ nextId rows := by
  unfold nextId
  cases hlast : rows.getLast? with
  | none => simpa using hbound
  | some last =>
    have := h last (List.mem_of_getLast? hlast)
    simp only [Option.map_some, Option.getD_some]
    omega

namespace Room

theorem mono (h : st.Room n) (hle : m ≤ n) : st.Room m where
  fits := h.fits
  count_le := by
    have := h.count_le
    omega
  id_le t record hrecord := by
    have := h.id_le t record hrecord
    omega

/-- Where there is room for one more record, its id fits. -/
theorem fits_nextId (h : st.Room (k + 1)) (t : Table) : fitsInteger (nextId (st.rows t)) = true := by
  have hfits : ∀ record ∈ st.rows t, minInteger ≤ record.id := by
    intro record hrecord
    have := h.fits t record hrecord
    simp only [fitsInteger, Bool.and_eq_true, decide_eq_true_eq] at this
    exact this.1
  have hupper : nextId (st.rows t) ≤ maxInteger := by
    refine nextId_le (by decide) fun record hrecord => ?_
    have := h.id_le t record hrecord
    omega
  have hlower : minInteger ≤ nextId (st.rows t) := le_nextId (by decide) hfits
  simp [fitsInteger, hupper, hlower]

/-- A new record takes some of the room. -/
theorem of_rows (h : st.Room (k + 1)) (hrows : ∀ t, ∀ record ∈ st'.rows t,
    record ∈ st.rows t ∨ record.id = nextId (st.rows t)) : st'.Room k where
  fits t record hrecord := by
    rcases hrows t record hrecord with hold | hid
    · exact h.fits t record hold
    · rw [hid]
      exact h.fits_nextId t
  count_le := by
    have := h.count_le
    omega
  id_le t record hrecord := by
    -- Old ids were one further from the limit than needed, and the new one comes right behind them.
    have hcount := h.count_le
    rcases hrows t record hrecord with hold | hid
    · have := h.id_le t record hold
      omega
    · have : nextId (st.rows t) ≤ maxInteger - k := by
        refine nextId_le (by omega) fun old hold => ?_
        have := h.id_le t old hold
        omega
      omega

theorem of_has (h : st.Room k) (hhas : ∀ r, st'.Has r → st.Has r) : st'.Room k := by
  refine ⟨h.fits.of_has hhas, h.count_le, fun t record hrecord => ?_⟩
  obtain ⟨old, hold, hid⟩ := hhas _ (has_ofId_of_mem hrecord)
  rw [Cell.int.inj hid]
  exact h.id_le t old hold

end Room

end Store

end SoarProject
