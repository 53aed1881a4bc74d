import Mathlib.Logic.Relation
import SoarProject.Proofs.Store.Blank
import SoarProject.Proofs.Store.Insertion

/-!
# Integrity of a store

What always holds of the records and pairs of a project.

* `Store.Ordered`: records stand in the order of their ids, whatever keys name.
* `Store.Sound`: moreover whatever a key or a pair names exists.
* `Store.Integral`: besides, no row has two parents, no row is below itself, and no pair is recorded
  twice.

Each way to change a store keeps its integrity: `Integral.of_within` for removing records and pairs,
`Integral.mapRows` for changing columns, `Integral.withRecord` for a new record, and `Integral.addPair` for a
new pair.
-/

namespace SoarProject

open Registry

/-- The tables that a join connects. -/
def RelationName.joinTables : RelationName → Table × Table
  | .join a b | .directed a b => (a, b)
  | _ => default

namespace Store

variable {s s' : Store} {t : Table} {n : RelationName} {r p c : Row}

/-- The record of a row exists. -/
def Has (s : Store) (r : Row) : Prop := ∃ record ∈ s.rows r.table, r.id = .int record.id

/-- A key of the row `c` names the row `p`. -/
def IsParent (s : Store) (p c : Row) : Prop :=
  p.table ∈ project.parentsOf c.table ∧ p.id ≠ .null ∧
    ∃ record ∈ s.rows c.table, c.id = .int record.id ∧ record.get p.table.idName = p.id

/-- The row `c` is joined below the row `p`. -/
def IsAbove (s : Store) (p c : Row) : Prop :=
  (p.table, c.table) ∈ project.directedPairs ∧
    (p.id, c.id) ∈ s.pairsOf (.directed p.table c.table)

/-- Every relation is there, records stand in the order of their ids, and whatever a key or a pair
names exists. -/
structure Sound (s : Store) : Prop where
  shaped : s.Shaped
  /-- The records of a table have ascending ids. -/
  ids_ascend : ∀ t, (s.rows t).Pairwise (·.id < ·.id)
  /-- A key that is not null names a row of the parent table. -/
  keys_exist : ∀ t, ∀ record ∈ s.rows t, ∀ p ∈ project.parentsOf t,
    record.get p.idName ≠ .null → s.Has ⟨p, record.get p.idName⟩
  /-- A pair has existing rows at both ends. -/
  pairs_exist : ∀ n : RelationName, n.IsJoin → ∀ pair ∈ s.pairsOf n,
    s.Has ⟨n.joinTables.1, pair.1⟩ ∧ s.Has ⟨n.joinTables.2, pair.2⟩

/-- Every relation is there and records stand in the order of their ids, whatever keys and pairs name. -/
structure Ordered (s : Store) : Prop where
  shaped : s.Shaped
  /-- The records of a table have ascending ids. -/
  ids_ascend : ∀ t, (s.rows t).Pairwise (·.id < ·.id)

theorem Sound.ordered (h : s.Sound) : s.Ordered := ⟨h.shaped, h.ids_ascend⟩

/-- Keys and pairs name existing rows, keys form a forest, and no pair is recorded twice. -/
structure Integral (s : Store) : Prop extends Sound s where
  /-- At most one key of a record is not null. -/
  one_parent : ∀ t, ∀ record ∈ s.rows t, ∀ p ∈ project.parentsOf t, ∀ q ∈ project.parentsOf t,
    record.get p.idName ≠ .null → record.get q.idName ≠ .null → p = q
  /-- No row is below itself. -/
  acyclic : ∀ r, ¬ Relation.TransGen s.IsParent r r
  /-- No pair is recorded twice. -/
  pairs_nodup : ∀ n : RelationName, n.IsJoin → (s.pairsOf n).Nodup
  /-- Within one table, no pair is recorded in both orders. -/
  no_swap : ∀ t, (t, t) ∈ project.joinedPairs → ∀ a b, (a, b) ∈ s.pairsOf (.join t t) →
    (b, a) ∈ s.pairsOf (.join t t) → a = b

/-- A store with nothing in it has integrity. -/
theorem integral_blank : blank.Integral where
  shaped.find?_entity t := by rw [find?_blank_entity, rows_blank]
  shaped.find?_join n hn := by rw [find?_blank_join hn, pairsOf_blank hn]
  ids_ascend t := by simp
  keys_exist t := by simp
  pairs_exist n hn := by simp [pairsOf_blank hn]
  one_parent t := by simp
  acyclic r hcycle := by
    obtain ⟨c, ⟨-, -, record, hrecord, -⟩, -⟩ := Relation.TransGen.head'_iff.mp hcycle
    simp at hrecord
  pairs_nodup n hn := by simp [pairsOf_blank hn]
  no_swap t ht := by simp [pairsOf_blank (n := .join t t) ht]

/-! ### Rows -/

/-- The id of an existing row is an integer. -/
theorem Has.exists_id (h : s.Has r) : ∃ id, r = .ofId r.table id := by
  obtain ⟨record, -, hid⟩ := h
  exact ⟨record.id, by rw [Row.ofId, ← hid]⟩

theorem has_ofId_of_mem {record : Record} (h : record ∈ s.rows t) : s.Has (.ofId t record.id) :=
  ⟨record, h, rfl⟩

/-- The record of an id is only one. -/
theorem Ordered.eq_of_id_eq (h : s.Ordered) {a b : Record} (ha : a ∈ s.rows t) (hb : b ∈ s.rows t)
    (hid : a.id = b.id) : a = b := by
  have hpairs := List.pairwise_iff_getElem.mp (h.ids_ascend t)
  obtain ⟨i, hi, rfl⟩ := List.getElem_of_mem ha
  obtain ⟨j, hj, rfl⟩ := List.getElem_of_mem hb
  rcases Nat.lt_trichotomy i j with hij | rfl | hij
  · exact absurd hid (Int.ne_of_lt (hpairs i j hi hj hij))
  · rfl
  · exact absurd hid (Int.ne_of_gt (hpairs j i hj hi hij))

theorem Sound.eq_of_id_eq (h : s.Sound) {a b : Record} (ha : a ∈ s.rows t) (hb : b ∈ s.rows t)
    (hid : a.id = b.id) : a = b :=
  h.ordered.eq_of_id_eq ha hb hid

/-- The parent of a row exists. -/
theorem Sound.has_of_isParent (h : s.Sound) (hpc : s.IsParent p c) : s.Has p := by
  obtain ⟨htable, hnull, record, hrecord, -, hkey⟩ := hpc
  rw [← hkey] at hnull
  have := h.keys_exist _ record hrecord _ htable hnull
  rwa [hkey] at this

theorem IsParent.has (hpc : s.IsParent p c) : s.Has c := by
  obtain ⟨-, -, record, hrecord, hid, -⟩ := hpc
  exact ⟨record, hrecord, hid⟩

/-- Both ends of a directed join exist. -/
theorem Sound.has_of_isAbove (h : s.Sound) (hpc : s.IsAbove p c) : s.Has p ∧ s.Has c :=
  h.pairs_exist (.directed p.table c.table) hpc.1 _ hpc.2

/-! ### Fewer records and pairs -/

/-- A store holds some of the records and some of the pairs of another one. -/
structure Within (s' s : Store) : Prop where
  rows_eq : ∀ t, ∃ keep : Record → Bool, s'.rows t = (s.rows t).filter keep
  pairs_eq : ∀ n, ∃ keep : CellPair → Bool, s'.pairsOf n = (s.pairsOf n).filter keep

namespace Within

@[refl]
theorem refl (s : Store) : s.Within s where
  rows_eq _ := ⟨fun _ => true, by simp⟩
  pairs_eq _ := ⟨fun _ => true, by simp⟩

/-- What is left of what is left. -/
theorem trans {s'' : Store} (h' : s''.Within s') (h : s'.Within s) : s''.Within s where
  rows_eq t := by
    obtain ⟨keep, hkeep⟩ := h.rows_eq t
    obtain ⟨keep', hkeep'⟩ := h'.rows_eq t
    exact ⟨_, by rw [hkeep', hkeep, List.filter_filter]⟩
  pairs_eq n := by
    obtain ⟨keep, hkeep⟩ := h.pairs_eq n
    obtain ⟨keep', hkeep'⟩ := h'.pairs_eq n
    exact ⟨_, by rw [hkeep', hkeep, List.filter_filter]⟩

variable (h : s'.Within s)

include h

theorem rows_subset (t : Table) : s'.rows t ⊆ s.rows t := by
  obtain ⟨keep, hkeep⟩ := h.rows_eq t
  rw [hkeep]
  exact List.filter_subset_self _

theorem pairs_subset (n : RelationName) : s'.pairsOf n ⊆ s.pairsOf n := by
  obtain ⟨keep, hkeep⟩ := h.pairs_eq n
  rw [hkeep]
  exact List.filter_subset_self _

theorem has (hr : s'.Has r) : s.Has r := by
  obtain ⟨record, hrecord, hid⟩ := hr
  exact ⟨record, h.rows_subset _ hrecord, hid⟩

theorem isParent (hpc : s'.IsParent p c) : s.IsParent p c := by
  obtain ⟨htable, hnull, record, hrecord, hid, hkey⟩ := hpc
  exact ⟨htable, hnull, record, h.rows_subset _ hrecord, hid, hkey⟩

theorem isAbove (hpc : s'.IsAbove p c) : s.IsAbove p c := ⟨hpc.1, h.pairs_subset _ hpc.2⟩

theorem isParent_of_has (hs : s.Sound) (hc : s'.Has c) (hpc : s.IsParent p c) : s'.IsParent p c := by
  obtain ⟨htable, hnull, record, hrecord, hid, hkey⟩ := hpc
  obtain ⟨record', hrecord', hid'⟩ := hc
  have heq := hs.eq_of_id_eq hrecord (h.rows_subset _ hrecord')
    (Cell.int.inj (hid.symm.trans hid'))
  exact ⟨htable, hnull, record, heq ▸ hrecord', hid, hkey⟩

/-- The records that are left are those of the rows that are left. -/
theorem rows_eq_filter (hs : s.Sound) {left : Row → Prop} [DecidablePred left]
    (hleft : ∀ r, s.Has r → (s'.Has r ↔ left r)) (t : Table) :
    s'.rows t = (s.rows t).filter fun record => left (.ofId t record.id) := by
  obtain ⟨keep, hkeep⟩ := h.rows_eq t
  rw [hkeep]
  refine List.filter_congr fun record hrecord => ?_
  rw [Bool.eq_iff_iff, decide_eq_true_iff, ← hleft _ (has_ofId_of_mem hrecord)]
  constructor
  · intro hkept
    exact has_ofId_of_mem (hkeep ▸ List.mem_filter.mpr ⟨hrecord, hkept⟩)
  · rintro ⟨other, hother, hid⟩
    have heq := hs.eq_of_id_eq hrecord (h.rows_subset t hother) (Cell.int.inj hid)
    rw [hkeep, ← heq] at hother
    exact (List.mem_filter.mp hother).2

end Within

/-- With fewer records and pairs, a store keeps its integrity if nothing that is named is missing. -/
theorem Integral.of_within (h : s.Integral) (hwithin : s'.Within s) (hs : s'.Sound) :
    s'.Integral where
  toSound := hs
  one_parent t record hrecord :=
    h.one_parent t record (hwithin.rows_subset t hrecord)
  acyclic r hcycle :=
    h.acyclic r (Relation.TransGen.mono (fun _ _ hpc => hwithin.isParent hpc) r r hcycle)
  pairs_nodup n hn := by
    obtain ⟨keep, hkeep⟩ := hwithin.pairs_eq n
    rw [hkeep]
    exact (h.pairs_nodup n hn).filter _
  no_swap t ht a b hab hba :=
    h.no_swap t ht a b (hwithin.pairs_subset _ hab) (hwithin.pairs_subset _ hba)

/-! ### Removing pairs -/

/-- Replacing pairs leaves the existing rows. -/
theorem has_setPairs (hn : n.IsJoin) (pairs : List CellPair) :
    (s.setPairs n pairs).Has r ↔ s.Has r := by
  simp only [Has, Shaped.rows_setPairs hn]

/-- Some of the pairs of a join are left. -/
theorem Shaped.within_setPairs (h : s.Shaped) (hn : n.IsJoin) (keep : CellPair → Bool) :
    (s.setPairs n ((s.pairsOf n).filter keep)).Within s where
  rows_eq t := ⟨fun _ => true, by rw [Shaped.rows_setPairs hn]; simp⟩
  pairs_eq m := by
    rw [h.pairsOf_setPairs hn]
    split
    · next hm => exact ⟨keep, by rw [hm]⟩
    · exact ⟨fun _ => true, by simp⟩

/-- Nothing that is named is missing if there are fewer pairs. -/
theorem Sound.setPairs_filter (h : s.Sound) (hn : n.IsJoin) (keep : CellPair → Bool) :
    (s.setPairs n ((s.pairsOf n).filter keep)).Sound where
  shaped := h.shaped.setPairs hn _
  ids_ascend t := by
    rw [Shaped.rows_setPairs hn]
    exact h.ids_ascend t
  keys_exist t record hrecord q hq hnull := by
    rw [Shaped.rows_setPairs hn] at hrecord
    exact (has_setPairs hn _).mpr (h.keys_exist t record hrecord q hq hnull)
  pairs_exist m hm pair hpair := by
    have hpair := (h.shaped.within_setPairs hn keep).pairs_subset m hpair
    rw [has_setPairs hn, has_setPairs hn]
    exact h.pairs_exist m hm pair hpair

/-! ### Removing records -/

@[simp]
theorem int_identifies_int (a b : Int) : (Cell.int a).identifies (.int b) = decide (b = a) := by
  simp [Cell.identifies, Cell.same, StoredType.comparable, Cell.toNumber, beq_eq_decide]

@[simp]
theorem int_identifies_null (a : Int) : (Cell.int a).identifies .null = false := rfl

/-- The denominator of a number is positive. -/
theorem fraction_snd_pos (x : Float) : 0 < (fraction x).2 := by
  unfold fraction
  split
  · rw [Nat.one_shiftLeft]
    exact Int.natCast_pos.mpr (Nat.two_pow_pos _)
  · exact Int.one_pos
  · exact Int.one_pos

/-- A cell is asked for by one integer only. -/
theorem eq_of_int_identifies {a b : Int} {cell : Cell} (ha : (Cell.int a).identifies cell = true)
    (hb : (Cell.int b).identifies cell = true) : a = b := by
  cases cell with
  | null | text => cases ha
  | int n =>
    rw [int_identifies_int, decide_eq_true_iff] at ha hb
    exact ha.symm.trans hb
  | real x =>
    have hpos := fraction_snd_pos x
    simp only [Cell.identifies, Cell.same, StoredType.comparable, Cell.toNumber, Bool.and_eq_true,
      beq_iff_eq] at ha hb
    exact Int.eq_of_mul_eq_mul_right (by omega) (ha.2.symm.trans hb.2)

/-- Remove the record of a row. -/
def erase (s : Store) (r : Row) : Store :=
  s.setRows r.table ((s.rows r.table).filter fun record => !r.id.identifies (.int record.id))

/-- All records but that of the row are left. -/
theorem Shaped.within_erase (h : s.Shaped) (r : Row) : (s.erase r).Within s where
  rows_eq t := by
    rw [erase, h.rows_setRows]
    split
    · next ht => exact ⟨_, by rw [ht]⟩
    · exact ⟨fun _ => true, by simp⟩
  pairs_eq n := ⟨fun _ => true, by rw [erase, h.pairsOf_setRows]; simp⟩

/-- All rows but the removed one are left. -/
theorem Shaped.has_erase (h : s.Shaped) {id : Int} :
    (s.erase (.ofId t id)).Has r ↔ s.Has r ∧ r ≠ .ofId t id := by
  obtain ⟨u, key⟩ := r
  simp only [Has, erase, h.rows_setRows, Row.ofId]
  by_cases hu : u = t
  · subst hu
    simp only [↓reduceIte, List.mem_filter, int_identifies_int, Bool.not_eq_true',
      decide_eq_false_iff_not, ne_eq, Row.mk.injEq, true_and]
    constructor
    · rintro ⟨record, ⟨hrecord, hne⟩, rfl⟩
      exact ⟨⟨record, hrecord, rfl⟩, fun heq => hne (Cell.int.inj heq)⟩
    · rintro ⟨⟨record, hrecord, rfl⟩, hne⟩
      exact ⟨record, ⟨hrecord, fun heq => hne (congrArg Cell.int heq)⟩, rfl⟩
  · simp [hu]

/-- Nothing that is named is missing once a row is removed that no key and no pair names. -/
theorem Sound.erase (h : s.Sound) {id : Int} (hchild : ∀ c, ¬ s.IsParent (.ofId t id) c)
    (hpairs : ∀ n : RelationName, n.IsJoin → ∀ pair ∈ s.pairsOf n,
      Row.mk n.joinTables.1 pair.1 ≠ .ofId t id ∧ Row.mk n.joinTables.2 pair.2 ≠ .ofId t id) :
    (s.erase (.ofId t id)).Sound where
  shaped := h.shaped.setRows _
  ids_ascend u := by
    obtain ⟨keep, hkeep⟩ := (h.shaped.within_erase (.ofId t id)).rows_eq u
    rw [hkeep]
    exact (h.ids_ascend u).filter _
  keys_exist u record hrecord p hp hnull := by
    -- The record that a key names is not the erased one, as that has no child.
    replace hrecord := (h.shaped.within_erase _).rows_subset u hrecord
    refine h.shaped.has_erase.mpr ⟨h.keys_exist u record hrecord p hp hnull, fun heq => ?_⟩
    rw [Row.ofId, Row.mk.injEq] at heq
    obtain ⟨rfl, hkey⟩ := heq
    exact hchild (.ofId u record.id) ⟨hp, by simp, record, hrecord, rfl, hkey⟩
  pairs_exist n hn pair hpair := by
    have hpair := (h.shaped.within_erase _).pairs_subset n hpair
    obtain ⟨hfirst, hsecond⟩ := h.pairs_exist n hn pair hpair
    obtain ⟨hne, hne'⟩ := hpairs n hn pair hpair
    exact ⟨h.shaped.has_erase.mpr ⟨hfirst, hne⟩, h.shaped.has_erase.mpr ⟨hsecond, hne'⟩⟩

/-! ### New pairs -/

/-- Integrity is kept by a pair of existing rows that is not there, also not in the other order. -/
theorem Integral.addPair (h : s.Integral) (hn : n.IsJoin) {a b : Cell}
    (ha : s.Has ⟨n.joinTables.1, a⟩) (hb : s.Has ⟨n.joinTables.2, b⟩)
    (hnew : (a, b) ∉ s.pairsOf n) (hswap : ∀ t, n = .join t t → (b, a) ∉ s.pairsOf n) :
    (s.setPairs n (s.pairsOf n ++ [(a, b)])).Integral where
  shaped := h.shaped.setPairs hn _
  ids_ascend t := by
    rw [Shaped.rows_setPairs hn]
    exact h.ids_ascend t
  keys_exist t record hrecord p hp hnull := by
    rw [Shaped.rows_setPairs hn] at hrecord
    exact (has_setPairs hn _).mpr (h.keys_exist t record hrecord p hp hnull)
  pairs_exist m hm pair hpair := by
    rw [has_setPairs hn, has_setPairs hn]
    rw [h.shaped.pairsOf_setPairs hn] at hpair
    split at hpair
    · next hmn =>
      subst hmn
      rcases List.mem_append.mp hpair with hpair | hpair
      · exact h.pairs_exist m hm pair hpair
      · rw [List.mem_singleton.mp hpair]
        exact ⟨ha, hb⟩
    · exact h.pairs_exist m hm pair hpair
  one_parent t record hrecord := by
    rw [Shaped.rows_setPairs hn] at hrecord
    exact h.one_parent t record hrecord
  acyclic r hcycle := by
    -- A join is no key, so whatever is below a row was below it before.
    refine h.acyclic r (Relation.TransGen.mono (fun p c hpc => ?_) r r hcycle)
    simpa only [IsParent, Shaped.rows_setPairs hn] using hpc
  pairs_nodup m hm := by
    rw [h.shaped.pairsOf_setPairs hn]
    split
    · exact List.nodup_append.mpr ⟨h.pairs_nodup n hn, by simp, by
        rintro p hp q hq rfl
        exact hnew (List.mem_singleton.mp hq ▸ hp)⟩
    · exact h.pairs_nodup m hm
  no_swap t ht x y hxy hyx := by
    rw [h.shaped.pairsOf_setPairs hn] at hxy hyx
    split at hxy
    · next hm =>
      rw [if_pos hm] at hyx
      simp only [List.mem_append, List.mem_singleton, Prod.mk.injEq] at hxy hyx
      have hother := hswap t hm.symm
      -- If both are the new pair, its ends are one cell; if one of them is, the other would be its swap.
      rcases hxy with hxy | ⟨rfl, rfl⟩
      · rcases hyx with hyx | ⟨rfl, rfl⟩
        · rw [← hm] at hxy hyx
          exact h.no_swap t ht x y hxy hyx
        · exact absurd hxy hother
      · rcases hyx with hyx | ⟨rfl, -⟩
        · exact absurd hyx hother
        · rfl
    · next hm =>
      rw [if_neg hm] at hyx
      exact h.no_swap t ht x y hxy hyx

/-! ### Changed columns -/

/-- The order of records is kept when they change apart from their ids, whatever becomes of their keys. -/
theorem Ordered.mapRows (h : s.Ordered) (f : Record → Record)
    (hid : ∀ record ∈ s.rows t, (f record).id = record.id) :
    (s.setRows t ((s.rows t).map f)).Ordered where
  shaped := h.shaped.setRows _
  ids_ascend u := by
    rw [h.shaped.rows_setRows]
    split
    · refine List.pairwise_map.mpr ((h.ids_ascend t).imp_of_mem fun {a b} ha hb hlt => ?_)
      rwa [hid a ha, hid b hb]
    · exact h.ids_ascend u

/-- Integrity is kept when records change apart from their ids and keys. -/
theorem Integral.mapRows (h : s.Integral) (f : Record → Record)
    (hid : ∀ record ∈ s.rows t, (f record).id = record.id)
    (hkeys : ∀ record ∈ s.rows t, ∀ p ∈ project.parentsOf t,
      (f record).get p.idName = record.get p.idName) :
    (s.setRows t ((s.rows t).map f)).Integral := by
  -- Every record has the id and the keys of an old one.
  have hrows : ∀ u, ∀ record ∈ (s.setRows t ((s.rows t).map f)).rows u,
      ∃ old ∈ s.rows u, record.id = old.id ∧
        ∀ p ∈ project.parentsOf u, record.get p.idName = old.get p.idName := by
    intro u record hrecord
    rw [h.shaped.rows_setRows] at hrecord
    split at hrecord
    · next hu =>
      subst hu
      obtain ⟨old, hold, rfl⟩ := List.mem_map.mp hrecord
      exact ⟨old, hold, hid old hold, hkeys old hold⟩
    · exact ⟨record, hrecord, rfl, fun _ _ => rfl⟩
  have hhas : ∀ {r}, s.Has r → (s.setRows t ((s.rows t).map f)).Has r := by
    rintro r ⟨record, hrecord, hrid⟩
    rw [Has, h.shaped.rows_setRows]
    split
    · next hu =>
      rw [hu] at hrecord
      exact ⟨f record, List.mem_map_of_mem hrecord, by rw [hid record hrecord, hrid]⟩
    · exact ⟨record, hrecord, hrid⟩
  refine
    { shaped := h.shaped.setRows _
      ids_ascend := (h.ordered.mapRows f hid).ids_ascend
      keys_exist := fun u record hrecord p hp hnull => ?_
      pairs_exist := fun n hn pair hpair => ?_
      one_parent := fun u record hrecord p hp q hq hpnull hqnull => ?_
      acyclic := fun r hcycle => ?_
      pairs_nodup := fun n hn => ?_
      no_swap := fun u hu a b => ?_ }
  · obtain ⟨old, hold, -, hkey⟩ := hrows u record hrecord
    rw [hkey p hp] at hnull ⊢
    exact hhas (h.keys_exist u old hold p hp hnull)
  · rw [h.shaped.pairsOf_setRows] at hpair
    exact (h.pairs_exist n hn pair hpair).imp hhas hhas
  · obtain ⟨old, hold, -, hkey⟩ := hrows u record hrecord
    rw [hkey p hp] at hpnull
    rw [hkey q hq] at hqnull
    exact h.one_parent u old hold p hp q hq hpnull hqnull
  · refine h.acyclic r (Relation.TransGen.mono ?_ r r hcycle)
    rintro p c ⟨htable, hnull, record, hrecord, hrid, hkey⟩
    obtain ⟨old, hold, hold_id, hold_key⟩ := hrows _ record hrecord
    exact ⟨htable, hnull, old, hold, by rw [hrid, hold_id], by rw [← hold_key _ htable, hkey]⟩
  · rw [h.shaped.pairsOf_setRows]
    exact h.pairs_nodup n hn
  · rw [h.shaped.pairsOf_setRows]
    exact h.no_swap u hu a b

/-! ### New records -/

/-- The next id is larger than all ascending ids. -/
theorem lt_nextId_of_pairwise {rows : List Record} (hascend : rows.Pairwise (·.id < ·.id))
    {record : Record} (hrecord : record ∈ rows) : record.id < nextId rows := by
  rcases List.eq_nil_or_concat rows with rfl | ⟨front, last, rfl⟩
  · exact absurd hrecord List.not_mem_nil
  · rw [List.concat_eq_append] at hrecord hascend ⊢
    have hlast : nextId (front ++ [last]) = last.id + 1 := by simp [nextId]
    rw [hlast]
    rcases List.mem_append.mp hrecord with hrecord | hrecord
    · have := (List.pairwise_append.mp hascend).2.2 record hrecord last (by simp)
      omega
    · rw [List.mem_singleton.mp hrecord]
      omega

/-- The next id is larger than all ids. -/
theorem Sound.lt_nextId (h : s.Sound) {record : Record} (hrecord : record ∈ s.rows t) :
    record.id < nextId (s.rows t) :=
  lt_nextId_of_pairwise (h.ids_ascend t) hrecord

/-- A record with a larger id than all others comes last. -/
theorem insertRecord_eq_append {record : Record} {rows : List Record}
    (h : ∀ other ∈ rows, other.id < record.id) : insertRecord record rows = rows ++ [record] := by
  induction rows with
  | nil => rfl
  | cons other rows ih =>
    have hlt := h other List.mem_cons_self
    rw [insertRecord, if_neg (by omega), ih fun o ho => h o (List.mem_cons_of_mem _ ho)]
    rfl

/-- Add a record to a table. -/
def withRecord (s : Store) (t : Table) (record : Record) : Store :=
  s.setRows t (insertRecord record (s.rows t))

section NewRecord

variable {record : Record} (h : s.Sound) (hid : record.id = nextId (s.rows t))

include h hid

/-- The records with a new one. -/
theorem Sound.mem_rows_withRecord {u : Table} {other : Record} :
    other ∈ (s.withRecord t record).rows u ↔ other ∈ s.rows u ∨ (u = t ∧ other = record) := by
  rw [withRecord, h.shaped.rows_setRows]
  split
  · next hu =>
    subst hu
    rw [insertRecord_eq_append fun o ho => hid ▸ h.lt_nextId ho]
    simp
  · next hu => simp [hu]

/-- The row of a new record did not exist. -/
theorem Sound.not_has_new : ¬ s.Has (.ofId t record.id) := by
  rintro ⟨other, hother, heq⟩
  have := h.lt_nextId hother
  rw [← Cell.int.inj heq, hid] at this
  exact Int.lt_irrefl _ this

/-- The rows with a new one. -/
theorem Sound.has_withRecord : (s.withRecord t record).Has r ↔ s.Has r ∨ r = .ofId t record.id := by
  obtain ⟨u, key⟩ := r
  simp only [Has, h.mem_rows_withRecord hid]
  constructor
  · rintro ⟨other, hother | ⟨rfl, rfl⟩, rfl⟩
    · exact Or.inl ⟨other, hother, rfl⟩
    · exact Or.inr rfl
  · rintro (⟨other, hother, rfl⟩ | heq)
    · exact ⟨other, Or.inl hother, rfl⟩
    · obtain ⟨rfl, rfl⟩ := Row.mk.inj heq
      exact ⟨record, Or.inr ⟨rfl, rfl⟩, rfl⟩

/-- The parents with a new record. -/
theorem Sound.isParent_withRecord : (s.withRecord t record).IsParent p c ↔
    s.IsParent p c ∨ (c = .ofId t record.id ∧ p.table ∈ project.parentsOf t ∧ p.id ≠ .null ∧
      record.get p.table.idName = p.id) := by
  obtain ⟨u, key⟩ := c
  simp only [IsParent, h.mem_rows_withRecord hid]
  constructor
  · rintro ⟨htable, hnull, other, hother | ⟨rfl, rfl⟩, rfl, hkey⟩
    · exact Or.inl ⟨htable, hnull, other, hother, rfl, hkey⟩
    · exact Or.inr ⟨rfl, htable, hnull, hkey⟩
  · rintro (⟨htable, hnull, other, hother, rfl, hkey⟩ | ⟨heq, htable, hnull, hkey⟩)
    · exact ⟨htable, hnull, other, Or.inl hother, rfl, hkey⟩
    · obtain ⟨rfl, rfl⟩ := Row.mk.inj heq
      exact ⟨htable, hnull, record, Or.inr ⟨rfl, rfl⟩, rfl, hkey⟩

/-- The row of a new record has no child. -/
theorem Sound.not_isParent_new (hkeys : ∀ p ∈ project.parentsOf t, record.get p.idName ≠ .null →
    s.Has ⟨p, record.get p.idName⟩) : ¬ (s.withRecord t record).IsParent (.ofId t record.id) c := by
  intro hpc
  rcases (h.isParent_withRecord hid).mp hpc with hpc | ⟨-, htable, hnull, hkey⟩
  · exact h.not_has_new hid (h.has_of_isParent hpc)
  · have := hkeys t htable (by rw [hkey]; exact hnull)
    rw [hkey] at this
    exact h.not_has_new hid this

end NewRecord

/-- Integrity is kept by a new record with at most one key, which names an existing row. -/
theorem Integral.withRecord (h : s.Integral) {record : Record} (hid : record.id = nextId (s.rows t))
    (hkeys : ∀ p ∈ project.parentsOf t, record.get p.idName ≠ .null →
      s.Has ⟨p, record.get p.idName⟩)
    (hone : ∀ p ∈ project.parentsOf t, ∀ q ∈ project.parentsOf t, record.get p.idName ≠ .null →
      record.get q.idName ≠ .null → p = q) : (s.withRecord t record).Integral := by
  have hs := h.toSound
  refine
    { shaped := h.shaped.setRows _
      ids_ascend := fun u => ?_
      keys_exist := fun u other hother p hp hnull => ?_
      pairs_exist := fun n hn pair hpair => ?_
      one_parent := fun u other hother => ?_
      acyclic := fun r hcycle => ?_
      pairs_nodup := fun n hn => ?_
      no_swap := fun u hu a b => ?_ }
  · rw [Store.withRecord, h.shaped.rows_setRows]
    split
    · rw [insertRecord_eq_append fun o ho => hid ▸ hs.lt_nextId ho]
      refine List.pairwise_append.mpr ⟨h.ids_ascend t, List.pairwise_singleton _ _, ?_⟩
      intro o ho x hx
      rw [List.mem_singleton.mp hx, hid]
      exact hs.lt_nextId ho
    · exact h.ids_ascend u
  · refine (hs.has_withRecord hid).mpr (Or.inl ?_)
    rcases (hs.mem_rows_withRecord hid).mp hother with hother | ⟨rfl, rfl⟩
    · exact h.keys_exist u other hother p hp hnull
    · exact hkeys p hp hnull
  · rw [Store.withRecord, h.shaped.pairsOf_setRows] at hpair
    obtain ⟨hfirst, hsecond⟩ := h.pairs_exist n hn pair hpair
    exact ⟨(hs.has_withRecord hid).mpr (Or.inl hfirst), (hs.has_withRecord hid).mpr (Or.inl hsecond)⟩
  · rcases (hs.mem_rows_withRecord hid).mp hother with hother | ⟨rfl, rfl⟩
    · exact h.one_parent u other hother
    · exact hone
  · -- A cycle does not lead through the new row, since that has no child.
    have hold : ∀ {x y}, Relation.TransGen (s.withRecord t record).IsParent x y →
        Relation.TransGen s.IsParent x y ∨ y = .ofId t record.id := by
      intro x y hxy
      induction hxy with
      | single hxy =>
        rcases (hs.isParent_withRecord hid).mp hxy with hxy | ⟨heq, -⟩
        · exact Or.inl (.single hxy)
        · exact Or.inr heq
      | tail _ hyz ih =>
        rcases ih with ih | rfl
        · rcases (hs.isParent_withRecord hid).mp hyz with hyz | ⟨heq, -⟩
          · exact Or.inl (ih.tail hyz)
          · exact Or.inr heq
        · exact absurd hyz (hs.not_isParent_new hid hkeys)
    rcases hold hcycle with hcycle' | rfl
    · exact h.acyclic r hcycle'
    · obtain ⟨c, hchild, -⟩ := Relation.TransGen.head'_iff.mp hcycle
      exact hs.not_isParent_new hid hkeys hchild
  · rw [Store.withRecord, h.shaped.pairsOf_setRows]
    exact h.pairs_nodup n hn
  · rw [Store.withRecord, h.shaped.pairsOf_setRows]
    exact h.no_swap u hu a b

end Store

end SoarProject
