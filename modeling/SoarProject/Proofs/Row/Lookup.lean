import Mathlib.Data.List.ReduceOption
import SoarProject.Proofs.Store.Integrity
import SoarProject.Row.Deletion

/-!
# What is found around a row

The children, parents and joined rows that queries find are those that the keys and pairs of a sound
store name. A query may fail only if the id of a row does not fit in a stored integer. Pairs are looked at in
the order of their ids, so that the order in which they were recorded does not show.
-/

namespace SoarProject

open Registry

variable {st : Store} {r p c : Row} {t u : Table} {id : Int} {n : RelationName}

/-! ### Keys that fit -/

/-- The ids of all records fit in a stored integer. -/
def Store.Fits (st : Store) : Prop := ∀ t, ∀ record ∈ st.rows t, fitsInteger record.id = true

/-- Whether the ids of a store fit can be checked. -/
theorem Store.fits_of_all
    (h : (Table.all.all fun t => (st.rows t).all fun record => fitsInteger record.id) = true) :
    st.Fits := by
  intro t record hrecord
  exact List.all_eq_true.mp (List.all_eq_true.mp h t (Table.mem_all t)) record hrecord

/-- The id of a row fits in a stored integer, if it is an integer. -/
def Row.Fits (r : Row) : Prop := ∀ id, r.id = .int id → fitsInteger id = true

theorem Store.Fits.row (h : st.Fits) (hr : st.Has r) : r.Fits := by
  obtain ⟨record, hrecord, hid⟩ := hr
  intro id hid'
  cases hid.symm.trans hid'
  exact h _ record hrecord

theorem Store.Fits.of_has {st' : Store} (h : st.Fits) (hhas : ∀ r, st'.Has r → st.Has r) : st'.Fits := by
  intro t record hrecord
  obtain ⟨old, hold, hid⟩ := hhas _ (has_ofId_of_mem hrecord)
  rw [Cell.int.inj hid]
  exact h t old hold

/-- With fewer records, they still fit. -/
theorem Store.Fits.of_within {st' : Store} (h : st.Fits) (hwithin : st'.Within st) : st'.Fits :=
  fun t record hrecord => h t record (hwithin.rows_subset t hrecord)

theorem Store.checkKey_eq_ok (h : r.Fits) : Store.checkKey r.id = .ok () := by
  unfold Store.checkKey
  split
  · next id hid => rw [if_pos (h id hid)]
  · rfl

/-- A key is refused only because it does not fit. -/
theorem Store.eq_integerOutOfRange_of_checkKey {key : Cell} {e : Failure}
    (h : Store.checkKey key = .error e) : e = .integerOutOfRange := by
  unfold Store.checkKey at h
  split at h
  · split at h
    · cases h
    · exact (Except.error.inj h).symm
  · cases h

/-- Keys that fit are accepted. -/
theorem Store.forM_checkKey_eq_ok {rows : List Row} (h : ∀ r ∈ rows, r.Fits) :
    (rows.map (·.id)).forM Store.checkKey = .ok () := by
  induction rows with
  | nil => rfl
  | cons r rows ih =>
    change (Store.checkKey r.id >>= fun _ => (rows.map (·.id)).forM Store.checkKey) = .ok ()
    rw [Store.checkKey_eq_ok (h r List.mem_cons_self)]
    exact ih fun q hq => h q (List.mem_cons_of_mem _ hq)

/-- What is asked of the store after some keys were checked. -/
theorem Query.finds_ask_checked {α : Type} {f : Store → Except Failure α} {sure : Prop} {v : α}
    (checked : Except Failure Unit) (h : f st = checked >>= fun _ => .ok v)
    (hchecked : sure → checked = .ok ()) : (Query.ask f).Finds st sure (· = v) := by
  refine Query.finds_ask (fun a ha => ?_) fun e he hsure => ?_
  · rw [h] at ha
    obtain ⟨-, -, ha⟩ := exceptBind_eq_ok.mp ha
    exact (Except.ok.inj ha).symm
  · rw [h, hchecked hsure] at he
    cases he

/-- The records with a key are found if the key fits. -/
theorem Query.finds_recordsWhere (h : st.Shaped) {used : List String} {column : String}
    (hused : ∀ c ∈ used ++ [column], c ∈ project.columnNamesOf t) :
    (Query.ask (·.recordsWhere t used column r.id)).Finds st r.Fits
      (· = (st.rows t).filter fun record => r.id.identifies (record.get column)) :=
  Query.finds_ask_checked (Store.checkKey r.id) (h.recordsWhere_eq r.id hused)
    Store.checkKey_eq_ok

/-- The pairs that meet a condition are found if the keys fit. -/
theorem Query.finds_pairsWhere (h : st.Sound) (hn : n.IsJoin) (rows : List Row)
    (p : CellPair → Bool) :
    (Query.pairsWhere n (rows.map (·.id)) p).Finds st (∀ r ∈ rows, r.Fits)
      (· = (CellPair.sort (st.pairsOf n)).filter p) := by
  refine Query.finds_ask_checked ((rows.map (·.id)).forM Store.checkKey) ?_
    Store.forM_checkKey_eq_ok
  rw [h.shaped.pairs_eq hn]
  rfl

/-- The pairs that meet a condition on one row are found if its key fits. -/
theorem Query.finds_pairsOfRow (h : st.Sound) (hn : n.IsJoin) (p : CellPair → Bool) :
    (Query.pairsWhere n [r.id] p).Finds st r.Fits
      (· = (CellPair.sort (st.pairsOf n)).filter p) :=
  (Query.finds_pairsWhere h hn [r] p).mono_sure (by simp)

/-! ### Pairs -/

/-- A pair that is put among others is one more. -/
theorem CellPair.perm_insertSorted (pair : CellPair) (pairs : List CellPair) :
    (insertSorted pair pairs).Perm (pair :: pairs) := by
  induction pairs with
  | nil => exact .refl _
  | cons q rest ih =>
    rw [insertSorted]
    split
    · exact .refl _
    · exact (ih.cons q).trans (.swap pair q rest)

/-- Sorting keeps the pairs. -/
theorem CellPair.perm_sort (pairs : List CellPair) : (sort pairs).Perm pairs := by
  induction pairs with
  | nil => exact .refl _
  | cons pair rest ih => exact (perm_insertSorted pair _).trans (ih.cons pair)

/-- A pair is among the sorted ones if it is among the pairs. -/
@[simp]
theorem CellPair.mem_sort {pair : CellPair} {pairs : List CellPair} :
    pair ∈ CellPair.sort pairs ↔ pair ∈ pairs :=
  (perm_sort pairs).mem_iff

/-! ### Pairs in order -/

namespace CellPair

variable {p q : CellPair} {pairs : List CellPair}

/-- A pair of ids. -/
def IsIds (p : CellPair) : Prop := ∃ a b : Int, p = (.int a, .int b)

/-- Whether a pair is put in front of another one. -/
def Precedes (p q : CellPair) : Prop := (p.1.before q.1 || (p.1 == q.1 && !q.2.before p.2)) = true

/-- Pairs of ids are put in the order of their first ids, and of their second ones. -/
theorem precedes_ids (a b c d : Int) :
    Precedes (.int a, .int b) (.int c, .int d) ↔ a < c ∨ a = c ∧ b ≤ d := by
  simp [Precedes, Cell.before]

/-- A pair that is put among pairs in order leaves them in order. -/
theorem pairwise_insertSorted (hp : p.IsIds) (hids : ∀ q ∈ pairs, q.IsIds)
    (h : pairs.Pairwise Precedes) : (insertSorted p pairs).Pairwise Precedes := by
  induction pairs with
  | nil => exact List.pairwise_singleton _ p
  | cons q rest ih =>
    obtain ⟨hq, hrest⟩ := List.pairwise_cons.mp h
    obtain ⟨hqids, hothers⟩ := List.forall_mem_cons.mp hids
    obtain ⟨a, b, rfl⟩ := hp
    obtain ⟨c, d, rfl⟩ := hqids
    rw [insertSorted]
    split
    · next hfirst =>
      -- It goes in front, and so it precedes whatever the first one precedes.
      have hfirst := (precedes_ids a b c d).mp hfirst
      refine List.pairwise_cons.mpr ⟨List.forall_mem_cons.mpr ⟨(precedes_ids a b c d).mpr hfirst, ?_⟩, h⟩
      intro x hx
      obtain ⟨e, f, rfl⟩ := hothers x hx
      have hnext := (precedes_ids c d e f).mp (hq _ hx)
      exact (precedes_ids a b e f).mpr (by omega)
    · next hlater =>
      -- It goes further behind, and the first one precedes it.
      have hlater := mt (precedes_ids a b c d).mpr hlater
      refine List.pairwise_cons.mpr ⟨fun x hx => ?_, ih hothers hrest⟩
      rcases List.mem_cons.mp ((perm_insertSorted _ _).mem_iff.mp hx) with rfl | hx
      · exact (precedes_ids c d a b).mpr (by omega)
      · exact hq x hx

/-- Sorted pairs of ids are in order. -/
theorem pairwise_sort (hids : ∀ p ∈ pairs, p.IsIds) : (sort pairs).Pairwise Precedes := by
  induction pairs with
  | nil => exact List.Pairwise.nil
  | cons p rest ih =>
    obtain ⟨hp, hrest⟩ := List.forall_mem_cons.mp hids
    exact pairwise_insertSorted hp (fun q hq => hrest q (mem_sort.mp hq)) (ih hrest)

/-- Pairs in order stay as they are. -/
theorem sort_eq_self (h : pairs.Pairwise Precedes) : sort pairs = pairs := by
  induction pairs with
  | nil => rfl
  | cons p rest ih =>
    obtain ⟨hp, hrest⟩ := List.pairwise_cons.mp h
    change insertSorted p (sort rest) = _
    rw [ih hrest]
    cases rest with
    | nil => rfl
    | cons q rest => exact if_pos (hp q List.mem_cons_self)

/-- Which pairs are selected, in which order, does not depend on the order that they are recorded in. -/
theorem filter_sort_congr {pairs' : List CellPair} {keep : CellPair → Bool}
    (hids : ∀ p ∈ pairs, p.IsIds) (hids' : ∀ p ∈ pairs', p.IsIds) (hnodup : pairs.Nodup)
    (hnodup' : pairs'.Nodup) (hmem : ∀ p, keep p = true → (p ∈ pairs' ↔ p ∈ pairs)) :
    (sort pairs').filter keep = (sort pairs).filter keep := by
  -- Two sorted lists of the same pairs are equal, since the order is antisymmetric on ids.
  refine List.Perm.eq_of_pairwise (fun p q hp hq hpq hqp => ?_) ((pairwise_sort hids').filter _)
    ((pairwise_sort hids).filter _) ?_
  · obtain ⟨a, b, rfl⟩ := hids' p (mem_sort.mp (List.mem_filter.mp hp).1)
    obtain ⟨c, d, rfl⟩ := hids q (mem_sort.mp (List.mem_filter.mp hq).1)
    have hfirst := (precedes_ids a b c d).mp hpq
    have hsecond := (precedes_ids c d a b).mp hqp
    obtain rfl : a = c := by omega
    obtain rfl : b = d := by omega
    rfl
  · have hsorted := ((perm_sort pairs').nodup_iff.mpr hnodup').filter keep
    have hsorted' := ((perm_sort pairs).nodup_iff.mpr hnodup).filter keep
    refine (List.perm_ext_iff_of_nodup hsorted hsorted').mpr fun p => ?_
    rw [List.mem_filter, List.mem_filter, mem_sort, mem_sort]
    exact and_congr_left (hmem p)

end CellPair

/-- The pairs of a sound store are pairs of ids. -/
theorem Store.Sound.isIds (h : st.Sound) (hn : n.IsJoin) {pair : CellPair} (hpair : pair ∈ st.pairsOf n) :
    pair.IsIds := by
  obtain ⟨hfirst, hsecond⟩ := h.pairs_exist n hn pair hpair
  obtain ⟨i, hi⟩ := hfirst.exists_id
  obtain ⟨j, hj⟩ := hsecond.exists_id
  exact ⟨i, j, Prod.ext (congrArg Row.id hi) (congrArg Row.id hj)⟩

/-! ### Keys of rows -/

/-- A row is asked for by its own id only, among existing rows. -/
theorem Store.Has.identifies_iff {key : Cell} (h : st.Has ⟨t, key⟩) :
    (Cell.int id).identifies key = true ↔ key = .int id := by
  obtain ⟨record, -, hkey⟩ := h
  simp only at hkey
  rw [hkey, Store.int_identifies_int, decide_eq_true_iff, Cell.int.injEq]

/-! ### Structural children -/

namespace Store

/-- The children of a row in a table. -/
def childrenIn (st : Store) (r : Row) (t : Table) : List Row :=
  if t ∈ project.childrenOf r.table then
    ((st.rows t).filter fun record => r.id.identifies (record.get r.table.idName)).map
      fun record => .ofId t record.id
  else []

/-- The children of a row. -/
def children (st : Store) (r : Row) : List Row :=
  (project.childrenOf r.table).flatMap (st.childrenIn r)

/-- The children of a row in a table are those whose key names it. -/
theorem Sound.mem_childrenIn_iff (h : st.Sound) :
    c ∈ st.childrenIn (.ofId u id) t ↔ c.table = t ∧ st.IsParent (.ofId u id) c := by
  unfold childrenIn
  by_cases ht : t ∈ project.childrenOf u
  · rw [if_pos ht]
    simp only [List.mem_map, List.mem_filter, IsParent]
    have hparent := mem_childrenOf_iff.mp ht
    constructor
    · rintro ⟨record, ⟨hrecord, hkey⟩, rfl⟩
      refine ⟨rfl, hparent, by simp, record, hrecord, rfl, ?_⟩
      -- A key that is null identifies nothing, and others name a record by an integer.
      by_cases hnull : record.get u.idName = .null
      · rw [hnull, int_identifies_null] at hkey
        cases hkey
      · exact (h.keys_exist t record hrecord u hparent hnull).identifies_iff.mp hkey
    · rintro ⟨rfl, -, -, record, hrecord, hid, hkey⟩
      refine ⟨record, ⟨hrecord, ?_⟩, by rw [Row.ofId, ← hid]⟩
      rw [hkey, int_identifies_int, decide_eq_true_iff]
  · rw [if_neg ht]
    simp only [List.not_mem_nil, false_iff]
    rintro ⟨rfl, htable, -⟩
    exact ht (mem_childrenOf_iff.mpr htable)

/-- What is among the children of an existing row is below it. -/
theorem Sound.isParent_of_mem_childrenIn (h : st.Sound) (hr : st.Has r)
    (hc : c ∈ st.childrenIn r t) : st.IsParent r c := by
  obtain ⟨id, hid⟩ := hr.exists_id
  rw [hid] at hc ⊢
  exact (h.mem_childrenIn_iff.mp hc).2

/-- The children of a row are those whose key names it. -/
theorem Sound.mem_children_iff (h : st.Sound) :
    c ∈ st.children (.ofId u id) ↔ st.IsParent (.ofId u id) c := by
  simp only [children, List.mem_flatMap, h.mem_childrenIn_iff]
  constructor
  · rintro ⟨t, -, -, hpc⟩
    exact hpc
  · intro hpc
    exact ⟨c.table, mem_childrenOf_iff.mpr hpc.1, rfl, hpc⟩

end Store

/-- A key column is a column of the child table. -/
theorem idName_mem_columnNamesOf (ht : t ∈ project.childrenOf u) :
    u.idName ∈ project.columnNamesOf t :=
  mem_columnNamesOf_of_columnType? (columnType?_idName (mem_childrenOf_iff.mp ht))

namespace Row

/-- The child tables are found. -/
theorem finds_childTables {sure : Prop} :
    r.childTables.Finds st sure (· = project.childrenOf r.table) :=
  Query.Finds.registry (Query.Finds.pure rfl)

/-- The children in a table are found. -/
theorem finds_childrenOfType (h : st.Shaped) :
    (r.childrenOfType t).Finds st r.Fits (· = st.childrenIn r t) := by
  unfold childrenOfType Store.childrenIn
  refine Query.Finds.bind finds_childTables ?_
  rintro _ rfl
  by_cases ht : t ∈ project.childrenOf r.table
  · rw [if_neg (not_not.mpr ht), if_pos ht]
    refine Query.Finds.bind (Query.finds_recordsWhere h ?_) ?_
    · -- The query names two columns, which the table of the child has.
      intro c hc
      simp only [List.cons_append, List.nil_append, List.mem_cons, List.not_mem_nil,
        or_false] at hc
      rcases hc with rfl | rfl
      · exact List.mem_cons_self
      · exact idName_mem_columnNamesOf ht
    · rintro _ rfl
      exact Query.Finds.pure rfl
  · rw [if_pos ht, if_neg ht]
    exact Query.Finds.pure rfl

/-- All children are found. -/
theorem finds_structuralChildren (h : st.Shaped) :
    r.structuralChildren.Finds st r.Fits (· = st.children r) := by
  unfold structuralChildren
  refine Query.Finds.bind finds_childTables ?_
  rintro _ rfl
  refine Query.Finds.bind (Query.Finds.mapM_eq fun t _ => finds_childrenOfType h) ?_
  rintro _ rfl
  exact Query.Finds.pure (List.flatMap_def ..).symm

end Row

/-! ### Directed joins -/

namespace Store

/-- The rows of a table that are joined below a row. -/
def joinedChildrenIn (st : Store) (r : Row) (t : Table) : List Row :=
  if project.areDirectedJoined r.table t then
    ((CellPair.sort (st.pairsOf (.directed r.table t))).filter fun pair =>
      r.id.identifies pair.1).map fun pair => ⟨t, pair.2⟩
  else []

/-- The rows that are joined below a row. -/
def joinedChildren (st : Store) (r : Row) : List Row :=
  (project.directedChildrenOf r.table).flatMap (st.joinedChildrenIn r)

/-- The rows that a row is joined below. -/
def joinedParents (st : Store) (r : Row) : List Row :=
  (project.directedParentsOf r.table).flatMap fun t =>
    ((CellPair.sort (st.pairsOf (.directed t r.table))).filter fun pair =>
      r.id.identifies pair.2).map fun pair => ⟨t, pair.1⟩

/-- The rows of a table that are joined below a row are those that pairs name. -/
theorem Sound.mem_joinedChildrenIn_iff (h : st.Sound) :
    c ∈ st.joinedChildrenIn (.ofId u id) t ↔ c.table = t ∧ st.IsAbove (.ofId u id) c := by
  unfold joinedChildrenIn
  by_cases ht : (u, t) ∈ project.directedPairs
  · have hdeclared : project.areDirectedJoined u t = true :=
      decide_eq_true (mem_directedPairs_iff.mp ht)
    simp only [hdeclared, ↓reduceIte, List.mem_map, List.mem_filter, CellPair.mem_sort, IsAbove]
    constructor
    · rintro ⟨⟨a, b⟩, ⟨hpair, hkey⟩, rfl⟩
      -- Recorded pairs hold the ids of rows that exist, so matching keys are equal.
      have ha := (h.pairs_exist (.directed u t) ht _ hpair).1
      obtain rfl : a = .int id := ha.identifies_iff.mp hkey
      exact ⟨rfl, ht, hpair⟩
    · rintro ⟨rfl, -, hpair⟩
      exact ⟨_, ⟨hpair, by simp⟩, rfl⟩
  · have hdeclared : project.areDirectedJoined u t = false :=
      decide_eq_false (mt mem_directedPairs_iff.mpr ht)
    simp only [hdeclared, Bool.false_eq_true, ↓reduceIte, List.not_mem_nil, false_iff]
    rintro ⟨rfl, hpair, -⟩
    exact ht hpair

/-- The rows that are joined below a row are those that pairs name. -/
theorem Sound.mem_joinedChildren_iff (h : st.Sound) :
    c ∈ st.joinedChildren (.ofId u id) ↔ st.IsAbove (.ofId u id) c := by
  simp only [joinedChildren, List.mem_flatMap, h.mem_joinedChildrenIn_iff]
  constructor
  · rintro ⟨t, -, -, hpc⟩
    exact hpc
  · intro hpc
    exact ⟨c.table, mem_directedPairs_iff.mp hpc.1, rfl, hpc⟩

/-- The rows that a row is joined below are those that pairs name. -/
theorem Sound.mem_joinedParents_iff (h : st.Sound) :
    p ∈ st.joinedParents (.ofId u id) ↔ st.IsAbove p (.ofId u id) := by
  simp only [joinedParents, List.mem_flatMap, List.mem_map, List.mem_filter, CellPair.mem_sort,
    IsAbove]
  constructor
  · rintro ⟨t, ht, ⟨a, b⟩, ⟨hpair, hkey⟩, rfl⟩
    have ht := mem_directedPairs_iff.mpr (mem_directedParentsOf_iff.mp ht)
    have hb := (h.pairs_exist (.directed t u) ht _ hpair).2
    obtain rfl : b = .int id := hb.identifies_iff.mp hkey
    exact ⟨ht, hpair⟩
  · rintro ⟨ht, hpair⟩
    exact ⟨p.table, mem_directedParentsOf_iff.mpr (mem_directedPairs_iff.mp ht), _,
      ⟨hpair, by simp⟩, rfl⟩

/-- The rows that a row is joined below are in the same order if they are the same. -/
theorem Integral.joinedParents_congr {st' : Store} (h : st.Integral) (h' : st'.Integral) (hr : st.Has r)
    (habove : ∀ p, st'.IsAbove p r ↔ st.IsAbove p r) : st'.joinedParents r = st.joinedParents r := by
  obtain ⟨id, hid⟩ := hr.exists_id
  refine congrArg List.flatten (List.map_congr_left fun t ht => congrArg (List.map _) ?_)
  have hn : (RelationName.directed t r.table).IsJoin :=
    mem_directedPairs_iff.mpr (mem_directedParentsOf_iff.mp ht)
  refine CellPair.filter_sort_congr (fun _ => h.isIds hn) (fun _ => h'.isIds hn)
    (h.pairs_nodup _ hn) (h'.pairs_nodup _ hn) fun pair hkey => ?_
  -- A pair for the row ends with its id.
  have hends : ∀ {st : Store}, st.Sound → pair ∈ st.pairsOf (.directed t r.table) →
      pair = (pair.1, r.id) := by
    intro st h hpair
    rw [hid] at hkey
    have hsecond := (h.pairs_exist _ hn pair hpair).2.identifies_iff.mp hkey
    rw [hid]
    exact Prod.ext rfl hsecond
  have habove := habove ⟨t, pair.1⟩
  constructor
  · intro hpair
    have heq := hends h'.toSound hpair
    rw [heq] at hpair ⊢
    exact (habove.mp ⟨hn, hpair⟩).2
  · intro hpair
    have heq := hends h.toSound hpair
    rw [heq] at hpair ⊢
    exact (habove.mpr ⟨hn, hpair⟩).2

end Store

namespace Row

/-- The rows of a table that are joined below a row are found. -/
theorem finds_directedChildrenOfType (h : st.Sound) :
    (r.directedChildrenOfType t).Finds st r.Fits (· = st.joinedChildrenIn r t) := by
  unfold directedChildrenOfType Store.joinedChildrenIn
  refine Query.Finds.registry ?_
  cases hdeclared : project.areDirectedJoined r.table t with
  | false => exact Query.Finds.pure rfl
  | true =>
    have hjoin : (RelationName.directed r.table t).IsJoin :=
      mem_directedPairs_iff.mpr (of_decide_eq_true hdeclared)
    refine Query.Finds.bind (Query.finds_pairsOfRow h hjoin _) ?_
    rintro _ rfl
    exact Query.Finds.pure rfl

/-- All rows that are joined below a row are found. -/
theorem finds_directedChildren (h : st.Sound) :
    r.directedChildren.Finds st r.Fits (· = st.joinedChildren r) := by
  unfold directedChildren
  refine Query.Finds.registry (Query.Finds.bind (Query.Finds.mapM_eq fun t _ =>
    finds_directedChildrenOfType h) ?_)
  rintro _ rfl
  exact Query.Finds.pure (List.flatMap_def ..).symm

/-- All rows that a row is joined below are found. -/
theorem finds_parentJoinedRows (h : st.Sound) :
    r.parentJoinedRows.Finds st r.Fits (· = st.joinedParents r) := by
  unfold parentJoinedRows
  refine Query.Finds.registry (Query.Finds.bind (Query.Finds.mapM_eq (g := fun t =>
    ((CellPair.sort (st.pairsOf (.directed t r.table))).filter fun pair =>
      r.id.identifies pair.2).map fun pair => ⟨t, pair.1⟩) fun t ht => ?_) ?_)
  · have hjoin : (RelationName.directed t r.table).IsJoin :=
      mem_directedPairs_iff.mpr (mem_directedParentsOf_iff.mp ht)
    refine Query.Finds.bind (Query.finds_pairsOfRow h hjoin _) ?_
    rintro _ rfl
    exact Query.Finds.pure rfl
  · rintro _ rfl
    exact Query.Finds.pure (List.flatMap_def ..).symm

/-- Whether a row is joined below another one is found. -/
theorem finds_hasParentJoinedRows (h : st.Sound) :
    (Row.ofId t id).hasParentJoinedRows.Finds st (Row.ofId t id).Fits
      (fun found => found = true ↔ ∃ p, st.IsAbove p (.ofId t id)) := by
  unfold hasParentJoinedRows
  refine Query.Finds.bind (finds_parentJoinedRows h) ?_
  rintro _ rfl
  refine Query.Finds.pure ?_
  simp only [Bool.not_eq_true', List.isEmpty_eq_false_iff_exists_mem, h.mem_joinedParents_iff]

end Row

/-! ### Records and parents -/

/-- No key and no directed join holds a row. -/
def Store.Orphan (st : Store) (r : Row) : Prop :=
  (∀ p, ¬ st.IsParent p r) ∧ ∀ p, ¬ st.IsAbove p r

namespace Row

/-- What the query for a record gives in a session. -/
theorem record?_run (h : st.Sound) {w : Bool} {s : Session} (hs : s.Opens w st) {used : List String}
    (hused : ∀ c ∈ used, c ∈ project.columnNamesOf r.table) :
    (r.record? used).run s = Store.checkKey r.id >>= fun _ =>
      .ok ((st.rows r.table).filter fun record => r.id.identifies (.int record.id)).head? := by
  -- The columns are the denoted ones already, so quoting them changes nothing.
  have hdenoted : used.map Identifier.denoted = used := by
    conv_rhs => rw [← List.map_id used]
    exact List.map_congr_left fun c hc => denoted_of_mem_columnNamesOf (hused c hc)
  have hrun : (r.record? used).run s =
      (s.store >>= (·.recordsWhere r.table (used.map Identifier.denoted) "id" r.id)) >>= fun rows =>
        .ok rows.head? := rfl
  have hcolumns : ∀ c ∈ used ++ ["id"], c ∈ project.columnNamesOf r.table := by
    intro c hc
    rcases List.mem_append.mp hc with hc | hc
    · exact hused c hc
    · rw [List.mem_singleton.mp hc]
      exact List.mem_cons_self
  rw [hrun, hs.store_eq, hdenoted]
  change (st.recordsWhere r.table used "id" r.id >>= fun rows => .ok rows.head?) = _
  rw [h.shaped.recordsWhere_eq r.id hcolumns, bind_assoc]
  rfl

/-- The record of a row is found. -/
theorem finds_record? (h : st.Sound) {used : List String}
    (hused : ∀ c ∈ used, c ∈ project.columnNamesOf t) :
    ((Row.ofId t id).record? used).Finds st (Row.ofId t id).Fits
      (fun found => ∀ record, found = some record ↔ record ∈ st.rows t ∧ record.id = id) := by
  intro w s hs
  rw [record?_run h hs hused]
  cases hkey : Store.checkKey (Row.ofId t id).id with
  | error e =>
    intro hfits
    rw [Store.checkKey_eq_ok hfits] at hkey
    cases hkey
  | ok =>
    change ∀ record, ((st.rows t).filter fun record =>
      (Cell.int id).identifies (.int record.id)).head? = some record ↔ _
    intro record
    constructor
    · intro hhead
      have := List.mem_of_head? hhead
      simpa using this
    · -- One record has the id, so the first one found is this.
      rintro ⟨hrecord, hid⟩
      have hmem : record ∈ (st.rows t).filter fun record =>
          (Cell.int id).identifies (.int record.id) :=
        List.mem_filter.mpr ⟨hrecord, by simpa using hid⟩
      obtain ⟨other, hother⟩ := Option.isSome_iff_exists.mp
        (List.isSome_head?.mpr (List.ne_nil_of_mem hmem))
      rw [hother]
      have := List.mem_of_head? hother
      simp only [List.mem_filter, Store.int_identifies_int, decide_eq_true_eq] at this
      rw [h.eq_of_id_eq this.1 hrecord (this.2.trans hid.symm)]

/-- The query for a record does not report an error of the store. -/
theorem record?_run_ne_storage (h : st.Sound) {w : Bool} {s : Session} (hs : s.Opens w st)
    {used : List String} (hused : ∀ c ∈ used, c ∈ project.columnNamesOf r.table)
    (e : StorageError) : (r.record? used).run s ≠ .error (.storage e) := by
  rw [record?_run h hs hused]
  cases hkey : Store.checkKey r.id with
  | ok =>
    intro heq
    cases heq
  | error e' =>
    rw [Store.eq_integerOutOfRange_of_checkKey hkey]
    intro heq
    cases heq

/-- Whether a row exists is found. -/
theorem finds_isStored (h : st.Sound) :
    (Row.ofId t id).isStored.Finds st (Row.ofId t id).Fits
      (fun found => found = true ↔ st.Has (.ofId t id)) := by
  have hid : ∀ c ∈ ["id"], c ∈ project.columnNamesOf t := by simp [columnNamesOf]
  unfold isStored
  refine Query.Finds.orDefault (Query.Finds.bind (finds_record? h hid) fun found hfound => ?_) ?_
  · refine Query.Finds.pure ?_
    rw [Option.isSome_iff_exists]
    simp only [hfound, Store.Has, Cell.int.injEq, eq_comm (a := id)]
  · -- A default would hide a storage error, and there is none.
    intro w s e hs heq
    have hrun : (do return (← (Row.ofId t id).record? ["id"]).isSome : Query Bool).run s =
        ((Row.ofId t id).record? ["id"]).run s >>= fun found => .ok found.isSome := rfl
    rw [hrun] at heq
    cases hrecord : ((Row.ofId t id).record? ["id"]).run s with
    | ok found =>
      rw [hrecord] at heq
      cases heq
    | error e' =>
      rw [hrecord] at heq
      cases heq
      exact record?_run_ne_storage h hs hid e hrecord

/-- The row that a key of a record names is found. -/
theorem finds_parentRow? (h : st.Sound) {record : Record} (hrecord : record ∈ st.rows t)
    (hu : u ∈ project.parentsOf t) :
    (parentRow? u (record.get u.idName)).Finds st st.Fits
      (· = if record.get u.idName = .null then none else some ⟨u, record.get u.idName⟩) := by
  unfold parentRow?
  by_cases hnull : record.get u.idName = .null
  · simp only [hnull, ↓reduceIte]
    exact Query.Finds.pure rfl
  · simp only [hnull, ↓reduceIte]
    -- A key that is not null names a row that exists.
    have hhas := h.keys_exist t record hrecord u hu hnull
    obtain ⟨key, hkey⟩ := hhas.exists_id
    simp only [Row.ofId, Row.mk.injEq, true_and] at hkey
    rw [hkey] at hhas ⊢
    refine Query.Finds.bind ((finds_isStored h).mono_sure fun hfits => hfits.row hhas) ?_
    intro found hfound
    rw [if_pos (hfound.mpr hhas)]
    exact Query.Finds.pure rfl

/-- The parents of a row are found. -/
theorem finds_parentRows (h : st.Sound) :
    (Row.ofId t id).parentRows.Finds st (st.Fits ∧ (Row.ofId t id).Fits)
      (fun parents => ∀ p, p ∈ parents ↔ st.IsParent p (.ofId t id)) := by
  have hused : ∀ c ∈ (project.parentsOf t).map (·.idName), c ∈ project.columnNamesOf t := by
    intro c hc
    obtain ⟨p, hp, rfl⟩ := List.mem_map.mp hc
    exact mem_columnNamesOf_of_columnType? (columnType?_idName hp)
  unfold parentRows parentTables
  refine Query.Finds.bind (Query.Finds.registry (Query.Finds.pure rfl)) ?_
  rintro _ rfl
  -- A table without parent tables has no key to look at.
  cases hempty : (project.parentsOf t).isEmpty with
  | true =>
    refine Query.Finds.pure fun p => ?_
    simp only [List.not_mem_nil, false_iff]
    rintro ⟨htable, -⟩
    exact absurd htable (by simp [List.isEmpty_iff.mp hempty])
  | false =>
    refine Query.Finds.bind ((finds_record? h hused).mono_sure And.right) fun found hfound => ?_
    cases found with
    | none =>
      refine Query.Finds.pure fun p => ?_
      simp only [List.not_mem_nil, false_iff]
      rintro ⟨-, -, record, hrecord, hid, -⟩
      exact absurd ((hfound record).mpr ⟨hrecord, (Cell.int.inj hid).symm⟩) (by simp)
    | some record =>
      obtain ⟨hrecord, hid⟩ := (hfound record).mp rfl
      refine Query.Finds.bind (Query.Finds.mapM_eq fun u hu =>
        (finds_parentRow? h hrecord hu).mono_sure And.left) ?_
      rintro _ rfl
      refine Query.Finds.pure fun p => ?_
      rw [List.reduceOption_mem_iff, List.mem_map]
      -- Each key that is not null names one parent, and no parent is named otherwise.
      constructor
      · rintro ⟨u, hu, hp⟩
        split at hp
        · cases hp
        · next hnull =>
          cases hp
          exact ⟨hu, hnull, record, hrecord, by rw [Row.ofId, hid], rfl⟩
      · rintro ⟨htable, hnull, other, hother, hotherid, hkey⟩
        obtain rfl := h.eq_of_id_eq hrecord hother (hid.trans (Cell.int.inj hotherid))
        refine ⟨p.table, htable, ?_⟩
        rw [hkey, if_neg hnull]

/-- Whether nothing holds a row is found. -/
theorem finds_isOrphan (h : st.Sound) :
    (Row.ofId t id).isOrphan.Finds st (st.Fits ∧ (Row.ofId t id).Fits)
      (fun found => found = true ↔ st.Orphan (.ofId t id)) := by
  unfold isOrphan
  refine Query.Finds.bind ((finds_hasParentJoinedRows h).mono_sure And.right) fun joined hjoined => ?_
  -- A directed join is asked for first, and the keys only when there is none.
  cases joined with
  | true =>
    obtain ⟨p, hp⟩ := hjoined.mp rfl
    refine Query.Finds.pure ?_
    simp only [Bool.false_eq_true, false_iff]
    exact fun horphan => horphan.2 p hp
  | false =>
    unfold hasParentRows
    refine Query.Finds.bind (Query.Finds.bind (finds_parentRows h) fun parents hparents =>
      Query.Finds.pure (R := fun found => found = true ↔ ∃ p, st.IsParent p (.ofId t id)) ?_)
      fun found hfound => ?_
    · simp only [Bool.not_eq_true', List.isEmpty_eq_false_iff_exists_mem, hparents]
    · refine Query.Finds.pure ?_
      rw [Bool.not_eq_true', ← Bool.not_eq_true, hfound]
      constructor
      · intro hnone
        exact ⟨fun p hp => hnone ⟨p, hp⟩, fun p hp => Bool.false_ne_true (hjoined.mpr ⟨p, hp⟩)⟩
      · rintro ⟨hnone, -⟩ ⟨p, hp⟩
        exact hnone p hp

end Row

end SoarProject
