import SoarProject.Proofs.Row.Removal

/-!
# Joining rows

A join adds at most one pair, which records the two rows, and a join that ends removes only pairs. Both
keep the integrity of the store, whichever of the two rows comes first.

* `Row.ends_directedJoin`, `Row.ends_join`: what a join adds.
* `Row.keeps_directedUnjoin`, `Row.keeps_unjoin`: what is left when a join ends.
-/

namespace SoarProject

open Registry

variable {w : Bool} {st st' st'' : Store} {r p c : Row} {t u : Table} {id key : Int}
  {n : RelationName} {pair : CellPair}

namespace Store

/-- At most one pair is added to a store. -/
structure Joins (st st' : Store) (n : RelationName) (pair : CellPair) : Prop where
  integral : st'.Integral
  rows_eq : ∀ t, st'.rows t = st.rows t
  old : ∀ m : RelationName, m.IsJoin → ∀ p ∈ st.pairsOf m, p ∈ st'.pairsOf m
  new : ∀ m : RelationName, m.IsJoin → ∀ p ∈ st'.pairsOf m, p ∈ st.pairsOf m ∨ m = n ∧ p = pair
  /-- The other relations are as they were. -/
  other : ∀ m, m ≠ n → st'.find? m = st.find? m

namespace Joins

theorem refl (h : st.Integral) : st.Joins st n pair where
  integral := h
  rows_eq _ := rfl
  old _ _ _ hp := hp
  new _ _ _ hp := Or.inl hp
  other _ _ := rfl

variable (h : st.Joins st' n pair)

include h

theorem has_iff : st'.Has r ↔ st.Has r := by simp only [Has, h.rows_eq]

/-- The parents are those of before. -/
theorem isParent_iff : st'.IsParent p c ↔ st.IsParent p c := by simp only [IsParent, h.rows_eq]

end Joins

/-- A pair of existing rows is added that is not there in either order. -/
theorem Integral.joins_setPairs (h : st.Integral) (hn : n.IsJoin) {a b : Cell}
    (ha : st.Has ⟨n.joinTables.1, a⟩) (hb : st.Has ⟨n.joinTables.2, b⟩)
    (hnew : (a, b) ∉ st.pairsOf n) (hswap : ∀ t, n = .join t t → (b, a) ∉ st.pairsOf n) :
    st.Joins (st.setPairs n (st.pairsOf n ++ [(a, b)])) n (a, b) where
  integral := h.addPair hn ha hb hnew hswap
  rows_eq _ := Shaped.rows_setPairs hn _
  old m _ p hp := by
    rw [h.shaped.pairsOf_setPairs hn]
    split
    · next hm => exact List.mem_append_left _ (hm ▸ hp)
    · exact hp
  new m _ p hp := by
    rw [h.shaped.pairsOf_setPairs hn] at hp
    split at hp
    · next hm =>
      -- This is the relation that gained the pair.
      rcases List.mem_append.mp hp with hp | hp
      · exact Or.inl (hm ▸ hp)
      · exact Or.inr ⟨hm, List.mem_singleton.mp hp⟩
    · exact Or.inl hp
  other m hm := by rw [setPairs, find?_put, if_neg hm]

end Store

/-- The ids of a pair of rows are added to the pairs of a join, in which they are not yet. -/
theorem Change.Ends.addPair (h : st.Integral) (hn : n.IsJoin)
    (ha : st.Has (.ofId n.joinTables.1 id)) (hb : st.Has (.ofId n.joinTables.2 key))
    (hnew : (.int id, .int key) ∉ st.pairsOf n)
    (hswap : ∀ t, n = .join t t → (.int key, .int id) ∉ st.pairsOf n) :
    (Change.mutate fun store => return (← store.addPair n (.int id, .int key), ())).Ends w st
      (fun _ st' => st.Joins st' n (.int id, .int key) ∧ (.int id, .int key) ∈ st'.pairsOf n)
      (fun st' => st' = st ∧ ¬ (w = true ∧ st.Fits)) := by
  refine Change.Ends.mutate ?_ ?_
  · -- The pair was not there, so it was appended.
    rintro st' ⟨⟩ - hresult
    obtain ⟨st₁, hadded, heq⟩ := exceptBind_eq_ok.mp hresult
    cases heq
    rw [h.shaped.addPair_eq hn, if_neg hnew] at hadded
    obtain ⟨-, -, hadded⟩ := exceptBind_eq_ok.mp hadded
    obtain ⟨-, -, hadded⟩ := exceptBind_eq_ok.mp hadded
    cases hadded
    refine ⟨h.joins_setPairs hn ha hb hnew hswap, ?_⟩
    rw [h.shaped.pairsOf_setPairs hn, if_pos rfl]
    exact List.mem_append_right _ List.mem_cons_self
  · -- With both ids bound there is nothing left to fail.
    intro hfailed
    refine ⟨rfl, ?_⟩
    rintro ⟨hwritable, hfits⟩
    rcases hfailed with hreadonly | ⟨e, he⟩
    · exact Bool.false_ne_true (hreadonly.symm.trans hwritable)
    · have hfirst := Store.checkKey_eq_ok (hfits.row ha)
      have hsecond := Store.checkKey_eq_ok (hfits.row hb)
      rw [h.shaped.addPair_eq hn, if_neg hnew] at he
      simp only at hfirst hsecond
      rw [hfirst, hsecond] at he
      cases he

namespace Row

/-! ### Directed joins -/

/-- Whether a row is joined below another one is found. -/
theorem finds_directedJoined (h : st.Sound) (hn : (RelationName.directed t u).IsJoin) :
    (directedJoined (.ofId t id) (.ofId u key)).Finds st
      ((ofId t id).Fits ∧ (ofId u key).Fits)
      (fun found => found = true ↔ (.int id, .int key) ∈ st.pairsOf (.directed t u)) := by
  -- The guard lets a declared pair pass.
  have hdeclared : project.areDirectedJoined t u = true :=
    decide_eq_true (mem_directedPairs_iff.mp hn)
  unfold directedJoined
  refine Query.Finds.registry ?_
  simp only [hdeclared, Bool.not_true, Bool.false_eq_true, ↓reduceIte]
  refine Query.Finds.bind ((Query.finds_pairsWhere h hn [.ofId t id, .ofId u key] _).mono_sure
    (by simp)) ?_
  rintro _ rfl
  refine Query.Finds.pure ?_
  rw [Bool.not_eq_true', List.isEmpty_eq_false_iff_exists_mem]
  simp only [List.mem_filter, CellPair.mem_sort, CellPair.identifies, Bool.and_eq_true]
  constructor
  · rintro ⟨⟨a, b⟩, hpair, hfirst, hsecond⟩
    obtain ⟨ha, hb⟩ := h.pairs_exist _ hn _ hpair
    rw [ha.identifies_iff] at hfirst
    rw [hb.identifies_iff] at hsecond
    simp only at hfirst hsecond
    rwa [← hfirst, ← hsecond]
  · intro hpair
    exact ⟨_, hpair, by simp, by simp⟩

/-- An existing row is joined below another one; nothing else changes. -/
theorem ends_directedJoin (h : st.Integral) (ha : st.Has (.ofId t id)) (hb : st.Has (.ofId u key)) :
    (directedJoin (.ofId t id) (.ofId u key)).Ends w st
      (fun _ st' => st.Joins st' (.directed t u) (.int id, .int key) ∧
        ((RelationName.directed t u).IsJoin →
          (.int id, .int key) ∈ st'.pairsOf (.directed t u)))
      (fun st' => st' = st ∧ ¬ (w = true ∧ st.Fits)) := by
  unfold directedJoin
  refine Change.Ends.registry ?_
  cases hdeclared : project.areDirectedJoined t u with
  | false =>
    refine Change.Ends.pure ⟨.refl h, fun hn => ?_⟩
    rw [areDirectedJoined, decide_eq_false_iff_not] at hdeclared
    exact absurd (mem_directedPairs_iff.mp hn) hdeclared
  | true =>
    have hn : (RelationName.directed t u).IsJoin :=
      mem_directedPairs_iff.mpr (of_decide_eq_true hdeclared)
    refine Change.Ends.query (finds_directedJoined h.toSound hn) ?_ ?_
    · rintro (_ | _) hfound
      · -- The pair is added only when it is not recorded yet.
        have hnew : (.int id, .int key) ∉ st.pairsOf (.directed t u) :=
          fun hpair => Bool.false_ne_true (hfound.mpr hpair)
        exact (Change.Ends.addPair h hn ha hb hnew fun t ht => by cases ht).mono
          (fun _ _ hQ => ⟨hQ.1, fun _ => hQ.2⟩) fun _ hE => hE
      · exact Change.Ends.pure ⟨.refl h, fun _ => hfound.mp rfl⟩
    · exact fun hfits => ⟨rfl, fun hsure => hfits ⟨hsure.2.row ha, hsure.2.row hb⟩⟩

/-- Ending a directed join keeps integrity and all rows. -/
theorem keeps_directedUnjoin (h : st.Integral) :
    (directedUnjoin (.ofId t id) (.ofId u key)).Ends w st
      (fun _ st' => st'.Integral) Store.Integral := by
  refine (ends_directedUnjoin h.toSound).mono ?_ ?_
  · rintro - st' ⟨hwithin, hs, -⟩
    exact h.of_within hwithin hs
  · rintro _ ⟨rfl, -⟩
    exact h

/-! ### Undirected joins -/

/-- The pair of a join has its rows in the order in which the tables were declared. -/
theorem joinPair_eq {order : Table × Table} {a b : Row}
    (horder : project.orderJoined? a.table b.table = some order) :
    (order = (a.table, b.table) ∧ joinPair order a b = (a.id, b.id)) ∨
      (order = (b.table, a.table) ∧ joinPair order a b = (b.id, a.id) ∧ b.table ≠ a.table) := by
  rcases (mem_joinedPairs_of_orderJoined? horder).2 with rfl | rfl
  · exact Or.inl ⟨rfl, by simp [joinPair]⟩
  · by_cases ht : b.table = a.table
    · exact Or.inl ⟨by rw [ht], by simp [joinPair, ht]⟩
    · exact Or.inr ⟨rfl, by simp [joinPair, ht], ht⟩

/-- The pair of two rows stands for their join. -/
theorem isJoinPair_joinPair {order : Table × Table} {a b : Row} (ha : st.Has a) (hb : st.Has b) :
    isJoinPair order a b (joinPair order a b) = true := by
  obtain ⟨i, hi⟩ := ha.exists_id
  obtain ⟨j, hj⟩ := hb.exists_id
  rw [hi, hj, isJoinPair, joinPair]
  split <;> simp [CellPair.identifies]

/-- The pair of two rows is added that are not joined. -/
theorem ends_addJoinPair (h : st.Integral) {order : Table × Table} {r c : Row}
    (hn : (RelationName.join order.1 order.2).IsJoin) (hpair : joinPair order r c = (.int id, .int key))
    (hswap : order.1 = order.2 → joinPair order c r = (.int key, .int id))
    (ha : st.Has (.ofId order.1 id)) (hb : st.Has (.ofId order.2 key))
    (hnone : ∀ p ∈ st.pairsOf (.join order.1 order.2), isJoinPair order r c p = false) :
    (Change.mutate fun store =>
      return (← store.addPair (.join order.1 order.2) (joinPair order r c), ())).Ends w st
      (fun _ st' => st.Joins st' (.join order.1 order.2) (.int id, .int key) ∧
        (.int id, .int key) ∈ st'.pairsOf (.join order.1 order.2))
      (fun st' => st' = st ∧ ¬ (w = true ∧ st.Fits)) := by
  rw [hpair]
  refine Change.Ends.addPair h hn ha hb ?_ ?_
  · -- Recorded already, the pair would have been found.
    intro hmem
    have := hnone _ hmem
    simp [isJoinPair, hpair, CellPair.identifies] at this
  · -- Recorded the other way round, it would have been found as well.
    intro t ht hmem
    obtain ⟨hfirst, hsecond⟩ := RelationName.join.inj ht
    have hsame := hfirst.trans hsecond.symm
    have := hnone _ hmem
    simp [isJoinPair, hswap hsame, hsame, CellPair.identifies] at this

/-- The tables of two rows are found in the order of their declaration. -/
theorem finds_joinOrder {a b : Row} :
    (joinOrder a b).Finds st (project.areJoined a.table b.table = true)
      (fun order => project.orderJoined? a.table b.table = some order) := by
  unfold joinOrder
  refine Query.Finds.registry ?_
  cases horder : project.orderJoined? a.table b.table with
  | none => exact Query.Finds.throw fun hjoined => by simp [areJoined, horder] at hjoined
  | some order => exact Query.Finds.pure rfl

/-- Whether two rows are joined is found: a pair records them in one order or the other. -/
theorem finds_joined (h : st.Sound) {order : Table × Table}
    (horder : project.orderJoined? t u = some order) :
    (joined (.ofId t id) (.ofId u key)).Finds st ((ofId t id).Fits ∧ (ofId u key).Fits)
      (fun found => found = true ↔ ∃ p ∈ st.pairsOf (.join order.1 order.2),
        isJoinPair order (.ofId t id) (.ofId u key) p = true) := by
  have hn : (RelationName.join order.1 order.2).IsJoin := (mem_joinedPairs_of_orderJoined? horder).1
  unfold joined
  refine Query.Finds.registry ?_
  simp only [horder]
  refine Query.Finds.bind ((Query.finds_pairsWhere h hn [.ofId t id, .ofId u key] _).mono_sure
    (by simp)) ?_
  rintro _ rfl
  refine Query.Finds.pure ?_
  -- Joined means here that one of the recorded pairs matches.
  rw [Bool.not_eq_true', List.isEmpty_eq_false_iff_exists_mem]
  simp only [List.mem_filter, CellPair.mem_sort]

/-- Two existing rows are joined by their pair; nothing else changes. -/
theorem ends_join (h : st.Integral) (ha : st.Has (.ofId t id)) (hb : st.Has (.ofId u key)) :
    (join (.ofId t id) (.ofId u key)).Ends w st
      (fun _ st' => ∃ order, project.orderJoined? t u = some order ∧
        st.Joins st' (.join order.1 order.2) (joinPair order (.ofId t id) (.ofId u key)) ∧
        ∃ p ∈ st'.pairsOf (.join order.1 order.2), isJoinPair order (.ofId t id) (.ofId u key) p = true)
      (fun st' => st' = st ∧ ¬ (w = true ∧ st.Fits ∧ project.areJoined t u = true)) := by
  unfold join
  refine Change.Ends.query finds_joinOrder ?_ fun hnot => ⟨rfl, fun hsure => hnot hsure.2.2⟩
  intro order horder
  refine Change.Ends.query (finds_joined h.toSound horder) ?_
    fun hfits => ⟨rfl, fun hsure => hfits ⟨hsure.2.1.row ha, hsure.2.1.row hb⟩⟩
  rintro (_ | _) hfound
  · have hnone : ∀ p ∈ st.pairsOf (.join order.1 order.2),
        isJoinPair order (.ofId t id) (.ofId u key) p = false := fun p hp =>
      eq_false_of_ne_true fun hpair => Bool.false_ne_true (hfound.mpr ⟨p, hp, hpair⟩)
    have hn : (RelationName.join order.1 order.2).IsJoin :=
      (mem_joinedPairs_of_orderJoined? horder).1
    have hrefused : ∀ st', st' = st ∧ ¬ (w = true ∧ st.Fits) →
        st' = st ∧ ¬ (w = true ∧ st.Fits ∧ project.areJoined t u = true) :=
      fun _ hE => ⟨hE.1, fun hsure => hE.2 ⟨hsure.1, hsure.2.1⟩⟩
    have hmade : isJoinPair order (.ofId t id) (.ofId u key) (joinPair order (.ofId t id) (.ofId u key)) :=
      isJoinPair_joinPair ha hb
    -- The registry keeps the pair in one order; the rows may come in the other.
    rcases joinPair_eq (a := .ofId t id) (b := .ofId u key) horder with
      ⟨rfl, hpair⟩ | ⟨rfl, hpair, hne⟩
    · refine (ends_addJoinPair h hn hpair (fun hsame => ?_) ha hb hnone).mono (fun _ _ hQ =>
        ⟨_, horder, hpair ▸ hQ.1, _, hQ.2, hpair ▸ hmade⟩) hrefused
      simp only at hsame
      simp [joinPair, hsame]
    · exact (ends_addJoinPair h hn hpair (fun hsame => absurd hsame hne) hb ha hnone).mono
        (fun _ _ hQ => ⟨_, horder, hpair ▸ hQ.1, _, hQ.2, hpair ▸ hmade⟩) hrefused
  · exact Change.Ends.pure ⟨order, horder, .refl h, hfound.mp rfl⟩

/-- Ending a join keeps integrity. -/
theorem keeps_unjoin (h : st.Integral) :
    (unjoin (.ofId t id) (.ofId u key)).Ends w st (fun _ st' => st'.Integral) Store.Integral := by
  unfold unjoin
  refine Change.Ends.query finds_joinOrder ?_ fun _ => h
  intro order horder
  have hn : (RelationName.join order.1 order.2).IsJoin := (mem_joinedPairs_of_orderJoined? horder).1
  refine (Change.Ends.removePairs h.toSound hn [.ofId t id, .ofId u key] _).mono ?_ ?_
  · rintro - _ rfl
    exact h.of_within (h.shaped.within_setPairs hn _) (h.setPairs_filter hn _)
  · rintro _ ⟨rfl, -⟩
    exact h

end Row

end SoarProject
