import Mathlib.Data.Sym.Sym2
import SoarProject.Proofs.Row.Removal
import SoarProject.Proofs.Store.Joins

/-!
# Joins as sets

What is joined to what is a set of unordered pairs of rows, and what is joined below what a set of
ordered ones. The relations of a store record these sets: an unordered pair stands in the order in
which its tables were declared, and within one table in either order. This holds for every registry.

* `JoinSets`, `JoinOperation.apply`: the two sets, and what an operation makes of them.
* `Store.Represents`: the store records the sets; there is one lemma for each way to add or remove pairs.
* `Row.Ordered`: two rows in the order in which a pair has them.
-/

namespace SoarProject

open Store (Names Drops Adds)

variable {α β : Type} {r : Registry} {s s' : Session} {st st' : Store} {a b c p u v x y : Row}
  {t : Table} {n : RelationName}

/-! ### The sets -/

/-- Which rows are joined. -/
structure JoinSets where
  /-- The unordered pairs of joined rows. -/
  joined : Set (Sym2 Row)
  /-- The pairs of rows of which the second is joined below the first. -/
  directed : Set (Row × Row)

/-- Nothing is joined. -/
def JoinSets.empty : JoinSets := ⟨∅, ∅⟩

/-- An operation on the joins of rows. -/
inductive JoinOperation where
  /-- Join two rows. -/
  | join (a b : Row)
  /-- End the join of two rows. -/
  | unjoin (a b : Row)
  /-- Join a row below another one. -/
  | directedJoin (parent child : Row)
  /-- End a directed join. -/
  | directedUnjoin (parent child : Row)
  /-- End all joins of a row. -/
  | removeAll (a : Row)

namespace JoinOperation

/-- The rows that an operation is called on. -/
def rows : JoinOperation → List Row
  | join a b | unjoin a b | directedJoin a b | directedUnjoin a b => [a, b]
  | removeAll a => [a]

/-- Carry out an operation. -/
def perform : JoinOperation → Change Unit
  | join a b => a.join b
  | unjoin a b => a.unjoin b
  | directedJoin parent child => parent.directedJoin child
  | directedUnjoin parent child => parent.directedUnjoin child
  | removeAll a => a.removeAllJoins

/-- Carry out operations one after the other, also after one that is refused. -/
def performAll (ops : List JoinOperation) : StateM Session (List (Except Failure Unit)) :=
  ops.mapM fun op => op.perform.run

/-- How an operation ends: undirected joins of undeclared tables are refused. -/
def outcome (r : Registry) : JoinOperation → Except Failure Unit
  | join a b | unjoin a b =>
    if r.areJoined a.table b.table then .ok () else .error (.notJoined a.table b.table)
  | directedJoin .. | directedUnjoin .. | removeAll .. => .ok ()

/-- What an operation makes of the sets. -/
def apply (r : Registry) (sets : JoinSets) : JoinOperation → JoinSets
  | join a b =>
    if r.areJoined a.table b.table then { sets with joined := insert s(a, b) sets.joined } else sets
  | unjoin a b => { sets with joined := sets.joined \ {s(a, b)} }
  | directedJoin parent child =>
    if r.areDirectedJoined parent.table child.table then
      { sets with directed := insert (parent, child) sets.directed }
    else sets
  | directedUnjoin parent child => { sets with directed := sets.directed \ {(parent, child)} }
  | removeAll a =>
    { joined := {pair ∈ sets.joined | a ∉ pair}
      directed := {pair ∈ sets.directed | a ≠ pair.1 ∧ a ≠ pair.2} }

end JoinOperation

/-! ### What a store records -/

namespace Store

/-- A join of two rows is recorded, in the order in which their tables were declared. -/
def IsJoined (st : Store) (r : Registry) (x y : Row) : Prop :=
  (r.Declares (.join x.table y.table) ∧ (x.id, y.id) ∈ st.pairsOf (.join x.table y.table)) ∨
    r.Declares (.join y.table x.table) ∧ (y.id, x.id) ∈ st.pairsOf (.join y.table x.table)

/-- A directed join of two rows is recorded. -/
def IsJoinedBelow (st : Store) (r : Registry) (p c : Row) : Prop :=
  r.Declares (.directed p.table c.table) ∧ (p.id, c.id) ∈ st.pairsOf (.directed p.table c.table)

/-- The store records the sets. -/
structure Represents (st : Store) (r : Registry) (sets : JoinSets) : Prop where
  joined_iff : ∀ x y, s(x, y) ∈ sets.joined ↔ st.IsJoined r x y
  directed_iff : ∀ p c, (p, c) ∈ sets.directed ↔ st.IsJoinedBelow r p c

/-- Where nothing is joined, the sets are empty. -/
theorem Unjoined.represents (h : st.Unjoined r) : st.Represents r .empty where
  joined_iff x y := by
    refine iff_of_false (Set.notMem_empty _) ?_
    rintro (⟨hn, hpair⟩ | ⟨hn, hpair⟩) <;> exact List.not_mem_nil (h.pairsOf_eq hn ▸ hpair)
  directed_iff p c := by
    refine iff_of_false (Set.notMem_empty _) ?_
    rintro ⟨hn, hpair⟩
    exact List.not_mem_nil (h.pairsOf_eq hn ▸ hpair)

/-- In a join a pair of ids stands for one pair of rows. -/
theorem join_pair_eq_iff : RelationName.join x.table y.table = .join u.table v.table ∧
    (x.id, y.id) = (u.id, v.id) ↔ x = u ∧ y = v := by
  cases x; cases y; cases u; cases v
  simp only [RelationName.join.injEq, Prod.mk.injEq, Row.mk.injEq]
  tauto

/-- In a directed join a pair of ids stands for one pair of rows. -/
theorem directed_pair_eq_iff : RelationName.directed x.table y.table = .directed u.table v.table ∧
    (x.id, y.id) = (u.id, v.id) ↔ x = u ∧ y = v := by
  cases x; cases y; cases u; cases v
  simp only [RelationName.directed.injEq, Prod.mk.injEq, Row.mk.injEq]
  tauto

section Steps

variable {sets : JoinSets} (h : st.Represents r sets)

include h

/-- The sets depend on the declared joins only. -/
theorem Represents.congr (hpairs : ∀ n, r.Declares n → st'.pairsOf n = st.pairsOf n) :
    st'.Represents r sets where
  joined_iff x y := by
    rw [h.joined_iff, IsJoined, IsJoined]
    refine or_congr (and_congr_right fun hn => ?_) (and_congr_right fun hn => ?_) <;>
    · rw [hpairs _ hn]
  directed_iff p c := by
    rw [h.directed_iff]
    exact and_congr_right fun hn => by rw [hpairs _ hn]

/-- A new pair of an undirected join. -/
theorem Represents.add_joined (hn : r.Declares (.join u.table v.table))
    (hadds : Adds r st st' (.join u.table v.table) (u.id, v.id)) :
    st'.Represents r { sets with joined := Insert.insert s(u, v) sets.joined } where
  joined_iff x y := by
    -- Either order of the two rows may be the new pair.
    have hplace : ∀ x y : Row, (r.Declares (.join x.table y.table) ∧
        (x.id, y.id) ∈ st'.pairsOf (.join x.table y.table)) ↔
        (r.Declares (.join x.table y.table) ∧ (x.id, y.id) ∈ st.pairsOf (.join x.table y.table)) ∨
          x = u ∧ y = v := by
      intro x y
      constructor
      · rintro ⟨hdeclared, hpair⟩
        exact ((hadds.mem_iff _ hdeclared _).mp hpair).imp (⟨hdeclared, ·⟩) join_pair_eq_iff.mp
      · rintro (⟨hdeclared, hpair⟩ | ⟨rfl, rfl⟩)
        · exact ⟨hdeclared, (hadds.mem_iff _ hdeclared _).mpr (.inl hpair)⟩
        · exact ⟨hn, (hadds.mem_iff _ hn _).mpr (.inr ⟨rfl, rfl⟩)⟩
    rw [Set.mem_insert_iff, Sym2.eq_iff, h.joined_iff, IsJoined, IsJoined, hplace x y, hplace y x]
    tauto
  directed_iff p c := by
    rw [h.directed_iff]
    refine and_congr_right fun hdeclared => ?_
    rw [hadds.mem_iff _ hdeclared]
    simp

/-- A new pair of a directed join. -/
theorem Represents.add_directed (hn : r.Declares (.directed u.table v.table))
    (hadds : Adds r st st' (.directed u.table v.table) (u.id, v.id)) :
    st'.Represents r { sets with directed := Insert.insert (u, v) sets.directed } where
  joined_iff x y := by
    rw [h.joined_iff, IsJoined, IsJoined]
    -- The new record is directed, so no symmetric relation gains one.
    refine or_congr (and_congr_right fun hdeclared => ?_) (and_congr_right fun hdeclared => ?_) <;>
    · rw [hadds.mem_iff _ hdeclared]
      simp
  directed_iff p c := by
    rw [Set.mem_insert_iff, h.directed_iff, IsJoinedBelow, IsJoinedBelow, Prod.mk.injEq]
    -- A pair is recorded now if it was before or is the one that was added.
    constructor
    · rintro (⟨rfl, rfl⟩ | ⟨hdeclared, hpair⟩)
      · exact ⟨hn, (hadds.mem_iff _ hn _).mpr (.inr ⟨rfl, rfl⟩)⟩
      · exact ⟨hdeclared, (hadds.mem_iff _ hdeclared _).mpr (.inl hpair)⟩
    · rintro ⟨hdeclared, hpair⟩
      exact (((hadds.mem_iff _ hdeclared _).mp hpair).imp (⟨hdeclared, ·⟩)
        directed_pair_eq_iff.mp).symm

/-- The pair of two rows of an undirected join is gone, in both orders if they belong to one table. -/
theorem Represents.drop_joined (hr : r.Coherent) (hn : r.Declares (.join u.table v.table))
    (hdrops : Drops r st st' fun n pair => n = .join u.table v.table ∧
      (pair = (u.id, v.id) ∨ u.table = v.table ∧ pair = (v.id, u.id))) :
    st'.Represents r { sets with joined := sets.joined \ {s(u, v)} } where
  joined_iff x y := by
    have hplace : ∀ x y : Row, (r.Declares (.join x.table y.table) ∧
        (x.id, y.id) ∈ st'.pairsOf (.join x.table y.table)) ↔
        (r.Declares (.join x.table y.table) ∧ (x.id, y.id) ∈ st.pairsOf (.join x.table y.table)) ∧
          ¬ (x = u ∧ y = v ∨ x = v ∧ y = u) := by
      intro x y
      rw [and_assoc]
      refine and_congr_right fun hdeclared => ?_
      rw [hdrops.mem_iff _ hdeclared]
      refine and_congr_right fun _ => not_congr ⟨?_, ?_⟩
      · rintro ⟨hjoin, hpair | ⟨htable, hpair⟩⟩
        · exact .inl (join_pair_eq_iff.mp ⟨hjoin, hpair⟩)
        · rw [htable] at hjoin
          exact .inr (join_pair_eq_iff.mp ⟨by rw [hjoin, htable], hpair⟩)
      · rintro (⟨rfl, rfl⟩ | ⟨rfl, rfl⟩)
        · exact ⟨rfl, .inl rfl⟩
        · -- Both orders are declared, so the rows belong to one table.
          have htable := hr.eq_of_declares hn hdeclared
          exact ⟨by rw [htable], .inr ⟨htable, rfl⟩⟩
    rw [Set.mem_sdiff, Set.mem_singleton_iff, Sym2.eq_iff, h.joined_iff, IsJoined, IsJoined,
      hplace x y, hplace y x]
    tauto
  directed_iff p c := by
    rw [h.directed_iff]
    refine and_congr_right fun hdeclared => ?_
    rw [hdrops.mem_iff _ hdeclared]
    simp

/-- The pair of two rows of a directed join is gone. -/
theorem Represents.drop_directed
    (hdrops : Drops r st st' fun n pair => n = .directed u.table v.table ∧ pair = (u.id, v.id)) :
    st'.Represents r { sets with directed := sets.directed \ {(u, v)} } where
  joined_iff x y := by
    rw [h.joined_iff, IsJoined, IsJoined]
    refine or_congr (and_congr_right fun hdeclared => ?_) (and_congr_right fun hdeclared => ?_) <;>
    · rw [hdrops.mem_iff _ hdeclared]
      simp
  directed_iff p c := by
    rw [Set.mem_sdiff, Set.mem_singleton_iff, Prod.mk.injEq, h.directed_iff, IsJoinedBelow,
      IsJoinedBelow, and_assoc]
    refine and_congr_right fun hdeclared => ?_
    rw [hdrops.mem_iff _ hdeclared, directed_pair_eq_iff]

/-- All pairs that name a row are gone. -/
theorem Represents.drop_names (hdrops : Drops r st st' fun n pair => Names n pair a) :
    st'.Represents r ((JoinOperation.removeAll a).apply r sets) where
  joined_iff x y := by
    -- A stored pair is dropped exactly when one of its two places names the row.
    have hplace : ∀ x y : Row, (r.Declares (.join x.table y.table) ∧
        (x.id, y.id) ∈ st'.pairsOf (.join x.table y.table)) ↔
        (r.Declares (.join x.table y.table) ∧ (x.id, y.id) ∈ st.pairsOf (.join x.table y.table)) ∧
          ¬ (x = a ∨ y = a) := by
      intro x y
      rw [and_assoc]
      exact and_congr_right fun hdeclared => hdrops.mem_iff _ hdeclared _
    change (s(x, y) ∈ sets.joined ∧ a ∉ s(x, y)) ↔ _
    rw [Sym2.mem_iff, h.joined_iff, IsJoined, IsJoined, hplace x y, hplace y x]
    simp only [eq_comm (a := a)]
    tauto
  directed_iff p c := by
    change ((p, c) ∈ sets.directed ∧ a ≠ p ∧ a ≠ c) ↔ _
    rw [h.directed_iff, IsJoinedBelow, IsJoinedBelow, and_assoc]
    refine and_congr_right fun hdeclared => ?_
    rw [hdrops.mem_iff _ hdeclared]
    refine and_congr_right fun _ => ?_
    rw [ne_comm, ne_comm (a := a), ← not_or]
    exact Iff.rfl

end Steps

end Store

theorem Store.Has.id_eq (h : st.Has x) : ∃ i : Int, x.id = .int i := by
  obtain ⟨record, -, hid⟩ := h
  exact ⟨_, hid⟩

/-! ### Rows in the order of their tables -/

/-- A key is that of one id. -/
theorem Cell.identifies_eq_true_iff {key c : Cell} (hkey : ∃ i : Int, key = .int i)
    (hc : ∃ j : Int, c = .int j) : key.identifies c = true ↔ c = key := by
  obtain ⟨i, rfl⟩ := hkey
  obtain ⟨j, rfl⟩ := hc
  rw [Store.int_identifies_int, decide_eq_true_iff, Cell.int.injEq]

/-- Two ids ask for the pair of them. -/
theorem CellPair.identifies_eq_true_iff {keys pair : CellPair}
    (hkeys : ∃ i j : Int, keys = (.int i, .int j)) (hpair : ∃ i j : Int, pair = (.int i, .int j)) :
    keys.identifies pair = true ↔ pair = keys := by
  obtain ⟨i, j, rfl⟩ := hkeys
  obtain ⟨k, l, rfl⟩ := hpair
  simp [CellPair.identifies]

namespace Row

/-- The rows `u` and `v` are `x` and `y` in the order of their tables, in which a pair has them. -/
structure Ordered (r : Registry) (order : Table × Table) (x y u v : Row) : Prop where
  order_eq : order = (u.table, v.table)
  declared : r.Declares (.join u.table v.table)
  rows_eq : s(x, y) = s(u, v)
  pair_eq : joinPair order x y = (u.id, v.id)
  /-- Within one table the pair may have them the other way round. -/
  swapped_eq : u.table = v.table → joinPair order y x = (v.id, u.id)

/-- Rows of joined tables can be ordered. -/
theorem exists_ordered (hr : r.Coherent) {order : Table × Table}
    (ho : r.orderJoined? x.table y.table = some order) : ∃ u v, Ordered r order x y u v := by
  obtain ⟨hdeclared, rfl | rfl⟩ := hr.declares_of_orderJoined? ho
  · exact ⟨x, y, rfl, hdeclared, rfl, by simp [joinPair], fun heq => by simp [joinPair, heq]⟩
  · -- Two rows of one table are taken as they come.
    by_cases htable : y.table = x.table
    · refine ⟨x, y, by rw [htable], ?_, rfl, by simp [joinPair, htable], fun _ => by simp [joinPair]⟩
      rwa [htable] at hdeclared ⊢
    · exact ⟨y, x, rfl, hdeclared, Sym2.eq_swap, by simp [joinPair, htable],
        fun heq => absurd heq htable⟩

namespace Ordered

variable {order : Table × Table} (h : Ordered r order x y u v)

include h

theorem has (hx : st.Has x) (hy : st.Has y) : st.Has u ∧ st.Has v := by
  rcases Sym2.eq_iff.mp h.rows_eq with ⟨rfl, rfl⟩ | ⟨rfl, rfl⟩
  · exact ⟨hx, hy⟩
  · exact ⟨hy, hx⟩

/-- The pairs of ids that record a join of two rows. -/
theorem isJoinPair_iff (hu : ∃ i : Int, u.id = .int i) (hv : ∃ j : Int, v.id = .int j)
    {pair : CellPair} (hpair : ∃ i j : Int, pair = (.int i, .int j)) :
    isJoinPair order x y pair = true ↔
      pair = (u.id, v.id) ∨ u.table = v.table ∧ pair = (v.id, u.id) := by
  obtain ⟨i, hi⟩ := hu
  obtain ⟨j, hj⟩ := hv
  have hsame : order.1 = order.2 ↔ u.table = v.table := by rw [h.order_eq]
  rw [isJoinPair, Bool.or_eq_true, Bool.and_eq_true, decide_eq_true_iff, hsame, h.pair_eq,
    CellPair.identifies_eq_true_iff ⟨i, j, by rw [hi, hj]⟩ hpair]
  refine or_congr_right (and_congr_right fun htable => ?_)
  rw [h.swapped_eq htable, CellPair.identifies_eq_true_iff ⟨j, i, by rw [hi, hj]⟩ hpair]

end Ordered

end Row

namespace Store

theorem isJoined_comm : st.IsJoined r x y ↔ st.IsJoined r y x := or_comm

/-- Between ordered tables one pair records a join, within one table either of two. -/
theorem isJoined_iff (hr : r.Coherent) (hn : r.Declares (.join u.table v.table)) :
    st.IsJoined r u v ↔ (u.id, v.id) ∈ st.pairsOf (.join u.table v.table) ∨
      u.table = v.table ∧ (v.id, u.id) ∈ st.pairsOf (.join u.table v.table) := by
  rw [IsJoined, and_iff_right hn]
  refine or_congr_right ⟨?_, ?_⟩
  · rintro ⟨hdeclared, hpair⟩
    have htable := hr.eq_of_declares hn hdeclared
    exact ⟨htable, by rwa [htable] at hpair ⊢⟩
  · rintro ⟨htable, hpair⟩
    rw [htable] at hn hpair ⊢
    exact ⟨hn, hpair⟩

end Store

/-- A join of two existing rows is recorded by one of the pairs that stand for it. -/
theorem Row.exists_isJoinPair_iff (hr : r.Coherent) (h : st.Carries r) {order : Table × Table}
    (ho : r.orderJoined? x.table y.table = some order) (hx : st.Has x) (hy : st.Has y) :
    (∃ pair ∈ st.pairsOf (.join order.1 order.2), isJoinPair order x y pair = true) ↔
      st.IsJoined r x y := by
  obtain ⟨u, v, hordered⟩ := exists_ordered hr ho
  obtain ⟨hu, hv⟩ := hordered.has hx hy
  -- Stored as it is ordered by the registry, the pair stands for both orders.
  have hsame : st.IsJoined r x y ↔ st.IsJoined r u v := by
    rcases Sym2.eq_iff.mp hordered.rows_eq with ⟨rfl, rfl⟩ | ⟨rfl, rfl⟩
    · exact Iff.rfl
    · exact Store.isJoined_comm
  have hpair := fun pair hmem => hordered.isJoinPair_iff hu.id_eq hv.id_eq
    (h.ids _ hordered.declared pair hmem)
  rw [hsame, Store.isJoined_iff hr hordered.declared]
  obtain rfl := hordered.order_eq
  constructor
  · rintro ⟨pair, hmem, hfound⟩
    rcases (hpair pair hmem).mp hfound with rfl | ⟨htable, rfl⟩
    · exact .inl hmem
    · exact .inr ⟨htable, hmem⟩
  · rintro (hmem | ⟨htable, hmem⟩)
    · exact ⟨_, hmem, (hpair _ hmem).mpr (.inl rfl)⟩
    · exact ⟨_, hmem, (hpair _ hmem).mpr (.inr ⟨htable, rfl⟩)⟩

end SoarProject
