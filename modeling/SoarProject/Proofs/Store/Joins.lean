import SoarProject.Proofs.Schema.Registry
import SoarProject.Proofs.Store.Integrity

/-!
# Joins of any registry

The joins that a registry declares, in a store that was created for it. Nothing is asked of the records
here, nor of the registry but that it comes from declarations.

* `Store.Carries`: every declared join is there and holds pairs of ids, each of them once.
* `Store.Drops`, `Store.Adds`: some pairs are gone, or one was added; no record changed.
-/

namespace SoarProject

variable {r : Registry} {st st' st'' : Store} {a b p c : Table} {n m : RelationName} {pair : CellPair}

/-! ### Declared joins -/

namespace Index

/-- No value of a table is repeated. -/
theorem Distinct.nodup_get {α : Type} {index : Index α} (h : index.Distinct) (t : Table) :
    (index.get t).Nodup := by
  rw [get]
  cases hgroup : index.groups.lookup t with
  | none => exact List.nodup_nil
  | some values => exact h.values _ (mem_of_lookup_eq_some hgroup)

end Index

namespace Registry

/-- The joins that a registry declares. -/
def Declares (r : Registry) : RelationName → Prop
  | .join a b => (a, b) ∈ r.joinedPairs
  | .directed a b => (a, b) ∈ r.directedPairs
  | _ => False

namespace Coherent

variable (h : r.Coherent)

include h

/-- A declared undirected join. -/
theorem declares_join_iff : r.Declares (.join a b) ↔ b ∈ r.joins.get a := h.joins.mem_pairs_iff

/-- A declared directed join. -/
theorem declares_directed_iff : r.Declares (.directed p c) ↔ c ∈ r.directedJoins.get p :=
  h.directedJoins.mem_pairs_iff

/-- Two tables are joined in one order only. -/
theorem eq_of_declares (hab : r.Declares (.join a b)) (hba : r.Declares (.join b a)) : a = b :=
  h.joins_antisymm a b (h.declares_join_iff.mp hab) (h.declares_join_iff.mp hba)

/-- Tables without an order are not joined. -/
theorem orderJoined?_eq_none_iff :
    r.orderJoined? a b = none ↔ ¬ r.Declares (.join a b) ∧ ¬ r.Declares (.join b a) := by
  rw [h.declares_join_iff, h.declares_join_iff, orderJoined?]
  split
  · next hab => simp [hab]
  · next hab =>
    split
    · next hba => simp [hba]
    · next hba => simp [hab, hba]

/-- The order of two tables is declared. -/
theorem declares_of_orderJoined? {order : Table × Table} (ho : r.orderJoined? a b = some order) :
    r.Declares (.join order.1 order.2) ∧ (order = (a, b) ∨ order = (b, a)) := by
  obtain ⟨hmem, horder⟩ := mem_of_orderJoined? ho
  exact ⟨h.declares_join_iff.mpr hmem, horder⟩

/-- The parents of directed joins are not repeated. -/
theorem nodup_directedParentsOf (t : Table) : (r.directedParentsOf t).Nodup :=
  h.directedJoins.tables.sublist (List.filter_sublist.map _)

end Coherent

end Registry

/-! ### Stores with declared joins -/

namespace Store

/-- The declared joins are there and hold pairs of ids, each of them once. -/
structure Carries (st : Store) (r : Registry) : Prop where
  find?_join : ∀ n, r.Declares n →
    st.find? n = some (.pairs n.joinColumns.1 n.joinColumns.2 (st.pairsOf n))
  ids : ∀ n, r.Declares n → ∀ pair ∈ st.pairsOf n, ∃ i j : Int, pair = (.int i, .int j)
  nodup : ∀ n, r.Declares n → (st.pairsOf n).Nodup

/-- Nothing is joined yet. -/
def Unjoined (st : Store) (r : Registry) : Prop :=
  ∀ n, r.Declares n → st.find? n = some (.pairs n.joinColumns.1 n.joinColumns.2 [])

theorem Unjoined.pairsOf_eq (h : st.Unjoined r) (hn : r.Declares n) : st.pairsOf n = [] := by
  rw [pairsOf, h n hn]

/-- A store in which nothing is joined carries the joins. -/
theorem Unjoined.carries (h : st.Unjoined r) : st.Carries r where
  find?_join n hn := by rw [h.pairsOf_eq hn, h n hn]
  ids n hn pair hpair := by
    rw [h.pairsOf_eq hn] at hpair
    cases hpair
  nodup n hn := by
    rw [h.pairsOf_eq hn]
    exact List.nodup_nil

/-- A store has the relations that a registry calls for, and nothing in them. -/
def HasLayout (st : Store) (r : Registry) : Prop :=
  st.relations = r.layout.map fun e => (e.1, e.2.denoted)

theorem HasLayout.find?_eq (h : st.HasLayout r) (hr : r.Coherent) {relation : Relation}
    (hn : (n, relation) ∈ r.layout) : st.find? n = some relation.denoted := by
  have hnodup : ((r.layout.map fun e => (e.1, e.2.denoted)).map (·.1)).Nodup := by
    simpa [Function.comp_def] using hr.nodup_layout
  rw [find?, h]
  exact (lookup_eq_some_iff_mem hnodup).mpr (List.mem_map.mpr ⟨_, hn, rfl⟩)

/-- Where only the layout is there, nothing is joined yet. -/
theorem HasLayout.unjoined (h : st.HasLayout r) (hr : r.Coherent) : st.Unjoined r := by
  intro n hn
  suffices hmem : (n, Relation.pairs n.joinColumns.1 n.joinColumns.2 []) ∈ r.layout from
    h.find?_eq hr hmem
  cases n with
  | join a b => exact List.mem_append_left _ (List.mem_append_right _ (List.mem_map_of_mem hn))
  | directed a b => exact List.mem_append_right _ (List.mem_map_of_mem hn)
  | entity => exact hn.elim
  | other => exact hn.elim

namespace Carries

variable (h : st.Carries r) (hn : r.Declares n)

include h hn

theorem relation_eq : st.relation n = .ok (.pairs n.joinColumns.1 n.joinColumns.2 (st.pairsOf n)) := by
  rw [relation, h.find?_join n hn]

theorem pairs_eq : st.pairs n = .ok (CellPair.sort (st.pairsOf n)) := by
  rw [pairs, h.relation_eq hn]
  rfl

/-- Pairs of a declared join are removed, if the keys fit. -/
theorem removePairs_eq {keys : List Cell} (hkeys : keys.forM checkKey = .ok ())
    (drop : CellPair → Bool) :
    st.removePairs n keys drop = .ok (st.setPairs n ((st.pairsOf n).filter (!drop ·))) := by
  rw [removePairs, h.relation_eq hn]
  change (keys.forM checkKey >>= fun _ => .ok _) = _
  rw [hkeys]
  rfl

/-- A pair of ids is added to a declared join, if the ids fit and it is not there. -/
theorem addPair_eq {i j : Int} (hi : checkKey (.int i) = .ok ()) (hj : checkKey (.int j) = .ok ())
    (hnew : (.int i, .int j) ∉ st.pairsOf n) :
    st.addPair n (.int i, .int j) =
      .ok (st.setPairs n (st.pairsOf n ++ [(.int i, .int j)])) := by
  rw [addPair, h.relation_eq hn]
  change (checkKey _ >>= fun _ => checkKey _ >>= fun _ =>
    Relation.withPair n _ _ (st.pairsOf n) _ >>= fun rows => .ok (st.setPairs n rows)) = _
  rw [hi, hj, Shaped.withPair_eq, if_neg hnew]
  rfl

/-- The pairs after those of a declared join were replaced. -/
theorem pairsOf_setPairs (pairs : List CellPair) :
    (st.setPairs n pairs).pairsOf m = if m = n then pairs else st.pairsOf m := by
  rw [pairsOf, setPairs, find?_put]
  by_cases hm : m = n
  · simp [hm, h.find?_join n hn]
  · simp [hm, pairsOf]

omit h in
/-- Replacing the pairs of a declared join leaves all records. -/
theorem rows_setPairs (pairs : List CellPair) (t : Table) :
    (st.setPairs n pairs).rows t = st.rows t := by
  rw [Store.rows, setPairs, find?_put]
  have hne : RelationName.entity t ≠ n := by
    rintro rfl
    exact hn
  simp [hne, Store.rows]

/-- Replacing the pairs of a declared join by others of ids. -/
theorem setPairs {pairs : List CellPair} (hids : ∀ pair ∈ pairs, ∃ i j : Int, pair = (.int i, .int j))
    (hnodup : pairs.Nodup) : (st.setPairs n pairs).Carries r where
  find?_join m hm := by
    rw [h.pairsOf_setPairs hn, Store.setPairs, find?_put]
    by_cases hmn : m = n
    · simp [hmn, h.find?_join n hn]
    · simpa [hmn] using h.find?_join m hm
  ids m hm := by
    rw [h.pairsOf_setPairs hn]
    by_cases hmn : m = n
    · simpa [hmn] using hids
    · simpa [hmn] using h.ids m hm
  nodup m hm := by
    rw [h.pairsOf_setPairs hn]
    by_cases hmn : m = n
    · simpa [hmn] using hnodup
    · simpa [hmn] using h.nodup m hm

omit hn in
/-- Whatever becomes of the records of a table, the joins are as they were. -/
theorem put_entity (t : Table) (relation : Relation) :
    (st.put (.entity t) relation).Carries r ∧
      ∀ n, r.Declares n → (st.put (.entity t) relation).pairsOf n = st.pairsOf n := by
  have hfind : ∀ n, r.Declares n → (st.put (.entity t) relation).find? n = st.find? n := by
    intro n hn
    -- A relation of records is none of the declared joins.
    have hne : n ≠ .entity t := by
      rintro rfl
      exact hn
    rw [find?_put, if_neg hne]
  have hpairs : ∀ n, r.Declares n → (st.put (.entity t) relation).pairsOf n = st.pairsOf n :=
    fun n hn => by rw [pairsOf, hfind n hn, pairsOf]
  refine ⟨⟨fun n hn => ?_, fun n hn => ?_, fun n hn => ?_⟩, hpairs⟩
  · rw [hfind n hn, hpairs n hn]
    exact h.find?_join n hn
  · rw [hpairs n hn]
    exact h.ids n hn
  · rw [hpairs n hn]
    exact h.nodup n hn

end Carries

/-! ### Fewer and more pairs -/

/-- The pairs that are `gone` are no longer there; everything else is as it was. -/
structure Drops (r : Registry) (st st' : Store) (gone : RelationName → CellPair → Prop) : Prop where
  carries : st'.Carries r
  rows_eq : ∀ t, st'.rows t = st.rows t
  mem_iff : ∀ n, r.Declares n → ∀ pair, pair ∈ st'.pairsOf n ↔ pair ∈ st.pairsOf n ∧ ¬ gone n pair

theorem Drops.trans {gone gone' : RelationName → CellPair → Prop} (h : Drops r st st' gone)
    (h' : Drops r st' st'' gone') : Drops r st st'' fun n pair => gone n pair ∨ gone' n pair where
  carries := h'.carries
  rows_eq t := (h'.rows_eq t).trans (h.rows_eq t)
  mem_iff n hn pair := by
    rw [h'.mem_iff n hn, h.mem_iff n hn, not_or, and_assoc]

theorem Drops.congr {gone gone' : RelationName → CellPair → Prop} (h : Drops r st st' gone)
    (hgone : ∀ n, r.Declares n → ∀ pair ∈ st.pairsOf n, gone n pair ↔ gone' n pair) :
    Drops r st st' gone' where
  carries := h.carries
  rows_eq := h.rows_eq
  mem_iff n hn pair := by
    rw [h.mem_iff n hn]
    exact and_congr_right fun hpair => not_congr (hgone n hn pair hpair)

/-- Without the pairs of a join that meet a condition. -/
theorem Carries.drops (h : st.Carries r) (hn : r.Declares n) (drop : CellPair → Bool) :
    Drops r st (st.setPairs n ((st.pairsOf n).filter (!drop ·))) fun m pair =>
      m = n ∧ drop pair = true where
  carries := h.setPairs hn (fun pair hpair => h.ids n hn pair (List.mem_of_mem_filter hpair))
    ((h.nodup n hn).filter _)
  rows_eq := Carries.rows_setPairs hn _
  mem_iff m hm pair := by
    rw [h.pairsOf_setPairs hn]
    by_cases hmn : m = n
    · subst hmn
      simp
    · simp [hmn]

/-- One pair was added to a join; everything else is as it was. -/
structure Adds (r : Registry) (st st' : Store) (n : RelationName) (pair : CellPair) : Prop where
  carries : st'.Carries r
  rows_eq : ∀ t, st'.rows t = st.rows t
  mem_iff : ∀ m, r.Declares m → ∀ q, q ∈ st'.pairsOf m ↔ q ∈ st.pairsOf m ∨ m = n ∧ q = pair

/-- With a new pair of ids. -/
theorem Carries.adds (h : st.Carries r) (hn : r.Declares n) {i j : Int}
    (hnew : (.int i, .int j) ∉ st.pairsOf n) :
    Adds r st (st.setPairs n (st.pairsOf n ++ [(.int i, .int j)])) n (.int i, .int j) where
  carries := by
    refine h.setPairs hn (fun pair hpair => ?_) ?_
    · rcases List.mem_append.mp hpair with hold | hadded
      · exact h.ids n hn pair hold
      · exact ⟨i, j, List.mem_singleton.mp hadded⟩
    · -- The pair is new, so it repeats none of the old ones.
      exact List.nodup_append.mpr ⟨h.nodup n hn, List.nodup_singleton _, fun pair hpair q hq heq =>
        hnew ((List.mem_singleton.mp hq) ▸ heq ▸ hpair)⟩
  rows_eq := Carries.rows_setPairs hn _
  mem_iff m hm q := by
    rw [h.pairsOf_setPairs hn]
    by_cases hmn : m = n
    · subst hmn
      simp
    · simp [hmn]

end Store

end SoarProject
