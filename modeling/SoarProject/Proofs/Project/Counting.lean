import SoarProject.Proofs.Project.Reading
import SoarProject.Proofs.Row.Descendants

/-!
# How many rows are stored

Keys form a forest, so the rows below different children of a row are different ones. Thus the rows that
hold outlines below a row are as many as these have entries (`Store.StoresBelow.ncard_below`).
-/

namespace SoarProject

open Registry Rule

namespace Store

variable {st : Store} {r p c d q : Row} {rows : List Row} {os : List Outline}

/-! ### Counting -/

/-- Some rows and the rows below them. -/
def treeSet (st : Store) (rows : List Row) : Set Row :=
  {q | ∃ c ∈ rows, Relation.ReflTransGen st.IsParent c q}

/-- There are finitely many rows below some rows. -/
theorem finite_treeSet (hrows : ∀ c ∈ rows, st.Has c) : (st.treeSet rows).Finite := by
  refine st.rowSet_finite_and_le.1.subset ?_
  rintro q ⟨c, hc, hcq⟩
  rcases Relation.ReflTransGen.cases_tail hcq with rfl | ⟨b, -, hbq⟩
  · exact hrows q hc
  · exact hbq.has

/-- What is below a row is what is below its children, with these. -/
theorem belowSet_eq_treeSet (hrows : ∀ c, c ∈ rows ↔ st.IsParent r c) :
    st.belowSet r = st.treeSet rows := by
  ext q
  simp only [belowSet, treeSet, Set.mem_ofPred_eq, Relation.TransGen.head'_iff, hrows]

/-- A row is not below itself, and counts once more. -/
theorem Integral.ncard_treeSet_singleton (h : st.Integral) :
    (st.treeSet [r]).ncard = (st.belowSet r).ncard + 1 := by
  have hsplit : st.treeSet [r] = Insert.insert r (st.belowSet r) := by
    ext q
    simp only [treeSet, belowSet, List.mem_singleton, exists_eq_left, Set.mem_ofPred_eq,
      Set.mem_insert_iff, Relation.reflTransGen_iff_eq_or_transGen]
  have hnot : r ∉ st.belowSet r := h.acyclic r
  rw [hsplit, Set.ncard_insert_of_notMem hnot
    (st.rowSet_finite_and_le.1.subset belowSet_subset_rowSet)]

/-- The rows below different children of a row add up. -/
theorem Integral.ncard_treeSet_cons (h : st.Integral) (hc : st.IsParent r c)
    (hrows : ∀ d ∈ rows, st.IsParent r d) (hnew : c ∉ rows) :
    (st.treeSet (c :: rows)).ncard = (st.treeSet [c]).ncard + (st.treeSet rows).ncard := by
  have hsplit : st.treeSet (c :: rows) = st.treeSet [c] ∪ st.treeSet rows := by
    ext q
    simp only [treeSet, List.mem_cons, List.not_mem_nil, or_false, Set.mem_union, Set.mem_ofPred_eq]
    grind
  have hdisjoint : Disjoint (st.treeSet [c]) (st.treeSet rows) := by
    rw [Set.disjoint_left]
    rintro q ⟨b, hb, hbq⟩ ⟨d, hd, hdq⟩
    obtain rfl := List.mem_singleton.mp hb
    exact hnew (h.eq_of_reflTransGen hc (hrows d hd) hbq hdq ▸ hd)
  rw [hsplit, Set.ncard_union_eq hdisjoint (finite_treeSet (by simpa using hc.has))
    (finite_treeSet fun d hd => (hrows d hd).has)]

/-- Rows that are the children of a row in each table are different ones. -/
theorem Sound.nodup_of_childrenIn (h : st.Sound)
    (hchildren : ∀ t, st.childrenIn r t = rows.filter (·.table = t)) : rows.Nodup := by
  rw [List.nodup_iff_count_le_one]
  intro c
  have hnodup := h.ordered.nodup_childrenIn r c.table
  rw [hchildren] at hnodup
  have hcount := List.nodup_iff_count_le_one.mp hnodup c
  rwa [List.count_filter (by simp)] at hcount

/-- The children of a row are those in each table. -/
theorem Sound.mem_iff_isParent (h : st.Sound) (hr : st.Has r)
    (hchildren : ∀ t, st.childrenIn r t = rows.filter (·.table = t)) :
    c ∈ rows ↔ st.IsParent r c := by
  obtain ⟨id, hid⟩ := hr.exists_id
  have hmem : c ∈ st.childrenIn r c.table ↔ c ∈ rows := by
    rw [hchildren, List.mem_filter]
    simp
  rw [← hmem, hid, h.mem_childrenIn_iff]
  simp

mutual

/-- A row that holds an outline and the rows below it are as many as the entries. -/
theorem Stores.ncard_treeSet (h : st.Integral) : ∀ {o : Outline} {r : Row}, st.Stores r o →
    (st.treeSet [r]).ncard = o.size
  | .entry kind e children, r, hs => by
    have hr := hs.has
    rw [Stores] at hs
    obtain ⟨-, -, rows, hrows, hchildren⟩ := hs
    have hmem : ∀ c, c ∈ rows ↔ st.IsParent r c := fun c => h.mem_iff_isParent hr hchildren
    rw [h.ncard_treeSet_singleton, belowSet_eq_treeSet hmem, Outline.size,
      Stores.ncard_treeSet_all h (fun c hc => (hmem c).mp hc) (h.nodup_of_childrenIn hchildren) hrows]
  | .faulty _ _, _, hs => hs.elim
  | .foreign _, _, hs => hs.elim

/-- Children of a row that hold outlines and the rows below them are as many as the entries. -/
theorem Stores.ncard_treeSet_all (h : st.Integral) : ∀ {os : List Outline} {rows : List Row} {p : Row},
    (∀ c ∈ rows, st.IsParent p c) → rows.Nodup → st.StoresAll rows os →
      (st.treeSet rows).ncard = Outline.sizes os
  | [], rows, _, _, _, hs => by
    rw [storesAll_nil_iff.mp hs, Outline.sizes]
    simp [treeSet]
  | o :: os, rows, p, hparent, hnodup, hs => by
    obtain ⟨c, rest, hc, hrest, rfl⟩ := storesAll_cons_iff.mp hs
    rw [List.forall_mem_cons] at hparent
    rw [List.nodup_cons] at hnodup
    rw [h.ncard_treeSet_cons hparent.1 hparent.2 hnodup.1, Outline.sizes,
      Stores.ncard_treeSet h hc, Stores.ncard_treeSet_all h hparent.2 hnodup.2 hrest]

end

/-- Below a row whose children hold outlines there is one row for each entry. -/
theorem StoresBelow.ncard_below (h : st.Integral) (hr : st.Has r) (hs : st.StoresBelow r os) :
    (st.belowSet r).ncard = Outline.sizes os := by
  obtain ⟨rows, hrows, hchildren⟩ := hs
  have hmem : ∀ c, c ∈ rows ↔ st.IsParent r c := fun c => h.mem_iff_isParent hr hchildren
  rw [belowSet_eq_treeSet hmem]
  exact Stores.ncard_treeSet_all h (fun c hc => (hmem c).mp hc) (h.nodup_of_childrenIn hchildren) hrows

end Store

end SoarProject
