import Mathlib.Algebra.Order.BigOperators.Group.List
import Mathlib.Data.Set.Card
import SoarProject.Proofs.Store.Integrity

/-!
# How much there is to delete

A bound for the steps of a deletion. Each step down from a row follows a key, or a directed join that
it removes. `Store.need` counts the directed joins first and then the rows below one row; both steps
make it smaller, and it is never more than the size of the store allows.
-/

namespace SoarProject

namespace Store

variable {s s' : Store} {r p c q : Row}

/-- The existing rows. -/
def rowSet (s : Store) : Set Row := {r | s.Has r}

/-- The directed joins, parent first. -/
def aboveSet (s : Store) : Set (Row × Row) := {e | s.IsAbove e.1 e.2}

/-- The rows that keys put below a row. -/
def belowSet (s : Store) (r : Row) : Set Row := {c | Relation.TransGen s.IsParent r c}

/-- How deep a deletion of a row may go. -/
noncomputable def need (s : Store) (r : Row) : Nat :=
  s.aboveSet.ncard * (s.rowSet.ncard + 1) + (s.belowSet r).ncard + 1

/-! ### Bounds -/

/-- A set is no larger than a list of its elements. -/
theorem finite_and_ncard_le {α : Type} [DecidableEq α] {a : Set α} {l : List α}
    (h : ∀ x ∈ a, x ∈ l) : a.Finite ∧ a.ncard ≤ l.length := by
  have hsubset : a ⊆ ↑l.toFinset := fun x hx => by simpa using h x hx
  refine ⟨l.toFinset.finite_toSet.subset hsubset, ?_⟩
  calc a.ncard ≤ (↑l.toFinset : Set α).ncard :=
        Set.ncard_le_ncard hsubset l.toFinset.finite_toSet
    _ = l.toFinset.card := Set.ncard_coe_finset _
    _ ≤ l.length := l.toFinset_card_le

/-- A relation that is found is one of the store. -/
theorem mem_relations_of_find? {n : RelationName} {relation : Relation}
    (h : s.find? n = some relation) : (n, relation) ∈ s.relations :=
  mem_of_lookup_eq_some h

/-- What each relation holds is no more than what the store holds. -/
theorem length_flatMap_le_size {α : Type} (f : RelationName × Relation → List α)
    (hf : ∀ e, (f e).length ≤ e.2.size) : (s.relations.flatMap f).length ≤ s.size := by
  rw [size]
  generalize s.relations = relations
  induction relations with
  | nil => exact Nat.le_refl _
  | cons e rest ih =>
    rw [List.flatMap_cons, List.length_append, List.foldr_cons]
    exact Nat.add_le_add (hf e) ih

/-- The rows that a relation holds. -/
def rowsOf : RelationName × Relation → List Row
  | (.entity t, .records _ rows) => rows.map fun record => .ofId t record.id
  | _ => []

/-- The directed joins that a relation holds. -/
def edgesOf : RelationName × Relation → List (Row × Row)
  | (.directed a b, .pairs _ _ rows) => rows.map fun pair => (⟨a, pair.1⟩, ⟨b, pair.2⟩)
  | _ => []

/-- There are finitely many rows, no more than the store holds. -/
theorem rowSet_finite_and_le (s : Store) : s.rowSet.Finite ∧ s.rowSet.ncard ≤ s.size := by
  have hmem : ∀ r ∈ s.rowSet, r ∈ s.relations.flatMap rowsOf := by
    rintro r ⟨record, hrecord, hid⟩
    unfold rows at hrecord
    split at hrecord
    · next columns rows hfound =>
      refine List.mem_flatMap.mpr ⟨_, mem_relations_of_find? hfound, List.mem_map.mpr
        ⟨record, hrecord, ?_⟩⟩
      rw [Row.ofId, ← hid]
    · exact absurd hrecord List.not_mem_nil
  refine (finite_and_ncard_le hmem).imp_right fun hle => hle.trans (length_flatMap_le_size _ ?_)
  rintro ⟨n, relation⟩
  cases n <;> cases relation <;> simp [rowsOf, Relation.size]

/-- There are finitely many directed joins, no more than the store holds. -/
theorem aboveSet_finite_and_le (s : Store) : s.aboveSet.Finite ∧ s.aboveSet.ncard ≤ s.size := by
  have hmem : ∀ e ∈ s.aboveSet, e ∈ s.relations.flatMap edgesOf := by
    rintro ⟨p, c⟩ ⟨-, hpair⟩
    unfold pairsOf at hpair
    split at hpair
    · next first second rows hfound =>
      exact List.mem_flatMap.mpr ⟨_, mem_relations_of_find? hfound, List.mem_map.mpr
        ⟨_, hpair, rfl⟩⟩
    · exact absurd hpair List.not_mem_nil
  refine (finite_and_ncard_le hmem).imp_right fun hle => hle.trans (length_flatMap_le_size _ ?_)
  rintro ⟨n, relation⟩
  cases n <;> cases relation <;> simp [edgesOf, Relation.size]

/-- The rows below a row exist. -/
theorem belowSet_subset_rowSet : s.belowSet r ⊆ s.rowSet := by
  intro c hc
  obtain ⟨p, -, hpc⟩ := Relation.TransGen.tail'_iff.mp hc
  exact hpc.has

/-- A deletion goes no deeper than the size of the store allows. -/
theorem need_le_size (s : Store) (r : Row) : s.need r ≤ (s.size + 1) * (s.size + 1) := by
  obtain ⟨hfinite, hrows⟩ := s.rowSet_finite_and_le
  have habove := s.aboveSet_finite_and_le.2
  have hbelow := Set.ncard_le_ncard (belowSet_subset_rowSet (r := r)) hfinite
  calc s.need r ≤ s.aboveSet.ncard * (s.rowSet.ncard + 1) + (s.rowSet.ncard + 1) := by
        rw [need]
        omega
    _ = (s.aboveSet.ncard + 1) * (s.rowSet.ncard + 1) := (Nat.add_one_mul _ _).symm
    _ ≤ (s.size + 1) * (s.size + 1) := by gcongr

/-! ### Steps down -/

section Within

variable (h : s'.Within s)

include h

/-- With fewer records there are fewer rows. -/
theorem Within.ncard_rowSet_le : s'.rowSet.ncard ≤ s.rowSet.ncard :=
  Set.ncard_le_ncard (fun _ hr => h.has hr) s.rowSet_finite_and_le.1

/-- With fewer pairs there are fewer directed joins. -/
theorem Within.ncard_aboveSet_le : s'.aboveSet.ncard ≤ s.aboveSet.ncard :=
  Set.ncard_le_ncard (fun _ he => h.isAbove he) s.aboveSet_finite_and_le.1

theorem Within.belowSet_subset : s'.belowSet r ⊆ s.belowSet r :=
  fun c hc => Relation.TransGen.mono (fun _ _ hpc => h.isParent hpc) r c hc

/-- With fewer records and pairs the need is no larger. -/
theorem Within.need_le : s'.need r ≤ s.need r := by
  have hrows := h.ncard_rowSet_le
  have habove := h.ncard_aboveSet_le
  have hbelow := Set.ncard_le_ncard (h.belowSet_subset (r := r))
    (s.rowSet_finite_and_le.1.subset belowSet_subset_rowSet)
  unfold need
  gcongr

/-- A step to a child makes the need smaller. -/
theorem Within.need_lt_of_isParent (hacyclic : ∀ q, ¬ Relation.TransGen s.IsParent q q)
    (hpc : s.IsParent p c) : s'.need c < s.need p := by
  have hbelow : s'.belowSet c ⊂ s.belowSet p := by
    refine Set.ssubset_iff_of_subset (fun d hd => .head hpc (h.belowSet_subset hd)) |>.mpr ?_
    -- The child is no row below itself, so it makes the difference.
    exact ⟨c, .single hpc, fun hcycle => hacyclic c (h.belowSet_subset hcycle)⟩
  have hlt := Set.ncard_lt_ncard hbelow
    (s.rowSet_finite_and_le.1.subset belowSet_subset_rowSet)
  have hrows := h.ncard_rowSet_le
  have habove := h.ncard_aboveSet_le
  -- Within the same number of join records the rows below decide.
  calc s'.need c ≤ s.aboveSet.ncard * (s.rowSet.ncard + 1) + (s'.belowSet c).ncard + 1 := by
        unfold need
        gcongr
    _ < s.need p := by
        unfold need
        omega

/-- Once a directed join is removed, the need of every row is smaller. -/
theorem Within.need_lt_of_not_isAbove (hpc : s.IsAbove p c) (hgone : ¬ s'.IsAbove p c) :
    s'.need q < s.need r := by
  have habove : s'.aboveSet.ncard < s.aboveSet.ncard := by
    refine Set.ncard_lt_ncard (Set.ssubset_iff_of_subset (fun _ he => h.isAbove he) |>.mpr ?_)
      s.aboveSet_finite_and_le.1
    exact ⟨(p, c), hpc, hgone⟩
  have hbelow : (s'.belowSet q).ncard ≤ s.rowSet.ncard :=
    (Set.ncard_le_ncard belowSet_subset_rowSet s'.rowSet_finite_and_le.1).trans h.ncard_rowSet_le
  have hrows := h.ncard_rowSet_le
  -- One join record less outweighs all rows that may be below.
  calc s'.need q ≤ s'.aboveSet.ncard * (s.rowSet.ncard + 1) + (s.rowSet.ncard + 1) := by
        rw [need, Nat.add_assoc]
        gcongr
    _ = (s'.aboveSet.ncard + 1) * (s.rowSet.ncard + 1) := (Nat.add_one_mul _ _).symm
    _ ≤ s.aboveSet.ncard * (s.rowSet.ncard + 1) := by gcongr; exact habove
    _ < s.need r := by
        unfold need
        omega

end Within

end Store

end SoarProject
