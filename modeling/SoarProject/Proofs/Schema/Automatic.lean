import SoarProject.Proofs.Schema.Registry
import SoarProject.Proofs.Store.Size
import SoarProject.Row.Creation

/-!
# Automatic children of a registry

Which tables get rows when a row is created. A new row gets a child for each automatic table of its own
table, and this child gets its own ones, so the declarations must not lead back to a table. Whether an
automatic table is also declared as a child table is another matter.

* `Registry.AcyclicBelow`: automatic children of a table do not lead back to a table.
* `Registry.AcyclicBelow.ncard_lt`: then each step down leaves fewer tables.
* `Registry.AcyclicBelow.treeSize_eq`: the number of rows that are created with one.
* `Registry.DeclaredBelow`: every automatic table is a child table of the one that it is automatic for.
-/

namespace SoarProject

namespace Registry

variable {r : Registry} {t u a : Table} {depth depth' : Nat}

/-- A row of one table gets a child in the other one. -/
def Spawns (r : Registry) (t a : Table) : Prop := a ∈ r.automaticChildrenOf t

/-- Automatic children that follow on a table never lead back to a table. -/
def AcyclicBelow (r : Registry) (t : Table) : Prop :=
  ∀ u, Relation.ReflTransGen r.Spawns t u → ¬ Relation.TransGen r.Spawns u u

/-- The automatic children that follow on a table are declared as children. -/
def DeclaredBelow (r : Registry) (t : Table) : Prop :=
  ∀ u, Relation.ReflTransGen r.Spawns t u → ∀ a ∈ r.automaticChildrenOf u, a ∈ r.childrenOf u

/-- The tables that follow on a table, itself among them. -/
def tablesBelow (r : Registry) (t : Table) : Set Table := {u | Relation.ReflTransGen r.Spawns t u}

/-- The number of rows that are created with one in a table, down to some depth. -/
def treeSizeWithin (r : Registry) : Nat → Table → Nat
  | 0, _ => 1
  | depth + 1, t => 1 + ((r.automaticChildrenOf t).map (r.treeSizeWithin depth)).sum

/-- The number of rows that are created with one in a table. -/
def treeSize (r : Registry) (t : Table) : Nat := r.treeSizeWithin Row.automaticDepth t

/-- Only finitely many tables follow on a table. -/
theorem tablesBelow_finite_and_le (t : Table) :
    (r.tablesBelow t).Finite ∧ (r.tablesBelow t).ncard ≤ Table.all.length :=
  Store.finite_and_ncard_le fun u _ => Table.mem_all u

/-- A table follows on itself. -/
theorem ncard_tablesBelow_pos (t : Table) : 0 < (r.tablesBelow t).ncard :=
  (Set.ncard_pos (tablesBelow_finite_and_le t).1).mpr ⟨t, Relation.ReflTransGen.refl⟩

namespace AcyclicBelow

/-- What follows on a table that follows does not lead back either. -/
theorem of_spawns (h : r.AcyclicBelow t) (ha : r.Spawns t a) : r.AcyclicBelow a :=
  fun u hu => h u (.head ha hu)

/-- Fewer tables follow on a table than on the one that it follows on. -/
theorem ncard_lt (h : r.AcyclicBelow t) (ha : r.Spawns t a) :
    (r.tablesBelow a).ncard < (r.tablesBelow t).ncard := by
  have hsubset : r.tablesBelow a ⊆ r.tablesBelow t := fun u hu => Relation.ReflTransGen.head ha hu
  refine Set.ncard_lt_ncard ?_ (tablesBelow_finite_and_le t).1
  refine (Set.ssubset_iff_of_subset hsubset).mpr ⟨t, Relation.ReflTransGen.refl, fun hat => ?_⟩
  exact h t .refl (Relation.TransGen.head' ha hat)

/-- The depth does not matter where it is large enough. -/
theorem treeSizeWithin_eq (h : r.AcyclicBelow t) (hdepth : (r.tablesBelow t).ncard ≤ depth)
    (hdepth' : (r.tablesBelow t).ncard ≤ depth') :
    r.treeSizeWithin depth t = r.treeSizeWithin depth' t := by
  have hpos := r.ncard_tablesBelow_pos t
  induction depth generalizing t depth' with
  | zero => omega
  | succ depth ih =>
    obtain ⟨depth', rfl⟩ : ∃ k, depth' = k + 1 := Nat.exists_eq_add_one.mpr (by omega)
    rw [treeSizeWithin, treeSizeWithin]
    refine congrArg (1 + List.sum ·) (List.map_congr_left fun a ha => ?_)
    have hlt := h.ncard_lt ha
    exact ih (h.of_spawns ha) (by omega) (by omega) (r.ncard_tablesBelow_pos a)

/-- One row is created, and those that follow on it. -/
theorem treeSize_eq (h : r.AcyclicBelow t) :
    r.treeSize t = 1 + ((r.automaticChildrenOf t).map r.treeSize).sum := by
  rw [treeSize, Row.automaticDepth, treeSizeWithin]
  refine congrArg (1 + List.sum ·) (List.map_congr_left fun a ha => ?_)
  have hlt := h.ncard_lt ha
  have hle := (r.tablesBelow_finite_and_le t).2
  exact (h.of_spawns ha).treeSizeWithin_eq (by omega) (by rw [Row.automaticDepth]; omega)

end AcyclicBelow

/-- Where each row is of higher rank than its automatic children, nothing leads back to a table. -/
theorem acyclicBelow_of_rank {rank : Table → Nat} (h : ∀ t a, r.Spawns t a → rank a < rank t) (t : Table) :
    r.AcyclicBelow t := by
  have hlt : ∀ {u b}, Relation.TransGen r.Spawns u b → rank b < rank u := by
    intro u b hub
    induction hub with
    | single hstep => exact h _ _ hstep
    | tail _ hstep ih => exact (h _ _ hstep).trans ih
  exact fun u _ hcycle => (hlt hcycle).false

end Registry

end SoarProject
