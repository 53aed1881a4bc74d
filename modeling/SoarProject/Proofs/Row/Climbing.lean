import SoarProject.Proofs.Row.Descendants
import SoarProject.Proofs.Row.Joining
import SoarProject.Row.Ancestors

/-!
# The way up from a row

From a row the way up leads to its structural parent; from a node of a datamap without one it leads to the
first row that it is joined below. A walk up ends at the first row of the table that it looks for, and finds
nothing if it comes back to a row. No walk meets more rows than there are, so that the bound on its steps
never matters.

* `Store.IsNext`, `Store.Climbs`: one step up, and a walk up that meets no row twice.
* `Row.finds_ancestorRow`: the ancestor that is found is the end of such a walk.
* `Store.SameNodes.climbs`: undirected joins do not matter for a walk.
-/

namespace SoarProject

open Registry

variable {st st' st'' : Store} {r p c q : Row} {t u : Table} {id : Int} {visited : List Row}

namespace Store

/-! ### Walks -/

/-- The next row on the way up. -/
def IsNext (st : Store) (r q : Row) : Prop :=
  st.IsParent q r ∨
    (∀ p, ¬ st.IsParent p r) ∧ r.table.isDatamap = true ∧ (st.joinedParents r).head? = some q

/-- The walk up from a row, past no row that was visited, ends at the row `q` of a table. -/
inductive Climbs (st : Store) (t : Table) : List Row → Row → Row → Prop
  | here {visited : List Row} {r : Row} : r ∉ visited → r.table = t → Climbs st t visited r r
  | up {visited : List Row} {r p q : Row} : r ∉ visited → r.table ≠ t → st.IsNext r p →
    Climbs st t (r :: visited) p q → Climbs st t visited r q

/-- A row has one next row. -/
theorem Integral.isNext_unique (h : st.Integral) (hp : st.IsNext r p) (hq : st.IsNext r q) :
    p = q := by
  rcases hp with hp | ⟨hnone, -, hp⟩
  · rcases hq with hq | ⟨hnone, -, -⟩
    · exact h.isParent_unique hp hq
    · exact absurd hp (hnone p)
  · rcases hq with hq | ⟨-, -, hq⟩
    · exact absurd hq (hnone q)
    · exact Option.some.inj (hp.symm.trans hq)

/-- The next row of an existing row exists. -/
theorem Sound.has_of_isNext (h : st.Sound) (hr : st.Has r) (hnext : st.IsNext r q) : st.Has q := by
  rcases hnext with hparent | ⟨-, -, hhead⟩
  · exact h.has_of_isParent hparent
  · obtain ⟨id, hid⟩ := hr.exists_id
    have hmem := List.mem_of_mem_head? hhead
    rw [hid] at hmem
    exact (h.has_of_isAbove (h.mem_joinedParents_iff.mp hmem)).1

/-- A walk up from an existing row ends at an existing row. -/
theorem Sound.has_of_climbs (h : st.Sound) (hr : st.Has r) (hclimbs : st.Climbs t visited r q) :
    st.Has q := by
  induction hclimbs with
  | here => exact hr
  | up _ _ hnext _ ih => exact ih (h.has_of_isNext hr hnext)

/-- The existing rows that a walk may still meet. -/
def unvisited (st : Store) (visited : List Row) : Set Row := {r | st.Has r ∧ r ∉ visited}

/-- There are finitely many of them, no more than the store holds. -/
theorem unvisited_finite_and_le (st : Store) (visited : List Row) :
    (st.unvisited visited).Finite ∧ (st.unvisited visited).ncard ≤ st.size := by
  obtain ⟨hfinite, hle⟩ := st.rowSet_finite_and_le
  have hsubset : st.unvisited visited ⊆ st.rowSet := fun r hr => hr.1
  exact ⟨hfinite.subset hsubset, (Set.ncard_le_ncard hsubset hfinite).trans hle⟩

/-- With each row that is visited there are fewer. -/
theorem ncard_unvisited_cons_lt (hr : st.Has r) (hnew : r ∉ visited) :
    (st.unvisited (r :: visited)).ncard < (st.unvisited visited).ncard := by
  have hsubset : st.unvisited (r :: visited) ⊆ st.unvisited visited := fun q hq =>
    ⟨hq.1, fun hmem => hq.2 (List.mem_cons_of_mem _ hmem)⟩
  refine Set.ncard_lt_ncard ((Set.ssubset_iff_of_subset hsubset).mpr ⟨r, ⟨hr, hnew⟩, fun hmem => ?_⟩)
    (st.unvisited_finite_and_le visited).1
  exact hmem.2 List.mem_cons_self

/-! ### Undirected joins -/

/-- Two stores differ at most in undirected joins. -/
structure SameNodes (st st' : Store) : Prop where
  rows_eq : ∀ t, st'.rows t = st.rows t
  directed_eq : ∀ a b, st'.pairsOf (.directed a b) = st.pairsOf (.directed a b)

namespace SameNodes

theorem refl (st : Store) : st.SameNodes st := ⟨fun _ => rfl, fun _ _ => rfl⟩

theorem symm (h : st.SameNodes st') : st'.SameNodes st :=
  ⟨fun t => (h.rows_eq t).symm, fun a b => (h.directed_eq a b).symm⟩

theorem trans (h : st.SameNodes st') (h' : st'.SameNodes st'') : st.SameNodes st'' :=
  ⟨fun t => (h'.rows_eq t).trans (h.rows_eq t),
    fun a b => (h'.directed_eq a b).trans (h.directed_eq a b)⟩

variable (h : st.SameNodes st')

include h

/-- The parents are the same. -/
theorem isParent_iff : st'.IsParent p c ↔ st.IsParent p c := by simp only [IsParent, h.rows_eq]

/-- The directed joins are the same. -/
theorem isAbove_iff : st'.IsAbove p c ↔ st.IsAbove p c := by simp only [IsAbove, h.directed_eq]

theorem childrenIn_eq : st'.childrenIn r t = st.childrenIn r t := by
  simp only [childrenIn, h.rows_eq]

theorem joinedParents_eq : st'.joinedParents r = st.joinedParents r := by
  simp only [joinedParents, h.directed_eq]

/-- The next row is the same. -/
theorem isNext_iff : st'.IsNext r q ↔ st.IsNext r q := by
  simp only [IsNext, h.isParent_iff, h.joinedParents_eq]

/-- A walk up is one in the other store too. -/
theorem climbs (hclimbs : st.Climbs t visited r q) : st'.Climbs t visited r q := by
  induction hclimbs with
  | here hnew htable => exact .here hnew htable
  | up hnew htable hnext _ ih => exact .up hnew htable (h.isNext_iff.mpr hnext) ih

end SameNodes

/-- A pair of an undirected join makes no other difference. -/
theorem Joins.sameNodes {a b : Table} {pair : CellPair} (h : st.Joins st' (.join a b) pair) :
    st.SameNodes st' where
  rows_eq := h.rows_eq
  directed_eq a b := by rw [pairsOf, pairsOf, h.other _ (by simp)]

end Store

namespace Row

/-! ### What is found -/

/-- The next row on the way up is found. -/
theorem finds_next? (h : st.Integral) (hr : st.Has r) :
    r.next?.Finds st st.Fits (fun found => ∀ q, found = some q ↔ st.IsNext r q) := by
  obtain ⟨id, hid⟩ := hr.exists_id
  have hparents : r.parentRows.Finds st st.Fits (fun parents => ∀ p, p ∈ parents ↔ st.IsParent p r) := by
    rw [hid]
    exact (finds_parentRows h.toSound).mono_sure fun hfits => ⟨hfits, hid ▸ hfits.row hr⟩
  unfold next?
  refine hparents.bind fun parents hparents => ?_
  match parents, hparents with
  -- A parent by key is taken before a directed join is asked for.
  | p :: rest, hparents =>
    have hp := (hparents p).mp List.mem_cons_self
    refine Query.Finds.pure fun q => ⟨?_, fun hnext => ?_⟩
    · rintro ⟨⟩
      exact .inl hp
    · rw [h.isNext_unique (.inl hp) hnext]
  | [], hparents =>
    have hnone : ∀ p, ¬ st.IsParent p r := fun p hp => List.not_mem_nil ((hparents p).mpr hp)
    dsimp only
    -- Without such a parent, only a row of the datamap goes on by a directed join.
    cases hdatamap : r.table.isDatamap with
    | true =>
      refine ((finds_parentJoinedRows h.toSound).mono_sure fun hfits => hfits.row hr).bind ?_
      rintro _ rfl
      refine Query.Finds.pure fun q => ⟨fun hhead => .inr ⟨hnone, hdatamap, hhead⟩, ?_⟩
      rintro (hq | ⟨-, -, hhead⟩)
      · exact absurd hq (hnone q)
      · exact hhead
    | false =>
      refine Query.Finds.pure fun q => ⟨nofun, ?_⟩
      rintro (hq | ⟨-, htable, -⟩)
      · exact absurd hq (hnone q)
      · exact absurd (hdatamap.symm.trans htable) Bool.false_ne_true

/-- What a bounded walk finds is where a walk ends; with one step more than there are rows it finds the
end of every walk. -/
theorem finds_climbTo (h : st.Integral) {fuel : Nat} (hr : st.Has r) :
    (climbTo t fuel visited r).Finds st st.Fits (fun found =>
      (∀ q, found = some q → st.Climbs t visited r q) ∧
        ((st.unvisited visited).ncard < fuel → ∀ q, st.Climbs t visited r q → found = some q)) := by
  induction fuel generalizing visited r with
  | zero => exact Query.Finds.pure ⟨nofun, fun hfuel => by omega⟩
  | succ fuel ih =>
    rw [climbTo]
    split
    · next hold =>
      refine Query.Finds.pure ⟨nofun, fun _ q hclimbs => ?_⟩
      cases hclimbs with
      | here hnew _ => exact absurd hold hnew
      | up hnew _ _ _ => exact absurd hold hnew
    · next hnew =>
      -- By the cases of a climb: here already, no way on, or one step up.
      split
      · next htable =>
        refine Query.Finds.pure ⟨fun q hq => ?_, fun _ q hclimbs => ?_⟩
        · cases hq
          exact .here hnew htable
        · cases hclimbs with
          | here _ _ => rfl
          | up _ hother _ _ => exact absurd htable hother
      · next hother =>
        refine (finds_next? h hr).bind fun next hnext => ?_
        match next, hnext with
        | none, hnext =>
          refine Query.Finds.pure ⟨nofun, fun _ q hclimbs => ?_⟩
          cases hclimbs with
          | here _ htable => exact absurd htable hother
          | up _ _ hp _ => exact absurd ((hnext _).mpr hp) (by simp)
        | some p, hnext =>
          have hp := (hnext p).mp rfl
          have hless := Store.ncard_unvisited_cons_lt hr hnew
          -- The row just visited is one more that the rest of the climb has to avoid.
          refine (ih (h.has_of_isNext hr hp)).mono fun found hfound =>
            ⟨fun q hq => .up hnew hother hp (hfound.1 q hq), fun hfuel q hclimbs => ?_⟩
          cases hclimbs with
          | here _ htable => exact absurd htable hother
          | up _ _ hp' hrest =>
            rw [← h.isNext_unique hp hp'] at hrest
            exact hfound.2 (by omega) q hrest

/-- The first row of a table on the way up is found. -/
theorem finds_ancestorRow (h : st.Integral) (hr : st.Has r) :
    (r.ancestorRow t).Finds st st.Fits (fun found => ∀ q, found = some q ↔ st.Climbs t [] r q) := by
  unfold ancestorRow
  refine Query.Finds.read fun w s hs => ?_
  dsimp only
  rw [hs.size_eq]
  have hle := (st.unvisited_finite_and_le []).2
  exact (finds_climbTo h hr).mono fun found hfound q => ⟨hfound.1 q, hfound.2 (by omega) q⟩

end Row

end SoarProject
