import SoarProject.Proofs.Row.Descendants
import SoarProject.Proofs.Row.Update

/-!
# What can be reached from a row

Columns of a row may be given any values, keys included: keys may then go round in a circle, a row may have
several of them, or they may name rows that do not exist. The descendants of a row are nevertheless found, and
are exactly the rows that can be reached from it.

* `View.ends_updateAll_ordered`: giving columns any values leaves records in the order of their ids.
* `Store.InSubtrees`: rows that are listed subtree by subtree.
* `Row.descendants_exact`: the walk below a row ends, with the rows of a table that can be reached, in order.
-/

namespace SoarProject

open Registry

variable {st : Store} {u t : Table} {id : Int}

/-- Giving columns of a row any values leaves the ids of all records, and their order. -/
theorem View.ends_updateAll_ordered {w : Bool} {v : View} (h : st.Ordered) (columns : List String)
    (values : List Value) :
    (v.updateAll columns values).Ends w st
      (fun _ st' => st'.Ordered ∧ ∀ t, (st'.rows t).map (·.id) = (st.rows t).map (·.id))
      (fun st' => st' = st) := by
  refine View.ends_updateAll (fun _ => ⟨h, fun _ => rfl⟩) (fun prepared st' hprepared hupdated => ?_)
    fun _ => rfl
  -- The update maps the records of one table and keeps their ids.
  obtain ⟨f, rfl, hid, -⟩ := h.shaped.exists_map_of_updateRecord hprepared hupdated
  refine ⟨h.mapRows f fun record _ => (hid record).1, fun t => ?_⟩
  rw [h.shaped.rows_setRows]
  split
  · next ht =>
    rw [ht, List.map_map]
    exact List.map_congr_left fun record _ => (hid record).1
  · rfl

/-- A list of rows of a table for each row, subtree by subtree: those of the children come table by table in
the order of declaration, and by ascending ids of the children within a table, each child behind its subtree. -/
structure Store.InSubtrees (st : Store) (t : Table) (tree : Row → List Row) : Prop where
  eq_flatMap : ∀ r, tree r = (project.childrenOf r.table).flatMap fun u =>
    (st.childrenIn r u).flatMap fun c => tree c ++ if u = t then [c] else []
  ids_ascend : ∀ r u, (st.childrenIn r u).Pairwise fun c d =>
    ∃ i j : Int, c = .ofId u i ∧ d = .ofId u j ∧ i < j

/-- Without cycles, descendants come subtree by subtree. -/
theorem Store.Ordered.inSubtrees (h : st.Ordered) (hacyclic : ∀ q, ¬ Relation.TransGen st.IsChild q q)
    (t : Table) : st.InSubtrees t (st.descendantsIn · t) where
  eq_flatMap r := by
    rw [Store.descendantsIn_eq hacyclic, Store.children, List.flatMap_assoc]
    refine List.flatMap_congr fun u _ => List.flatMap_congr fun c hc => ?_
    rw [Store.table_of_mem_childrenIn hc]
  ids_ascend r u := by
    unfold Store.childrenIn
    split
    · exact List.pairwise_map.mpr (((h.ids_ascend u).filter _).imp fun hlt => ⟨_, _, rfl, rfl, hlt⟩)
    · exact List.Pairwise.nil

/-- Whatever keys name, the walk below a row ends, and the descendants in a table are found. They are the
other rows of the table that can be reached through children, each of them once. Where keys do not go round in
a circle, each row comes behind its own descendants, and where records also have one key at most, they come
subtree by subtree. -/
theorem Row.descendants_exact (h : st.Ordered) (hfits : st.Fits) (hid : fitsInteger id = true)
    (u t : Table) :
    ∃ walk : Walk, walk.stack = [] ∧
      (∀ w s, s.Opens w st → ((Row.ofId u id).walkBelow t).run s = .ok walk ∧
        ((Row.ofId u id).descendants t).run s = .ok walk.found) ∧
      walk.found.Nodup ∧
      (∀ q, q ∈ walk.found ↔
        q.table = t ∧ q ≠ .ofId u id ∧ Relation.TransGen st.IsChild (.ofId u id) q) ∧
      ((∀ q, ¬ Relation.TransGen st.IsChild q q) →
        (walk.found.Pairwise fun p q => ¬ Relation.TransGen st.IsChild p q) ∧
        (st.OneKey → ∃ tree, st.InSubtrees t tree ∧ walk.found = tree (.ofId u id))) := by
  obtain ⟨post, seen, hvisits, hwalk⟩ := exists_finds_walkBelow h (.ofId u id) t
  have hsure : st.Fits ∧ (Row.ofId u id).Fits := ⟨hfits, fun i hi => Cell.int.inj hi ▸ hid⟩
  refine ⟨⟨[], seen, post.filter (·.table = t)⟩, rfl, fun w s hs => ?_, hvisits.nodup.filter _,
    fun q => ?_, fun hacyclic => ⟨?_, fun hone => ?_⟩⟩
  · have hrun : ((Row.ofId u id).walkBelow t).run s = .ok ⟨[], seen, post.filter (·.table = t)⟩ := by
      have hfound := hwalk w s hs
      split at hfound
      · next heq => rw [heq, hfound]
      · exact absurd hsure hfound
    refine ⟨hrun, ?_⟩
    change (((Row.ofId u id).walkBelow t).run s >>= fun walk => .ok walk.found) = _
    rw [hrun]
    rfl
  · -- The walk visits exactly what is reachable, and the table is filtered afterwards.
    rw [List.mem_filter, hvisits.mem_iff, Store.link_children, decide_eq_true_iff]
    tauto
  · rw [← Store.link_children] at hacyclic ⊢
    exact (hvisits.pairwise hacyclic).filter _
  · -- With one key to each row there are no shared subtrees, so the order is that of the subtrees.
    refine ⟨(st.descendantsIn · t), h.inSubtrees hacyclic t, ?_⟩
    exact h.filter_eq_descendantsIn hone hacyclic ⟨id, rfl⟩ hvisits t

/-- Conditions and positive conditions whose keys go round in a circle, and one of which has two keys. -/
def Store.knot : Store :=
  (blank.setRows .conditions
      [⟨1, [(Table.rules.idName, .int 7), (Table.positiveConditions.idName, .int 1)]⟩]).setRows
    .positiveConditions
    [⟨1, [(Table.conditions.idName, .int 1)]⟩, ⟨2, [(Table.conditions.idName, .int 1)]⟩]

/-- The rows of the knot. -/
theorem Store.rows_knot : knot.rows t =
    if t = .positiveConditions then
      [⟨1, [(Table.conditions.idName, .int 1)]⟩, ⟨2, [(Table.conditions.idName, .int 1)]⟩]
    else if t = .conditions then
      [⟨1, [(Table.rules.idName, .int 7), (Table.positiveConditions.idName, .int 1)]⟩]
    else [] := by
  have hshaped := integral_blank.shaped
  rw [knot, (hshaped.setRows _).rows_setRows, hshaped.rows_setRows, rows_blank]

/-- Both positive conditions are found below the condition that one of them holds. -/
theorem Row.descendants_exact_knot : Relation.TransGen Store.knot.IsChild
      (.ofId .conditions 1) (.ofId .conditions 1) ∧
    ∃ rows, ((Row.ofId .conditions 1).descendants .positiveConditions).run
        { registry := project, connection := .memory Store.knot } = .ok rows ∧
      ∀ q, q ∈ rows ↔ q = .ofId .positiveConditions 1 ∨ q = .ofId .positiveConditions 2 := by
  -- The store is ordered although a condition is below itself.
  have hordered : Store.knot.Ordered := by
    refine ⟨(Store.integral_blank.shaped.setRows _).setRows _, fun t => ?_⟩
    rw [Store.rows_knot]
    split
    · decide
    · split <;> simp
  have hfits : Store.knot.Fits := by
    intro t record hrecord
    rw [Store.rows_knot] at hrecord
    split at hrecord
    · rcases List.mem_pair.mp hrecord with rfl | rfl <;> rfl
    · split at hrecord
      · rw [List.mem_singleton.mp hrecord]
        rfl
      · exact absurd hrecord List.not_mem_nil
  have hfirst : Store.knot.IsChild (.ofId .conditions 1) (.ofId .positiveConditions 1) :=
    ⟨by decide, ⟨1, [(Table.conditions.idName, .int 1)]⟩, by simp [Store.rows_knot], rfl, by decide⟩
  have hsecond : Store.knot.IsChild (.ofId .conditions 1) (.ofId .positiveConditions 2) :=
    ⟨by decide, ⟨2, [(Table.conditions.idName, .int 1)]⟩, by simp [Store.rows_knot], rfl, by decide⟩
  have hback : Store.knot.IsChild (.ofId .positiveConditions 1) (.ofId .conditions 1) :=
    ⟨by decide, ⟨1, [(Table.rules.idName, .int 7), (Table.positiveConditions.idName, .int 1)]⟩,
      by simp [Store.rows_knot], rfl, by decide⟩
  have hid : fitsInteger 1 = true := by decide
  obtain ⟨walk, -, hruns, -, hmem, -⟩ :=
    Row.descendants_exact hordered hfits hid .conditions .positiveConditions
  refine ⟨.tail (.single hfirst) hback, walk.found, (hruns true _ ⟨rfl, rfl, rfl⟩).2, fun q => ?_⟩
  rw [hmem]
  constructor
  · -- The table has two records, and both are below the condition.
    rintro ⟨htable, -, hbelow⟩
    obtain ⟨p, -, hpq⟩ := Relation.TransGen.tail'_iff.mp hbelow
    obtain ⟨record, hrecord, hid⟩ := hpq.has
    obtain ⟨table, key⟩ := q
    obtain rfl : table = .positiveConditions := htable
    rw [Store.rows_knot, if_pos rfl] at hrecord
    rcases List.mem_pair.mp hrecord with rfl | rfl
    · exact .inl (congrArg _ hid)
    · exact .inr (congrArg _ hid)
  · rintro (rfl | rfl)
    · exact ⟨rfl, by decide, .single hfirst⟩
    · exact ⟨rfl, by decide, .single hsecond⟩

end SoarProject
