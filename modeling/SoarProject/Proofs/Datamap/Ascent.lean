import SoarProject.Proofs.Datamap.Tree
import SoarProject.Proofs.Row.Deletion

/-!
# The way up in a datamap

A node of a datamap may be joined below many others, and nodes may be joined below each other in a circle. Both
walks up from a node take one parent at each step: the structural one, or else the first that the node is joined
below. The walk to a problem space is the only one that these steps make; it says nothing of other parents. The
walk along directed joins that collects names ends at a row from which the names lead back down to the node.

* `Store.climbs_iff`: a walk to a table is a chain of next rows; that no row may come twice does not matter.
* `Store.Tops`, `Store.Descends`: where the walk along first directed parents ends, and chains of named nodes.
* `Row.finds_pathAttributes`: from the end of that walk, the path attributes of a node lead down to it.
* `Store.Climbs.exists_root`: a walk from a node to a problem space comes through the root of a datamap.
-/

namespace SoarProject

open Registry

variable {st : Store} {r p c q top root space : Row} {t : Table} {visited : List Row} {names : List String}
  {name : String}

namespace Store

/-! ### Chains of next rows -/

/-- The next row of a row that is not yet in a table. -/
def IsNextBefore (st : Store) (t : Table) (r q : Row) : Prop := r.table ≠ t ∧ st.IsNext r q

/-- Where the next rows lead in a circle, they lead nowhere else. -/
theorem Integral.transGen_self_of_isNextBefore (h : st.Integral)
    (hcircle : Relation.TransGen (st.IsNextBefore t) r r)
    (hchain : Relation.ReflTransGen (st.IsNextBefore t) r q) :
    Relation.TransGen (st.IsNextBefore t) q q := by
  induction hchain with
  | refl => exact hcircle
  | tail _ hstep ih =>
    obtain ⟨d, hd, hback⟩ := Relation.TransGen.head'_iff.mp ih
    obtain rfl := h.isNext_unique hd.2 hstep.2
    exact .tail' hback hstep

/-- A chain of next rows to a row of a table is a walk, where the visited rows are those before it. -/
theorem Integral.climbs_of_chain (h : st.Integral) (hq : q.table = t)
    (hchain : Relation.ReflTransGen (st.IsNextBefore t) r q)
    (hvisited : ∀ x ∈ visited, Relation.TransGen (st.IsNextBefore t) x r) :
    st.Climbs t visited r q := by
  -- A row that comes again is on a circle, which would go on from the row of the table.
  have hnew : r ∉ visited := by
    intro hmem
    have hcircle := h.transGen_self_of_isNextBefore (hvisited r hmem) hchain
    obtain ⟨d, hd, -⟩ := Relation.TransGen.head'_iff.mp hcircle
    exact hd.1 hq
  induction hchain using Relation.ReflTransGen.head_induction_on generalizing visited with
  | refl => exact .here hnew hq
  | @head r p hstep hrest ih =>
    have hbefore : ∀ x ∈ r :: visited, Relation.TransGen (st.IsNextBefore t) x p := by
      refine List.forall_mem_cons.mpr ⟨.single hstep, fun x hx => ?_⟩
      exact (hvisited x hx).tail hstep
    refine .up hnew hstep.1 hstep.2 (ih hbefore fun hmem => ?_)
    have hcircle := h.transGen_self_of_isNextBefore (hbefore p hmem) hrest
    obtain ⟨d, hd, -⟩ := Relation.TransGen.head'_iff.mp hcircle
    exact hd.1 hq

/-- A walk up goes along a chain of next rows. -/
theorem Climbs.chain (hclimbs : st.Climbs t visited r q) :
    q.table = t ∧ Relation.ReflTransGen (st.IsNextBefore t) r q := by
  induction hclimbs with
  | here _ htable => exact ⟨htable, .refl⟩
  | up _ hother hnext _ ih => exact ⟨ih.1, .head ⟨hother, hnext⟩ ih.2⟩

/-- A walk up is a chain of next rows that ends at the first row of the table. -/
theorem Integral.climbs_iff (h : st.Integral) :
    st.Climbs t [] r q ↔ q.table = t ∧ Relation.ReflTransGen (st.IsNextBefore t) r q :=
  ⟨Climbs.chain, fun ⟨hq, hchain⟩ =>
    h.climbs_of_chain hq hchain fun _ hx => absurd hx List.not_mem_nil⟩

/-- The next row is over a row. -/
theorem Sound.isOver_of_isNext (h : st.Sound) (hr : st.Has r) (hnext : st.IsNext r q) : st.IsOver q r := by
  rcases hnext with hparent | ⟨-, -, hhead⟩
  · exact .inl hparent
  · exact .inr ((h.mem_joinedParents_iff_of_has hr).mp (List.mem_of_mem_head? hhead))

/-- A walk up goes along parents. -/
theorem Sound.isOver_of_climbs (h : st.Sound) (hr : st.Has r) (hclimbs : st.Climbs t visited r q) :
    Relation.ReflTransGen st.IsOver q r := by
  induction hclimbs with
  | here => exact .refl
  | up _ _ hnext _ ih => exact (ih (h.has_of_isNext hr hnext)).tail (h.isOver_of_isNext hr hnext)

/-! ### The walk along directed joins -/

/-- The walk from a row along the first rows that rows are joined below, past no row that was visited, ends. -/
inductive Tops (st : Store) : List Row → Row → Row → Prop
  | old {visited : List Row} {r : Row} : r ∈ visited → Tops st visited r r
  | bare {visited : List Row} {r : Row} : r ∉ visited → st.joinedParents r = [] → Tops st visited r r
  | up {visited : List Row} {r p top : Row} : r ∉ visited → (st.joinedParents r).head? = some p →
    Tops st (r :: visited) p top → Tops st visited r top

/-- A chain of nodes with some names, each joined below the one before, leads from a row to another one. -/
inductive Descends (st : Store) : Row → List String → Row → Prop
  | nil {r : Row} : Descends st r [] r
  | snoc {r c q : Row} {names : List String} {name : String} :
    Descends st r names c → st.IsAbove c q → st.Named q name → Descends st r (names ++ [name]) q

/-- Without names, a chain leads nowhere else. -/
theorem descends_nil_iff : st.Descends r [] q ↔ q = r := by
  constructor
  · intro h
    generalize hnames : ([] : List String) = names at h
    cases h with
    | nil => rfl
    | snoc => simp at hnames
  · rintro rfl
    exact .nil

/-- The last node of a chain is joined below the one that the other names lead to. -/
theorem descends_concat_iff :
    st.Descends r (names ++ [name]) q ↔ ∃ c, st.Descends r names c ∧ st.IsAbove c q ∧ st.Named q name := by
  constructor
  · intro h
    generalize hnames : names ++ [name] = all at h
    cases h with
    | nil => simp at hnames
    | @snoc c _ front last hchain habove hnamed =>
      obtain ⟨rfl, hlast⟩ := List.append_inj' hnames rfl
      obtain rfl := List.singleton_inj.mp hlast
      exact ⟨c, hchain, habove, hnamed⟩
  · rintro ⟨c, hchain, habove, hnamed⟩
    exact .snoc hchain habove hnamed

/-- A walk along directed joins has one end. -/
theorem Tops.unique (h : st.Tops visited r top) (h' : st.Tops visited r q) : top = q := by
  -- Which of the three cases holds is settled by what was visited and by the parents of the row.
  induction h with
  | old hold =>
    cases h' with
    | old => rfl
    | bare => rfl
    | up hnew => exact absurd hold hnew
  | bare hnew hnone =>
    cases h' with
    | old => rfl
    | bare => rfl
    | up _ hhead => simp [hnone] at hhead
  | up hnew hhead _ ih =>
    cases h' with
    | old hold => exact absurd hold hnew
    | bare _ hnone => simp [hnone] at hhead
    | up _ hhead' hrest =>
      obtain rfl := Option.some.inj (hhead.symm.trans hhead')
      exact ih hrest

theorem Sound.joinedParents_eq_nil (h : st.Sound) (hr : st.Has r) (hnone : ∀ p, ¬ st.IsAbove p r) :
    st.joinedParents r = [] :=
  List.eq_nil_iff_forall_not_mem.mpr fun p hp => hnone p ((h.mem_joinedParents_iff_of_has hr).mp hp)

/-! ### Through the root -/

/-- Of the nodes of a datamap, only roots and values of enumerations have structural parents, and a parent of a
root is a problem space. -/
theorem isRoot_of_isParent (hc : c.table.isDatamap = true) (hvalue : c.table ≠ .datamapEnumerationValues)
    (hparent : st.IsParent p c) : c.table = .datamapIdentifiers ∧ p.table = .problemSpaces := by
  have hall : ∀ t ∈ Table.all, t.isDatamap = true → t ≠ .datamapEnumerationValues →
      ∀ u ∈ project.parentsOf t, t = .datamapIdentifiers ∧ u = .problemSpaces := by decide
  exact hall c.table (Table.mem_all _) hc hvalue p.table hparent.1

/-- Nodes are joined below identifiers. -/
theorem table_of_isAbove (h : st.IsAbove p c) : p.table = .datamapIdentifiers := by
  have hall : ∀ pair ∈ project.directedPairs, pair.1 = .datamapIdentifiers := by decide
  exact hall _ h.1

/-- A walk from a node to a problem space comes through a root below it. If the root is joined below no node,
the walk along directed joins ends there. -/
theorem Climbs.exists_root (hclimbs : st.Climbs .problemSpaces visited r space) (h : st.Sound)
    (hr : st.Has r) (hdatamap : r.table.isDatamap = true) (hvalue : r.table ≠ .datamapEnumerationValues) :
    ∃ root, root.table = .datamapIdentifiers ∧ st.IsParent space root ∧
      ((∀ p, ¬ st.IsAbove p root) → st.Tops visited r root) := by
  induction hclimbs with
  | here _ hspace =>
    -- A row of a problem space is no row of the datamap, so the climb has not ended.
    rw [hspace] at hdatamap
    cases hdatamap
  | @up visited r p q hnew hother hnext hrest ih =>
    -- The row above is a parent by key, and only a root has one, or a parent by a directed join.
    rcases hnext with hparent | ⟨-, -, hhead⟩
    · obtain ⟨hroot, hspace⟩ := isRoot_of_isParent hdatamap hvalue hparent
      cases hrest with
      | here =>
        exact ⟨r, hroot, hparent, fun hnone => .bare hnew (h.joinedParents_eq_nil hr hnone)⟩
      | up _ hnot => exact absurd hspace hnot
    · have habove := (h.mem_joinedParents_iff_of_has hr).mp (List.mem_of_mem_head? hhead)
      have hp := table_of_isAbove habove
      obtain ⟨root, hroot, hparent, htops⟩ := ih (h.has_of_isAbove habove).1 (by rw [hp]; rfl)
        (by rw [hp]; exact nofun)
      exact ⟨root, hroot, hparent, fun hnone => .up hnew hhead (htops hnone)⟩

end Store

namespace View

/-- The names that a bounded walk along directed joins collects lead from its end down to the row; with one
step more than there are rows the bound does not matter. -/
theorem finds_namesAbove (h : st.Integral) {fuel : Nat} {v : View} (hv : st.Has v.row) (hknows : v.Knows st)
    (hfuel : (st.unvisited visited).ncard < fuel) :
    (namesAbove fuel visited v).Finds st st.Fits (fun found => ∃ top names,
      found.1 = names.map .text ∧ st.Tops visited v.row top ∧ st.Descends top names v.row) := by
  induction fuel generalizing visited v with
  | zero => exact absurd hfuel (Nat.not_lt_zero _)
  | succ fuel ih =>
    rw [namesAbove]
    by_cases hnew : v.row ∈ visited
    · rw [if_pos hnew]
      exact Query.Finds.pure ⟨v.row, [], rfl, .old hnew, .nil⟩
    · rw [if_neg hnew]
      refine ((Row.finds_parentJoinedRows h.toSound).mono_sure fun hfits => hfits.row hv).bind ?_
      rintro _ rfl
      split
      · next hnone => exact Query.Finds.pure ⟨v.row, [], rfl, .bare hnew hnone, .nil⟩
      · next parent rest hparents =>
        have hmem : parent ∈ st.joinedParents v.row := by
          rw [hparents]
          exact List.mem_cons_self
        have habove := (h.mem_joinedParents_iff_of_has hv).mp hmem
        -- The parent is not visited yet, so fewer rows are left for the rest of the climb.
        have hless := Store.ncard_unvisited_cons_lt hv hnew
        refine (finds_name_of_knows h.toSound hv hknows).bind ?_
        rintro ⟨_, v'⟩ ⟨hrow, -, name, rfl, hnamed⟩
        dsimp only at hrow ⊢
        rw [hrow]
        refine (ih (v := parent.view) (h.has_of_isAbove habove).1 (Row.knows_view parent st)
          (by omega)).bind ?_
        rintro above ⟨top, names, hnames, htops, hdescends⟩
        refine Query.Finds.pure ⟨top, names ++ [name], ?_, .up hnew (by rw [hparents]; rfl) htops,
          .snoc hdescends habove hnamed⟩
        dsimp only
        rw [hnames, List.map_append, List.map_singleton]

/-- The path attributes of a row lead down to it from where the walk along directed joins ends. -/
theorem finds_pathAttributes (h : st.Integral) {v : View} (hv : st.Has v.row) (hknows : v.Knows st) :
    v.pathAttributes.Finds st st.Fits (fun found => ∃ top names,
      found.1 = names.map .text ∧ st.Tops [] v.row top ∧ st.Descends top names v.row) := by
  unfold pathAttributes
  refine Query.Finds.read fun w s hs => ?_
  dsimp only
  rw [hs.size_eq]
  have hle := (st.unvisited_finite_and_le []).2
  exact finds_namesAbove h hv hknows (by omega)

end View

end SoarProject
