import SoarProject.Proofs.Row.DepthFirst
import SoarProject.Proofs.Row.Lookup
import SoarProject.Proofs.Store.Size

/-!
# Descendants

The walk below a row goes below each row once, whatever keys name. Where keys form a forest, it meets every
row once anyway: the descendants of a row in a table are then those of its children one after the other, each
child behind its own descendants.

* `Store.IsChild`: a key of a row names another one, which need not exist.
* `Row.exists_finds_walkBelow`: the walk below a row ends, as a depth-first visit of the children.
* `Store.treeRows_congr`: a subtree depends on nothing but the children of the rows in it.
* `Store.Ordered.filter_eq_descendantsIn`: where keys form a forest, the walk goes subtree by subtree.
* `Row.finds_descendants`: with integrity, the descendants are found in this order.
-/

namespace SoarProject

open Registry

variable {st st' : Store} {r p c d q : Row} {t u : Table} {id : Int}

namespace Store

/-! ### Children by keys -/

/-- A key of the row `c` names the row `p`, which need not exist. -/
def IsChild (st : Store) (p c : Row) : Prop :=
  p.table ∈ project.parentsOf c.table ∧ ∃ record ∈ st.rows c.table,
    c.id = .int record.id ∧ p.id.identifies (record.get p.table.idName) = true

/-- The children of a row in a table are those whose key names it. -/
theorem mem_childrenIn_iff : c ∈ st.childrenIn r t ↔ c.table = t ∧ st.IsChild r c := by
  unfold childrenIn IsChild
  split
  · next ht =>
    -- The children are filtered from the records of their table by the key.
    have hparent := mem_childrenOf_iff.mp ht
    simp only [List.mem_map, List.mem_filter]
    constructor
    · rintro ⟨record, ⟨hrecord, hkey⟩, rfl⟩
      exact ⟨rfl, hparent, record, hrecord, rfl, hkey⟩
    · rintro ⟨rfl, -, record, hrecord, hid, hkey⟩
      exact ⟨record, ⟨hrecord, hkey⟩, by rw [Row.ofId, ← hid]⟩
  · next ht =>
    simp only [List.not_mem_nil, false_iff]
    rintro ⟨rfl, htable, -⟩
    exact ht (mem_childrenOf_iff.mpr htable)

/-- The children of a row are those whose key names it. -/
theorem mem_children_iff : c ∈ st.children r ↔ st.IsChild r c := by
  simp only [children, List.mem_flatMap, mem_childrenIn_iff]
  constructor
  · rintro ⟨t, -, -, hrc⟩
    exact hrc
  · intro hrc
    exact ⟨c.table, mem_childrenOf_iff.mpr hrc.1, rfl, hrc⟩

/-- What the walk goes on to from a row are its children. -/
theorem link_children : Link st.children = st.IsChild :=
  funext fun _ => funext fun _ => propext mem_children_iff

theorem IsChild.has (hpc : st.IsChild p c) : st.Has c := by
  obtain ⟨-, record, hrecord, hid, -⟩ := hpc
  exact ⟨record, hrecord, hid⟩

/-- The children of a row in a table belong to it. -/
theorem table_of_mem_childrenIn (hc : c ∈ st.childrenIn r t) : c.table = t := (mem_childrenIn_iff.mp hc).1

/-- Children in a table exist. -/
theorem has_of_mem_childrenIn (hc : c ∈ st.childrenIn r t) : st.Has c := (mem_childrenIn_iff.mp hc).2.has

/-- A sound store has the children that its keys name. -/
theorem Sound.isChild_ofId_iff (h : st.Sound) : st.IsChild (.ofId u id) c ↔ st.IsParent (.ofId u id) c :=
  Store.mem_children_iff.symm.trans h.mem_children_iff

/-- A sound store has the children that its keys name, for each existing row. -/
theorem Sound.isChild_iff (h : st.Sound) (hp : st.Has p) : st.IsChild p c ↔ st.IsParent p c := by
  obtain ⟨id, hid⟩ := hp.exists_id
  rw [hid]
  exact h.isChild_ofId_iff

/-- The children of a row in a table are different rows. -/
theorem Ordered.nodup_childrenIn (h : st.Ordered) (r : Row) (t : Table) : (st.childrenIn r t).Nodup := by
  unfold childrenIn
  split
  · refine List.pairwise_map.mpr (((h.ids_ascend t).filter _).imp fun {a b} hlt heq => ?_)
    exact Int.ne_of_lt hlt (Cell.int.inj (congrArg Row.id heq))
  · exact List.nodup_nil

/-- The child tables of a table are different ones. -/
theorem nodup_childrenOf (t : Table) : (project.childrenOf t).Nodup := by
  have hall : ∀ t ∈ Table.all, (project.childrenOf t).Nodup := by decide
  exact hall t (Table.mem_all t)

/-- The children of a row are different rows. -/
theorem Ordered.nodup_children (h : st.Ordered) (r : Row) : (st.children r).Nodup := by
  refine List.nodup_flatMap.mpr ⟨fun u _ => h.nodup_childrenIn r u, ?_⟩
  refine (nodup_childrenOf r.table).imp fun {u v} hne => List.disjoint_left.mpr fun c hu hv => ?_
  exact hne ((table_of_mem_childrenIn hu).symm.trans (table_of_mem_childrenIn hv))

/-- Different existing rows are no more than the store holds. -/
theorem length_le_size {rows : List Row} (hnodup : rows.Nodup) (hrows : ∀ r ∈ rows, st.Has r) :
    rows.length ≤ st.size := by
  obtain ⟨hfinite, hle⟩ := st.rowSet_finite_and_le
  have hsubset : (rows.toFinset : Set Row) ⊆ st.rowSet := fun r hr =>
    hrows r (List.mem_toFinset.mp (Finset.mem_coe.mp hr))
  calc rows.length = (rows.toFinset : Set Row).ncard := by
        rw [Set.ncard_coe_finset, List.toFinset_card_of_nodup hnodup]
    _ ≤ st.rowSet.ncard := Set.ncard_le_ncard hsubset hfinite
    _ ≤ st.size := hle

/-! ### Walks -/

/-- Below any pending rows there is a visit. -/
theorem exists_visits_children (st : Store) (r : Row) :
    ∃ post seen, Visits st.children (st.children r) [r] post seen := by
  have hfinite := st.rowSet_finite_and_le.1
  have hmem : ∀ r, ∀ c ∈ st.children r, c ∈ hfinite.toFinset := fun r c hc =>
    hfinite.mem_toFinset.mpr (mem_children_iff.mp hc).has
  exact exists_visits hfinite.toFinset hmem (hmem r) [r]

/-- What a visit of existing rows comes to exists. -/
theorem has_of_visits {pending seen post seen' : List Row} {c : Row}
    (h : Visits st.children pending seen post seen') (hpending : ∀ c ∈ pending, st.Has c) (hc : c ∈ post) :
    st.Has c := by
  obtain ⟨d, hd, hdc⟩ := h.exists_reflTransGen hc
  rw [link_children] at hdc
  rcases Relation.ReflTransGen.cases_tail hdc with rfl | ⟨q, -, hqc⟩
  · exact hpending c hd
  · exact hqc.has

/-- A visit of existing rows takes no more steps than the size of the store allows. -/
theorem Ordered.visitSteps_lt (h : st.Ordered) {post seen : List Row}
    (hvisits : Visits st.children (st.children r) [r] post seen) :
    visitSteps st.children (st.children r) post < (st.size + 1) * (st.size + 1) := by
  have hchildren : ∀ q, (st.children q).length ≤ st.size := fun q =>
    length_le_size (h.nodup_children q) fun c hc => (mem_children_iff.mp hc).has
  refine Visits.visitSteps_le (hchildren r) ?_ fun q _ => hchildren q
  exact length_le_size hvisits.nodup fun c hc =>
    has_of_visits hvisits (fun d hd => (mem_children_iff.mp hd).has) hc

end Store

namespace Walk

variable {steps : Nat} {stack : List (Row × List Row)} {visited found rest : List Row} {sure : Prop}
  {R : Walk → Prop}

theorem run_succ (t : Table) (steps : Nat) (top : Row × List Row) (stack : List (Row × List Row))
    (visited found : List Row) :
    run t (steps + 1) ⟨top :: stack, visited, found⟩ =
      (step t ⟨top :: stack, visited, found⟩ >>= run t steps) := rfl

/-- A walk that has left every row is over. -/
theorem run_done : run t steps ⟨[], visited, found⟩ = pure ⟨[], visited, found⟩ := by
  cases steps <;> rfl

/-- A row without any more children is left, and found if it belongs to the table. -/
theorem run_leave {top : Row × List Row} :
    run t (steps + 1) ⟨(r, []) :: top :: stack, visited, found⟩ =
      run t steps ⟨top :: stack, visited, found ++ if r.table = t then [r] else []⟩ := by
  rw [run_succ]
  change run t steps ⟨top :: stack, visited, if !false && r.table = t then found ++ [r] else found⟩ = _
  by_cases hr : r.table = t <;> simp [hr]

/-- A child that the walk has come to before is passed over. -/
theorem run_skip (hc : c ∈ visited) :
    run t (steps + 1) ⟨(r, c :: rest) :: stack, visited, found⟩ =
      run t steps ⟨(r, rest) :: stack, visited, found⟩ := by
  have hstep : step t ⟨(r, c :: rest) :: stack, visited, found⟩ =
      pure ⟨(r, rest) :: stack, visited, found⟩ := by
    simp only [step, hc, ↓reduceIte]
  rw [run_succ, hstep]
  rfl

/-- From another child the walk goes on to the children of that one. -/
theorem run_enter (hc : c ∉ visited) :
    run t (steps + 1) ⟨(r, c :: rest) :: stack, visited, found⟩ =
      (c.structuralChildren >>= fun children =>
        run t steps ⟨(c, children) :: (r, rest) :: stack, c :: visited, found⟩) := by
  have hstep : step t ⟨(r, c :: rest) :: stack, visited, found⟩ =
      (c.structuralChildren >>= fun children =>
        pure ⟨(c, children) :: (r, rest) :: stack, c :: visited, found⟩) := by
    simp only [step, hc, ↓reduceIte]
  rw [run_succ, hstep, bind_assoc]
  rfl

/-- A walk takes the steps of a visit of the pending children, and finds what the visit comes to. -/
theorem finds_run (h : st.Shaped) {pending seen post seen' : List Row}
    (hvisits : Visits st.children pending seen post seen') (hpending : ∀ c ∈ pending, st.Has c)
    (hsure : sure → st.Fits)
    (hlater : (run t steps ⟨(r, []) :: stack, seen', found ++ post.filter (·.table = t)⟩).Finds st sure R) :
    (run t (steps + visitSteps st.children pending post) ⟨(r, pending) :: stack, seen, found⟩).Finds st sure
      R := by
  -- The visits say how many steps of the machine each part of the walk takes.
  induction hvisits generalizing r stack found steps with
  | nil => simpa [visitSteps] using hlater
  | @skip c rest seen post seen' hc _ ih =>
    have hsteps : steps + visitSteps st.children (c :: rest) post =
        steps + visitSteps st.children rest post + 1 := by
      simp only [visitSteps, List.length_cons]
      omega
    rw [hsteps, run_skip hc]
    exact ih (List.forall_mem_cons.mp hpending).2 hlater
  -- Enter the row, walk below it, leave it, and go on with the rest.
  | @visit c rest seen below between post seen' hc _ _ ihbelow ihrest =>
    obtain ⟨hhas, hpending⟩ := List.forall_mem_cons.mp hpending
    have hsteps : steps + visitSteps st.children (c :: rest) (below ++ c :: post) =
        steps + visitSteps st.children rest post + 1 + visitSteps st.children (st.children c) below + 1 := by
      simp only [visitSteps, List.length_cons, List.map_append, List.map_cons, List.sum_append, List.sum_cons]
      omega
    rw [hsteps, run_enter hc]
    refine ((Row.finds_structuralChildren h).mono_sure fun hs => (hsure hs).row hhas).bind ?_
    rintro _ rfl
    refine ihbelow (fun d hd => (Store.mem_children_iff.mp hd).has) ?_
    rw [run_leave]
    refine ihrest hpending ?_
    -- On leaving, the row is listed behind what was found below it, if it is of the table.
    have hfilter : (below ++ c :: post).filter (·.table = t) =
        below.filter (·.table = t) ++ (if c.table = t then [c] else []) ++ post.filter (·.table = t) := by
      by_cases hc : c.table = t <;> simp [hc]
    simpa only [hfilter, List.append_assoc] using hlater

end Walk

/-- The walk below a row ends, and has then visited the rows below it, depth first. -/
theorem Row.exists_finds_walkBelow (h : st.Ordered) (r : Row) (t : Table) :
    ∃ post seen, Visits st.children (st.children r) [r] post seen ∧
      (r.walkBelow t).Finds st (st.Fits ∧ r.Fits) (· = ⟨[], seen, post.filter (·.table = t)⟩) := by
  obtain ⟨post, seen, hvisits⟩ := st.exists_visits_children r
  refine ⟨post, seen, hvisits, ?_⟩
  unfold walkBelow
  refine Query.Finds.read fun w s hs => ?_
  rw [hs.size_eq]
  refine ((Row.finds_structuralChildren h.shaped).mono_sure And.right).bind ?_
  rintro _ rfl
  -- One more step leaves the row itself.
  obtain ⟨steps, hsteps⟩ := Nat.exists_eq_add_of_lt (h.visitSteps_lt hvisits)
  have hsteps : (st.size + 1) * (st.size + 1) =
      steps + 1 + visitSteps st.children (st.children r) post := by omega
  rw [hsteps]
  refine Walk.finds_run h.shaped hvisits (fun c hc => (Store.mem_children_iff.mp hc).has) And.left ?_
  rw [Walk.run_succ]
  change (Walk.run t steps _).Finds st _ _
  rw [Walk.run_done]
  exact Query.Finds.pure rfl

namespace Store

/-! ### Subtrees -/

/-- The rows of a table below a row, each behind those below itself; `fuel` bounds the depth. -/
def treeRows (st : Store) (t : Table) : Nat → Row → List Row
  | 0, _ => []
  | fuel + 1, r =>
    (st.children r).flatMap fun c => st.treeRows t fuel c ++ if c.table = t then [c] else []

/-- All rows of a table below a row. -/
def descendantsIn (st : Store) (r : Row) (t : Table) : List Row := st.treeRows t (st.size + 1) r

/-- Where the rows of a subtree have the same children in two stores, the subtrees are the same. Something that
gets smaller with each step down bounds the depth. -/
theorem treeRows_congr {S : Row → Prop} {rank : Row → Nat} {fuel fuel' : Nat}
    (hdown : ∀ q, S q → ∀ c ∈ st.children q, S c ∧ rank c < rank q)
    (hsame : ∀ q, S q → st'.children q = st.children q) (hr : S r) (hfuel : rank r < fuel)
    (hfuel' : rank r < fuel') : st'.treeRows t fuel' r = st.treeRows t fuel r := by
  induction fuel generalizing fuel' r with
  | zero => omega
  | succ fuel ih =>
    obtain ⟨fuel', rfl⟩ : ∃ k, fuel' = k + 1 := Nat.exists_eq_add_one.mpr (by omega)
    rw [treeRows, treeRows, hsame r hr]
    refine List.flatMap_congr fun c hc => congrArg (· ++ _) ?_
    obtain ⟨hc, hlt⟩ := hdown r hr c hc
    exact ih hc (by omega) (by omega)

/-- Without cycles, the walk below a row goes on in its children, whatever bounds its depth. -/
theorem descendantsIn_eq (hacyclic : ∀ q, ¬ Relation.TransGen st.IsChild q q) :
    st.descendantsIn r t = (st.children r).flatMap fun c =>
      st.descendantsIn c t ++ if c.table = t then [c] else [] := by
  -- The rows below a child are fewer than those below the row, so either fuel is enough.
  let below (q : Row) : Set Row := {c | Relation.TransGen st.IsChild q c}
  have hrows : ∀ q, below q ⊆ st.rowSet := by
    intro q c hqc
    obtain ⟨p, -, hpc⟩ := Relation.TransGen.tail'_iff.mp hqc
    exact hpc.has
  obtain ⟨hfinite, hsize⟩ := st.rowSet_finite_and_le
  have hlt : ∀ q, ∀ c ∈ st.children q, (below c).ncard < (below q).ncard := by
    intro q c hc
    have hqc := mem_children_iff.mp hc
    refine Set.ncard_lt_ncard ?_ (hfinite.subset (hrows q))
    exact (Set.ssubset_iff_of_subset fun d hd => .head hqc hd).mpr ⟨c, .single hqc, hacyclic c⟩
  have hle : (below r).ncard ≤ st.size := (Set.ncard_le_ncard (hrows r) hfinite).trans hsize
  rw [descendantsIn, treeRows]
  refine List.flatMap_congr fun c hc => congrArg (· ++ _) ?_
  have hc := hlt r c hc
  have hdown : ∀ q, True → ∀ d ∈ st.children q, True ∧ (below d).ncard < (below q).ncard :=
    fun q _ d hd => ⟨trivial, hlt q d hd⟩
  exact treeRows_congr hdown (fun _ _ => rfl) trivial (by omega) (by omega)

/-- At most one key of each record is not null. -/
def OneKey (st : Store) : Prop :=
  ∀ t, ∀ record ∈ st.rows t, ∀ p ∈ project.parentsOf t, ∀ q ∈ project.parentsOf t,
    record.get p.idName ≠ .null → record.get q.idName ≠ .null → p = q

/-- Where a record has one key, its row is a child of one row. -/
theorem Ordered.isChild_unique (h : st.Ordered) (hone : st.OneKey) (hp : ∃ id, p = .ofId p.table id)
    (hq : ∃ id, q = .ofId q.table id) (hpc : st.IsChild p c) (hqc : st.IsChild q c) : p = q := by
  obtain ⟨hptable, record, hrecord, hid, hpkey⟩ := hpc
  obtain ⟨hqtable, other, hother, hid', hqkey⟩ := hqc
  obtain rfl := h.eq_of_id_eq hrecord hother (Cell.int.inj (hid.symm.trans hid'))
  obtain ⟨i, hi⟩ := hp
  obtain ⟨j, hj⟩ := hq
  rw [hi] at hpkey ⊢
  rw [hj] at hqkey ⊢
  have hnull : ∀ {k : Int} {cell : Cell}, (Cell.int k).identifies cell = true → cell ≠ .null := by
    rintro k _ hkey rfl
    cases hkey
  -- The row has one key that is not null, so both parents are rows of one table.
  have htable := hone _ record hrecord _ hptable _ hqtable (hnull hpkey) (hnull hqkey)
  rw [htable] at hpkey ⊢
  rw [eq_of_int_identifies hpkey hqkey]

/-- Where keys form a forest, a visit of what is below a row finds the subtrees of its children one after the
other. -/
theorem Ordered.filter_eq_descendantsIn (h : st.Ordered) (hone : st.OneKey)
    (hacyclic : ∀ q, ¬ Relation.TransGen st.IsChild q q) (hr : ∃ id, r = .ofId r.table id)
    {post seen : List Row} (hvisits : Visits st.children (st.children r) [r] post seen) (t : Table) :
    post.filter (·.table = t) = st.descendantsIn r t := by
  have hlink : ∀ q, ¬ Relation.TransGen (Link st.children) q q := by rwa [link_children]
  have htree : ∀ q, st.descendantsIn q t = (st.children q).flatMap fun c =>
      st.descendantsIn c t ++ if decide (c.table = t) then [c] else [] := by
    intro q
    simp only [decide_eq_true_eq]
    exact descendantsIn_eq hacyclic
  rw [htree]
  -- Both walks list a row behind the rows below it, and no row is reached twice.
  refine Visits.filter_eq_flatMap (S := fun q => ∃ id, q = .ofId q.table id)
    hlink (fun q c _ hqc => ?_) (fun p q c hp hq hpc hqc => ?_) (fun q _ => h.nodup_children q)
    (fun q _ => htree q) hvisits hr (fun _ hc => hc) (h.nodup_children r) fun c hc q hcq hq => ?_
  · exact (mem_children_iff.mp hqc).has.exists_id
  · exact h.isChild_unique hone hp hq (mem_children_iff.mp hpc) (mem_children_iff.mp hqc)
  · rw [List.mem_singleton.mp hq] at hcq
    exact hlink r (.head' hc hcq)

/-! ### Integrity -/

/-- A row has one parent. -/
theorem Integral.isParent_unique (h : st.Integral) (hp : st.IsParent p c) (hq : st.IsParent q c) :
    p = q := by
  have hphas := h.has_of_isParent hp
  have hqhas := h.has_of_isParent hq
  exact h.ordered.isChild_unique h.one_parent hphas.exists_id hqhas.exists_id
    ((h.isChild_iff hphas).mpr hp) ((h.isChild_iff hqhas).mpr hq)

/-- No row is below two children of a row. -/
theorem Integral.eq_of_reflTransGen (h : st.Integral) (hc : st.IsParent r c) (hd : st.IsParent r d)
    (hcq : Relation.ReflTransGen st.IsParent c q) (hdq : Relation.ReflTransGen st.IsParent d q) :
    c = d :=
  SoarProject.eq_of_reflTransGen (S := fun _ => True) (fun _ _ _ _ => trivial) h.acyclic
    (fun _ _ _ _ _ hp hq => h.isParent_unique hp hq) trivial hc hd hcq hdq

/-- What is below an existing row by its keys is below it as their parents are. -/
theorem Sound.transGen_isParent (h : st.Sound) (hp : st.Has p) (hpc : Relation.TransGen st.IsChild p c) :
    Relation.TransGen st.IsParent p c := by
  induction hpc with
  | single hpc => exact .single ((h.isChild_iff hp).mp hpc)
  | @tail q c _ hqc ih =>
    obtain ⟨d, -, hdq⟩ := Relation.TransGen.tail'_iff.mp ih
    exact .tail ih ((h.isChild_iff hdq.has).mp hqc)

/-- No row is below itself. -/
theorem Integral.not_transGen_isChild (h : st.Integral) (q : Row) :
    ¬ Relation.TransGen st.IsChild q q := by
  intro hcycle
  obtain ⟨p, -, hpq⟩ := Relation.TransGen.tail'_iff.mp hcycle
  exact h.acyclic q (h.transGen_isParent hpq.has hcycle)

/-- Fewer rows are below a child than below its parent. -/
theorem Integral.ncard_belowSet_lt (h : st.Integral) (hpc : st.IsParent p c) :
    (st.belowSet c).ncard < (st.belowSet p).ncard := by
  have hbelow : st.belowSet c ⊂ st.belowSet p := by
    refine Set.ssubset_iff_of_subset (fun q hq => Relation.TransGen.head hpc hq) |>.mpr ⟨c, ?_, ?_⟩
    · exact Relation.TransGen.single hpc
    · exact h.acyclic c
  exact Set.ncard_lt_ncard hbelow (st.rowSet_finite_and_le.1.subset belowSet_subset_rowSet)

/-- No more rows are below a row than there are records and pairs. -/
theorem ncard_belowSet_le : (st.belowSet r).ncard ≤ st.size :=
  (Set.ncard_le_ncard belowSet_subset_rowSet st.rowSet_finite_and_le.1).trans
    st.rowSet_finite_and_le.2

/-- Where the rows of a subtree have the same children in two stores, they have the same descendants. -/
theorem treeRows_eq_treeRows (h : st.Integral) {fuel fuel' : Nat} (hr : st.Has r)
    (hfuel : (st.belowSet r).ncard < fuel) (hfuel' : (st.belowSet r).ncard < fuel')
    (hsame : ∀ q, Relation.ReflTransGen st.IsParent r q → st'.children q = st.children q) :
    st'.treeRows t fuel' r = st.treeRows t fuel r := by
  let S (q : Row) : Prop := st.Has q ∧ Relation.ReflTransGen st.IsParent r q
  have hdown : ∀ q, S q → ∀ c ∈ st.children q, S c ∧ (st.belowSet c).ncard < (st.belowSet q).ncard := by
    intro q hq c hc
    have hqc := (h.isChild_iff hq.1).mp (mem_children_iff.mp hc)
    exact ⟨⟨hqc.has, hq.2.tail hqc⟩, h.ncard_belowSet_lt hqc⟩
  exact treeRows_congr hdown (fun q hq => hsame q hq.2) ⟨hr, .refl⟩ hfuel hfuel'

/-- Where children in one table only have rows of another one below them, the walk goes on in these. -/
theorem Integral.descendantsIn_eq_of_table (h : st.Integral)
    (hu : u ∈ project.childrenOf r.table) (hother : ∀ w ∈ project.childrenOf r.table, w ≠ u →
      ∀ c ∈ st.childrenIn r w, w ≠ t ∧ st.descendantsIn c t = []) :
    st.descendantsIn r t = (st.childrenIn r u).flatMap fun c =>
      st.descendantsIn c t ++ if u = t then [c] else [] := by
  -- The child tables before and behind the one that matters give nothing.
  obtain ⟨before, behind, hsplit⟩ := List.append_of_mem hu
  have hnodup := nodup_childrenOf r.table
  rw [hsplit, List.nodup_append, List.nodup_cons] at hnodup
  have hnone : ∀ ws : List Table, ws ⊆ project.childrenOf r.table → u ∉ ws →
      (ws.flatMap fun w => (st.childrenIn r w).flatMap fun c =>
        st.descendantsIn c t ++ if c.table = t then [c] else []) = [] := by
    intro ws hws hnot
    refine List.flatMap_eq_nil_iff.mpr fun w hw => List.flatMap_eq_nil_iff.mpr fun c hc => ?_
    obtain ⟨hwt, hbelow⟩ := hother w (hws hw) (fun heq => hnot (heq ▸ hw)) c hc
    rw [hbelow, table_of_mem_childrenIn hc, if_neg hwt, List.append_nil]
  rw [descendantsIn_eq h.not_transGen_isChild, children, List.flatMap_assoc, hsplit, List.flatMap_append,
    List.flatMap_cons, hnone before (by simp [hsplit]) fun hmem => ?_,
    hnone behind (by simp [hsplit]) hnodup.2.1.1, List.nil_append, List.append_nil]
  · refine List.flatMap_congr fun c hc => ?_
    rw [table_of_mem_childrenIn hc]
  · exact hnodup.2.2 u hmem u List.mem_cons_self rfl

/-- No row of a table is below a row if the table is none of those below the table of the row. -/
theorem descendantsIn_eq_nil (below : List Table)
    (hroot : ∀ u ∈ project.childrenOf r.table, u ∈ below)
    (hclosed : ∀ u ∈ below, ∀ w ∈ project.childrenOf u, w ∈ below) (ht : t ∉ below) :
    st.descendantsIn r t = [] := by
  have htree : ∀ fuel (r : Row), (∀ u ∈ project.childrenOf r.table, u ∈ below) →
      st.treeRows t fuel r = [] := by
    intro fuel
    induction fuel with
    | zero => exact fun _ _ => rfl
    | succ fuel ih =>
      intro r hroot
      -- No child on any level belongs to `t`, as its table is among those below.
      refine List.flatMap_eq_nil_iff.mpr fun c hc => ?_
      obtain ⟨u, hu, hc⟩ := List.mem_flatMap.mp hc
      have htable := table_of_mem_childrenIn hc
      have hbelow := hroot u hu
      rw [ih c fun w hw => hclosed u hbelow w (htable ▸ hw), htable, if_neg, List.append_nil]
      rintro rfl
      exact ht hbelow
  exact htree _ r hroot

end Store

/-- The descendants in a table are found. -/
theorem Row.finds_descendants (h : st.Integral) (hr : st.Has r) :
    (r.descendants t).Finds st st.Fits (· = st.descendantsIn r t) := by
  obtain ⟨post, seen, hvisits, hwalk⟩ := exists_finds_walkBelow h.ordered r t
  refine (hwalk.mono_sure fun hfits => ⟨hfits, hfits.row hr⟩).bind ?_
  rintro _ rfl
  exact Query.Finds.pure
    (h.ordered.filter_eq_descendantsIn h.one_parent h.not_transGen_isChild hr.exists_id hvisits t)

end SoarProject
