import SoarProject.Proofs.Row.JoinSets
import SoarProject.Proofs.Session.Effect

/-!
# Queries about joins of any registry

What the queries about joins find in a session that follows any registry.

* `Session.Follows`: the session follows a registry and has a store open.
* `Query.Tells`, `Query.Lists`: a query tells whether something holds, or lists the rows for which it
  does.
* `Row.tells_joined`, `Row.tells_directedJoined`, `Row.lists_joinedRows`, `Row.lists_directedChildren`,
  `Row.lists_parentJoinedRows`: what each query finds is what the store records.
-/

namespace SoarProject

open Store (Drops)

variable {α β : Type} {w : Bool} {r : Registry} {s s' : Session} {st st' : Store} {u v x y : Row}
  {t : Table} {n : RelationName}

/-! ### Sessions that follow a registry -/

/-- A session that follows a registry has a store open, which may be changed if `w`. -/
structure Session.Follows (s : Session) (r : Registry) (w : Bool) (st : Store) : Prop where
  registry_eq : s.registry = r
  isWritable_eq : s.isWritable = w
  store_eq : s.store = .ok st

namespace Session

theorem Follows.setStore (h : s.Follows r w st) (st' : Store) : (s.setStore st').Follows r w st' where
  registry_eq := (s.registry_setStore st').trans h.registry_eq
  isWritable_eq := (s.isWritable_setStore st').trans h.isWritable_eq
  store_eq := store_setStore h.store_eq st'

theorem Follows.announce (h : s.Follows r w st) (event : EventKind) :
    (s.announce event).Follows r w st := by
  unfold Session.announce
  split
  · exact h
  · exact ⟨h.registry_eq, h.isWritable_eq, h.store_eq⟩

end Session

namespace Query

/-- In a session, a query tells whether `P` holds. -/
def Tells (q : Query Bool) (s : Session) (P : Prop) : Prop :=
  ∃ found, q.run s = .ok found ∧ (found = true ↔ P)

/-- In a session, a query lists the rows for which `P` holds, each of them once. -/
def Lists (q : Query (List Row)) (s : Session) (P : Row → Prop) : Prop :=
  ∃ rows, q.run s = .ok rows ∧ rows.Nodup ∧ ∀ y, y ∈ rows ↔ P y

/-- What a query tells after another one gave its value. -/
theorem Tells.after {q : Query α} {f : α → Query Bool} {v : α} {P : Prop} (hq : q.run s = .ok v)
    (hf : (f v).Tells s P) : (q >>= f).Tells s P := by
  obtain ⟨found, hrun, hfound⟩ := hf
  exact ⟨found, (run_bind_ok hq).trans hrun, hfound⟩

/-- What a query lists after another one gave its value. -/
theorem Lists.after {q : Query α} {f : α → Query (List Row)} {v : α} {P : Row → Prop}
    (hq : q.run s = .ok v) (hf : (f v).Lists s P) : (q >>= f).Lists s P := by
  obtain ⟨rows, hrun, hrows⟩ := hf
  exact ⟨rows, (run_bind_ok hq).trans hrun, hrows⟩

/-- Lists of rows of different tables, one behind the other. -/
theorem Lists.flatten {f : Table → Query (List Row)} {P : Row → Prop} {tables : List Table}
    (hnodup : tables.Nodup) (hf : ∀ t ∈ tables, (f t).Lists s fun y => y.table = t ∧ P y) :
    (do return (← tables.mapM f).flatten : Query (List Row)).Lists s fun y =>
      y.table ∈ tables ∧ P y := by
  have hlists : ∃ rows, (tables.mapM f).run s = .ok rows ∧ rows.flatten.Nodup ∧
      ∀ y, y ∈ rows.flatten ↔ y.table ∈ tables ∧ P y := by
    induction tables with
    | nil => exact ⟨[], rfl, List.nodup_nil, by simp⟩
    | cons t rest ih =>
      obtain ⟨hnew, hrest⟩ := List.nodup_cons.mp hnodup
      obtain ⟨rows, hrows, hnodup₁, hmem₁⟩ := hf t List.mem_cons_self
      obtain ⟨more, hmore, hnodup₂, hmem₂⟩ := ih hrest fun u hu => hf u (List.mem_cons_of_mem _ hu)
      refine ⟨rows :: more, ?_, ?_, fun y => ?_⟩
      · rw [List.mapM_cons, run_bind_ok hrows, run_bind_ok hmore]
        rfl
      · -- Rows of different tables are different, so the lists have nothing in common.
        rw [List.flatten_cons, List.nodup_append]
        refine ⟨hnodup₁, hnodup₂, fun y hy z hz heq => hnew ?_⟩
        rw [← ((hmem₁ y).mp hy).1, heq]
        exact ((hmem₂ z).mp hz).1
      · rw [List.flatten_cons, List.mem_append, hmem₁, hmem₂, List.mem_cons]
        tauto
  obtain ⟨rows, hrun, hrows⟩ := hlists
  exact ⟨_, run_bind_ok hrun, hrows⟩

/-- A list of rows is one of those for which anything equivalent holds. -/
theorem Lists.congr {q : Query (List Row)} {P P' : Row → Prop} (h : q.Lists s P)
    (hP : ∀ y, P y ↔ P' y) : q.Lists s P' := by
  obtain ⟨rows, hrun, hnodup, hmem⟩ := h
  exact ⟨rows, hrun, hnodup, fun y => (hmem y).trans (hP y)⟩

end Query

/-! ### What queries answer -/

namespace Session.Follows

variable (hs : s.Follows r w st)

include hs

/-- The registry is found. -/
theorem run_registry : Query.registry.run s = .ok r := congrArg Except.ok hs.registry_eq

omit hs in
/-- A statement that succeeds puts its store in place. -/
theorem run_alter (hs : s.Follows r true st) {f : Store → Except Failure (Store × α)} {v : α}
    (hf : f st = .ok (st', v)) (writes : α → Bool) :
    (Change.alter f writes).run.run s = (.ok v, s.setStore st') := by
  have hstore : Query.store.run s = .ok st := hs.store_eq
  rw [Change.alter, Change.run_query hstore, hf]
  -- The session may write, so nothing is refused.
  change (if (!s.isWritable && writes v) = true then _ else _ : Change α).run.run s = _
  rw [hs.isWritable_eq]
  rfl

omit hs in
/-- A statement that succeeds puts its store in place, and announces that. -/
theorem run_mutate (hs : s.Follows r true st) {f : Store → Except Failure (Store × α)} {v : α} (hf : f st = .ok (st', v)) :
    ∃ s', (Change.mutate f).run.run s = (.ok v, s') ∧ s'.Follows r true st' := by
  refine ⟨(s.setStore st').announce .databaseChanged, ?_, (hs.setStore st').announce _⟩
  rw [Change.mutate, Change.run_bind (hs.run_alter hf _)]
  rfl

variable (h : st.Carries r) (hfits : st.Fits) (hn : r.Declares n) (rows : List Row)
  (hrows : ∀ x ∈ rows, st.Has x)

include h hfits hn hrows

/-- The pairs of a declared join are found for existing rows. -/
theorem run_pairsWhere (meets : CellPair → Bool) :
    (Query.pairsWhere n (rows.map (·.id)) meets).run s =
      .ok ((CellPair.sort (st.pairsOf n)).filter meets) := by
  have hrun : (Query.pairsWhere n (rows.map (·.id)) meets).run s = s.store >>= fun st =>
      st.pairs n >>= fun pairs => (rows.map (·.id)).forM Store.checkKey >>= fun _ =>
        .ok (pairs.filter meets) := rfl
  rw [hrun, hs.store_eq]
  change (st.pairs n >>= _) = _
  rw [h.pairs_eq hn]
  change ((rows.map (·.id)).forM Store.checkKey >>= fun _ => _) = _
  rw [Store.forM_checkKey_eq_ok fun x hx => hfits.row (hrows x hx)]
  rfl

omit hs in
/-- The pairs of a declared join that meet a condition on existing rows are removed. -/
theorem run_removePairs (hs : s.Follows r true st) (meets : CellPair → Bool) :
    ∃ s' st', (Change.removePairs n (rows.map (·.id)) meets).run.run s = (.ok (), s') ∧
      s'.Follows r true st' ∧ Drops r st st' fun m pair => m = n ∧ meets pair = true := by
  have hkeys := Store.forM_checkKey_eq_ok fun x hx => hfits.row (hrows x hx)
  obtain ⟨s', hrun, hs'⟩ := hs.run_mutate (f := fun store => do
    return (← store.removePairs n (rows.map (·.id)) meets, ())) (by
      change (st.removePairs n (rows.map (·.id)) meets >>= fun st' => .ok (st', ())) = _
      rw [h.removePairs_eq hn hkeys]
      rfl)
  exact ⟨s', _, hrun, hs', h.drops hn meets⟩

end Session.Follows

namespace Row

/-! ### Rows without repetition -/

/-- The rows that are kept are those of the list. -/
theorem mem_distinct {rows : List Row} : y ∈ distinct rows ↔ y ∈ rows := by
  have hrun : ∀ kept, y ∈ rows.foldl (fun kept r => if r ∈ kept then kept else kept ++ [r]) kept ↔
      y ∈ kept ∨ y ∈ rows := by
    induction rows with
    | nil => simp
    | cons x rest ih =>
      intro kept
      rw [List.foldl_cons, ih, List.mem_cons]
      split
      · next hx => exact ⟨by tauto, by rintro (hy | rfl | hy) <;> tauto⟩
      · simp [or_assoc]
  rw [distinct, hrun]
  simp

/-- No row is kept twice. -/
theorem nodup_distinct (rows : List Row) : (distinct rows).Nodup := by
  have hrun : ∀ kept : List Row, kept.Nodup →
      (rows.foldl (fun kept r => if r ∈ kept then kept else kept ++ [r]) kept).Nodup := by
    induction rows with
    | nil => exact fun _ hkept => hkept
    | cons x rest ih =>
      intro kept hkept
      refine ih _ ?_
      dsimp only
      split
      · exact hkept
      · next hx => exact List.nodup_append.mpr ⟨hkept, List.nodup_singleton x, fun y hy z hz heq =>
          hx (by rwa [← List.mem_singleton.mp hz, ← heq])⟩
  exact hrun [] List.nodup_nil

/-- The partners of a row stand in the pairs beside its id. -/
theorem mem_partnerIds {order : Table × Table} {id c : Cell} {pairs : List CellPair}
    (ht : order.1 = t ∨ order.2 = t) (hid : ∃ i : Int, id = .int i)
    (hpairs : ∀ pair ∈ pairs, ∃ i j : Int, pair = (.int i, .int j)) :
    c ∈ partnerIds order t id pairs ↔
      (order.1 = t ∧ (id, c) ∈ pairs) ∨ (order.2 = t ∧ (c, id) ∈ pairs) := by
  -- Ids are integers, so comparing cells is equality.
  have hafter : c ∈ (pairs.filter fun p => id.identifies p.1).map (·.2) ↔ (id, c) ∈ pairs := by
    simp only [List.mem_map, List.mem_filter, Prod.exists, exists_eq_right]
    constructor
    · rintro ⟨a, hpair, hfound⟩
      obtain ⟨i, j, heq⟩ := hpairs _ hpair
      rwa [← (Cell.identifies_eq_true_iff hid ⟨i, (Prod.mk.inj heq).1⟩).mp hfound]
    · exact fun hpair => ⟨id, hpair, (Cell.identifies_eq_true_iff hid hid).mpr rfl⟩
  have hbefore : c ∈ (pairs.filter fun p => id.identifies p.2).map (·.1) ↔ (c, id) ∈ pairs := by
    simp only [List.mem_map, List.mem_filter, Prod.exists, exists_and_right, exists_eq_right]
    constructor
    · rintro ⟨b, hpair, hfound⟩
      obtain ⟨i, j, heq⟩ := hpairs _ hpair
      rwa [← (Cell.identifies_eq_true_iff hid ⟨j, (Prod.mk.inj heq).2⟩).mp hfound]
    · exact fun hpair => ⟨id, hpair, (Cell.identifies_eq_true_iff hid hid).mpr rfl⟩
  rw [partnerIds]
  -- A join of a table with itself is searched both ways, any other from its side only.
  split
  · next heq =>
    have hone : order.1 = t := ht.elim (fun hone => hone) fun htwo => heq.trans htwo
    rw [List.mem_append, hafter, hbefore, and_iff_right hone, and_iff_right (heq ▸ hone)]
  · next hne =>
    split
    · next hone =>
      rw [hafter, and_iff_right hone]
      exact (or_iff_left fun htwo => hne (hone.trans htwo.1.symm)).symm
    · next hone =>
      rw [hbefore, and_iff_right (ht.resolve_left hone)]
      exact (or_iff_right fun hfirst => hone hfirst.1).symm

/-! ### Pairs with a given id -/

section Ends

variable (h : st.Carries r) (hn : r.Declares n) (hx : st.Has x) {pair : CellPair}

include h hn hx

/-- The pairs that begin with the id of a row. -/
theorem mem_filter_fst : pair ∈ (CellPair.sort (st.pairsOf n)).filter (fun p => x.id.identifies p.1) ↔
    pair ∈ st.pairsOf n ∧ pair.1 = x.id := by
  rw [List.mem_filter, CellPair.mem_sort]
  refine and_congr_right fun hpair => ?_
  obtain ⟨i, j, rfl⟩ := h.ids n hn pair hpair
  exact Cell.identifies_eq_true_iff hx.id_eq ⟨i, rfl⟩

/-- The pairs that end with the id of a row. -/
theorem mem_filter_snd : pair ∈ (CellPair.sort (st.pairsOf n)).filter (fun p => x.id.identifies p.2) ↔
    pair ∈ st.pairsOf n ∧ pair.2 = x.id := by
  rw [List.mem_filter, CellPair.mem_sort]
  refine and_congr_right fun hpair => ?_
  obtain ⟨i, j, rfl⟩ := h.ids n hn pair hpair
  exact Cell.identifies_eq_true_iff hx.id_eq ⟨j, rfl⟩

omit hx in
/-- No pair is found twice. -/
theorem nodup_filter (meets : CellPair → Bool) :
    ((CellPair.sort (st.pairsOf n)).filter meets).Nodup :=
  ((CellPair.perm_sort _).nodup_iff.mpr (h.nodup n hn)).filter _

end Ends

/-! ### The queries about joins -/

section Queries

variable (hr : r.Coherent) (hs : s.Follows r w st) (h : st.Carries r) (hfits : st.Fits)
  (hx : st.Has x)

include hr hs h hfits hx

/-- Two rows are joined if the store records it. -/
theorem tells_joined (hy : st.Has y) : (x.joined y).Tells s (st.IsJoined r x y) := by
  refine .after hs.run_registry ?_
  cases ho : r.orderJoined? x.table y.table with
  | none =>
    refine ⟨false, rfl, iff_of_false Bool.false_ne_true ?_⟩
    obtain ⟨hxy, hyx⟩ := hr.orderJoined?_eq_none_iff.mp ho
    exact fun hjoined => hjoined.elim (fun hpair => hxy hpair.1) fun hpair => hyx hpair.1
  | some order =>
    have hrun := hs.run_pairsWhere h hfits (hr.declares_of_orderJoined? ho).1 [x, y]
      (by simp [hx, hy]) (isJoinPair order x y)
    refine .after hrun ⟨_, rfl, ?_⟩
    rw [← exists_isJoinPair_iff hr h ho hx hy, Bool.not_eq_true',
      List.isEmpty_eq_false_iff_exists_mem]
    simp only [List.mem_filter, CellPair.mem_sort]

/-- A row is joined below another one if the store records it. -/
theorem tells_directedJoined (hy : st.Has y) :
    (x.directedJoined y).Tells s (st.IsJoinedBelow r x y) := by
  refine .after hs.run_registry ?_
  cases hdeclared : r.areDirectedJoined x.table y.table with
  | false =>
    refine ⟨false, rfl, iff_of_false Bool.false_ne_true fun hbelow => ?_⟩
    exact of_decide_eq_false hdeclared (hr.declares_directed_iff.mp hbelow.1)
  | true =>
    have hn := hr.declares_directed_iff.mpr (of_decide_eq_true hdeclared)
    refine .after (hs.run_pairsWhere h hfits hn [x, y] (by simp [hx, hy]) _) ⟨_, rfl, ?_⟩
    obtain ⟨i, hi⟩ := hx.id_eq
    obtain ⟨j, hj⟩ := hy.id_eq
    -- The comparison of keys is equality on ids.
    have hkeys : ∃ i j : Int, (x.id, y.id) = ((.int i, .int j) : CellPair) := ⟨i, j, by rw [hi, hj]⟩
    rw [Store.IsJoinedBelow, and_iff_right hn, Bool.not_eq_true', List.isEmpty_eq_false_iff_exists_mem]
    simp only [List.mem_filter, CellPair.mem_sort]
    constructor
    · rintro ⟨pair, hpair, hfound⟩
      rwa [← (CellPair.identifies_eq_true_iff hkeys (h.ids _ hn pair hpair)).mp hfound]
    · exact fun hpair => ⟨_, hpair, (CellPair.identifies_eq_true_iff hkeys hkeys).mpr rfl⟩

/-- The rows of a table below a row are those that the store records. -/
theorem lists_directedChildrenOfType (t : Table) :
    (x.directedChildrenOfType t).Lists s fun y => y.table = t ∧ st.IsJoinedBelow r x y := by
  refine .after hs.run_registry ?_
  cases hdeclared : r.areDirectedJoined x.table t with
  | false =>
    refine ⟨[], rfl, List.nodup_nil, fun y => iff_of_false List.not_mem_nil ?_⟩
    rintro ⟨rfl, hn, -⟩
    exact of_decide_eq_false hdeclared (hr.declares_directed_iff.mp hn)
  | true =>
    have hn := hr.declares_directed_iff.mpr (of_decide_eq_true hdeclared)
    refine .after (hs.run_pairsWhere h hfits hn [x] (by simp [hx]) _)
      ⟨_, rfl, List.Nodup.map_on (fun p hp q hq heq => ?_) (nodup_filter h hn _), fun y => ?_⟩
    · -- Both pairs begin with the id of the row.
      rw [mem_filter_fst h hn hx] at hp hq
      exact Prod.ext (hp.2.trans hq.2.symm) (Row.mk.inj heq).2
    · simp only [List.mem_map, mem_filter_fst h hn hx]
      constructor
      · rintro ⟨⟨a, b⟩, ⟨hpair, rfl⟩, rfl⟩
        exact ⟨rfl, hn, hpair⟩
      · rintro ⟨rfl, -, hpair⟩
        exact ⟨_, ⟨hpair, rfl⟩, rfl⟩

/-- The rows below a row are those that the store records. -/
theorem lists_directedChildren : x.directedChildren.Lists s (st.IsJoinedBelow r x) := by
  refine .after hs.run_registry ((Query.Lists.flatten (hr.directedJoins.nodup_get x.table)
    fun t _ => lists_directedChildrenOfType hr hs h hfits hx t).congr fun y => ?_)
  exact and_iff_right_of_imp fun hbelow => hr.declares_directed_iff.mp hbelow.1

/-- The rows that a row is below are those that the store records. -/
theorem lists_parentJoinedRows : x.parentJoinedRows.Lists s fun y => st.IsJoinedBelow r y x := by
  refine .after hs.run_registry ((Query.Lists.flatten (P := fun y => st.IsJoinedBelow r y x)
    (hr.nodup_directedParentsOf x.table) fun t ht => ?_).congr fun y => ?_)
  · have hn := hr.declares_directed_iff.mpr (hr.mem_directedParentsOf_iff.mp ht)
    refine .after (hs.run_pairsWhere h hfits hn [x] (by simp [hx]) _)
      ⟨_, rfl, List.Nodup.map_on (fun p hp q hq heq => ?_) (nodup_filter h hn _), fun y => ?_⟩
    · -- The second component is fixed, so the first one tells the pairs apart.
      rw [mem_filter_snd h hn hx] at hp hq
      exact Prod.ext (Row.mk.inj heq).2 (hp.2.trans hq.2.symm)
    · simp only [List.mem_map, mem_filter_snd h hn hx]
      constructor
      · rintro ⟨⟨a, b⟩, ⟨hpair, rfl⟩, rfl⟩
        exact ⟨rfl, hn, hpair⟩
      · rintro ⟨rfl, -, hpair⟩
        exact ⟨_, ⟨hpair, rfl⟩, rfl⟩
  · exact and_iff_right_of_imp fun hbelow =>
      hr.mem_directedParentsOf_iff.mpr (hr.declares_directed_iff.mp hbelow.1)

/-- The rows of a table that a row is joined to, or that are below it, are those that the store
records. -/
theorem lists_joinedRows (t : Table) :
    (x.joinedRows t).Lists s fun y =>
      y.table = t ∧ (st.IsJoined r x y ∨ st.IsJoinedBelow r x y) := by
  obtain ⟨below, hbelow, -, hmem⟩ := lists_directedChildrenOfType hr hs h hfits hx t
  -- What is left to do once the ids of the joined rows are found.
  have hrest : ∀ partners : List Cell, (∀ c, c ∈ partners ↔ st.IsJoined r x ⟨t, c⟩) →
      (do return distinct (partners.map (⟨t, ·⟩) ++ (← x.directedChildrenOfType t)) :
        Query (List Row)).Lists s fun y =>
          y.table = t ∧ (st.IsJoined r x y ∨ st.IsJoinedBelow r x y) := by
    intro partners hpartners
    refine .after hbelow ⟨_, rfl, nodup_distinct _, fun y => ?_⟩
    rw [mem_distinct, List.mem_append, List.mem_map, hmem]
    constructor
    · rintro (⟨c, hc, rfl⟩ | ⟨rfl, hy⟩)
      · exact ⟨rfl, .inl ((hpartners c).mp hc)⟩
      · exact ⟨rfl, .inr hy⟩
    · rintro ⟨rfl, hy | hy⟩
      · exact .inl ⟨y.id, (hpartners _).mpr hy, rfl⟩
      · exact .inr ⟨rfl, hy⟩
  refine .after hs.run_registry ?_
  cases ho : r.orderJoined? x.table t with
  | none =>
    obtain ⟨hxt, htx⟩ := hr.orderJoined?_eq_none_iff.mp ho
    refine hrest [] fun c => iff_of_false List.not_mem_nil ?_
    exact fun hjoined => hjoined.elim (fun hpair => hxt hpair.1) fun hpair => htx hpair.1
  | some order =>
    obtain ⟨hn, horder⟩ := hr.declares_of_orderJoined? ho
    have hids : ∀ pair ∈ (CellPair.sort (st.pairsOf (.join order.1 order.2))).filter fun _ => true,
        ∃ i j : Int, pair = (.int i, .int j) := by
      intro pair hpair
      exact h.ids _ hn pair (CellPair.mem_sort.mp (List.mem_of_mem_filter hpair))
    refine .after (hs.run_pairsWhere h hfits hn [x] (by simp [hx]) fun _ => true)
      (hrest _ fun c => ?_)
    rcases horder with rfl | rfl
    · rw [mem_partnerIds (.inl rfl) hx.id_eq hids, Store.isJoined_iff (v := ⟨t, c⟩) hr hn]
      simp [eq_comm]
    · rw [mem_partnerIds (.inr rfl) hx.id_eq hids, Store.isJoined_comm,
        Store.isJoined_iff (u := ⟨t, c⟩) hr hn]
      simp [or_comm]

end Queries

end Row

end SoarProject
