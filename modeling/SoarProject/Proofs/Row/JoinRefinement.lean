import SoarProject.Proofs.Row.JoinQueries

/-!
# Joins refine sets of pairs

The functions that join rows, end joins and ask for them all find the pair of two rows on their own.
Here they agree: each operation does to the store what it does to the sets of joined rows, and each
query answers what the sets hold. The registry may declare any joins.

* `JoinOperation.Ends`: what one operation does to the store and to the sets; there is one lemma for
  each kind of operation.
* `joins_refine`: after any operations, every query about joins answers as the sets do.
-/

namespace SoarProject

open Store (Names Drops Adds)

variable {r : Registry} {s s' : Session} {st st' : Store} {a c p x y : Row} {t : Table}
  {n : RelationName}

/-! ### One operation -/

/-- A session that follows a registry has the joins of some sets recorded. -/
structure Session.Records (s : Session) (r : Registry) (st : Store) (sets : JoinSets) : Prop where
  follows : s.Follows r true st
  carries : st.Carries r
  represents : st.Represents r sets

/-- Rows of tables that are not joined are not joined. -/
theorem Store.Represents.notMem_joined {sets : JoinSets} (h : st.Represents r sets) (hr : r.Coherent)
    (hxy : r.areJoined x.table y.table = false) : s(x, y) ∉ sets.joined := by
  rw [Registry.areJoined, Option.isSome_eq_false_iff, Option.isNone_iff_eq_none,
    hr.orderJoined?_eq_none_iff] at hxy
  rw [h.joined_iff]
  rintro (⟨hdeclared, -⟩ | ⟨hdeclared, -⟩)
  · exact hxy.1 hdeclared
  · exact hxy.2 hdeclared

/-- Rows of tables without a directed join are not joined below each other. -/
theorem Store.Represents.notMem_directed {sets : JoinSets} (h : st.Represents r sets)
    (hr : r.Coherent) (hpc : r.areDirectedJoined p.table c.table = false) :
    (p, c) ∉ sets.directed := by
  rw [h.directed_iff]
  rintro ⟨hdeclared, -⟩
  exact of_decide_eq_false hpc (hr.declares_directed_iff.mp hdeclared)

section Operations

variable {sets : JoinSets} (hr : r.Coherent) (hs : s.Records r st sets) (hfits : st.Fits)

/-- What a session ends with in which an operation was carried out on the joins. -/
def JoinOperation.Ends (op : JoinOperation) (r : Registry) (s : Session) (st : Store)
    (sets : JoinSets) : Prop :=
  ∃ s' st', op.perform.run.run s = (op.outcome r, s') ∧ s'.Records r st' (op.apply r sets) ∧
    ∀ t, st'.rows t = st.rows t

/-- The order of two tables is looked up. -/
theorem Row.run_joinOrder (hs : s.Follows r true st) : (Row.joinOrder x y).run s =
    match r.orderJoined? x.table y.table with
    | some order => .ok order
    | none => .error (.notJoined x.table y.table) := by
  rw [Row.joinOrder, Query.run_bind_ok hs.run_registry]
  cases r.orderJoined? x.table y.table <;> rfl

/-- Two rows of undeclared tables are refused, and the session stays as it is. -/
theorem Row.run_join_undeclared (hs : s.Follows r true st)
    (hxy : r.areJoined x.table y.table = false) :
    (x.join y).run.run s = (.error (.notJoined x.table y.table), s) ∧
      (x.unjoin y).run.run s = (.error (.notJoined x.table y.table), s) := by
  have horder := Row.run_joinOrder (x := x) (y := y) hs
  rw [Registry.areJoined, Option.isSome_eq_false_iff, Option.isNone_iff_eq_none] at hxy
  rw [hxy] at horder
  exact ⟨Change.run_query_error horder, Change.run_query_error horder⟩

/-- Directed joins of undeclared tables are passed over, and the session stays as it is. -/
theorem Row.run_directedJoin_undeclared (hs : s.Follows r true st)
    (hpc : r.areDirectedJoined p.table c.table = false) :
    (p.directedJoin c).run.run s = (.ok (), s) ∧ (p.directedUnjoin c).run.run s = (.ok (), s) := by
  constructor
  · rw [Row.directedJoin, Change.run_query hs.run_registry, hpc]
    rfl
  · rw [Row.directedUnjoin, Change.run_query hs.run_registry, hpc]
    rfl

include hr hs hfits

/-- Two rows are joined. -/
theorem JoinOperation.ends_join (hx : st.Has x) (hy : st.Has y) :
    (JoinOperation.join x y).Ends r s st sets := by
  cases hxy : r.areJoined x.table y.table with
  | false =>
    refine ⟨s, st, ?_, ?_, fun _ => rfl⟩
    · rw [JoinOperation.outcome, hxy]
      exact (Row.run_join_undeclared hs.follows hxy).1
    · rw [JoinOperation.apply, hxy]
      exact hs
  | true =>
    obtain ⟨order, ho⟩ := Option.isSome_iff_exists.mp hxy
    obtain ⟨u, v, hordered⟩ := Row.exists_ordered hr ho
    obtain ⟨hu, hv⟩ := hordered.has hx hy
    obtain ⟨found, hrun, hfound⟩ := Row.tells_joined hr hs.follows hs.carries hfits hx hy
    have horder := Row.run_joinOrder (x := x) (y := y) hs.follows
    rw [ho] at horder
    rw [JoinOperation.Ends, JoinOperation.outcome, JoinOperation.apply, hxy, if_pos rfl, if_pos rfl,
      JoinOperation.perform, Row.join, Change.run_query horder, Change.run_query hrun]
    cases found with
    | true =>
      -- The pair is in the set already.
      have hmem := (hs.represents.joined_iff x y).mpr (hfound.mp rfl)
      refine ⟨s, st, rfl, ?_, fun _ => rfl⟩
      rw [Set.insert_eq_of_mem hmem]
      exact hs
    | false =>
      obtain ⟨i, hi⟩ := hu.id_eq
      obtain ⟨j, hj⟩ := hv.id_eq
      have hnot : ¬ st.IsJoined r u v := by
        rw [← hs.represents.joined_iff, ← hordered.rows_eq, hs.represents.joined_iff, ← hfound]
        exact Bool.false_ne_true
      have hnew : (.int i, .int j) ∉ st.pairsOf (.join u.table v.table) := by
        rw [← hi, ← hj]
        exact fun hpair => hnot (.inl ⟨hordered.declared, hpair⟩)
      have hadds := hs.carries.adds hordered.declared hnew
      have hkeys := hs.carries.addPair_eq hordered.declared
        (hi ▸ Store.checkKey_eq_ok (hfits.row hu)) (hj ▸ Store.checkKey_eq_ok (hfits.row hv)) hnew
      obtain ⟨s', hmutate, hs'⟩ := hs.follows.run_mutate (f := fun store => do
        return (← store.addPair (.join order.1 order.2) (Row.joinPair order x y), ())) (by
          rw [hordered.pair_eq, hordered.order_eq, hi, hj]
          change (st.addPair (.join u.table v.table) (.int i, .int j) >>= fun st' =>
            .ok (st', ())) = _
          rw [hkeys]
          rfl)
      refine ⟨s', _, hmutate, ⟨hs', hadds.carries, ?_⟩, hadds.rows_eq⟩
      rw [hordered.rows_eq]
      exact hs.represents.add_joined hordered.declared (by rwa [hi, hj])

/-- The join of two rows ends. -/
theorem JoinOperation.ends_unjoin (hx : st.Has x) (hy : st.Has y) :
    (JoinOperation.unjoin x y).Ends r s st sets := by
  cases hxy : r.areJoined x.table y.table with
  | false =>
    refine ⟨s, st, ?_, ?_, fun _ => rfl⟩
    · -- The refusal leaves everything, and an undeclared pair is in no abstract set.
      rw [JoinOperation.outcome, hxy]
      exact (Row.run_join_undeclared hs.follows hxy).2
    · rw [JoinOperation.apply, Set.sdiff_singleton_eq_self (hs.represents.notMem_joined hr hxy)]
      exact hs
  | true =>
    obtain ⟨order, ho⟩ := Option.isSome_iff_exists.mp hxy
    obtain ⟨u, v, hordered⟩ := Row.exists_ordered hr ho
    obtain ⟨hu, hv⟩ := hordered.has hx hy
    have horder := Row.run_joinOrder (x := x) (y := y) hs.follows
    rw [ho] at horder
    obtain ⟨s', st', hrun, hs', hdrops⟩ := hs.follows.run_removePairs hs.carries hfits
      hordered.declared [x, y] (by simp [hx, hy]) (Row.isJoinPair order x y)
    rw [JoinOperation.Ends, JoinOperation.outcome, JoinOperation.apply, hxy, if_pos rfl,
      JoinOperation.perform, Row.unjoin, Change.run_query horder, hordered.rows_eq]
    obtain rfl := hordered.order_eq
    refine ⟨s', st', hrun, ⟨hs', hdrops.carries, ?_⟩, hdrops.rows_eq⟩
    -- What is dropped is the pair in its stored order, which stands for both orders.
    refine hs.represents.drop_joined hr hordered.declared (hdrops.congr fun n hn pair hpair => ?_)
    exact and_congr_right fun _ =>
      hordered.isJoinPair_iff hu.id_eq hv.id_eq (hs.carries.ids n hn pair hpair)

/-- A row is joined below another one, where this is declared. At most the pairs of this join are others. -/
theorem Row.run_directedJoin (hp : st.Has p) (hc : st.Has c)
    (hpc : r.areDirectedJoined p.table c.table = true) :
    ∃ s' st', (p.directedJoin c).run.run s = (.ok (), s') ∧
      s'.Records r st' { sets with directed := insert (p, c) sets.directed } ∧
      ∃ pairs, st' = st ∨ st' = st.setPairs (.directed p.table c.table) pairs := by
  have hn := hr.declares_directed_iff.mpr (of_decide_eq_true hpc)
  obtain ⟨found, hrun, hfound⟩ := Row.tells_directedJoined hr hs.follows hs.carries hfits hp hc
  rw [Row.directedJoin, Change.run_query hs.follows.run_registry, hpc]
  cases found with
  | true =>
    -- It is recorded already, and a second insertion changes nothing.
    have hmem := (hs.represents.directed_iff p c).mpr (hfound.mp rfl)
    refine ⟨s, st, Change.run_query hrun, ?_, [], .inl rfl⟩
    rw [Set.insert_eq_of_mem hmem]
    exact hs
  | false =>
    obtain ⟨i, hi⟩ := hp.id_eq
    obtain ⟨j, hj⟩ := hc.id_eq
    -- It is not, so the pair can be added under its primary key.
    have hnew : (.int i, .int j) ∉ st.pairsOf (.directed p.table c.table) := by
      rw [← hi, ← hj]
      exact fun hpair => Bool.false_ne_true (hfound.mpr ⟨hn, hpair⟩)
    have hadds := hs.carries.adds hn hnew
    have hkeys := hs.carries.addPair_eq hn (hi ▸ Store.checkKey_eq_ok (hfits.row hp))
      (hj ▸ Store.checkKey_eq_ok (hfits.row hc)) hnew
    obtain ⟨s', hmutate, hs'⟩ := hs.follows.run_mutate (f := fun store => do
      return (← store.addPair (.directed p.table c.table) (p.id, c.id), ())) (by
        rw [hi, hj]
        change (st.addPair (.directed p.table c.table) (.int i, .int j) >>= fun st' =>
          .ok (st', ())) = _
        rw [hkeys]
        rfl)
    exact ⟨s', _, (Change.run_query hrun).trans hmutate, ⟨hs', hadds.carries,
      hs.represents.add_directed hn (by rwa [hi, hj])⟩, _, .inr rfl⟩

/-- A row is joined below another one. -/
theorem JoinOperation.ends_directedJoin (hp : st.Has p) (hc : st.Has c) :
    (JoinOperation.directedJoin p c).Ends r s st sets := by
  cases hpc : r.areDirectedJoined p.table c.table with
  | false =>
    refine ⟨s, st, (Row.run_directedJoin_undeclared hs.follows hpc).1, ?_, fun _ => rfl⟩
    rw [JoinOperation.apply, hpc]
    exact hs
  | true =>
    obtain ⟨s', st', hrun, hs', pairs, hst'⟩ := Row.run_directedJoin hr hs hfits hp hc hpc
    rw [JoinOperation.Ends, JoinOperation.outcome, JoinOperation.apply, hpc, if_pos rfl]
    refine ⟨s', st', hrun, hs', fun t => ?_⟩
    rcases hst' with rfl | rfl
    · rfl
    · exact Store.Carries.rows_setPairs (hr.declares_directed_iff.mpr (of_decide_eq_true hpc)) pairs t

/-- A directed join ends. -/
theorem JoinOperation.ends_directedUnjoin (hp : st.Has p) (hc : st.Has c) :
    (JoinOperation.directedUnjoin p c).Ends r s st sets := by
  cases hpc : r.areDirectedJoined p.table c.table with
  | false =>
    -- The pair is not declared, so there is nothing to remove.
    refine ⟨s, st, (Row.run_directedJoin_undeclared hs.follows hpc).2, ?_, fun _ => rfl⟩
    rw [JoinOperation.apply, Set.sdiff_singleton_eq_self (hs.represents.notMem_directed hr hpc)]
    exact hs
  | true =>
    have hn := hr.declares_directed_iff.mpr (of_decide_eq_true hpc)
    obtain ⟨i, hi⟩ := hp.id_eq
    obtain ⟨j, hj⟩ := hc.id_eq
    obtain ⟨s', st', hrun, hs', hdrops⟩ := hs.follows.run_removePairs hs.carries hfits hn
      [p, c] (by simp [hp, hc]) (CellPair.identifies (p.id, c.id))
    rw [JoinOperation.Ends, JoinOperation.outcome, JoinOperation.apply, JoinOperation.perform,
      Row.directedUnjoin, Change.run_query hs.follows.run_registry, hpc]
    refine ⟨s', st', hrun, ⟨hs', hdrops.carries, ?_⟩, hdrops.rows_eq⟩
    refine hs.represents.drop_directed (hdrops.congr fun n hn pair hpair => ?_)
    -- The records that match are those equal to the pair, since they hold ids.
    exact and_congr_right fun _ => CellPair.identifies_eq_true_iff ⟨i, j, by rw [hi, hj]⟩
      (hs.carries.ids n hn pair hpair)

end Operations

/-! ### All joins of a row -/

theorem Store.Drops.refl (h : st.Carries r) : Drops r st st fun _ _ => False where
  carries := h
  rows_eq _ := rfl
  mem_iff _ _ _ := by simp

/-- Changes for the tables of a list, each of which takes some pairs away. -/
theorem Session.Follows.run_forM_drops {f : Table → Change Unit} (hs : s.Follows r true st)
    (tables : List Table) (gone : Table → RelationName → CellPair → Prop) (h : st.Carries r)
    (hf : ∀ t ∈ tables, ∀ s₁ st₁, s₁.Follows r true st₁ → st₁.Carries r → (∀ t, st₁.rows t = st.rows t) →
      ∃ s' st', (f t).run.run s₁ = (.ok (), s') ∧ s'.Follows r true st' ∧ Drops r st₁ st' (gone t)) :
    ∃ s' st', (tables.forM f).run.run s = (.ok (), s') ∧ s'.Follows r true st' ∧
      Drops r st st' fun n pair => ∃ t ∈ tables, gone t n pair := by
  induction tables generalizing s st with
  | nil => exact ⟨s, st, rfl, hs, (Drops.refl h).congr (by simp)⟩
  | cons t rest ih =>
    obtain ⟨s₁, st₁, hrun₁, hs₁, hdrops₁⟩ := hf t List.mem_cons_self s st hs h fun _ => rfl
    -- The first action left the rows alone, so the others start under the same conditions.
    obtain ⟨s', st', hrun, hs', hdrops⟩ := ih hs₁ hdrops₁.carries fun u hu s₂ st₂ hs₂ h₂ hrows =>
      hf u (List.mem_cons_of_mem _ hu) s₂ st₂ hs₂ h₂ fun v => (hrows v).trans (hdrops₁.rows_eq v)
    refine ⟨s', st', ?_, hs', (hdrops₁.trans hdrops).congr fun n hn pair hpair => by simp⟩
    change (f t >>= fun _ => rest.forM f).run.run s = _
    rw [Change.run_bind hrun₁, hrun]

/-- A pair of an undirected join touches a row if it names it. -/
theorem Row.touches_iff {order : Table × Table} {id : Cell} {pair : CellPair}
    (ht : order.1 = t ∨ order.2 = t) (hid : ∃ i : Int, id = .int i)
    (hpair : ∃ i j : Int, pair = (.int i, .int j)) :
    Row.touches order t id pair = true ↔ Names (.join order.1 order.2) pair ⟨t, id⟩ := by
  obtain ⟨i, j, rfl⟩ := hpair
  -- The cells hold integers, so they identify each other only when they are equal.
  have hfirst := Cell.identifies_eq_true_iff hid ⟨i, rfl⟩
  have hsecond := Cell.identifies_eq_true_iff hid ⟨j, rfl⟩
  rw [Row.touches, Names, RelationName.joinTables, Row.mk.injEq, Row.mk.injEq]
  split
  · next heq =>
    have hone : order.1 = t := ht.elim (fun hone => hone) fun htwo => heq.trans htwo
    rw [Bool.or_eq_true, hfirst, hsecond, and_iff_right hone, and_iff_right (heq ▸ hone)]
  · next hne =>
    split
    · next hone =>
      rw [hfirst, and_iff_right hone]
      exact (or_iff_left fun htwo => hne (hone.trans htwo.1.symm)).symm
    · next hone =>
      rw [hsecond, and_iff_right (ht.resolve_left hone)]
      exact (or_iff_right fun hfirst => hone hfirst.1).symm

/-- The pairs that are removed in one of the three loops over the joins of a row are those that name
it. -/
theorem gone_iff_names (hr : r.Coherent) (ha : ∃ i : Int, a.id = .int i) (hn : r.Declares n)
    {pair : CellPair} (hpair : ∃ i j : Int, pair = (.int i, .int j)) :
    (((∃ partner ∈ r.joinPartnersOf a.table, ∃ order, r.orderJoined? a.table partner = some order ∧
        n = .join order.1 order.2 ∧ Row.touches order a.table a.id pair = true) ∨
      ∃ parent ∈ r.directedParentsOf a.table,
        n = .directed parent a.table ∧ a.id.identifies pair.2 = true) ∨
      ∃ child ∈ r.directedChildrenOf a.table,
        n = .directed a.table child ∧ a.id.identifies pair.1 = true) ↔ Names n pair a := by
  obtain ⟨i, j, rfl⟩ := hpair
  have hfirst := Cell.identifies_eq_true_iff ha ⟨i, rfl⟩
  have hsecond := Cell.identifies_eq_true_iff ha ⟨j, rfl⟩
  constructor
  · rintro ((⟨partner, -, order, ho, rfl, hfound⟩ | ⟨parent, -, rfl, hfound⟩) | ⟨child, -, rfl, hfound⟩)
    · have ht : order.1 = a.table ∨ order.2 = a.table :=
        (hr.declares_of_orderJoined? ho).2.imp (congrArg Prod.fst) (congrArg Prod.snd)
      exact (Row.touches_iff ht ha ⟨i, j, rfl⟩).mp hfound
    · exact .inr (congrArg (Row.mk a.table) (hsecond.mp hfound))
    · exact .inl (congrArg (Row.mk a.table) (hfirst.mp hfound))
  · intro hnames
    cases n with
    | join x y =>
      have hmem := hr.declares_join_iff.mp hn
      have hordered := hr.orderJoined?_of_mem hmem
      have hpartners := hr.mem_joinPartnersOf hmem
      -- The partner is the table at the other end.
      rcases hnames with rfl | rfl
      · exact .inl (.inl ⟨y, hpartners.1, _, hordered.1, rfl,
          (Row.touches_iff (.inl rfl) ha ⟨i, j, rfl⟩).mpr (.inl rfl)⟩)
      · exact .inl (.inl ⟨x, hpartners.2, _, hordered.2, rfl,
          (Row.touches_iff (.inr rfl) ha ⟨i, j, rfl⟩).mpr (.inr rfl)⟩)
    | directed p c =>
      have hmem := hr.declares_directed_iff.mp hn
      rcases hnames with rfl | rfl
      · exact .inr ⟨c, hmem, rfl, hfirst.mpr rfl⟩
      · exact .inl (.inr ⟨p, hr.mem_directedParentsOf_iff.mpr hmem, rfl, hsecond.mpr rfl⟩)
    | entity => exact hn.elim
    | other => exact hn.elim

/-- All joins of a row end. -/
theorem JoinOperation.ends_removeAll {sets : JoinSets} (hr : r.Coherent) (hs : s.Records r st sets)
    (hfits : st.Fits) (ha : st.Has a) : (JoinOperation.removeAll a).Ends r s st sets := by
  -- Removing pairs of one join works in whatever store the removals before it left.
  have hremove : ∀ n, r.Declares n → ∀ (meets : CellPair → Bool) s₁ st₁, s₁.Follows r true st₁ →
      st₁.Carries r → (∀ t, st₁.rows t = st.rows t) →
        ∃ s' st', (Change.removePairs n [a.id] meets).run.run s₁ = (.ok (), s') ∧ s'.Follows r true st' ∧
          Drops r st₁ st' fun m pair => m = n ∧ meets pair = true := by
    intro n hn meets s₁ st₁ hs₁ h₁ hrows
    have hfits₁ : st₁.Fits := fun t record hrecord => hfits t record (hrows t ▸ hrecord)
    have ha₁ : st₁.Has a := by rwa [Store.Has, hrows]
    exact hs₁.run_removePairs h₁ hfits₁ hn [a] (by simp [ha₁]) meets
  obtain ⟨s₁, st₁, hrun₁, hs₁, hdrops₁⟩ := hs.follows.run_forM_drops (r.joinPartnersOf a.table)
    (fun partner n pair => ∃ order, r.orderJoined? a.table partner = some order ∧
      n = .join order.1 order.2 ∧ Row.touches order a.table a.id pair = true)
    (f := fun partner => (r.orderJoined? a.table partner).elim (pure ()) fun order =>
      Change.removePairs (.join order.1 order.2) [a.id] (Row.touches order a.table a.id))
    hs.carries fun partner _ s₁ st₁ hs₁ h₁ hrows => by
      cases ho : r.orderJoined? a.table partner with
      | none => exact ⟨s₁, st₁, rfl, hs₁, (Drops.refl h₁).congr (by simp)⟩
      | some order =>
        obtain ⟨s', st', hrun, hs', hdrops⟩ := hremove _ (hr.declares_of_orderJoined? ho).1 _ s₁ st₁
          hs₁ h₁ hrows
        exact ⟨s', st', hrun, hs', hdrops.congr (by simp)⟩
  obtain ⟨s₂, st₂, hrun₂, hs₂, hdrops₂⟩ := hs₁.run_forM_drops (r.directedParentsOf a.table)
    (fun parent n pair => n = .directed parent a.table ∧ a.id.identifies pair.2 = true)
    hdrops₁.carries fun parent hparent s' st' hs' h' hrows =>
      hremove _ (hr.declares_directed_iff.mpr (hr.mem_directedParentsOf_iff.mp hparent)) _ s' st' hs' h'
        fun t => (hrows t).trans (hdrops₁.rows_eq t)
  obtain ⟨s₃, st₃, hrun₃, hs₃, hdrops₃⟩ := hs₂.run_forM_drops (r.directedChildrenOf a.table)
    (fun child n pair => n = .directed a.table child ∧ a.id.identifies pair.1 = true)
    hdrops₂.carries fun child hchild s' st' hs' h' hrows =>
      hremove _ (hr.declares_directed_iff.mpr hchild) _ s' st' hs' h'
        fun t => (hrows t).trans ((hdrops₂.rows_eq t).trans (hdrops₁.rows_eq t))
  have hdrops := (hdrops₁.trans hdrops₂).trans hdrops₃
  refine ⟨s₃, st₃, ?_, ⟨hs₃, hdrops.carries, hs.represents.drop_names
    (hdrops.congr fun n hn pair hpair => ?_)⟩, hdrops.rows_eq⟩
  · rw [perform, Row.removeAllJoins, Change.run_query hs.follows.run_registry]
    refine Eq.trans (Change.run_bind (a := ()) ?_) ((Change.run_bind hrun₂).trans hrun₃)
    rw [← hrun₁]
    refine congrArg (fun f : Table → Change Unit => ((r.joinPartnersOf a.table).forM f).run.run s)
      (funext fun partner => ?_)
    cases r.orderJoined? a.table partner <;> rfl
  · exact gone_iff_names hr ha.id_eq hn (hs.carries.ids n hn pair hpair)

/-- Every operation does to the store what it does to the sets. -/
theorem JoinOperation.ends {sets : JoinSets} (hr : r.Coherent) (hs : s.Records r st sets)
    (hfits : st.Fits) (op : JoinOperation) (hrows : ∀ x ∈ op.rows, st.Has x) :
    op.Ends r s st sets := by
  cases op with
  | join x y => exact ends_join hr hs hfits (hrows x (by simp [rows])) (hrows y (by simp [rows]))
  | unjoin x y => exact ends_unjoin hr hs hfits (hrows x (by simp [rows])) (hrows y (by simp [rows]))
  | directedJoin p c =>
    exact ends_directedJoin hr hs hfits (hrows p (by simp [rows])) (hrows c (by simp [rows]))
  | directedUnjoin p c =>
    exact ends_directedUnjoin hr hs hfits (hrows p (by simp [rows])) (hrows c (by simp [rows]))
  | removeAll a => exact ends_removeAll hr hs hfits (hrows a (by simp [rows]))

/-! ### Many operations -/

/-- Operations in a row do to the store what they do to the sets. -/
theorem run_operations {sets : JoinSets} (hr : r.Coherent) (hs : s.Records r st sets)
    (hfits : st.Fits) (ops : List JoinOperation) (hrows : ∀ op ∈ ops, ∀ x ∈ op.rows, st.Has x) :
    ∃ s' st', (JoinOperation.performAll ops).run s = (ops.map (·.outcome r), s') ∧
      s'.Records r st' (ops.foldl (JoinOperation.apply r) sets) ∧ ∀ t, st'.rows t = st.rows t := by
  induction ops generalizing s st sets with
  | nil => exact ⟨s, st, rfl, hs, fun _ => rfl⟩
  | cons op rest ih =>
    obtain ⟨s₁, st₁, hrun₁, hs₁, hrows₁⟩ :=
      JoinOperation.ends hr hs hfits op (hrows op List.mem_cons_self)
    -- No operation touches a record, so rows and bounds carry over to the rest.
    have hfits₁ : st₁.Fits := fun t record hrecord => hfits t record (hrows₁ t ▸ hrecord)
    obtain ⟨s', st', hrun, hs', hrows'⟩ := ih hs₁ hfits₁ fun op' hop' x hx => by
      rw [Store.Has, hrows₁]
      exact hrows op' (List.mem_cons_of_mem _ hop') x hx
    refine ⟨s', st', ?_, hs', fun t => (hrows' t).trans (hrows₁ t)⟩
    have hcons : (JoinOperation.performAll (op :: rest)).run s =
        let results := (JoinOperation.performAll rest).run (op.perform.run.run s).2
        ((op.perform.run.run s).1 :: results.1, results.2) := by
      rw [JoinOperation.performAll, List.mapM_cons]
      rfl
    rw [hcons, hrun₁, hrun]
    rfl

/-- How the queries about the joins of existing rows answer. -/
structure Session.Answers (s : Session) (st : Store) (sets : JoinSets) : Prop where
  joined : ∀ x y, st.Has x → st.Has y → (x.joined y).Tells s (s(x, y) ∈ sets.joined)
  directedJoined : ∀ x y, st.Has x → st.Has y →
    (x.directedJoined y).Tells s ((x, y) ∈ sets.directed)
  joinedRows : ∀ x t, st.Has x → (x.joinedRows t).Lists s fun y =>
    y.table = t ∧ (s(x, y) ∈ sets.joined ∨ (x, y) ∈ sets.directed)
  directedChildrenOfType : ∀ x t, st.Has x → (x.directedChildrenOfType t).Lists s fun y =>
    y.table = t ∧ (x, y) ∈ sets.directed
  directedChildren : ∀ x, st.Has x → x.directedChildren.Lists s fun y => (x, y) ∈ sets.directed
  parentJoinedRows : ∀ x, st.Has x → x.parentJoinedRows.Lists s fun y => (y, x) ∈ sets.directed

/-- Where the joins of some sets are recorded, the queries answer as the sets do. -/
theorem Session.Records.answers {sets : JoinSets} (hr : r.Coherent) (hs : s.Records r st sets)
    (hfits : st.Fits) : s.Answers st sets where
  joined x y hx hy := by
    rw [hs.represents.joined_iff]
    exact Row.tells_joined hr hs.follows hs.carries hfits hx hy
  directedJoined x y hx hy := by
    rw [hs.represents.directed_iff]
    exact Row.tells_directedJoined hr hs.follows hs.carries hfits hx hy
  joinedRows x t hx := by
    simp only [hs.represents.joined_iff, hs.represents.directed_iff]
    exact Row.lists_joinedRows hr hs.follows hs.carries hfits hx t
  directedChildrenOfType x t hx := by
    simp only [hs.represents.directed_iff]
    exact Row.lists_directedChildrenOfType hr hs.follows hs.carries hfits hx t
  directedChildren x hx := by
    simp only [hs.represents.directed_iff]
    exact Row.lists_directedChildren hr hs.follows hs.carries hfits hx
  parentJoinedRows x hx := by
    simp only [hs.represents.directed_iff]
    exact Row.lists_parentJoinedRows hr hs.follows hs.carries hfits hx

/-- Joins refine sets of pairs, whatever joins are declared. Operations on existing rows end as they
should, so no pair is ever recorded twice, and afterwards every query answers as the sets do. Joins of
undeclared tables are refused, directed ones passed over, and both leave everything as it is. -/
theorem joins_refine {ds : List Declaration} {sets : JoinSets}
    (hs : s.Records (.ofDeclarations ds) st sets) (hfits : st.Fits) (ops : List JoinOperation)
    (hrows : ∀ op ∈ ops, ∀ x ∈ op.rows, st.Has x) :
    let r := Registry.ofDeclarations ds
    ∃ s' st', (JoinOperation.performAll ops).run s = (ops.map (·.outcome r), s') ∧
      s'.Follows r true st' ∧ (∀ t, st'.rows t = st.rows t) ∧
      s'.Answers st' (ops.foldl (JoinOperation.apply r) sets) ∧
      (∀ x y : Row, r.areJoined x.table y.table = false →
        (x.join y).run.run s' = (.error (.notJoined x.table y.table), s') ∧
        (x.unjoin y).run.run s' = (.error (.notJoined x.table y.table), s')) ∧
      ∀ p c : Row, r.areDirectedJoined p.table c.table = false →
        (p.directedJoin c).run.run s' = (.ok (), s') ∧
        (p.directedUnjoin c).run.run s' = (.ok (), s') := by
  intro r
  have hr := Registry.coherent_ofDeclarations ds
  obtain ⟨s', st', hrun, hs', hrows'⟩ := run_operations hr hs hfits ops hrows
  -- The operations keep the rows, and with them the bound on the ids.
  have hfits' : st'.Fits := fun t record hrecord => hfits t record (hrows' t ▸ hrecord)
  exact ⟨s', st', hrun, hs'.follows, hrows', hs'.answers hr hfits',
    fun _ _ => Row.run_join_undeclared hs'.follows,
    fun _ _ => Row.run_directedJoin_undeclared hs'.follows⟩

/-- Declarations of joins between two tables, one of them with itself. -/
def pairing : List Declaration :=
  [.join .operators .agents, .join .agents .agents, .directedJoin .agents .operators]

/-- A store for these joins, with two agents and an operator. -/
def Store.unpaired : Store where
  relations :=
    [(.entity .agents, .records [] [⟨1, []⟩, ⟨2, []⟩]), (.entity .operators, .records [] [⟨1, []⟩]),
      (.join .operators .agents, .pairs "first_id" "second_id" []),
      (.join .agents .agents, .pairs "first_id" "second_id" []),
      (.directed .agents .operators, .pairs "parent_id" "child_id" [])]

/-- Nothing is joined in this store. -/
theorem Store.unjoined_unpaired : unpaired.Unjoined (.ofDeclarations pairing) := by
  intro n hn
  cases n with
  | join a b =>
    have hpairs : (Registry.ofDeclarations pairing).joinedPairs =
        [(.operators, .agents), (.agents, .agents)] := by decide
    -- Two joins and one directed join are declared, and none has a record yet.
    have hmem : (a, b) ∈ [(Table.operators, Table.agents), (.agents, .agents)] := hpairs ▸ hn
    simp only [List.mem_cons, Prod.mk.injEq, List.not_mem_nil, or_false] at hmem
    rcases hmem with ⟨rfl, rfl⟩ | ⟨rfl, rfl⟩ <;> rfl
  | directed p c =>
    have hpairs : (Registry.ofDeclarations pairing).directedPairs = [(.agents, .operators)] := by decide
    have hmem : (p, c) ∈ [(Table.agents, Table.operators)] := hpairs ▸ hn
    simp only [List.mem_singleton, Prod.mk.injEq] at hmem
    obtain ⟨rfl, rfl⟩ := hmem
    rfl
  | entity => exact hn.elim
  | other => exact hn.elim

/-- The joins of two agents and an operator, made and ended in different ways. -/
def pairingOperations : List JoinOperation :=
  [.join (.ofId .agents 1) (.ofId .agents 2), .join (.ofId .agents 1) (.ofId .operators 1),
    .join (.ofId .agents 1) (.ofId .agents 1), .unjoin (.ofId .agents 2) (.ofId .agents 1),
    .directedJoin (.ofId .agents 1) (.ofId .operators 1), .removeAll (.ofId .operators 1)]

/-- One agent is left joined with itself. -/
theorem apply_pairingOperations :
    pairingOperations.foldl (JoinOperation.apply (.ofDeclarations pairing)) .empty =
      ⟨{s(.ofId .agents 1, .ofId .agents 1)}, ∅⟩ := by
  have hagents : (Registry.ofDeclarations pairing).areJoined .agents .agents = true := by decide
  have hboth : (Registry.ofDeclarations pairing).areJoined .agents .operators = true := by decide
  have hbelow : (Registry.ofDeclarations pairing).areDirectedJoined .agents .operators = true := by
    decide
  simp only [pairingOperations, List.foldl, JoinOperation.apply, hagents, hboth, hbelow, if_true,
    JoinSets.empty, JoinSets.mk.injEq]
  refine ⟨Set.ext fun pair => ⟨?_, ?_⟩, Set.ext fun pair => ⟨?_, fun hpair => hpair.elim⟩⟩
  · -- Of the three pairs that were recorded, one is unjoined and one goes with its row.
    rintro ⟨⟨rfl | rfl | rfl | hnone, hkept⟩, hnot⟩
    · rfl
    · exact absurd (Sym2.mem_mk_right _ _) hnot
    · exact absurd Sym2.eq_swap hkept
    · exact hnone.elim
  · rintro rfl
    refine ⟨⟨.inl rfl, ?_⟩, ?_⟩ <;> simp
  · rintro ⟨rfl | hnone, -, hnot⟩
    · exact absurd rfl hnot
    · exact hnone.elim

/-- The theorem for these operations: none of them is refused, and the queries find what is left. -/
theorem joins_refine_pairing :
    ∃ s' st', (JoinOperation.performAll pairingOperations).run
          { registry := .ofDeclarations pairing, connection := .memory Store.unpaired } =
        (List.replicate 6 (.ok ()), s') ∧
      s'.Answers st' ⟨{s(.ofId .agents 1, .ofId .agents 1)}, ∅⟩ := by
  have hunjoined := Store.unjoined_unpaired
  have hagents : Store.unpaired.rows .agents = [⟨1, []⟩, ⟨2, []⟩] := rfl
  have hoperators : Store.unpaired.rows .operators = [⟨1, []⟩] := rfl
  -- Both tables have few records, with small ids.
  have hfits : Store.unpaired.Fits := by
    intro t record hrecord
    cases t with
    | agents =>
      rcases List.mem_pair.mp (hagents ▸ hrecord) with rfl | rfl <;> rfl
    | operators =>
      obtain rfl := List.mem_singleton.mp (hoperators ▸ hrecord)
      rfl
    | _ => cases hrecord
  have hrows : ∀ x ∈ pairingOperations.flatMap (·.rows), Store.unpaired.Has x := by
    have hfirst : Store.unpaired.Has (.ofId .agents 1) := ⟨⟨1, []⟩, by simp [hagents], rfl⟩
    have hsecond : Store.unpaired.Has (.ofId .agents 2) := ⟨⟨2, []⟩, by simp [hagents], rfl⟩
    have hthird : Store.unpaired.Has (.ofId .operators 1) := ⟨⟨1, []⟩, by simp [hoperators], rfl⟩
    simp [pairingOperations, JoinOperation.rows, hfirst, hsecond, hthird]
  let s : Session := { registry := .ofDeclarations pairing, connection := .memory Store.unpaired }
  have hrecords : s.Records (.ofDeclarations pairing) Store.unpaired .empty :=
    ⟨⟨rfl, rfl, rfl⟩, hunjoined.carries, hunjoined.represents⟩
  obtain ⟨s', st', hrun, -, -, hanswers, -⟩ := joins_refine hrecords hfits pairingOperations
    fun op hop x hx => hrows x (List.mem_flatMap.mpr ⟨op, hop, hx⟩)
  rw [apply_pairingOperations] at hanswers
  have houtcomes : pairingOperations.map (JoinOperation.outcome (.ofDeclarations pairing)) =
      List.replicate 6 (.ok ()) := rfl
  exact ⟨s', st', hrun.trans (by rw [houtcomes]), hanswers⟩

end SoarProject
