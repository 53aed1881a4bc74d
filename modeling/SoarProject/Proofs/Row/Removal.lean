import SoarProject.Proofs.Row.Lookup

/-!
# Removing joins and rows

What is left of a store when a join of two rows ends, when all joins of a row end, and when the record
of a row without children is deleted.

* `Row.ends_directedUnjoin`: one pair is gone.
* `Row.ends_removeAllJoins`: exactly the pairs that name the row are gone.
* `Row.ends_delete`: the row is gone too, and all other rows are left.
-/

namespace SoarProject

open Registry

variable {w : Bool} {st st' st'' : Store} {r p c : Row} {t : Table} {id : Int} {n : RelationName}

/-! ### Pairs that meet a condition -/

/-- Removing pairs leaves those that do not meet the condition. -/
theorem Change.Ends.removePairs (h : st.Sound) (hn : n.IsJoin) (rows : List Row)
    (drop : CellPair → Bool) :
    (Change.removePairs n (rows.map (·.id)) drop).Ends w st
      (fun _ st' => st' = st.setPairs n ((st.pairsOf n).filter (!drop ·)))
      (fun st' => st' = st ∧ ¬ (w = true ∧ ∀ r ∈ rows, r.Fits)) := by
  refine Change.Ends.mutate ?_ ?_
  · rintro st' ⟨⟩ - hresult
    obtain ⟨st₁, hremoved, heq⟩ := exceptBind_eq_ok.mp hresult
    cases heq
    rw [h.shaped.removePairs_eq hn] at hremoved
    obtain ⟨-, -, hremoved⟩ := exceptBind_eq_ok.mp hremoved
    exact (Except.ok.inj hremoved).symm
  · rintro hfailed
    refine ⟨rfl, ?_⟩
    rintro ⟨hwritable, hfits⟩
    -- Removing fails only without write access or on an id that does not fit.
    rcases hfailed with hreadonly | ⟨e, he⟩
    · exact Bool.false_ne_true (hreadonly.symm.trans hwritable)
    · rw [h.shaped.removePairs_eq hn, Store.forM_checkKey_eq_ok hfits] at he
      cases he

/-! ### The pairs of a row -/

namespace Store

/-- A pair names a row at one of its ends. -/
def Names (n : RelationName) (pair : CellPair) (r : Row) : Prop :=
  ⟨n.joinTables.1, pair.1⟩ = r ∨ ⟨n.joinTables.2, pair.2⟩ = r

/-- Some pairs that name a row are gone; everything else is left. -/
structure Unjoins (st st' : Store) (r : Row) : Prop where
  within : st'.Within st
  sound : st'.Sound
  /-- No row is gone. -/
  has : ∀ q, st.Has q → st'.Has q
  /-- Pairs that do not name the row are left. -/
  kept : ∀ n : RelationName, n.IsJoin → ∀ pair ∈ st.pairsOf n, ¬ Names n pair r →
    pair ∈ st'.pairsOf n

namespace Unjoins

theorem refl (h : st.Sound) : st.Unjoins st r where
  within := .refl st
  sound := h
  has _ hq := hq
  kept _ _ _ hpair _ := hpair

theorem trans (h : st.Unjoins st' r) (h' : st'.Unjoins st'' r) : st.Unjoins st'' r where
  within := h'.within.trans h.within
  sound := h'.sound
  has q hq := h'.has q (h.has q hq)
  kept n hn pair hpair hnames := h'.kept n hn pair (h.kept n hn pair hpair hnames) hnames

end Unjoins

/-- Pairs that name a row are removed from a join. -/
theorem Sound.unjoins_setPairs (h : st.Sound) (hn : n.IsJoin) (drop : CellPair → Bool)
    (hdrop : ∀ pair ∈ st.pairsOf n, drop pair = true → Names n pair r) :
    st.Unjoins (st.setPairs n ((st.pairsOf n).filter (!drop ·))) r where
  within := h.shaped.within_setPairs hn _
  sound := h.setPairs_filter hn _
  has q hq := (has_setPairs hn _).mpr hq
  kept m hm pair hpair hnames := by
    rw [h.shaped.pairsOf_setPairs hn]
    split
    · next hmn =>
      -- A pair of this relation that does not name the row is not dropped.
      subst hmn
      refine List.mem_filter.mpr ⟨hpair, ?_⟩
      rw [Bool.not_eq_true']
      exact eq_false_of_ne_true fun hdropped => hnames (hdrop pair hpair hdropped)
    · exact hpair

end Store

open Store (Names Unjoins)

/-- The pairs of a join that meet a condition are removed, where the condition is on a row. -/
theorem Change.Ends.removePairs_of_iff (h : st.Sound) (hn : n.IsJoin) {drop : CellPair → Bool}
    {P : CellPair → Prop} (hdrop : ∀ pair ∈ st.pairsOf n, drop pair = true ↔ P pair)
    (hnames : ∀ pair, P pair → Names n pair r) :
    (Change.removePairs n [r.id] drop).Ends w st
      (fun _ st' => st.Unjoins st' r ∧ ∀ pair ∈ st'.pairsOf n, ¬ P pair)
      (fun st' => st.Unjoins st' r ∧ ¬ (w = true ∧ r.Fits)) := by
  refine (Change.Ends.removePairs h hn [r] drop).mono ?_ ?_
  · rintro - _ rfl
    refine ⟨h.unjoins_setPairs hn drop fun pair hpair hdropped =>
      hnames pair ((hdrop pair hpair).mp hdropped), fun pair hpair hmeets => ?_⟩
    -- What is left was not dropped, so it is no pair of those to be removed.
    rw [h.shaped.pairsOf_setPairs hn, if_pos rfl, List.mem_filter] at hpair
    rw [(hdrop pair hpair.1).mpr hmeets] at hpair
    exact Bool.false_ne_true hpair.2
  · rintro _ ⟨rfl, hrefused⟩
    refine ⟨.refl h, fun hsure => hrefused ⟨hsure.1, ?_⟩⟩
    simpa using hsure.2

/-- A row is freed from one join after another. `Freed` holds once the joins of a table are gone. -/
theorem Change.Ends.forM_unjoins {f : Table → Change Unit} {tables : List Table}
    {Freed : Table → Store → Prop} (h : st.Sound)
    (hfreed : ∀ t st₁ st₂, st₂.Within st₁ → Freed t st₁ → Freed t st₂)
    (hf : ∀ t ∈ tables, ∀ st₁, st₁.Sound → (f t).Ends w st₁
      (fun _ st' => st₁.Unjoins st' r ∧ Freed t st')
      (fun st' => st₁.Unjoins st' r ∧ ¬ (w = true ∧ r.Fits))) :
    (tables.forM f).Ends w st (fun _ st' => st.Unjoins st' r ∧ ∀ t ∈ tables, Freed t st')
      (fun st' => st.Unjoins st' r ∧ ¬ (w = true ∧ r.Fits)) := by
  -- The invariant: the tables done so far are free, and stay so while others are removed.
  let I (rest : List Table) (st' : Store) : Prop :=
    rest ⊆ tables ∧ st.Unjoins st' r ∧ ∀ t ∈ tables, t ∈ rest ∨ Freed t st'
  refine (Change.Ends.forM I ?_ ⟨List.Subset.refl _, .refl h, fun t ht => Or.inl ht⟩).mono ?_
    fun _ hE => hE
  · rintro t rest st₁ ⟨hsubset, hunjoins, hdone⟩
    refine (hf t (hsubset List.mem_cons_self) st₁ hunjoins.sound).mono ?_ ?_
    · rintro - st' ⟨hstep, hnew⟩
      refine ⟨fun u hu => hsubset (List.mem_cons_of_mem _ hu), hunjoins.trans hstep, ?_⟩
      intro u hu
      rcases hdone u hu with hmem | hdone
      · rcases List.mem_cons.mp hmem with rfl | hmem
        · exact Or.inr hnew
        · exact Or.inl hmem
      · exact Or.inr (hfreed u st₁ st' hstep.within hdone)
    · rintro st' ⟨hstep, hrefused⟩
      exact ⟨hunjoins.trans hstep, hrefused⟩
  · rintro - st' ⟨-, hunjoins, hdone⟩
    exact ⟨hunjoins, fun t ht => (hdone t ht).resolve_left List.not_mem_nil⟩

/-! ### Which pairs name a row -/

namespace Store

/-- The first end of a pair is a row if its id is asked for. -/
theorem Sound.identifies_fst_iff (h : st.Sound) (hn : n.IsJoin) {pair : CellPair}
    (hpair : pair ∈ st.pairsOf n) (ht : n.joinTables.1 = t) :
    (Cell.int id).identifies pair.1 = true ↔ Row.mk n.joinTables.1 pair.1 = .ofId t id := by
  rw [(h.pairs_exist n hn pair hpair).1.identifies_iff, Row.ofId, Row.mk.injEq, ht]
  simp

/-- The second end of a pair is a row if its id is asked for. -/
theorem Sound.identifies_snd_iff (h : st.Sound) (hn : n.IsJoin) {pair : CellPair}
    (hpair : pair ∈ st.pairsOf n) (ht : n.joinTables.2 = t) :
    (Cell.int id).identifies pair.2 = true ↔ Row.mk n.joinTables.2 pair.2 = .ofId t id := by
  rw [(h.pairs_exist n hn pair hpair).2.identifies_iff, Row.ofId, Row.mk.injEq, ht]
  simp

/-- A pair of an undirected join touches a row if it names it. -/
theorem Sound.touches_iff (h : st.Sound) {order : Table × Table} (ho : order ∈ project.joinedPairs)
    (ht : order.1 = t ∨ order.2 = t) {pair : CellPair}
    (hpair : pair ∈ st.pairsOf (.join order.1 order.2)) :
    Row.touches order t (.int id) pair = true ↔
      Names (.join order.1 order.2) pair (.ofId t id) := by
  -- The pair names the row on the side of its own table only.
  have hn : (RelationName.join order.1 order.2).IsJoin := ho
  have hfirst : order.1 ≠ t → Row.mk order.1 pair.1 ≠ .ofId t id :=
    fun hne heq => hne (congrArg Row.table heq)
  have hsecond : order.2 ≠ t → Row.mk order.2 pair.2 ≠ .ofId t id :=
    fun hne heq => hne (congrArg Row.table heq)
  unfold Row.touches Names
  simp only [RelationName.joinTables]
  split
  · next heq =>
    have hone : order.1 = t := ht.elim (fun h => h) fun h => heq.trans h
    rw [Bool.or_eq_true, h.identifies_fst_iff hn hpair hone,
      h.identifies_snd_iff hn hpair (heq.symm.trans hone)]
    rfl
  · next hne =>
    split
    · next hone =>
      rw [h.identifies_fst_iff hn hpair hone]
      exact (or_iff_left (hsecond fun htwo => hne (hone.trans htwo.symm))).symm
    · next hone =>
      rw [h.identifies_snd_iff hn hpair (ht.resolve_left hone)]
      exact (or_iff_right (hfirst hone)).symm

end Store

namespace Row

/-! ### Ending joins -/

/-- The pair of a directed join is removed. -/
theorem ends_directedUnjoin (h : st.Sound) {u : Table} {key : Int} :
    (directedUnjoin (.ofId t id) (.ofId u key)).Ends w st
      (fun _ st' => st'.Within st ∧ st'.Sound ∧ (∀ q, st.Has q → st'.Has q) ∧
        ∀ n, n.IsJoin → ∀ pair ∈ st.pairsOf n,
          (pair ∈ st'.pairsOf n ↔ ¬ (n = .directed t u ∧ pair = (.int id, .int key))))
      (fun st' => st' = st ∧ ¬ (w = true ∧ (ofId t id).Fits ∧ (ofId u key).Fits)) := by
  unfold directedUnjoin
  refine Change.Ends.registry ?_
  cases hdeclared : project.areDirectedJoined t u with
  -- An undeclared pair is not recorded, and nothing happens.
  | false =>
    refine Change.Ends.pure ⟨.refl st, h, fun _ hq => hq, fun n hn pair hpair => ?_⟩
    refine iff_of_true hpair ?_
    rintro ⟨rfl, -⟩
    have hjoined := mem_directedPairs_iff.mp hn
    rw [areDirectedJoined, decide_eq_false_iff_not] at hdeclared
    exact hdeclared hjoined
  | true =>
    have hn : (RelationName.directed t u).IsJoin :=
      mem_directedPairs_iff.mpr (of_decide_eq_true hdeclared)
    refine (Change.Ends.removePairs h hn [.ofId t id, .ofId u key] _).mono ?_ ?_
    · rintro - _ rfl
      refine ⟨h.shaped.within_setPairs hn _, h.setPairs_filter hn _,
        fun q hq => (Store.has_setPairs hn _).mpr hq, fun m hm pair hpair => ?_⟩
      rw [h.shaped.pairsOf_setPairs hn]
      split
      · next hmn =>
        subst hmn
        -- Exactly the pair of the two rows is filtered out.
        have hends := h.pairs_exist _ hn pair hpair
        rw [List.mem_filter, Bool.not_eq_true', ← Bool.not_eq_true, CellPair.identifies,
          Bool.and_eq_true, hends.1.identifies_iff, hends.2.identifies_iff, Prod.ext_iff]
        simp [hpair]
      · next hmn => simp [hpair, hmn]
    · rintro _ ⟨rfl, hrefused⟩
      refine ⟨rfl, fun hsure => hrefused ⟨hsure.1, ?_⟩⟩
      simpa using hsure.2

/-- The undirected joins of a row are removed. -/
theorem ends_removeJoins (h : st.Sound) :
    ((project.joinPartnersOf t).forM fun partner =>
      match project.orderJoined? t partner with
      | none => pure ()
      | some order => Change.removePairs (.join order.1 order.2) [.int id]
          (touches order t (.int id))).Ends w st
      (fun _ st' => st.Unjoins st' (.ofId t id) ∧ ∀ partner ∈ project.joinPartnersOf t,
        ∀ o, project.orderJoined? t partner = some o →
          ∀ pair ∈ st'.pairsOf (.join o.1 o.2), ¬ Names (.join o.1 o.2) pair (.ofId t id))
      (fun st' => st.Unjoins st' (.ofId t id) ∧ ¬ (w = true ∧ (ofId t id).Fits)) := by
  refine Change.Ends.forM_unjoins h ?_ ?_
  · intro partner st₁ st₂ hwithin hfreed o ho pair hpair
    exact hfreed o ho pair (hwithin.pairs_subset _ hpair)
  · -- For each partner table the pairs that name the row are removed.
    intro partner hpartner st₁ hst₁
    obtain ⟨o, ho⟩ := orderJoined?_of_mem_joinPartnersOf hpartner
    obtain ⟨hdeclared, htables⟩ := mem_joinedPairs_of_orderJoined? ho
    have ht : o.1 = t ∨ o.2 = t := by
      rcases htables with rfl | rfl
      · exact Or.inl rfl
      · exact Or.inr rfl
    have hn : (RelationName.join o.1 o.2).IsJoin := hdeclared
    simp only [ho]
    refine (Change.Ends.removePairs_of_iff (r := .ofId t id) hst₁ hn
      (fun pair hpair => hst₁.touches_iff hdeclared ht hpair) fun _ hnames => hnames).mono ?_
      fun _ hE => hE
    rintro - st' ⟨hunjoins, hfree⟩
    refine ⟨hunjoins, fun o' ho' => ?_⟩
    cases ho'
    exact hfree

/-- The directed joins of a row are removed in which it is the child. -/
theorem ends_removeParentJoins (h : st.Sound) :
    ((project.directedParentsOf t).forM fun parent =>
      Change.removePairs (.directed parent t) [.int id] fun p => (Cell.int id).identifies p.2).Ends
      w st
      (fun _ st' => st.Unjoins st' (.ofId t id) ∧ ∀ parent ∈ project.directedParentsOf t,
        ∀ pair ∈ st'.pairsOf (.directed parent t), Row.mk t pair.2 ≠ .ofId t id)
      (fun st' => st.Unjoins st' (.ofId t id) ∧ ¬ (w = true ∧ (ofId t id).Fits)) := by
  refine Change.Ends.forM_unjoins h ?_ fun parent hparent st₁ hst₁ => ?_
  · exact fun parent st₁ st₂ hwithin hfreed pair hpair =>
      hfreed pair (hwithin.pairs_subset _ hpair)
  · have hn : (RelationName.directed parent t).IsJoin :=
      mem_directedPairs_iff.mpr (mem_directedParentsOf_iff.mp hparent)
    exact Change.Ends.removePairs_of_iff (r := .ofId t id) hst₁ hn
      (fun pair hpair => hst₁.identifies_snd_iff hn hpair rfl) fun _ hnames => Or.inr hnames

/-- The directed joins of a row are removed in which it is the parent. -/
theorem ends_removeChildJoins (h : st.Sound) :
    ((project.directedChildrenOf t).forM fun child =>
      Change.removePairs (.directed t child) [.int id] fun p => (Cell.int id).identifies p.1).Ends
      w st
      (fun _ st' => st.Unjoins st' (.ofId t id) ∧ ∀ child ∈ project.directedChildrenOf t,
        ∀ pair ∈ st'.pairsOf (.directed t child), Row.mk t pair.1 ≠ .ofId t id)
      (fun st' => st.Unjoins st' (.ofId t id) ∧ ¬ (w = true ∧ (ofId t id).Fits)) := by
  refine Change.Ends.forM_unjoins h ?_ fun child hchild st₁ hst₁ => ?_
  · exact fun child st₁ st₂ hwithin hfreed pair hpair =>
      hfreed pair (hwithin.pairs_subset _ hpair)
  · have hn : (RelationName.directed t child).IsJoin := mem_directedPairs_iff.mpr hchild
    exact Change.Ends.removePairs_of_iff (r := .ofId t id) hst₁ hn
      (fun pair hpair => hst₁.identifies_fst_iff hn hpair rfl) fun _ hnames => Or.inl hnames

/-- All pairs that name a row are removed, and no others. -/
theorem ends_removeAllJoins (h : st.Sound) :
    (ofId t id).removeAllJoins.Ends w st
      (fun _ st' => st.Unjoins st' (.ofId t id) ∧
        ∀ n : RelationName, n.IsJoin → ∀ pair ∈ st'.pairsOf n, ¬ Names n pair (.ofId t id))
      (fun st' => st.Unjoins st' (.ofId t id) ∧ ¬ (w = true ∧ (ofId t id).Fits)) := by
  unfold removeAllJoins
  refine Change.Ends.registry (Change.Ends.bind ((ends_removeJoins h).mono ?_ fun _ hE => hE))
  rintro - st₁ ⟨h₁, hfree₁⟩
  refine Change.Ends.bind ((ends_removeParentJoins h₁.sound).mono ?_ ?_)
  · rintro - st₂ ⟨h₂, hfree₂⟩
    refine (ends_removeChildJoins h₂.sound).mono ?_ ?_
    · rintro - st' ⟨h₃, hfree₃⟩
      -- A pair that names the row would have been removed in its own round.
      refine ⟨(h₁.trans h₂).trans h₃, fun n hn pair hpair hnames => ?_⟩
      cases n with
      | join a b =>
        obtain ⟨hab, hba, hb, ha⟩ := joined_of_mem_joinedPairs hn
        have hpair := (h₃.within.trans h₂.within).pairs_subset _ hpair
        rcases hnames with heq | heq
        · obtain ⟨rfl, -⟩ := Row.mk.inj heq
          exact hfree₁ b hb _ hab pair hpair (Or.inl heq)
        · obtain ⟨rfl, -⟩ := Row.mk.inj heq
          exact hfree₁ a ha _ hba pair hpair (Or.inr heq)
      | directed a b =>
        have hchild := mem_directedPairs_iff.mp hn
        rcases hnames with heq | heq
        · obtain ⟨rfl, -⟩ := Row.mk.inj heq
          exact hfree₃ b hchild pair hpair heq
        · obtain ⟨rfl, -⟩ := Row.mk.inj heq
          exact hfree₂ a (mem_directedParentsOf_iff.mpr hchild) pair
            (h₃.within.pairs_subset _ hpair) heq
      | entity => exact hn
      | other => exact hn
    · rintro st' ⟨h₃, hrefused⟩
      exact ⟨(h₁.trans h₂).trans h₃, hrefused⟩
  · rintro st' ⟨h₂, hrefused⟩
    exact ⟨h₁.trans h₂, hrefused⟩

/-! ### Deleting one row -/

/-- A row without children is deleted with its joins; all other rows and pairs are left. -/
theorem ends_delete (h : st.Sound) (hchild : ∀ c, ¬ st.IsParent (.ofId t id) c) :
    (ofId t id).delete.Ends w st
      (fun _ st' => st'.Within st ∧ st'.Sound ∧ (∀ q, st'.Has q ↔ st.Has q ∧ q ≠ .ofId t id) ∧
        ∀ n : RelationName, n.IsJoin → ∀ pair ∈ st.pairsOf n, ¬ Names n pair (.ofId t id) →
          pair ∈ st'.pairsOf n)
      (fun st' => st'.Within st ∧ st'.Sound ∧ (∀ q, st.Has q → st'.Has q) ∧
        ¬ (w = true ∧ (ofId t id).Fits)) := by
  unfold delete
  refine Change.Ends.bind ((ends_removeAllJoins h).mono ?_ ?_)
  · -- With every pair gone, no join names the record that is erased.
    rintro - st₁ ⟨hunjoins, hfree⟩
    have hs := hunjoins.sound
    have hhas : ∀ q, st₁.Has q ↔ st.Has q :=
      fun q => ⟨fun hq => hunjoins.within.has hq, hunjoins.has q⟩
    refine Change.Ends.mutate ?_ ?_
    · rintro st' ⟨⟩ - hresult
      obtain ⟨st₂, hdeleted, heq⟩ := exceptBind_eq_ok.mp hresult
      cases heq
      rw [hs.shaped.deleteRecord_eq] at hdeleted
      obtain ⟨-, -, hdeleted⟩ := exceptBind_eq_ok.mp hdeleted
      obtain rfl : st₁.erase (.ofId t id) = st' := Except.ok.inj hdeleted
      refine ⟨(hs.shaped.within_erase _).trans hunjoins.within, hs.erase ?_ ?_, ?_, ?_⟩
      · exact fun c hc => hchild c (hunjoins.within.isParent hc)
      · exact fun n hn pair hpair => not_or.mp (hfree n hn pair hpair)
      · intro q
        rw [hs.shaped.has_erase, hhas]
      · intro n hn pair hpair hnames
        rw [Store.erase, hs.shaped.pairsOf_setRows]
        exact hunjoins.kept n hn pair hpair hnames
    · -- When the deletion is refused, the joins are gone but the record is there.
      intro hfailed
      refine ⟨hunjoins.within, hs, hunjoins.has, ?_⟩
      rintro ⟨hwritable, hfits⟩
      rcases hfailed with hreadonly | ⟨e, he⟩
      · exact Bool.false_ne_true (hreadonly.symm.trans hwritable)
      · rw [hs.shaped.deleteRecord_eq, Store.checkKey_eq_ok hfits] at he
        cases he
  · rintro st' ⟨hunjoins, hrefused⟩
    exact ⟨hunjoins.within, hunjoins.sound, hunjoins.has, hrefused⟩

end Row

end SoarProject
