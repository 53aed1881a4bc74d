import SoarProject.Proofs.Row.Removal
import SoarProject.Proofs.Store.Size

/-!
# Deleting children

What a deletion removes, and that it ends. A deletion goes down keys and directed joins in one
recursion, which may meet a row again that it is still working on. `Store.Removes` says what holds
between any two stores of one deletion; it is kept by every step, and `Row.ends_deleteBelow` composes
the steps along the recursion.

* `Row.ends_deleteChildren`: what a deletion leaves, whether it succeeds or fails.
* `Row.deleteChildren_keeps`: what is left of a row that is not below itself.
* `Row.deleteChildren_deletes`: with keys in no cycle a deletion succeeds, and `Store.Deletes` says
  exactly what it removes.
-/

namespace SoarProject

open Registry
open Store (Names)

variable {w own : Bool} {fuel : Nat} {st st' st₁ st₂ : Store} {r p c x : Row} {t : Table} {id : Int}

namespace Store

/-- A key or a directed join puts the row `c` below the row `p`. -/
def IsOver (s : Store) (p c : Row) : Prop := s.IsParent p c ∨ s.IsAbove p c

/-- What is not below the row `r` is left, and so is `r` unless it is its `own` to delete. -/
structure Spares (st st' : Store) (r : Row) (own : Bool) : Prop where
  within : st'.Within st
  sound : st'.Sound
  /-- A row is gone only if it was below `r`. -/
  reach : ∀ c, st.Has c → ¬ st'.Has c → (own = true ∧ c = r) ∨ Relation.TransGen st.IsOver r c

/-- What a deletion that works on the row `r`, and with `own` deletes it, may have removed. -/
structure Removes (st st' : Store) (r : Row) (own : Bool) : Prop extends Spares st st' r own where
  /-- A pair is gone with one of its ends, or because it puts a row below `r`. -/
  joins_kept : ∀ n : RelationName, n.IsJoin → ∀ pair ∈ st.pairsOf n, pair ∉ st'.pairsOf n →
    (¬ st'.Has ⟨n.joinTables.1, pair.1⟩ ∨ ¬ st'.Has ⟨n.joinTables.2, pair.2⟩) ∨
      (∃ t, n = .directed r.table t) ∧ pair.1 = r.id
  /-- A row is gone with its parent, or because it had none and is gone with all rows above it. -/
  cause : ∀ c, st.Has c → ¬ st'.Has c → c ≠ r →
    (∃ p, st.IsParent p c ∧ (p = r ∨ ¬ st'.Has p)) ∨
      (∀ p, ¬ st.IsParent p c) ∧ ∀ p, st.IsAbove p c → p = r ∨ ¬ st'.Has p
  /-- A row that is left and that something held is still held. -/
  held : ∀ c, st'.Has c → st'.Orphan c → st.Orphan c

/-- A directed join is one of a declared relation. -/
theorem IsAbove.isJoin (hpc : st.IsAbove p c) : (RelationName.directed p.table c.table).IsJoin :=
  hpc.1

/-- Whatever is over a row exists. -/
theorem Sound.has_of_isOver (h : st.Sound) (hpc : st.IsOver p c) : st.Has p :=
  hpc.elim h.has_of_isParent fun hpc => (h.has_of_isAbove hpc).1

/-- Nothing is below a row that does not exist. -/
theorem Sound.has_of_transGen (h : st.Sound) (hpc : Relation.TransGen st.IsOver p c) : st.Has p := by
  obtain ⟨q, hpq, -⟩ := Relation.TransGen.head'_iff.mp hpc
  exact h.has_of_isOver hpq

/-- With fewer records and pairs, no row gets another one over it. -/
theorem Within.isOver (h : st'.Within st) (hpc : st'.IsOver p c) : st.IsOver p c :=
  hpc.imp h.isParent h.isAbove

/-- With fewer records and pairs, no row gets below another one. -/
theorem Within.transGen_isOver (h : st'.Within st) (hpc : Relation.TransGen st'.IsOver p c) :
    Relation.TransGen st.IsOver p c :=
  Relation.TransGen.mono (fun _ _ hq => h.isOver hq) p c hpc

/-- A row that is left has no parent if it had none. -/
theorem Within.not_isParent (h : st'.Within st) (hs : st.Sound) (hc : st'.Has c)
    (hnone : ∀ p, ¬ st'.IsParent p c) (p : Row) : ¬ st.IsParent p c :=
  fun hpc => hnone p (h.isParent_of_has hs hc hpc)

namespace Spares

theorem refl (h : st.Sound) : st.Spares st r own where
  within := .refl st
  sound := h
  reach _ hc hgone := absurd hc hgone

theorem of_has (hwithin : st'.Within st) (hs : st'.Sound) (hhas : ∀ q, st.Has q → st'.Has q) :
    st.Spares st' r own where
  within := hwithin
  sound := hs
  reach c hc hgone := absurd (hhas c hc) hgone

theorem trans (h : st.Spares st₁ r own) (h' : st₁.Spares st₂ r own) : st.Spares st₂ r own where
  within := h'.within.trans h.within
  sound := h'.sound
  reach c hc hgone := by
    by_cases hleft : st₁.Has c
    · exact (h'.reach c hleft hgone).imp_right h.within.transGen_isOver
    · exact h.reach c hc hleft

/-- What is spared at a row that is below another one. -/
theorem of_isOver (h : st.Spares st₁ r own) (hpc : st.IsOver r c) (h' : st₁.Spares st₂ c true) :
    st.Spares st₂ r own where
  within := h'.within.trans h.within
  sound := h'.sound
  reach d hd hgone := by
    by_cases hleft : st₁.Has d
    · rcases h'.reach d hleft hgone with ⟨-, rfl⟩ | hpath
      · exact Or.inr (.single hpc)
      · exact Or.inr (.head hpc (h.within.transGen_isOver hpath))
    · exact h.reach d hd hleft

/-- Not to delete the row itself is to spare more. -/
theorem mono_own (h : st.Spares st' r false) : st.Spares st' r own where
  within := h.within
  sound := h.sound
  reach c hc hgone := Or.inr ((h.reach c hc hgone).resolve_left fun hown => Bool.false_ne_true hown.1)

end Spares

namespace Removes

theorem refl (h : st.Sound) : st.Removes st r own where
  toSpares := .refl h
  joins_kept _ _ _ hpair hgone := absurd hpair hgone
  cause _ hc hgone := absurd hc hgone
  held _ _ horphan := horphan

/-- First some rows and pairs are removed, then others. -/
theorem trans (hs : st.Sound) (h : st.Removes st₁ r own) (h' : st₁.Removes st₂ r own) :
    st.Removes st₂ r own where
  toSpares := h.toSpares.trans h'.toSpares
  -- A pair is missing because of the first part, or it is still there before the second.
  joins_kept n hn pair hpair hgone := by
    by_cases hleft : pair ∈ st₁.pairsOf n
    · exact h'.joins_kept n hn pair hleft hgone
    · refine (h.joins_kept n hn pair hpair hleft).imp_left fun hends => ?_
      exact hends.imp (mt h'.within.has) (mt h'.within.has)
  -- The cause of a deletion lies in the part that deleted the row; what went before stays gone.
  cause c hc hgone hne := by
    by_cases hleft : st₁.Has c
    · rcases h'.cause c hleft hgone hne with ⟨p, hpc, hp⟩ | ⟨hnone, habove⟩
      · exact Or.inl ⟨p, h.within.isParent hpc, hp⟩
      · refine Or.inr ⟨h.within.not_isParent hs hleft hnone, fun p hpc => ?_⟩
        by_cases hpair : (p.id, c.id) ∈ st₁.pairsOf (.directed p.table c.table)
        · exact habove p ⟨hpc.1, hpair⟩
        · -- The first part took the pair away: with one of its ends, or from the row itself.
          rcases h.joins_kept _ hpc.isJoin _ hpc.2 hpair with
            (hp | hc) | ⟨⟨u, hname⟩, hid⟩
          · exact Or.inr fun hp' => hp (h'.within.has hp')
          · exact absurd hleft hc
          · obtain ⟨htable, -⟩ := RelationName.directed.inj hname
            exact Or.inl (Row.mk.injEq .. ▸ ⟨htable, hid⟩)
    · rcases h.cause c hc hleft hne with ⟨p, hpc, hp⟩ | ⟨hnone, habove⟩
      · exact Or.inl ⟨p, hpc, hp.imp_right (mt h'.within.has)⟩
      · exact Or.inr ⟨hnone, fun p hpc => (habove p hpc).imp_right (mt h'.within.has)⟩
  held c hc horphan := h.held c (h'.within.has hc) (h'.held c hc horphan)

/-- Not to delete the row itself is to delete less. -/
theorem mono_own (h : st.Removes st' r false) : st.Removes st' r own where
  toSpares := h.toSpares.mono_own
  joins_kept := h.joins_kept
  cause := h.cause
  held := h.held

end Removes

/-! ### Steps of a deletion -/

/-- A child is deleted with what is below it. -/
theorem Removes.of_child (hs : st.Sound) (hlink : st.Has c → st.IsParent r c)
    (h : st.Removes st' c true) (hgone : ¬ st'.Has c) : st.Removes st' r false where
  within := h.within
  sound := h.sound
  joins_kept n hn pair hpair hmissing := by
    rcases h.joins_kept n hn pair hpair hmissing with hends | ⟨⟨u, rfl⟩, hid⟩
    · exact Or.inl hends
    · exact Or.inl (Or.inl (by rwa [hid]))
  cause d hd hdgone _ := by
    -- The child itself goes because of its key, and others for their reason in the cascade.
    by_cases hdc : d = c
    · subst hdc
      exact Or.inl ⟨r, hlink hd, Or.inl rfl⟩
    · have hno_c : ∀ p, p = c ∨ ¬ st'.Has p → p = r ∨ ¬ st'.Has p := by
        rintro p (rfl | hp)
        · exact Or.inr hgone
        · exact Or.inr hp
      rcases h.cause d hd hdgone hdc with ⟨p, hpd, hp⟩ | ⟨hnone, habove⟩
      · exact Or.inl ⟨p, hpd, hno_c p hp⟩
      · exact Or.inr ⟨hnone, fun p hpd => hno_c p (habove p hpd)⟩
  reach d hd hdgone := by
    rcases h.reach d hd hdgone with ⟨-, rfl⟩ | hpath
    · exact Or.inr (.single (Or.inl (hlink hd)))
    · exact Or.inr (.head (Or.inl (hlink (hs.has_of_transGen hpath))) hpath)
  held := h.held

/-- Between two stores a directed join ends. -/
structure Parts (st st' : Store) (p c : Row) : Prop where
  within : st'.Within st
  sound : st'.Sound
  has : ∀ q, st.Has q → st'.Has q
  pairs : ∀ n : RelationName, n.IsJoin → ∀ pair ∈ st.pairsOf n,
    (pair ∈ st'.pairsOf n ↔ ¬ (n = .directed p.table c.table ∧ pair = (p.id, c.id)))

namespace Parts

variable (h : st.Parts st₁ r c)

include h

/-- The directed join is gone. -/
theorem not_isAbove : ¬ st₁.IsAbove r c := fun habove =>
  ((h.pairs _ habove.isJoin _ (h.within.isAbove habove).2).mp habove.2) ⟨rfl, rfl⟩

theorem isAbove {p d : Row} (hpd : st.IsAbove p d) (hne : p ≠ r ∨ d ≠ c) : st₁.IsAbove p d := by
  refine ⟨hpd.1, (h.pairs _ hpd.isJoin _ hpd.2).mpr ?_⟩
  rintro ⟨hname, hpair⟩
  obtain ⟨hp, hd⟩ := RelationName.directed.inj hname
  obtain ⟨hpid, hdid⟩ := Prod.mk.inj hpair
  have hpr : p = r := Row.mk.injEq .. ▸ ⟨hp, hpid⟩
  have hdc : d = c := Row.mk.injEq .. ▸ ⟨hd, hdid⟩
  exact hne.elim (· hpr) (· hdc)

/-- No other row loses what holds it. -/
theorem orphan (hs : st.Sound) {d : Row} (hd : st₁.Has d) (hne : d ≠ c ∨ ¬ st.IsAbove r c)
    (horphan : st₁.Orphan d) : st.Orphan d := by
  refine ⟨h.within.not_isParent hs hd horphan.1, fun p hpd => ?_⟩
  by_cases heq : p = r ∧ d = c
  · obtain ⟨rfl, rfl⟩ := heq
    exact hne.elim (fun hne => hne rfl) fun hne => hne hpd
  · exact horphan.2 p (h.isAbove hpd (not_and_or.mp heq))

/-- The child of a directed join that ends stays if something else holds it. -/
theorem removes (hs : st.Sound) (hheld : ¬ st₁.Orphan c) : st.Removes st₁ r false where
  within := h.within
  sound := h.sound
  joins_kept n hn pair hpair hmissing := by
    obtain ⟨rfl, rfl⟩ := not_not.mp (mt (h.pairs n hn pair hpair).mpr hmissing)
    exact Or.inr ⟨⟨c.table, rfl⟩, rfl⟩
  cause d hd hdgone := absurd (h.has d hd) hdgone
  reach d hd hdgone := absurd (h.has d hd) hdgone
  held d hd horphan := by
    refine h.orphan hs hd (Or.inl ?_) horphan
    rintro rfl
    exact hheld horphan

/-- The child of a directed join that ends is deleted with what is below it if nothing else holds
it. -/
theorem removes_trans (hs : st.Sound) (hlink : st.Has c → st.IsAbove r c) (horphan : st₁.Orphan c)
    (hcall : st₁.Removes st₂ c true) (hgone : ¬ st₂.Has c) : st.Removes st₂ r false where
  within := hcall.within.trans h.within
  sound := hcall.sound
  joins_kept n hn pair hpair hmissing := by
    -- The call took the pair away with an end, or it was the released one.
    by_cases hleft : pair ∈ st₁.pairsOf n
    · rcases hcall.joins_kept n hn pair hleft hmissing with hends | ⟨⟨u, rfl⟩, hid⟩
      · exact Or.inl hends
      · exact Or.inl (Or.inl (by rwa [hid]))
    · obtain ⟨rfl, rfl⟩ := not_not.mp (mt (h.pairs n hn pair hpair).mpr hleft)
      exact Or.inr ⟨⟨c.table, rfl⟩, rfl⟩
  cause d hd hdgone _ := by
    -- The child was an orphan once the join was gone, so the row was its only holder.
    by_cases hdc : d = c
    · subst hdc
      refine Or.inr ⟨h.within.not_isParent hs (h.has d hd) horphan.1, fun p hpd => ?_⟩
      by_contra hother
      exact horphan.2 p (h.isAbove hpd (Or.inl (not_or.mp hother).1))
    · have hno_c : ∀ p, p = c ∨ ¬ st₂.Has p → p = r ∨ ¬ st₂.Has p := by
        rintro p (rfl | hp)
        · exact Or.inr hgone
        · exact Or.inr hp
      rcases hcall.cause d (h.has d hd) hdgone hdc with ⟨p, hpd, hp⟩ | ⟨hnone, habove⟩
      · exact Or.inl ⟨p, h.within.isParent hpd, hno_c p hp⟩
      · exact Or.inr ⟨h.within.not_isParent hs (h.has d hd) hnone,
          fun p hpd => hno_c p (habove p (h.isAbove hpd (Or.inr hdc)))⟩
  reach d hd hdgone := by
    rcases hcall.reach d (h.has d hd) hdgone with ⟨-, rfl⟩ | hpath
    · exact Or.inr (.single (Or.inr (hlink hd)))
    · have hc := h.within.has (h.sound.has_of_transGen hpath)
      exact Or.inr (.head (Or.inr (hlink hc)) (h.within.transGen_isOver hpath))
  -- An orphan that is left over is not the child, so it was an orphan before the join was gone.
  held d hd horphan' := by
    refine h.orphan hs (hcall.within.has hd) (Or.inl ?_) (hcall.held d hd horphan')
    rintro rfl
    exact hgone hd

end Parts

/-- A row that nothing is below any more is deleted. -/
theorem Removes.of_delete (hs : st.Sound) (hwithin : st'.Within st) (hs' : st'.Sound)
    (hbelow : ∀ c, ¬ st.IsAbove r c) (hhas : ∀ q, st'.Has q ↔ st.Has q ∧ q ≠ r)
    (hkept : ∀ n : RelationName, n.IsJoin → ∀ pair ∈ st.pairsOf n, ¬ Names n pair r →
      pair ∈ st'.pairsOf n) : st.Removes st' r true where
  within := hwithin
  sound := hs'
  joins_kept n hn pair hpair hmissing := by
    -- A join record that is gone named the row, since the others are kept.
    have hgone : ¬ st'.Has r := fun hr => ((hhas r).mp hr).2 rfl
    rcases not_not.mp (mt (hkept n hn pair hpair) hmissing) with heq | heq
    · exact Or.inl (Or.inl (by rwa [heq]))
    · exact Or.inl (Or.inr (by rwa [heq]))
  cause c hc hgone hne := absurd ((hhas c).mpr ⟨hc, hne⟩) hgone
  reach c hc hgone := Or.inl ⟨rfl, not_not.mp fun hne => hgone ((hhas c).mpr ⟨hc, hne⟩)⟩
  held c hc horphan := by
    refine ⟨hwithin.not_isParent hs hc horphan.1, fun p hpc => ?_⟩
    -- A join record above the row would have been kept, as it cannot name the deleted row.
    refine horphan.2 p ⟨hpc.1, hkept _ hpc.isJoin _ hpc.2 ?_⟩
    rintro (rfl | rfl)
    · exact hbelow c hpc
    · exact ((hhas _).mp hc).2 rfl

/-! ### Where a deletion succeeds -/

/-- Nothing keeps a deletion from succeeding. -/
structure Ready (w : Bool) (st : Store) (r : Row) (fuel : Nat) : Prop where
  writable : w = true
  fits : st.Fits
  row_fits : r.Fits
  acyclic : ∀ q, ¬ Relation.TransGen st.IsParent q q
  enough : st.need r ≤ fuel

/-- With fewer records and pairs, a deletion still succeeds. -/
theorem Ready.of_within (h : Ready w st r fuel) (hwithin : st'.Within st) : Ready w st' r fuel where
  writable := h.writable
  fits := h.fits.of_within hwithin
  row_fits := h.row_fits
  acyclic q hcycle :=
    h.acyclic q (Relation.TransGen.mono (fun _ _ hpc => hwithin.isParent hpc) q q hcycle)
  enough := hwithin.need_le.trans h.enough

/-- A deletion may go on at a row with a smaller need. -/
theorem Ready.of_need_lt (h : Ready w st r (fuel + 1)) (hwithin : st'.Within st) (hc : c.Fits)
    (hneed : st'.need c < st.need r) : Ready w st' c fuel where
  __ := h.of_within hwithin
  row_fits := hc
  enough := by
    have := h.enough
    omega

/-- A deletion may go on at a child. -/
theorem Ready.child (h : Ready w st r (fuel + 1)) (hpc : st.IsParent r c) (hwithin : st'.Within st) :
    Ready w st' c fuel :=
  h.of_need_lt hwithin (h.fits.row hpc.has) (hwithin.need_lt_of_isParent h.acyclic hpc)

end Store

open Store (Spares Removes Parts Ready)

namespace Row

/-- A join ends between a row and one that is below it. -/
theorem ends_directedUnjoin_parts (h : st.Sound) {u : Table} {key : Int} :
    (directedUnjoin (.ofId t id) (.ofId u key)).Ends w st
      (fun _ st' => st.Parts st' (.ofId t id) (.ofId u key))
      (fun st' => st' = st ∧ ¬ (w = true ∧ (ofId t id).Fits ∧ (ofId u key).Fits)) :=
  (ends_directedUnjoin h).mono (fun _ _ ⟨hwithin, hs, hhas, hpairs⟩ => ⟨hwithin, hs, hhas, hpairs⟩)
    fun _ hE => hE

/-- What is to be shown of a deletion for some fuel: it removes what is below a row, and the row
itself if that is its own to delete, so that nothing is below the row any more. It fails only if something
keeps it from succeeding. -/
def Descends (w : Bool) (fuel : Nat) : Prop :=
  ∀ {st : Store} {t : Table} {id : Int} {own : Bool}, st.Sound →
    (deleteBelow fuel (.ofId t id) own).Ends w st
      (fun _ st' => st.Removes st' (.ofId t id) own ∧ (own = true → ¬ st'.Has (.ofId t id)) ∧
        ∀ c, ¬ st'.IsOver (.ofId t id) c)
      (fun st' => st.Spares st' (.ofId t id) own ∧ ¬ Ready w st (.ofId t id) fuel)

section Recursion

variable (ih : Descends w fuel) (h : st.Sound)

include ih h

/-- The children of a row are deleted. -/
theorem ends_forM_children :
    ((st.children (.ofId t id)).forM fun c => deleteBelow fuel c true).Ends w st
      (fun _ st' => st.Removes st' (.ofId t id) false ∧ ∀ c, ¬ st'.IsParent (.ofId t id) c)
      (fun st' => st.Spares st' (.ofId t id) false ∧ ¬ Ready w st (.ofId t id) (fuel + 1)) := by
  -- The children that are still there are among those that remain to be deleted.
  let I (rest : List Row) (st₁ : Store) : Prop :=
    rest ⊆ st.children (.ofId t id) ∧ st.Removes st₁ (.ofId t id) false ∧
      ∀ c, st₁.IsParent (.ofId t id) c → c ∈ rest
  refine (Change.Ends.forM I ?_ ⟨List.Subset.refl _, .refl h,
    fun c hc => h.mem_children_iff.mpr hc⟩).mono ?_ fun _ hE => hE
  · rintro c rest st₁ ⟨hsubset, hremoves, hrest⟩
    have hpc := h.mem_children_iff.mp (hsubset List.mem_cons_self)
    obtain ⟨key, hkey⟩ := hpc.has.exists_id
    rw [hkey] at hpc hrest ⊢
    refine (ih hremoves.sound).mono ?_ ?_
    · rintro - st₂ ⟨hcall, hgone, -⟩
      have hgone := hgone rfl
      have hlink := fun hc => hremoves.within.isParent_of_has h hc hpc
      refine ⟨fun d hd => hsubset (List.mem_cons_of_mem _ hd),
        hremoves.trans h (.of_child hremoves.sound hlink hcall hgone), fun d hd => ?_⟩
      refine (List.mem_cons.mp (hrest d (hcall.within.isParent hd))).resolve_left ?_
      rintro rfl
      exact hgone hd.has
    · rintro st₂ ⟨hspares, hnot⟩
      exact ⟨hremoves.toSpares.of_isOver (Or.inl hpc) hspares,
        fun hready => hnot (hready.child hpc hremoves.within)⟩
  · rintro - st' ⟨-, hremoves, hrest⟩
    exact ⟨hremoves, fun c hc => List.not_mem_nil (hrest c hc)⟩

/-- A row that was joined below another one is unjoined, and deleted if nothing else holds it. -/
theorem ends_unjoin_delete {u : Table} {key : Int} (hremoves : st.Removes st₁ (.ofId t id) false)
    (habove : st.IsAbove (.ofId t id) (.ofId u key)) :
    (do
      directedUnjoin (.ofId t id) (.ofId u key)
      if ← isOrphan (.ofId u key) then deleteBelow fuel (.ofId u key) true : Change Unit).Ends w st₁
      (fun _ st' => st₁.Removes st' (.ofId t id) false ∧ ¬ st'.IsAbove (.ofId t id) (.ofId u key))
      (fun st' => st.Spares st' (.ofId t id) false ∧ ¬ Ready w st (.ofId t id) (fuel + 1)) := by
  have hs₁ := hremoves.sound
  have hchild : ∀ {st'}, st'.Within st → ¬ st'.IsAbove (.ofId t id) (.ofId u key) →
      Ready w st (.ofId t id) (fuel + 1) → Ready w st' (.ofId u key) fuel :=
    fun hwithin hgone hready => hready.of_need_lt hwithin
      (hready.fits.row (h.has_of_isAbove habove).2) (hwithin.need_lt_of_not_isAbove habove hgone)
  refine Change.Ends.bind ((ends_directedUnjoin_parts hs₁).mono ?_ ?_)
  · rintro - st₂ hparts
    have hwithin := hparts.within.trans hremoves.within
    have hspared : st.Spares st₂ (.ofId t id) false :=
      hremoves.toSpares.trans (.of_has hparts.within hparts.sound hparts.has)
    refine Change.Ends.query (finds_isOrphan hparts.sound) ?_ ?_
    · rintro (_ | _) horphan
      · have hheld : ¬ st₂.Orphan (.ofId u key) := fun hc => Bool.false_ne_true (horphan.mpr hc)
        exact Change.Ends.pure ⟨hparts.removes hs₁ hheld, hparts.not_isAbove⟩
      · have horphan := horphan.mp rfl
        -- Nothing but the join that ended held the child, since it was held before.
        have hlink : st₁.Has (.ofId u key) → st₁.IsAbove (.ofId t id) (.ofId u key) := by
          intro hc
          by_contra hnot
          have hloose := hparts.orphan hs₁ (hparts.has _ hc) (Or.inr hnot) horphan
          exact (hremoves.held _ hc hloose).2 _ habove
        refine (ih hparts.sound).mono ?_ ?_
        · rintro - st' ⟨hcall, hgone, -⟩
          refine ⟨hparts.removes_trans hs₁ hlink horphan hcall (hgone rfl), fun hc => ?_⟩
          exact hparts.not_isAbove (hcall.within.isAbove hc)
        · rintro st' ⟨hspares, hnot⟩
          exact ⟨hspared.of_isOver (Or.inr habove) hspares,
            fun hready => hnot (hchild hwithin hparts.not_isAbove hready)⟩
    · refine fun hunsure => ⟨hspared, fun hready => hunsure ?_⟩
      have hready := hchild hwithin hparts.not_isAbove hready
      exact ⟨hready.fits, hready.row_fits⟩
  · rintro _ ⟨rfl, hrefused⟩
    refine ⟨hremoves.toSpares, fun hready => hrefused ⟨hready.writable, hready.row_fits, ?_⟩⟩
    exact hready.fits.row (h.has_of_isAbove habove).2

/-- The rows that are joined below a row are unjoined, and deleted if nothing else holds them. -/
theorem ends_forM_joinedChildren :
    ((st.joinedChildren (.ofId t id)).forM fun c => do
      directedUnjoin (.ofId t id) c
      if ← isOrphan c then deleteBelow fuel c true : Change Unit).Ends w st
      (fun _ st' => st.Removes st' (.ofId t id) false ∧ ∀ c, ¬ st'.IsAbove (.ofId t id) c)
      (fun st' => st.Spares st' (.ofId t id) false ∧ ¬ Ready w st (.ofId t id) (fuel + 1)) := by
  -- The rows that are still joined are among those that remain to be unjoined.
  let I (rest : List Row) (st₁ : Store) : Prop :=
    rest ⊆ st.joinedChildren (.ofId t id) ∧ st.Removes st₁ (.ofId t id) false ∧
      ∀ c, st₁.IsAbove (.ofId t id) c → c ∈ rest
  refine (Change.Ends.forM I ?_ ⟨List.Subset.refl _, .refl h,
    fun c hc => h.mem_joinedChildren_iff.mpr hc⟩).mono ?_ fun _ hE => hE
  · rintro c rest st₁ ⟨hsubset, hremoves, hrest⟩
    have habove := h.mem_joinedChildren_iff.mp (hsubset List.mem_cons_self)
    obtain ⟨key, hkey⟩ := (h.has_of_isAbove habove).2.exists_id
    rw [hkey] at habove hrest ⊢
    refine (ends_unjoin_delete ih h hremoves habove).mono ?_ fun _ hE => hE
    rintro - st₂ ⟨hstep, hgone⟩
    refine ⟨fun d hd => hsubset (List.mem_cons_of_mem _ hd), hremoves.trans h hstep, fun d hd => ?_⟩
    refine (List.mem_cons.mp (hrest d (hstep.within.isAbove hd))).resolve_left ?_
    rintro rfl
    exact hgone hd
  · rintro - st' ⟨-, hremoves, hrest⟩
    exact ⟨hremoves, fun c hc => List.not_mem_nil (hrest c hc)⟩

end Recursion

/-- A deletion at a row removes what is below it, and the row itself if it is its own to delete. It
fails only if something keeps it from succeeding. -/
theorem ends_deleteBelow (fuel : Nat) : Descends w fuel := by
  induction fuel with
  | zero =>
    intro st t id own h
    refine Change.Ends.throw ⟨.refl h, fun hready => ?_⟩
    have := hready.enough
    rw [Store.need] at this
    omega
  | succ fuel ih =>
    intro st t id own h
    rw [deleteBelow]
    refine Change.Ends.query (finds_structuralChildren h.shaped) ?_
      fun hfits => ⟨.refl h, fun hready => hfits hready.row_fits⟩
    -- Children by key first; afterwards nothing is below the row by a key.
    rintro _ rfl
    refine Change.Ends.bind ((ends_forM_children ih h).mono ?_
      fun _ hE => ⟨hE.1.mono_own, hE.2⟩)
    rintro - st₁ ⟨h₁, hchildless⟩
    refine Change.Ends.query (finds_directedChildren h₁.sound) ?_
      fun hfits => ⟨h₁.toSpares.mono_own, fun hready => hfits hready.row_fits⟩
    -- Then the joined children, of which those that are held no more are deleted.
    rintro _ rfl
    refine Change.Ends.bind ((ends_forM_joinedChildren ih h₁.sound).mono ?_ ?_)
    · rintro - st₂ ⟨h₂, hfree⟩
      have hremoves := h₁.trans h h₂
      have hchildless₂ := fun c hc => hchildless c (h₂.within.isParent hc)
      have hbare : ∀ c, ¬ st₂.IsOver (.ofId t id) c := fun c hc => hc.elim (hchildless₂ c) (hfree c)
      -- The record goes last, and only if the row itself is to be deleted.
      cases own with
      | false => exact Change.Ends.pure ⟨hremoves, fun hown => absurd hown Bool.false_ne_true, hbare⟩
      | true =>
        refine (ends_delete h₂.sound hchildless₂).mono ?_ ?_
        · rintro - st' ⟨hwithin, hs, hhas, hkept⟩
          exact ⟨hremoves.mono_own.trans h (.of_delete h₂.sound hwithin hs hfree hhas hkept),
            fun _ hr => ((hhas _).mp hr).2 rfl, fun c hc => hbare c (hwithin.isOver hc)⟩
        · rintro st' ⟨hwithin, hs, hhas, hnot⟩
          exact ⟨hremoves.toSpares.mono_own.trans (.of_has hwithin hs hhas),
            fun hready => hnot ⟨hready.writable, hready.row_fits⟩⟩
    · rintro st' ⟨hspares, hnot⟩
      exact ⟨(h₁.toSpares.trans hspares).mono_own, fun hready => hnot (hready.of_within h₁.within)⟩

/-- Deleting the children of a row, and with `own` the row itself, removes what is below it; nothing is
left below it. With keys in no cycle it succeeds if the store may be changed. -/
theorem ends_deleteChildren (h : st.Sound) :
    ((ofId t id).deleteChildren own).Ends w st
      (fun _ st' => st.Removes st' (.ofId t id) own ∧ (own = true → ¬ st'.Has (.ofId t id)) ∧
        ∀ c, ¬ st'.IsOver (.ofId t id) c)
      (fun st' => st.Spares st' (.ofId t id) own ∧ ¬ (w = true ∧ st.Fits ∧ (ofId t id).Fits ∧
        ∀ q, ¬ Relation.TransGen st.IsParent q q)) := by
  unfold deleteChildren
  refine Change.Ends.get fun s hs => ?_
  dsimp only
  -- The fuel is the size of the store, which bounds what the deletion needs.
  rw [hs.size_eq]
  refine (ends_deleteBelow _ h).mono (fun _ _ hQ => hQ) ?_
  rintro st' ⟨hspares, hnot⟩
  refine ⟨hspares, ?_⟩
  rintro ⟨hwritable, hfits, hrow, hacyclic⟩
  exact hnot ⟨hwritable, hfits, hrow, hacyclic, st.need_le_size _⟩

end Row

/-! ### Exactly what is removed -/

namespace Store

/-- The rows of a store that are not left in another one. -/
def removed (st st' : Store) : Set Row := {r | st.Has r ∧ ¬ st'.Has r}

/-- The removed rows among those that existed. -/
theorem not_mem_removed_iff (hr : st.Has r) : r ∉ removed st st' ↔ st'.Has r := by
  change ¬ (st.Has r ∧ ¬ st'.Has r) ↔ _
  rw [and_iff_right hr, not_not]

open Classical in
/-- What the deletion of a row removes from a store, exactly. -/
structure Deletes (st st' : Store) (x : Row) : Prop where
  /-- The row itself is removed. -/
  own : x ∈ removed st st'
  /-- With a row its structural descendants are removed. -/
  descendants : ∀ d ∈ removed st st', ∀ c, Relation.TransGen st.IsParent d c → c ∈ removed st st'
  /-- Another row is removed only as a child of a removed row, or if it has no parent and all rows
  that it is joined below are removed. -/
  cause : ∀ d ∈ removed st st', d ≠ x → (∀ p ∈ removed st st', ¬ st.IsParent p d) →
    (∀ p, ¬ st.IsParent p d) ∧ ∀ p, st.IsAbove p d → p ∈ removed st st'
  /-- A row that was joined below a removed row is left only if an existing row still holds it. -/
  held : ∀ d ∈ removed st st', ∀ c, st.IsAbove d c → st'.Has c →
    ∃ p, st'.Has p ∧ (st'.IsAbove p c ∨ st'.IsParent p c)
  /-- All other records are left as they were. -/
  rows_eq : ∀ t, st'.rows t =
    (st.rows t).filter fun record => decide (Row.ofId t record.id ∉ removed st st')
  /-- Exactly the pairs with a removed end are removed. -/
  pairs_eq : ∀ n : RelationName, n.IsJoin → st'.pairsOf n = (st.pairsOf n).filter fun pair =>
    decide (⟨n.joinTables.1, pair.1⟩ ∉ removed st st' ∧ ⟨n.joinTables.2, pair.2⟩ ∉ removed st st')

/-- A child of a row that is gone is gone. -/
theorem Within.not_has_of_isParent (h : st'.Within st) (hs : st.Sound) (hs' : st'.Sound)
    (hp : ¬ st'.Has p) (hpc : st.IsParent p c) : ¬ st'.Has c :=
  fun hc => hp (hs'.has_of_isParent (h.isParent_of_has hs hc hpc))

/-- What a deletion removes that deletes its own row. -/
theorem Removes.deletes (h : st.Removes st' x true) (hs : st.Sound) (hx : st.Has x)
    (hgone : ¬ st'.Has x) : st.Deletes st' x where
  own := ⟨hx, hgone⟩
  descendants d hd c hdc := by
    induction hdc with
    | single hdc => exact ⟨hdc.has, h.within.not_has_of_isParent hs h.sound hd.2 hdc⟩
    | tail _ hbc ih => exact ⟨hbc.has, h.within.not_has_of_isParent hs h.sound ih.2 hbc⟩
  -- With the rows that are gone as a set, the causes speak of that set.
  cause d hd hne hchild := by
    have hremoved : ∀ p, st.Has p → p = x ∨ ¬ st'.Has p → p ∈ removed st st' := by
      rintro p hp (rfl | hpgone)
      · exact ⟨hp, hgone⟩
      · exact ⟨hp, hpgone⟩
    rcases h.cause d hd.1 hd.2 hne with ⟨p, hpd, hp⟩ | ⟨hnone, habove⟩
    · exact absurd hpd (hchild p (hremoved p (hs.has_of_isParent hpd) hp))
    · exact ⟨hnone, fun p hpd => hremoved p (hs.has_of_isAbove hpd).1 (habove p hpd)⟩
  -- What is left below a deleted row is no orphan, so something else holds it.
  held d hd c hdc hc := by
    have hheld : ¬ st'.Orphan c := fun horphan => (h.held c hc horphan).2 d hdc
    simp only [Orphan, not_and_or, not_forall, not_not] at hheld
    rcases hheld with ⟨p, hp⟩ | ⟨p, hp⟩
    · exact ⟨p, h.sound.has_of_isParent hp, Or.inr hp⟩
    · exact ⟨p, (h.sound.has_of_isAbove hp).1, Or.inl hp⟩
  rows_eq t := by
    classical
    exact h.within.rows_eq_filter hs (fun r hr => (not_mem_removed_iff hr).symm) t
  -- A pair is kept exactly when both of its ends are.
  pairs_eq n hn := by
    classical
    obtain ⟨keep, hkeep⟩ := h.within.pairs_eq n
    rw [hkeep]
    refine List.filter_congr fun pair hpair => ?_
    obtain ⟨hfirst, hsecond⟩ := hs.pairs_exist n hn pair hpair
    have hmem : pair ∈ st'.pairsOf n ↔ keep pair = true := by
      rw [hkeep, List.mem_filter, and_iff_right hpair]
    rw [Bool.eq_iff_iff, ← hmem, decide_eq_true_iff, not_mem_removed_iff hfirst,
      not_mem_removed_iff hsecond]
    refine ⟨h.sound.pairs_exist n hn pair, fun ⟨hfirst', hsecond'⟩ => ?_⟩
    by_contra hmissing
    rcases h.joins_kept n hn pair hpair hmissing with (hend | hend) | ⟨⟨t, rfl⟩, hid⟩
    · exact hend hfirst'
    · exact hend hsecond'
    · rw [hid] at hfirst'
      exact hgone hfirst'

end Store

/-- Deleting a row succeeds in every sound store whose keys form no cycle, however its directed joins
run, and removes exactly what hung on the row alone. -/
theorem Row.deleteChildren_deletes {s : Session} (hopen : s.Opens true st) (hs : st.Sound)
    (hacyclic : ∀ r, ¬ Relation.TransGen st.IsParent r r) (hfits : st.Fits) (hx : st.Has x) :
    ∃ s' st', (x.deleteChildren true).run.run s = (.ok (), s') ∧ s'.Opens true st' ∧
      st.Deletes st' x := by
  obtain ⟨t, key⟩ := x
  obtain ⟨id, hid⟩ := hx.exists_id
  obtain rfl : key = .int id := (Row.mk.inj hid).2
  have hends : ((ofId t id).deleteChildren true).Ends true st _ _ := ends_deleteChildren hs
  obtain ⟨⟨⟩, s', st', hrun, hopen', hremoves, hgone, -⟩ := hends.exists_ok
    (fun st' hE => hE.2 ⟨rfl, hfits, hfits.row hx, hacyclic⟩) hopen
  exact ⟨s', st', hrun, hopen', hremoves.deletes hs hx (hgone rfl)⟩

/-- Deleting the children of a row that is not below itself keeps the row with its columns. Nothing is
below it any more, and of the joins between rows that are left only those ended by which something was
below it. -/
theorem Row.deleteChildren_keeps {s : Session} (hopen : s.Opens true st) (hs : st.Sound)
    (hacyclic : ∀ r, ¬ Relation.TransGen st.IsParent r r) (hfits : st.Fits) (hx : st.Has x)
    (hloop : ¬ Relation.TransGen st.IsOver x x) :
    ∃ s' st', (x.deleteChildren false).run.run s = (.ok (), s') ∧ s'.Opens true st' ∧
      (∀ record ∈ st.rows x.table, x.id = .int record.id → record ∈ st'.rows x.table) ∧
      (∀ c, ¬ st'.IsOver x c) ∧
      ∀ n : RelationName, n.IsJoin → ∀ pair ∈ st.pairsOf n, st'.Has ⟨n.joinTables.1, pair.1⟩ →
        st'.Has ⟨n.joinTables.2, pair.2⟩ →
          pair ∈ st'.pairsOf n ∨ (∃ t, n = .directed x.table t) ∧ pair.1 = x.id := by
  obtain ⟨t, key⟩ := x
  obtain ⟨id, hid⟩ := hx.exists_id
  obtain rfl : key = .int id := (Row.mk.inj hid).2
  have hends : ((ofId t id).deleteChildren false).Ends true st _ _ := ends_deleteChildren hs
  obtain ⟨⟨⟩, s', st', hrun, hopen', hremoves, -, hbare⟩ := hends.exists_ok
    (fun st' hE => hE.2 ⟨rfl, hfits, hfits.row hx, hacyclic⟩) hopen
  have hkept : st'.Has ⟨t, .int id⟩ := by
    by_contra hgone
    exact hloop ((hremoves.reach _ hx hgone).resolve_left fun hown => Bool.false_ne_true hown.1)
  refine ⟨s', st', hrun, hopen', fun record hrecord hrow => ?_, hbare, fun n hn pair hpair hfirst hsecond => ?_⟩
  · -- The record that is left with this id is the one that was there.
    obtain ⟨left, hleft, hsame⟩ := hkept
    have hids : record.id = left.id := Cell.int.inj (hrow.symm.trans hsame)
    rwa [hs.eq_of_id_eq hrecord (hremoves.within.rows_subset t hleft) hids]
  · by_cases hleft : pair ∈ st'.pairsOf n
    · exact .inl hleft
    · refine .inr ((hremoves.joins_kept n hn pair hpair hleft).resolve_left ?_)
      exact fun hends => hends.elim (· hfirst) (· hsecond)

/-! ### A ring of joined rows -/

namespace Store

/-- The joins of datamap nodes below each other. -/
def nodeJoin : RelationName := .directed .datamapIdentifiers .datamapIdentifiers

/-- A datamap node without a problem space. -/
def looseNode (id : Int) : Record := ⟨id, [("name", .text "node"), ("problem_space_id", .null)]⟩

/-- Two nodes without a problem space, each of them joined below the other one. -/
def ring : Store :=
  (((blank.withRecord .datamapIdentifiers (looseNode 1)).withRecord .datamapIdentifiers
    (looseNode 2)).setPairs nodeJoin [(.int 1, .int 2)]).setPairs nodeJoin
      [(.int 1, .int 2), (.int 2, .int 1)]

/-- No key of a loose node names a row. -/
theorem get_looseNode {p : Table} (hp : p ∈ project.parentsOf .datamapIdentifiers) :
    (looseNode id).get p.idName = .null := by
  have hparents : project.parentsOf .datamapIdentifiers = [.problemSpaces] := by decide
  have hname : Table.idName .problemSpaces = "problem_space_id" := by decide
  rw [hparents, List.mem_singleton] at hp
  rw [hp, hname]
  rfl

/-- A loose node is added. -/
theorem Integral.withLooseNode (h : st.Integral)
    (hid : (looseNode id).id = nextId (st.rows .datamapIdentifiers)) :
    (st.withRecord .datamapIdentifiers (looseNode id)).Integral :=
  h.withRecord hid (fun _ hp hnull => absurd (get_looseNode hp) hnull)
    fun _ hp _ _ hnull => absurd (get_looseNode hp) hnull

/-- The ring has integrity, and its rows are its two nodes. -/
theorem integral_ring : ring.Integral ∧
    ∀ t record, record ∈ ring.rows t ↔
      t = .datamapIdentifiers ∧ (record = looseNode 1 ∨ record = looseNode 2) := by
  have hn : nodeJoin.IsJoin := mem_directedPairs_iff.mpr (by decide)
  have hid₁ : (looseNode 1).id = nextId (blank.rows .datamapIdentifiers) := by rw [rows_blank]; rfl
  have h₁ := integral_blank.withLooseNode hid₁
  have hrows : (blank.withRecord .datamapIdentifiers (looseNode 1)).rows .datamapIdentifiers =
      [looseNode 1] := by
    rw [withRecord, integral_blank.shaped.rows_setRows, if_pos rfl, rows_blank]
    rfl
  have hid₂ : (looseNode 2).id = nextId ((blank.withRecord .datamapIdentifiers
      (looseNode 1)).rows .datamapIdentifiers) := by rw [hrows]; rfl
  have h₂ := h₁.withLooseNode hid₂
  -- Two nodes without keys, first without a join between them.
  set nodes := (blank.withRecord .datamapIdentifiers (looseNode 1)).withRecord
    .datamapIdentifiers (looseNode 2) with hnodes
  have hmem : ∀ t record, record ∈ nodes.rows t ↔
      t = .datamapIdentifiers ∧ (record = looseNode 1 ∨ record = looseNode 2) := by
    intro t record
    rw [hnodes, h₁.mem_rows_withRecord hid₂, integral_blank.mem_rows_withRecord hid₁, rows_blank]
    simp [← and_or_left]
  have hfirst : nodes.Has (.ofId .datamapIdentifiers 1) :=
    has_ofId_of_mem ((hmem _ (looseNode 1)).mpr ⟨rfl, Or.inl rfl⟩)
  have hsecond : nodes.Has (.ofId .datamapIdentifiers 2) :=
    has_ofId_of_mem ((hmem _ (looseNode 2)).mpr ⟨rfl, Or.inr rfl⟩)
  have hpairs : nodes.pairsOf nodeJoin = [] := by
    rw [hnodes, withRecord, h₁.shaped.pairsOf_setRows, withRecord,
      integral_blank.shaped.pairsOf_setRows, pairsOf_blank hn]
  -- Then the joins, one after the other, each of them new.
  have h₃ := h₂.addPair hn (a := .int 1) (b := .int 2) hfirst hsecond (by simp [hpairs])
    fun t ht => by cases ht
  rw [hpairs, List.nil_append] at h₃
  have hpairs₃ : (nodes.setPairs nodeJoin [(.int 1, .int 2)]).pairsOf nodeJoin =
      [(.int 1, .int 2)] := by rw [h₂.shaped.pairsOf_setPairs hn, if_pos rfl]
  have h₄ := h₃.addPair hn (a := .int 2) (b := .int 1) ((has_setPairs hn _).mpr hsecond)
    ((has_setPairs hn _).mpr hfirst) (by simp [hpairs₃]) fun t ht => by cases ht
  rw [hpairs₃] at h₄
  refine ⟨h₄, fun t record => ?_⟩
  rw [ring, Shaped.rows_setPairs hn, Shaped.rows_setPairs hn]
  exact hmem t record

end Store

/-- The deletion of a node in a ring goes around the ring. -/
theorem Row.deleteChildren_ring :
    ∃ s' st', ((ofId .datamapIdentifiers 1).deleteChildren true).run.run
        { registry := project, connection := .memory Store.ring } = (.ok (), s') ∧
      s'.Opens true st' ∧ Store.ring.Deletes st' (.ofId .datamapIdentifiers 1) := by
  obtain ⟨hring, hrows⟩ := Store.integral_ring
  have hfits : Store.ring.Fits := by
    intro t record hrecord
    rcases ((hrows t record).mp hrecord).2 with rfl | rfl <;> rfl
  exact deleteChildren_deletes ⟨rfl, rfl, rfl⟩ hring.toSound hring.acyclic hfits
    (Store.has_ofId_of_mem ((hrows _ (Store.looseNode 1)).mpr ⟨rfl, Or.inl rfl⟩))

end SoarProject
