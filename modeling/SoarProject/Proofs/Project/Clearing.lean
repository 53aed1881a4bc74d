import SoarProject.Proofs.Project.Rules

/-!
# Clearing a rule

The parts of a rule hang on it by keys alone, since none of them is joined to anything. So deleting what
is below a rule removes exactly the rows that keys put below it, and no pair.
-/

namespace SoarProject

open Registry

variable {st st' : Store} {r p c : Row} {n : RelationName}

/-- No join connects parts of rules, and none puts a row below a rule. -/
theorem not_isRulePart_of_isJoin (hn : n.IsJoin) :
    n.joinTables.1.isRulePart = false ∧ n.joinTables.2.isRulePart = false ∧
      ∀ t, n ≠ .directed .rules t := by
  have hjoined : ∀ pair ∈ project.joinedPairs,
      pair.1.isRulePart = false ∧ pair.2.isRulePart = false := by decide
  have hdirected : ∀ pair ∈ project.directedPairs,
      pair.1.isRulePart = false ∧ pair.2.isRulePart = false ∧ pair.1 ≠ .rules := by decide
  -- Only the two kinds of join have tables to look up.
  cases n with
  | join a b =>
    obtain ⟨ha, hb⟩ := hjoined (a, b) hn
    exact ⟨ha, hb, by simp⟩
  | directed a b =>
    obtain ⟨ha, hb, hne⟩ := hdirected (a, b) hn
    refine ⟨ha, hb, fun t heq => hne ?_⟩
    exact (RelationName.directed.inj heq).1
  | entity => exact hn.elim
  | other => exact hn.elim

/-- What is below a rule is there by keys. -/
theorem transGen_isParent_of_isOver (hr : r.table = .rules)
    (h : Relation.TransGen st.IsOver r c) : Relation.TransGen st.IsParent r c := by
  -- A part of a rule is below no row by a join.
  have hkey : ∀ {p c : Row}, c.table.isRulePart = true → st.IsOver p c → st.IsParent p c := by
    intro p c hc hpc
    refine hpc.resolve_right fun habove => ?_
    have hpart := (not_isRulePart_of_isJoin habove.isJoin).2.1
    exact Bool.false_ne_true (hpart.symm.trans hc)
  induction h with
  | single hrc => exact .single (hkey (isRulePart_of_transGen hr (.single hrc)) hrc)
  | tail hrb hbc ih => exact ih.tail (hkey (isRulePart_of_transGen hr (hrb.tail hbc)) hbc)

namespace Store

/-- Exactly what is below the row `r` is gone. -/
structure Clears (st st' : Store) (r : Row) : Prop where
  within : st'.Within st
  integral : st'.Integral
  /-- The rows that are not below `r` are left. -/
  has_iff : ∀ c, st'.Has c ↔ st.Has c ∧ ¬ Relation.TransGen st.IsParent r c
  pairs_eq : ∀ n : RelationName, n.IsJoin → st'.pairsOf n = st.pairsOf n
  /-- Nothing is below `r` any more. -/
  childless : ∀ c, ¬ st'.IsParent r c

/-- Clearing a row without children leaves all records. -/
theorem Clears.rows_eq (h : st.Clears st' r) (hst : st.Integral) (hchildless : ∀ c, ¬ st.IsParent r c)
    (t : Table) : st'.rows t = st.rows t := by
  obtain ⟨keep, hkeep⟩ := h.within.rows_eq t
  rw [hkeep, List.filter_eq_self]
  intro record hrecord
  have hnone : ∀ c, ¬ Relation.TransGen st.IsParent r c := by
    intro c hrc
    obtain ⟨d, hrd, -⟩ := Relation.TransGen.head'_iff.mp hrc
    exact hchildless d hrd
  obtain ⟨left, hleft, hid⟩ := (h.has_iff (.ofId t record.id)).mpr ⟨has_ofId_of_mem hrecord, hnone _⟩
  rw [hkeep, List.mem_filter] at hleft
  rw [hst.eq_of_id_eq hrecord hleft.1 (Cell.int.inj hid)]
  exact hleft.2

/-- A row is gone once its ancestor has no children. -/
theorem Within.not_has_of_transGen (h : st'.Within st) (hs : st.Sound) (hs' : st'.Sound)
    (hchildless : ∀ c, ¬ st'.IsParent r c) (hrc : Relation.TransGen st.IsParent r c) :
    ¬ st'.Has c := by
  induction hrc with
  | single hrc => exact fun hc => hchildless _ (h.isParent_of_has hs hc hrc)
  | tail _ hbc ih => exact fun hc => ih (hs'.has_of_isParent (h.isParent_of_has hs hc hbc))

/-- The deletion of what is below a rule leaves all else. -/
theorem Removes.clears (h : st.Removes st' r false) (hst : st.Integral) (hr : r.table = .rules)
    (hchildless : ∀ c, ¬ st'.IsParent r c) : st.Clears st' r where
  within := h.within
  integral := hst.of_within h.within h.sound
  has_iff c := by
    constructor
    · intro hc
      refine ⟨h.within.has hc, fun hrc => ?_⟩
      exact h.within.not_has_of_transGen hst.toSound h.sound hchildless hrc hc
    · rintro ⟨hc, hnot⟩
      by_contra hgone
      rcases h.reach c hc hgone with ⟨hown, -⟩ | hrc
      · exact Bool.false_ne_true hown
      · exact hnot (transGen_isParent_of_isOver hr hrc)
  pairs_eq n hn := by
    obtain ⟨hfirst, hsecond, hrule⟩ := not_isRulePart_of_isJoin hn
    -- An end of a pair is no part of a rule, and so it is not gone.
    have hleft : ∀ {q}, st.Has q → q.table.isRulePart = false → st'.Has q := by
      intro q hq hpart
      by_contra hgone
      rcases h.reach q hq hgone with ⟨hown, -⟩ | hrq
      · exact Bool.false_ne_true hown
      · exact Bool.false_ne_true (hpart.symm.trans (isRulePart_of_transGen hr hrq))
    obtain ⟨keep, hkeep⟩ := h.within.pairs_eq n
    rw [hkeep, List.filter_eq_self]
    intro pair hpair
    by_contra hdropped
    have hgone : pair ∉ st'.pairsOf n := fun hmem => by
      rw [hkeep, List.mem_filter] at hmem
      exact hdropped hmem.2
    obtain ⟨hone, htwo⟩ := hst.pairs_exist n hn pair hpair
    rcases h.joins_kept n hn pair hpair hgone with (hend | hend) | ⟨⟨t, ht⟩, -⟩
    · exact hend (hleft hone hfirst)
    · exact hend (hleft htwo hsecond)
    · exact hrule t (hr ▸ ht)
  childless := hchildless

end Store

/-- Deleting what is below a rule succeeds, and leaves all else. -/
theorem ends_clearRule (h : st.Integral) (hfits : st.Fits) (hr : st.Has r) (htable : r.table = .rules) :
    (r.deleteChildren false).Ends true st (fun _ st' => st.Clears st' r) (fun _ => False) := by
  obtain ⟨id, hid⟩ := hr.exists_id
  have hrow := hfits.row hr
  rw [hid] at hrow htable ⊢
  refine (Row.ends_deleteChildren h.toSound).mono ?_ ?_
  · rintro - st' ⟨hremoves, -, hchildless⟩
    exact hremoves.clears h htable fun c hc => hchildless c (.inl hc)
  · rintro st' ⟨-, hnot⟩
    exact hnot ⟨rfl, hfits, hrow, h.acyclic⟩

end SoarProject
