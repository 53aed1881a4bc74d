import SoarProject.Datamap.Generation
import SoarProject.Proofs.Datamap.Linking
import SoarProject.Proofs.Row.Update

/-!
# What generating a datamap adds

To generate the datamap of a problem space only adds rows and pairs, whichever of the proposed
corrections are selected. The root of the datamap is the first node below the problem space, also
afterwards.

* `ViewChange.ends_ensureRoot`: the root exists, if it did not before.
* `ends_generateDatamap`: what was there is still there.
-/

namespace SoarProject

open Registry

variable {w : Bool} {st st' : Store} {r p c root : Row} {t : Table}

/-! ### The root -/

/-- The first child in a table stays the first one. -/
theorem Store.Grows.head?_childrenIn (h : st.Grows st') (hc : (st.childrenIn r t).head? = some c) :
    (st'.childrenIn r t).head? = some c := by
  have hfirst : st.childrenIn r t <+: st'.childrenIn r t := by
    unfold Store.childrenIn
    split
    · exact ((h.rows_first t).filter _).map _
    · exact List.prefix_rfl
  obtain ⟨rest, hrest⟩ := hfirst
  rw [← hrest, List.head?_append, hc]
  rfl

/-- A new row that is the only child in its table is the first one. -/
theorem Row.Bears.head?_childrenIn (h : st.Integral) (hp : st.Has p) (hbears : Row.Bears st st' p c)
    (hnone : st.childrenIn p c.table = []) : (st'.childrenIn p c.table).head? = some c := by
  obtain ⟨id, hid⟩ := hp.exists_id
  rw [hid] at hp hbears hnone ⊢
  -- There was no child of this table before, so the new one is the only one.
  have hmem : ∀ d ∈ st'.childrenIn (.ofId p.table id) c.table, d = c := by
    intro d hd
    obtain ⟨htable, hparent⟩ := hbears.grows.integral.mem_childrenIn_iff.mp hd
    rcases hbears.parents _ d hparent with hold | hnew | ⟨-, rfl⟩
    · have := h.mem_childrenIn_iff.mpr ⟨htable, hold⟩
      simp [hnone] at this
    · exact absurd hp hnew
    · rfl
  have hc := hbears.grows.integral.mem_childrenIn_iff.mpr ⟨rfl, hbears.isParent⟩
  obtain ⟨first, rest, hchildren⟩ := List.exists_cons_of_ne_nil (List.ne_nil_of_mem hc)
  rw [hchildren] at hmem ⊢
  rw [List.head?_cons, hmem first List.mem_cons_self]

namespace ViewChange

/-- The root of the datamap is found or created. -/
theorem ends_ensureRoot (h : st.Integral) (hr : st.Has r) :
    ensureRoot.Ends w st r
      (fun root st' => st.Grows st' ∧ st'.Has root.row ∧
        (st'.childrenIn r .datamapIdentifiers).head? = some root.row)
      (fun st' => st.Grows st') := by
  unfold ensureRoot
  refine Ends.bind (Ends.row (Ends.query (Correction.finds_datamapRoot? h.toSound)
    (fun found hfound => ?_) fun _ => .refl h))
  obtain ⟨hhead, hroot⟩ := hfound
  split
  · next root => exact Ends.pure ⟨.refl h, hroot root rfl, hhead.symm⟩
  · -- Without a root one is created, under the name of the problem space.
    refine Ends.bind (ends_name h.toSound (fun name => ?_) fun _ => .refl h)
    refine Ends.lift ((Row.ends_createChild h hr).mono ?_ fun _ hE => hE)
    rintro v st' ⟨htable, hbears, -⟩
    refine ⟨hbears.grows, hbears.has, ?_⟩
    rw [← htable] at hhead ⊢
    -- It is the first of its table, so it is found as the root from now on.
    exact hbears.head?_childrenIn h hr (List.head?_eq_none_iff.mp hhead.symm)

/-- Correct a datamap: propose corrections for the selected paths of a network, and apply some. -/
def correct (select : List Correction → List Correction) (root : View) (n : Network) :
    ViewChange (List Correction) := do
  let proposed ← Correction.propose root n n.terminalPaths
  let applied ← Change.batch .databaseChanged (Correction.applyAll (select proposed))
  let _ ← ViewChange.name
  return applied

/-- Generating a datamap is correcting it for what the related rules use. -/
theorem generateDatamap_eq (select : List Correction → List Correction) :
    generateDatamap select = (do
      let root ← ensureRoot
      let network ← ruleTriples (← relatedRules (← ViewChange.row))
      correct select root network) := rfl

/-- A datamap was corrected for the selected paths of a network: of the proposed corrections, the chosen
ones were applied in turn and then linked. -/
structure Corrects (st st' : Store) (root : Row) (n : Network)
    (proposed chosen applied : List Correction) : Prop where
  selects : chosen ⊆ proposed
  /-- Every correction fills a path. -/
  isFor : ∀ c ∈ proposed, ∃ p ∈ n.terminalPaths, c.IsFor st root n p
  /-- Every path led to a node or is filled. -/
  covers : ∀ p ∈ n.terminalPaths, (∃ q, st.Leads root (n.steps p.path) q) ∨
    ∃ c ∈ proposed, c.IsFor st root n p
  applies : ∃ st₁, Correction.AppliedInTurn st chosen st₁ applied ∧ st₁.Links st'
  links : ∀ c ∈ applied, c.IsLinked st'

theorem Corrects.grows {n : Network} {proposed chosen applied : List Correction}
    (h : Corrects st st' root n proposed chosen applied) : st.Grows st' := by
  obtain ⟨st₁, happlied, hlinks⟩ := h.applies
  exact happlied.grows.trans hlinks.grows

theorem Corrects.isApplied {n : Network} {proposed chosen applied : List Correction}
    (h : Corrects st st' root n proposed chosen applied) :
    List.Forall₂ (Correction.IsApplied st') chosen applied := by
  obtain ⟨st₁, happlied, hlinks⟩ := h.applies
  exact happlied.isApplied.imp fun _ _ hc => hc.grows hlinks.grows

/-- If all corrections were applied, a selected path leads to a node, as far as its values are texts. -/
theorem Corrects.leads {n : Network} {proposed chosen applied : List Correction}
    (h : Corrects st st' root n proposed chosen applied) (hall : proposed ⊆ chosen) {p : TerminalPath}
    (hp : p ∈ n.terminalPaths) (htexts : ∀ t ∈ n.steps p.path, t.IsText) :
    ∃ q, st'.Leads root (n.steps p.path) q := by
  rcases h.covers p hp with ⟨q, hpath⟩ | ⟨c, hc, hfor⟩
  · exact ⟨q, h.grows.leads hpath⟩
  · obtain ⟨c', -, happlied⟩ := (mem_of_forall₂ h.isApplied).1 c (hall hc)
    obtain ⟨q, -, -, hpath⟩ := hfor.leads_of_isApplied h.grows htexts happlied
    exact ⟨q, hpath⟩

/-- Correcting a datamap proposes corrections, and applies and links the chosen ones. -/
theorem ends_correct_corrects (h : st.Integral) {root : View} (hroot : st.Has root.row) {n : Network}
    {select : List Correction → List Correction} (hselect : ∀ cs, select cs ⊆ cs) :
    (correct select root n).Ends w st r
      (fun applied st' => ∃ proposed, Corrects st st' root.row n proposed (select proposed) applied)
      (fun st' => st.Grows st') := by
  unfold correct
  refine Ends.query (Correction.finds_propose h.toSound hroot) (fun cs hcs => ?_) fun _ => .refl h
  obtain ⟨hproposed, hpaths⟩ := hcs
  have hfor : ∀ c ∈ cs, ∃ p ∈ n.terminalPaths, c.IsFor st root.row n p := fun c hc => (hproposed c hc).2
  have hanchors : ∀ c ∈ select cs, st.Has c.anchor.row := by
    intro c hc
    obtain ⟨p, -, hp⟩ := hfor c (hselect cs hc)
    exact hp.has
  -- The corrections are applied in one batch, and the name is only read for the message.
  refine Ends.bind ((Ends.lift (Change.Ends.batch (Correction.ends_applyAll h hanchors))).mono ?_
    fun _ hE => hE)
  rintro applied st' ⟨st₁, happlied, hlinks, hlinked⟩
  have hgrows := happlied.grows.trans hlinks.grows
  exact Ends.bind (ends_name hgrows.integral.toSound (fun _ => Ends.pure
    ⟨cs, hselect cs, hfor, hpaths, ⟨st₁, happlied, hlinks⟩, hlinked⟩) fun _ => hgrows)

/-- Correcting a datamap only adds rows and pairs. If all corrections are applied, every selected path
leads to a node afterwards, as far as its values are texts. -/
theorem ends_correct (h : st.Integral) {root : View} (hroot : st.Has root.row) {n : Network}
    {select : List Correction → List Correction} (hselect : ∀ cs, select cs ⊆ cs) :
    (correct select root n).Ends w st r
      (fun _ st' => st.Grows st' ∧ ((∀ cs, cs ⊆ select cs) → ∀ p ∈ n.terminalPaths,
        (∀ t ∈ n.steps p.path, t.IsText) → ∃ q, st'.Leads root.row (n.steps p.path) q))
      (fun st' => st.Grows st') := by
  refine (ends_correct_corrects h hroot hselect).mono ?_ fun _ hE => hE
  rintro applied st' ⟨proposed, hcorrects⟩
  exact ⟨hcorrects.grows, fun hall p hp htexts => hcorrects.leads (hall proposed) hp htexts⟩

/-- Generating a datamap only adds rows and pairs, also if it fails on the way. -/
theorem ends_generateDatamap (h : st.Integral) (hr : st.Has r)
    {select : List Correction → List Correction} (hselect : ∀ cs, select cs ⊆ cs) :
    (generateDatamap select).Ends w st r (fun _ st' => st.Grows st') (fun st' => st.Grows st') := by
  rw [generateDatamap_eq]
  refine Ends.bind ((ends_ensureRoot h hr).mono ?_ fun _ hE => hE)
  rintro root st₁ ⟨hgrows, hroot, -⟩
  refine Ends.bind (Ends.row (Ends.query Query.finds_any (fun rules _ => ?_) fun _ => hgrows))
  refine Ends.query Query.finds_any (fun network _ => ?_) fun _ => hgrows
  exact (ends_correct hgrows.integral hroot hselect).mono (fun _ _ hQ => hgrows.trans hQ.1)
    fun _ hE => hgrows.trans hE

end ViewChange

end SoarProject
