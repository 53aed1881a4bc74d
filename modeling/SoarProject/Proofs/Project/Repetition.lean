import SoarProject.Proofs.Datamap.Independence
import SoarProject.Proofs.Project.Completeness

/-!
# Generating a datamap again

A datamap that was generated with all corrections lacks nothing: to generate it once more, with the rules as
they are, proposes nothing and leaves the store as it is. This holds for all rules, and for whatever the
datamap was before.

* `Correction.finds_propose_nil`: nothing is proposed for paths that lead to nodes.
* `generateDatamap_idempotent`: every selected path leads to a node, and so nothing is proposed again.
-/

namespace SoarProject

open Registry

variable {w : Bool} {s s' : Session} {st st' : Store} {v v' : View} {r p c q root : Row}
  {path : List Triple} {ns : List Network}

namespace Correction

/-- Nothing is proposed for the rest of a path that leads on to a node. -/
theorem finds_proposeFrom_nil (h : st.Sound) {links : List PathLink} {nodes : List View}
    (hnodes : ∀ v ∈ nodes, st.Has v.row) (hpath : ∃ v ∈ nodes, ∃ q, st.Leads v.row path q) :
    (proposeFrom links nodes path).Finds st st.Fits (· = []) := by
  induction path generalizing nodes with
  | nil => exact Query.Finds.pure rfl
  | cons step rest ih =>
    obtain ⟨v, hv, q, hpath⟩ := hpath
    cases hpath with
    | @cons _ c _ _ _ hstands hrest =>
      rw [proposeFrom]
      refine (finds_matchingBelow h hnodes).bind fun found hfound => ?_
      -- The node that the path leads through is among those found, so nothing is missing here.
      obtain ⟨v', hv', hrow⟩ := (hfound c).mpr ⟨v, hv, hstands⟩
      split
      · cases hv'
      · refine ih (fun u hu => ?_) ⟨v', hv', q, hrow ▸ hrest⟩
        obtain ⟨u', -, hu'⟩ := (hfound u.row).mp ⟨u, hu, rfl⟩
        exact (h.has_of_isAbove hu'.1.1).2

/-- Nothing is proposed if all selected paths lead to nodes. -/
theorem finds_propose_nil (h : st.Sound) {root : View} (hroot : st.Has root.row) {n : Network}
    {paths : List TerminalPath}
    (hpaths : ∀ p ∈ paths, ∃ q, st.Leads root.row (n.steps p.path) q) :
    (propose root n paths).Finds st st.Fits (· = []) := by
  have hnodes : ∀ v ∈ [root], st.Has v.row := by
    intro v hv
    rwa [List.mem_singleton.mp hv]
  unfold propose
  refine (Query.Finds.mapM_mem fun p hp =>
    finds_proposeFrom_nil h hnodes ⟨root, List.mem_cons_self, hpaths p hp⟩).bind fun lists hlists =>
      Query.Finds.pure (List.flatten_eq_nil_iff.mpr fun cs hcs => ?_)
  obtain ⟨-, -, hnil⟩ := hlists.2 cs hcs
  exact hnil

end Correction

/-- The triples of the related rules are the same in stores that differ in their datamaps only. -/
theorem sameIn_relatedTriples (h : st.KeepsRules st') (hst : st.Integral) (hgrows : st.Grows st')
    (hfits' : st'.Fits) : (relatedTriples r).SameIn st st' := by
  unfold relatedTriples
  refine .bind (sameIn_relatedRules h) (finds_relatedRules_has hst.toSound) fun rules hrules => ?_
  exact .bind_any (.mapM fun rule hrule => sameIn_extractTriples h hst hgrows hfits'
    (hrules rule hrule).1 (hrules rule hrule).2) fun _ => .pure

theorem Correction.applyAll_nil : Correction.applyAll [] = pure [] := rfl

namespace ViewChange

/-- Looking at a name leaves the store as it is, whether it is found or not. -/
theorem ends_name_any {Q : Value → Store → Prop} {E : Store → Prop} (hQ : ∀ name, Q name st)
    (hE : E st) : ViewChange.name.Ends w st r Q E := by
  refine Ends.through fun v hv => ?_
  have hends : ((liftM v.name : Change (Value × View)) >>= Pure.pure).Ends w st
      (fun found st' => found.2.row = r ∧ Q found.1 st') E :=
    Change.Ends.query Row.finds_name_row (fun found hfound =>
      Change.Ends.pure ⟨hfound.trans hv, hQ found.1⟩) fun _ => hE
  rwa [bind_pure] at hends

/-- Correcting a datamap leaves everything else as it is. -/
theorem keepsRules_correct {select : List Correction → List Correction} {root : View} {n : Network} :
    (correct select root n).Ends w st r (fun _ st' => st.KeepsRules st') (fun _ => True) := by
  unfold correct
  refine Ends.query Query.finds_any (fun cs _ => ?_) fun _ => trivial
  refine Ends.bind ((Ends.lift (Change.Ends.batch (Correction.sparesRules_applyAll w st))).mono ?_
    fun _ hE => hE)
  rintro applied st' ⟨hkeeps, -⟩
  exact Ends.bind (ends_name_any (fun _ => Ends.pure hkeeps) trivial)

/-- A datamap in which all selected paths lead to nodes is left as it is. -/
theorem ends_correct_nil (h : st.Sound) (hfits : st.Fits) (hr : st.Has r)
    {select : List Correction → List Correction} (hselect : ∀ cs, select cs ⊆ cs) {root : View}
    (hroot : st.Has root.row) {n : Network}
    (hpaths : ∀ p ∈ n.terminalPaths, ∃ q, st.Leads root.row (n.steps p.path) q) :
    (correct select root n).Ends w st r (fun cs st' => cs = [] ∧ st' = st) fun _ => False := by
  unfold correct
  refine Ends.query (Correction.finds_propose_nil h hroot hpaths) ?_ fun hnot => hnot hfits
  rintro _ rfl
  -- Nothing is proposed, so the batch is empty, and it only announces the change.
  rw [List.subset_nil.mp (hselect []), Correction.applyAll_nil]
  have hbatch : (Change.batch .databaseChanged (pure [] : Change (List Correction))).Ends w st
      (fun cs st' => cs = [] ∧ st' = st) fun _ => False :=
    Change.Ends.batch (Change.Ends.pure ⟨rfl, rfl⟩)
  refine Ends.bind ((Ends.lift hbatch).mono ?_ fun _ hE => hE)
  rintro _ _ ⟨rfl, rfl⟩
  exact Ends.bind (ends_name h (fun _ => Ends.pure ⟨rfl, rfl⟩) fun hnot => hnot (hfits.row hr))

/-- A root that is there is found, and nothing is created. -/
theorem ends_ensureRoot_found (h : st.Sound) (hfits : st.Fits) (hr : st.Has r)
    (hroot : (st.childrenIn r .datamapIdentifiers).head? = some root) :
    ensureRoot.Ends w st r (fun found st' => found.row = root ∧ st' = st) fun _ => False := by
  unfold ensureRoot
  refine Ends.bind (Ends.row (Ends.query (Correction.finds_datamapRoot? h) (fun found hfound => ?_)
    fun hnot => hnot (hfits.row hr)))
  rw [hroot] at hfound
  rw [hfound.1]
  exact Ends.pure ⟨rfl, rfl⟩

end ViewChange

/-! ### Generating -/

/-- A query that fails. -/
theorem ViewChange.run_query_error {α β : Type} {q : Query α} {f : α → ViewChange β} {e : Failure}
    (h : q.run s = .error e) :
    ((liftM q : ViewChange α) >>= f).run.run (v, s) = (.error e, v, s) := by
  have hrun : (liftM q : ViewChange α).run.run (v, s) = (q.run s, v, s) := rfl
  rw [run_bind, hrun, h]

/-- Without the triples of the related rules, either the rules or their triples are missing. -/
theorem relatedTriples_eq_error {e : Failure} (h : (relatedTriples r).run s = .error e) :
    (relatedRules r).run s = .error e ∨
      ∃ rules, (relatedRules r).run s = .ok rules ∧ (ruleTriples rules).run s = .error e := by
  have hrun : (relatedTriples r).run s = (relatedRules r).run s >>= fun rules =>
      (rules.mapM fun r => extractTriples r.view).run s >>= fun found => .ok (found.map (·.1)) := rfl
  rw [hrun] at h
  -- Either the rules cannot be listed, or the triples of one of them cannot be read.
  cases hrules : (relatedRules r).run s with
  | error e' =>
    rw [hrules] at h
    change .error e' = Except.error e at h
    exact .inl (congrArg Except.error (Except.error.inj h))
  | ok rules =>
    have htriples : (ruleTriples rules).run s = (rules.mapM fun r => extractTriples r.view).run s >>=
        fun found => .ok (.concat (found.map (·.1))) := rfl
    rw [hrules] at h
    change ((rules.mapM fun r => extractTriples r.view).run s >>= fun found =>
      .ok (found.map (·.1))) = .error e at h
    refine .inr ⟨rules, rfl, htriples.trans ?_⟩
    cases hlists : (rules.mapM fun r => extractTriples r.view).run s with
    | ok found =>
      rw [hlists] at h
      cases h
    | error e' =>
      rw [hlists] at h
      obtain rfl := Except.error.inj h
      rfl

/-- A datamap that was generated was corrected for the triples of the related rules. -/
theorem exists_correct_of_generateDatamap {select : List Correction → List Correction}
    {applied : List Correction}
    (hrun : (generateDatamap select).run.run (v, s) = (.ok applied, v', s')) :
    ∃ root v₁ s₁ ns, ensureRoot.run.run (v, s) = (.ok root, v₁, s₁) ∧
      (relatedTriples v₁.row).run s₁ = .ok ns ∧
      (ViewChange.correct select root (.concat ns)).run.run (v₁, s₁) = (.ok applied, v', s') := by
  rcases hroot : ensureRoot.run.run (v, s) with ⟨_ | root, v₁, s₁⟩
  · rw [ViewChange.generateDatamap_eq, ViewChange.run_bind, hroot] at hrun
    cases hrun
  cases hrules : (relatedTriples v₁.row).run s₁ with
  | ok ns => exact ⟨root, v₁, s₁, ns, rfl, hrules, (run_generateDatamap hroot hrules) ▸ hrun⟩
  -- Reading the rules does not fail, since the run succeeded.
  | error e =>
    exfalso
    have hrow : ViewChange.row.run.run (v₁, s₁) = (.ok v₁.row, v₁, s₁) := rfl
    rw [ViewChange.generateDatamap_eq, ViewChange.run_bind, hroot] at hrun
    dsimp only at hrun
    rw [ViewChange.run_bind, hrow] at hrun
    dsimp only at hrun
    rcases relatedTriples_eq_error hrules with hfound | ⟨rules, hfound, hnetwork⟩
    · rw [ViewChange.run_query_error hfound] at hrun
      cases hrun
    · rw [ViewChange.run_query hfound, ViewChange.run_query_error hnetwork] at hrun
      cases hrun

/-- How a datamap was generated. The store `st₁` is the one before the corrections and `st'` the one after
them; the datamap has the root `root`, and `ns` are the triples of the related rules. -/
structure Generated (w : Bool) (st₁ st' : Store) (space root : Row) (ns : List Network)
    (select : List Correction → List Correction) (applied : List Correction) : Prop where
  integral : st₁.Integral
  has_space : st'.Has space
  has_root : st₁.Has root
  head?_eq : (st₁.childrenIn space .datamapIdentifiers).head? = some root
  linked : ∀ n ∈ ns, ∃ ts, n = .link ts ∧ Network.Apart ts ∧ ∀ t ∈ ts, t.IsText
  corrects : ∃ proposed, ViewChange.Corrects st₁ st' root (.concat ns) proposed (select proposed) applied
  keepsRules : st₁.KeepsRules st'
  /-- The rules have these triples before and after. -/
  finds_triples : st'.Fits → (relatedTriples space).Finds st' True (· = ns)

/-- A datamap that was generated was generated in this way. -/
theorem exists_generated (hs : s.Opens w st) (h : st.Integral) (hv : st.Has v.row)
    {select : List Correction → List Correction} (hselect : ∀ cs, select cs ⊆ cs)
    {applied : List Correction}
    (hrun : (generateDatamap select).run.run (v, s) = (.ok applied, v', s')) :
    ∃ st₁ st' root ns, (ensureRoot.run.run (v, s)).2.2.Opens w st₁ ∧ s'.Opens w st' ∧ st.Grows st₁ ∧
      Generated w st₁ st' v.row root ns select applied := by
  obtain ⟨root, v₁, s₁, ns, hroot, hrules, hcorrect⟩ := exists_correct_of_generateDatamap hrun
  obtain ⟨hrow, st₁, hs₁, hr⟩ := ViewChange.ends_ensureRoot h hv v s rfl hs
  rw [hroot] at hrow hs₁ hr
  dsimp only at hrow hs₁ hr
  obtain ⟨hgrows, hhas, hhead⟩ := hr
  obtain ⟨-, st', hs', hr'⟩ :=
    ViewChange.ends_correct_corrects (n := .concat ns) hgrows.integral hhas hselect v₁ s₁ hrow hs₁
  -- The corrections grow the datamap only, so the rules read the same afterwards.
  have hspares : (ViewChange.correct select root (.concat ns)).Ends w st₁ v.row
      (fun _ st' => st₁.KeepsRules st') (fun _ => True) := ViewChange.keepsRules_correct
  obtain ⟨-, st'', hs'', hkeeps⟩ := hspares v₁ s₁ hrow hs₁
  rw [hcorrect] at hs' hs'' hr' hkeeps
  obtain rfl := hs'.store_unique hs''
  obtain ⟨proposed, hcorrects⟩ := hr'
  have hgrows' := hcorrects.grows
  refine ⟨st₁, st', root.row, ns, hroot ▸ hs₁, hs', hgrows, hgrows.integral,
    hgrows'.has (hgrows.has hv), hhas, hhead,
    -- Later stores of the same contents give the same triples as well.
    finds_relatedTriples.of_run hs₁ hrules, ⟨proposed, hcorrects⟩, hkeeps, fun hfits w₂ s₂ hs₂ => ?_⟩
  have hsame := sameIn_relatedTriples (r := v.row) hkeeps hgrows.integral hgrows' hfits
  rw [← hsame w s₁ w₂ s₂ hs₁ hs₂, ← hrow, hrules]

namespace Generated

variable {select : List Correction → List Correction} {applied : List Correction} {space : Row}
  (h : Generated w st st' space root ns select applied)

include h

theorem grows : st.Grows st' := by
  obtain ⟨proposed, hcorrects⟩ := h.corrects
  exact hcorrects.grows

/-- The root of the datamap is found. -/
theorem finds_root (hfits : st'.Fits) : space.datamapRoot?.Finds st' True (· = some root) := by
  refine ((Correction.finds_datamapRoot? h.grows.integral.toSound).mono_sure fun _ =>
    hfits.row h.has_space).mono fun found hfound => ?_
  rw [hfound.1, h.grows.head?_childrenIn h.head?_eq]

/-- The values along a selected path are texts. -/
theorem isText {p : TerminalPath} (hp : p ∈ (Network.concat ns).terminalPaths) {t : Triple}
    (ht : t ∈ (Network.concat ns).steps p.path) : t.IsText :=
  isText_of_mem_terminalPath h.linked hp ht

end Generated

/-- To generate a datamap with a root, in which all selected paths lead to nodes, gives no corrections and
leaves the store as it is. -/
theorem generateDatamap_eq_nil (hs : s.Opens w st) (h : st.Integral) (hfits : st.Fits)
    (hv : st.Has v.row) {select : List Correction → List Correction} (hselect : ∀ cs, select cs ⊆ cs)
    (hroot : (st.childrenIn v.row .datamapIdentifiers).head? = some root) (hhas : st.Has root)
    (hrules : (relatedTriples v.row).Finds st True (· = ns))
    (hpaths : ∀ p ∈ (Network.concat ns).terminalPaths,
      ∃ q, st.Leads root ((Network.concat ns).steps p.path) q) :
    ∃ v' s', (generateDatamap select).run.run (v, s) = (.ok [], v', s') ∧ s'.Opens w st := by
  -- The root is there already, so nothing is created.
  obtain ⟨hrow, st₁, hs₁, hfound⟩ :=
    ViewChange.ends_ensureRoot_found h.toSound hfits hv hroot v s rfl hs
  rcases hensured : ensureRoot.run.run (v, s) with ⟨_ | found, v₁, s₁⟩
  · rw [hensured] at hfound
    exact hfound.elim
  rw [hensured] at hrow hs₁ hfound
  dsimp only at hrow hs₁ hfound
  obtain ⟨rfl, rfl⟩ := hfound
  have hrules₁ : (relatedTriples v₁.row).run s₁ = .ok ns := by
    have hsure := hrules w s₁ hs₁
    rw [hrow]
    cases hrelated : (relatedTriples v.row).run s₁ with
    | error e => simp [hrelated] at hsure
    | ok ns' =>
      rw [hrelated] at hsure
      exact congrArg Except.ok hsure
  rw [run_generateDatamap hensured hrules₁]
  -- Every path resolves, so there is nothing to propose.
  have hends := ViewChange.ends_correct_nil (w := w) h.toSound hfits hv hselect hhas hpaths
  obtain ⟨-, st₂, hs₂, hresult⟩ := hends v₁ s₁ hrow hs₁
  rcases hcorrected : (ViewChange.correct select found (.concat ns)).run.run (v₁, s₁) with
    ⟨_ | cs, v₂, s₂⟩
  · rw [hcorrected] at hresult
    exact hresult.elim
  · rw [hcorrected] at hs₂ hresult
    obtain ⟨rfl, rfl⟩ := hresult
    exact ⟨v₂, s₂, rfl, hs₂⟩

/-- After a datamap was generated with all corrections, every selected path leads to a node. To generate
it once more gives no corrections and leaves the store as it is. -/
theorem generateDatamap_idempotent (hs : s.Opens w st) (h : st.Integral) (hv : st.Has v.row)
    {select : List Correction → List Correction} (hselect : ∀ cs, select cs ⊆ cs)
    (hall : ∀ cs, cs ⊆ select cs) {applied : List Correction}
    (hrun : (generateDatamap select).run.run (v, s) = (.ok applied, v', s')) :
    ∃ st', s'.Opens w st' ∧ (st'.Fits → ∃ root ns,
      (v.row.datamapRoot?).Finds st' True (· = some root) ∧
      (relatedTriples v.row).Finds st' True (· = ns) ∧
      (∀ p ∈ (Network.concat ns).terminalPaths,
        (root.resolvePath ((Network.concat ns).steps p.path)).Finds st' True (· ≠ [])) ∧
      ∀ w₂ s₂ v₂ select', s₂.Opens w₂ st' → v₂.row = v.row → (∀ cs, select' cs ⊆ cs) →
        ∃ v₃ s₃, (generateDatamap select').run.run (v₂, s₂) = (.ok [], v₃, s₃) ∧
          s₃.Opens w₂ st') := by
  obtain ⟨root, v₁, s₁, ns, hroot, hrules, hcorrect⟩ := exists_correct_of_generateDatamap hrun
  obtain ⟨hrow, st₁, hs₁, hr⟩ := ViewChange.ends_ensureRoot h hv v s rfl hs
  rw [hroot] at hrow hs₁ hr
  dsimp only at hrow hs₁ hr
  obtain ⟨hgrows, hhas, hhead⟩ := hr
  obtain ⟨-, st', hs', hr'⟩ :=
    ViewChange.ends_correct (n := .concat ns) hgrows.integral hhas hselect v₁ s₁ hrow hs₁
  have hspares : (ViewChange.correct select root (.concat ns)).Ends w st₁ v.row
      (fun _ st' => st₁.KeepsRules st') (fun _ => True) := ViewChange.keepsRules_correct
  obtain ⟨-, st'', hs'', hkeeps⟩ := hspares v₁ s₁ hrow hs₁
  rw [hcorrect] at hs' hs'' hr' hkeeps
  obtain rfl := hs'.store_unique hs''
  obtain ⟨hgrows', hleads⟩ := hr'
  have hv' := hgrows'.has (hgrows.has hv)
  have hns := finds_relatedTriples.of_run hs₁ hrules
  have hpaths := fun p hp => hleads hall p hp fun t ht => isText_of_mem_terminalPath hns hp ht
  have hhead' := hgrows'.head?_childrenIn hhead
  refine ⟨st', hs', fun hfits => ?_⟩
  -- The second run reads the rules in the store that the first one left.
  have hagain : (relatedTriples v.row).Finds st' True (· = ns) := by
    intro w₂ s₂ hs₂
    have hsame := sameIn_relatedTriples (r := v.row) hkeeps hgrows.integral hgrows' hfits
    rw [← hsame w s₁ w₂ s₂ hs₁ hs₂, ← hrow, hrules]
  refine ⟨root.row, ns, ?_, hagain, fun p hp => ?_, fun w₂ s₂ v₂ select' hs₂ hv₂ hselect' => ?_⟩
  · refine ((Correction.finds_datamapRoot? hgrows'.integral.toSound).mono_sure fun _ =>
      hfits.row hv').mono fun found hfound => ?_
    rw [hfound.1, hhead']
  · obtain ⟨q, hq⟩ := hpaths p hp
    exact ((Row.finds_resolvePath hgrows'.integral.toSound (hgrows'.has hhas)).mono_sure fun _ =>
      hfits).mono fun found hfound => List.ne_nil_of_mem ((hfound q).mpr hq)
  · -- It finds the root, and every path resolves already.
    rw [← hv₂] at hv' hhead' hagain
    exact generateDatamap_eq_nil hs₂ hgrows'.integral hfits hv' hselect' hhead'
      (hgrows'.has hhas) hagain hpaths

/-- A rule whose state is its own attribute. -/
def cyclicText : String := "sp \x7bcyclic (state <s> ^self <s>) --> \x7d"

/-- A rule that looks for a symbol. -/
def symbolText : String := "sp \x7bsymbol (state <s> ^mode on) --> \x7d"

/-- With a cyclic rule something is added, and then nothing. -/
theorem generateDatamap_idempotent_cyclic :
    ∃ s ∈ Operation.performAll (twoRules cyclicText symbolText) Reachable.newProject,
      ∃ applied v' s', (generateDatamap id).run.run (space, s) = (.ok applied, v', s') ∧
        applied ≠ [] ∧ ∃ st' v₃ s₃, s'.Opens true st' ∧ st'.Fits ∧
          (generateDatamap id).run.run (space, s') = (.ok [], v₃, s₃) ∧ s₃.Opens true st' := by
  have hchecked : ∃ s ∈ Operation.performAll (twoRules cyclicText symbolText) Reachable.newProject,
      (s.store.toOption.any fun st => st.Has space.row) = true ∧
      (((generateDatamap id).run.run (space, s)).1.toOption.any fun cs => !cs.isEmpty) = true ∧
      (((generateDatamap id).run.run (space, s)).2.2.store.toOption.any fun st =>
        Table.all.all fun t => (st.rows t).all fun record => fitsInteger record.id) = true := by
    decide +kernel
  obtain ⟨s, hs, hspace, hdone, hfits⟩ := hchecked
  obtain ⟨st, hopen, hst⟩ := (reachable_twoRules hs).exists_integral
  have hhas : st.Has space.row := by simpa [hopen.store_eq, Except.toOption] using hspace
  rcases hrun : (generateDatamap id).run.run (space, s) with ⟨_ | applied, v', s'⟩
  · simp [hrun, Except.toOption] at hdone
  rw [hrun] at hdone hfits
  have hall : ∀ cs : List Correction, id cs ⊆ cs ∧ cs ⊆ id cs := fun cs =>
    ⟨List.Subset.refl cs, List.Subset.refl cs⟩
  obtain ⟨st', hs', hagain⟩ := generateDatamap_idempotent hopen hst hhas (fun cs => (hall cs).1)
    (fun cs => (hall cs).2) hrun
  -- No id is too large to be bound, which is evaluated as well.
  have hfits' : st'.Fits := Store.fits_of_all (by simpa [hs'.store_eq, Except.toOption] using hfits)
  obtain ⟨root, ns, -, -, -, hnothing⟩ := hagain hfits'
  obtain ⟨v₃, s₃, hrun', hs₃⟩ := hnothing true s' space id hs' rfl fun cs => (hall cs).1
  exact ⟨s, hs, applied, v', s', hrun, by simpa [Except.toOption] using hdone, st', v₃, s₃, hs', hfits',
    hrun', hs₃⟩

end SoarProject
