import SoarProject.Proofs.Row.Creation
import SoarProject.Proofs.Row.Deletion
import SoarProject.Proofs.Row.Update
import SoarProject.Proofs.Rule.Outline
import SoarProject.Project.Rules

/-!
# Agents and their rules

Saving the text of a rule replaces what is below the rule, and leaves all other rows. Importing a source
does this for one new rule after the other, below an agent that stays. What fails on the way keeps
the integrity of the store too.

* `ends_storeProduction`: storing the parts of a production only adds records.
* `Store.Keeps`: rows that are not below a row are left.
* `ViewChange.ends_saveRuleText`, `ends_importRules`: what saving and importing leave.
-/

namespace SoarProject

open Registry Rule

variable {w : Bool} {st st' st₁ : Store} {r p c q : Row} {t : Table}

/-- An agent is a new row, and no row gets a parent. -/
theorem ends_createAgent (h : st.Integral) {name : Value} :
    (createAgent name).Ends w st
      (fun v st' => st.Fresh st' v.row ∧ ∀ p c, st'.IsParent p c → st.IsParent p c)
      (fun st' => st' = st) := by
  unfold createAgent
  refine Change.Ends.bind ((Change.Ends.insertLoose h isAttribute_of_mem_name).mono ?_
    fun _ hE => hE)
  rintro id st' ⟨hfresh, hparents, -⟩
  exact Change.Ends.pure ⟨hfresh, hparents⟩

/-! ### Storing parts -/

/-- One outline after the other is stored. -/
theorem ends_storeOutlines_of (h : st.Integral) (hp : st.Has p) {os : List Outline}
    (hos : ∀ o ∈ os, ∀ {st : Store} {p : Row}, st.Integral → st.Has p →
      (storeOutline p o).Ends w st (fun _ st' => st.Grows st') (fun st' => st.Grows st')) :
    (storeOutlines p os).Ends w st (fun _ st' => st.Grows st') (fun st' => st.Grows st') := by
  induction os generalizing st with
  | nil =>
    rw [storeOutlines]
    exact Change.Ends.pure (.refl h)
  | cons o rest ih =>
    rw [storeOutlines]
    refine Change.Ends.bind ((hos o List.mem_cons_self h hp).mono ?_ fun _ hE => hE)
    rintro - st₁ hgrows
    exact (ih hgrows.integral (hgrows.has hp) fun o' ho' => hos o' (List.mem_cons_of_mem _ ho')).mono
      (fun _ _ hQ => hgrows.trans hQ) fun _ hE => hgrows.trans hE

/-- Storing an outline below a row only adds records. -/
theorem ends_storeOutline {o : Outline} (ho : o.Plain) :
    ∀ {st : Store} {p : Row}, st.Integral → st.Has p →
      (storeOutline p o).Ends w st (fun _ st' => st.Grows st') (fun st' => st.Grows st') := by
  induction ho with
  | @entry kind e children he hchildren ih =>
    intro st p h hp
    rw [storeOutline]
    refine Row.ends_childTables ?_
    split
    · -- The table is not declared below the parent, and nothing was inserted yet.
      exact Change.Ends.bind (Change.Ends.throw (.refl h))
    · -- The record is inserted first, and its parts are stored below it.
      have hplain : ∀ v ∈ e.columns ++ [("name", e.name)], IsAttribute v.1 := by
        intro v hv
        rcases List.mem_append.mp hv with hv | hv
        · exact he v.1 (List.mem_map_of_mem hv)
        · exact isAttribute_of_mem_name v hv
      refine Change.Ends.bind ((Row.ends_insertChild h hp hplain).mono ?_ ?_)
      · rintro id st₁ ⟨hfresh, -⟩
        exact (ends_storeOutlines_of hfresh.grows.integral hfresh.has ih).mono
          (fun _ _ hQ => hfresh.grows.trans hQ) fun _ hE => hfresh.grows.trans hE
      · rintro _ ⟨rfl, -⟩
        exact .refl h
  | faulty =>
    intro st p h hp
    rw [storeOutline]
    exact Change.Ends.throw (.refl h)
  | foreign =>
    intro st p h hp
    rw [storeOutline]
    exact Change.Ends.throw (.refl h)

/-- Storing a production as a rule only adds records. -/
theorem ends_storeProduction (h : st.Integral) (hr : r.table = .rules → st.Has r) {p : Production} :
    (storeProduction r p).Ends w st (fun _ st' => st.Grows st') (fun st' => st.Grows st') := by
  unfold storeProduction
  split
  · exact Change.Ends.bind (Change.Ends.throw (.refl h))
  · next ht =>
    exact ends_storeOutlines_of h (hr (not_not.mp ht)) fun o ho =>
      ends_storeOutline (p.plain_of_mem_parts o ho)

/-! ### What is below a rule -/

/-- The tables that hold the parts of rules. -/
def Table.isRulePart (t : Table) : Bool :=
  !(t matches .agents | .problemSpaces | .operators | .rules) && !t.isDatamap

/-- Keys and directed joins lead from rules and their parts to parts only. -/
theorem isRulePart_of_mem {t u : Table} (ht : t = .rules ∨ t.isRulePart = true)
    (hu : t ∈ project.parentsOf u ∨ (t, u) ∈ project.directedPairs) : u.isRulePart = true := by
  have h : ∀ t ∈ Table.all, t = .rules ∨ t.isRulePart = true → ∀ u ∈ Table.all,
      t ∈ project.parentsOf u ∨ (t, u) ∈ project.directedPairs → u.isRulePart = true := by
    decide
  exact h t (Table.mem_all t) ht u (Table.mem_all u) hu

/-- Only parts of rules are below a rule. -/
theorem isRulePart_of_transGen (hr : r.table = .rules) (h : Relation.TransGen st.IsOver r c) :
    c.table.isRulePart = true := by
  have htables : ∀ {p c}, st.IsOver p c →
      p.table ∈ project.parentsOf c.table ∨ (p.table, c.table) ∈ project.directedPairs :=
    fun hpc => hpc.imp And.left And.left
  induction h with
  | single hrc => exact isRulePart_of_mem (Or.inl hr) (htables hrc)
  | tail _ hbc ih => exact isRulePart_of_mem (Or.inr ih) (htables hbc)

namespace Store

/-- The rows that are not below the row `r` are left. -/
def Keeps (st st' : Store) (r : Row) : Prop :=
  st'.Integral ∧ ∀ q, st.Has q → ¬ Relation.TransGen st.IsOver r q → st'.Has q

theorem Keeps.refl (h : st.Integral) : st.Keeps st r := ⟨h, fun _ hq _ => hq⟩

theorem Keeps.grows (h : st.Keeps st₁ r) (h' : st₁.Grows st') : st.Keeps st' r :=
  ⟨h'.integral, fun q hq hbelow => h'.has (h.2 q hq hbelow)⟩

/-- Changing attributes loses nothing after rows were lost. -/
theorem Keeps.renews (h : st.Keeps st₁ r) (h' : st₁.Renews st') : st.Keeps st' r :=
  ⟨h'.integral, fun q hq hbelow => (h'.has_iff q).mpr (h.2 q hq hbelow)⟩

/-- Changing attributes loses nothing before rows are lost. -/
theorem Renews.keeps (h : st.Renews st₁) (h' : st₁.Keeps st' r) : st.Keeps st' r := by
  refine ⟨h'.1, fun q hq hbelow => h'.2 q ((h.has_iff q).mpr hq) fun hbelow' => hbelow ?_⟩
  refine Relation.TransGen.mono (fun a b hab => ?_) r q hbelow'
  refine hab.imp (h.isParent_iff a b).mp fun habove => ⟨habove.1, ?_⟩
  rw [← h.pairs_eq]
  exact habove.2

/-- A deletion below a row keeps the others. -/
theorem Spares.keeps (h : st.Integral) (hspares : st.Spares st' r false) : st.Keeps st' r :=
  ⟨h.of_within hspares.within hspares.sound, fun q hq hbelow => by
    by_contra hgone
    exact hbelow ((hspares.reach q hq hgone).resolve_left fun hown => Bool.false_ne_true hown.1)⟩

end Store

/-! ### Saving -/

namespace ViewChange

/-- Replacing the parts of a rule keeps what is not below it. -/
theorem ends_replaceParts (h : st.Integral) (hr : st.Has r) {p : Production} :
    (replaceParts p).Ends w st r (fun _ st' => st.Keeps st' r) (fun st' => st.Keeps st' r) := by
  obtain ⟨id, hid⟩ := hr.exists_id
  have hdelete : (r.deleteChildren false).Ends w st (fun _ st' => st.Spares st' r false)
      (fun st' => st.Spares st' r false) := by
    rw [hid]
    exact (Row.ends_deleteChildren h.toSound).mono (fun _ _ hQ => hQ.1.toSpares) fun _ hE => hE.1
  -- A rule is no part of itself, so it outlives the deletion of its parts.
  have hrule : ∀ {st₁}, st.Keeps st₁ r → r.table = .rules → st₁.Has r := by
    refine fun hkeeps htable => hkeeps.2 r hr fun hbelow => ?_
    have hpart := isRulePart_of_transGen htable hbelow
    rw [htable] at hpart
    exact absurd hpart (by decide)
  unfold replaceParts
  refine Ends.bind (Ends.row (Ends.bind (Ends.lift (hdelete.mono ?_ fun _ hE => hE.keeps h))))
  rintro - st₁ hspares
  have hkeeps := hspares.keeps h
  -- Whether it was renamed or not, the new parts are stored below the same rule.
  have hstore : ∀ {st₂}, st.Keeps st₂ r → (liftM (storeProduction r p) : ViewChange Unit).Ends w st₂ r
      (fun _ st' => st.Keeps st' r) (fun st' => st.Keeps st' r) :=
    fun hkeeps => Ends.lift ((ends_storeProduction hkeeps.1 (hrule hkeeps)).mono
      (fun _ _ hQ => hkeeps.grows hQ) fun _ hE => hkeeps.grows hE)
  refine Ends.bind (ends_name hkeeps.1.toSound (fun name => ?_) fun _ => hkeeps)
  split
  · refine Ends.bind ((ends_rename hkeeps.1).mono (fun _ st₂ hrenews => ?_) ?_)
    · exact hstore (hkeeps.renews hrenews)
    · rintro _ rfl
      exact hkeeps
  · exact hstore hkeeps

/-- Saving the text of a rule keeps what is not below it. -/
theorem ends_saveRuleText (h : st.Integral) (hr : st.Has r) {text : String} :
    (saveRuleText text).Ends w st r (fun _ st' => st.Keeps st' r) (fun st' => st.Keeps st' r) := by
  unfold saveRuleText
  refine Ends.bind ((Ends.suppressing (ends_update h (by decide))).mono ?_ ?_)
  · rintro - st₁ hrenews
    have hkeeps : st.Keeps st₁ r := (Store.Keeps.refl h).renews hrenews
    -- What follows depends on the text: it may be unparsable, refused otherwise, or parsed.
    split
    · exact Ends.bind (Ends.lift (Change.Ends.announce (Ends.throw hkeeps)))
    · exact Ends.throw hkeeps
    · refine Ends.bind ((Ends.batch (ends_replaceParts hkeeps.1 ((hrenews.has_iff r).mpr hr))).mono
        ?_ fun _ hE => hrenews.keeps hE)
      rintro - st₂ hreplaced
      have hkeeps := hrenews.keeps hreplaced
      exact Ends.bind (ends_name hkeeps.1.toSound (fun _ => Ends.pure hkeeps) fun _ => hkeeps)
  · rintro _ rfl
    exact .refl h

/-- Saving any value as the text of a rule keeps what is not below the rule. -/
theorem ends_saveRule (h : st.Integral) (hr : st.Has r) {text : Value} :
    (saveRule text).Ends w st r (fun _ st' => st.Keeps st' r) (fun st' => st.Keeps st' r) := by
  unfold saveRule
  split
  · exact ends_saveRuleText h hr
  · refine Ends.bind ((Ends.suppressing (ends_update h (by decide))).mono ?_ ?_)
    · rintro - st₁ hrenews
      exact Ends.throw ((Store.Keeps.refl h).renews hrenews)
    · rintro _ rfl
      exact .refl h

end ViewChange

/-! ### Importing -/

/-- Saving the text of a new rule keeps what is not below it, also if the text does not read. -/
theorem ends_saveNewRule (h : st.Integral) {v : View} (hr : st.Has v.row) {text : String} :
    (saveNewRule v text).Ends w st (fun v' st' => v'.row = v.row ∧ st.Keeps st' v.row)
      (fun st' => st.Keeps st' v.row) := by
  unfold saveNewRule
  refine Change.Ends.bind ((ViewChange.Ends.on (Q := fun _ st' => st.Keeps st' v.row)
    (E := fun st' => st.Keeps st' v.row) ?_).mono ?_ fun _ hE => hE)
  · refine ViewChange.Ends.tryCatch (ViewChange.ends_saveRuleText h hr) fun e st' hkeeps => ?_
    split
    · exact ViewChange.Ends.pure hkeeps
    · exact ViewChange.Ends.throw hkeeps
  · exact fun found st' hQ => Change.Ends.pure hQ

/-- A new rule is created below an agent. -/
theorem ends_createRule (h : st.Integral) (hp : st.Has p) {name text : Value} :
    (createRule p name text).Ends w st
      (fun v st' => v.row.table = .rules ∧ st'.Integral ∧ (∀ q, st.Has q → st'.Has q) ∧
        st'.Has v.row ∧ p.table ∈ project.parentsOf .rules)
      (fun st' => st.Keeps st' p) := by
  unfold createRule
  refine Change.Ends.bind ((Row.ends_createChild h hp).mono ?_
    fun _ hgrows => (Store.Keeps.refl h).grows hgrows)
  rintro v st₁ ⟨htable, hbears, -⟩
  refine (View.ends_update hbears.grows.integral (by decide)).mono ?_ ?_
  · rintro v' st' ⟨hrow, hrenews⟩
    -- The update of the text leaves rows and keys as the creation left them.
    rw [hrow]
    exact ⟨htable, hrenews.integral, fun q hq => (hrenews.has_iff q).mpr (hbears.grows.has hq),
      (hrenews.has_iff _).mpr hbears.has, htable ▸ hbears.isParent.1⟩
  · rintro _ rfl
    exact (Store.Keeps.refl h).grows hbears.grows

/-- Creating rules one after the other keeps integrity. -/
theorem keeps_importProductions {texts : List String} :
    ∀ {st : Store} {count : Nat}, st.Integral → st.Has p →
      (importProductions p count texts).Ends w st (fun _ st' => st'.Integral) Store.Integral := by
  induction texts with
  | nil =>
    intro st count h hp
    rw [importProductions]
    exact Change.Ends.pure h
  | cons text rest ih =>
    intro st count h hp
    rw [importProductions]
    refine Change.Ends.bind ((ends_createRule h hp).mono ?_ fun _ hE => hE.1)
    rintro v st₁ ⟨htable, h₁, hleft, hr, hparent⟩
    refine Change.Ends.bind ((ends_saveNewRule h₁ hr).mono ?_ fun _ hE => hE.1)
    rintro v' st₂ ⟨-, hkeeps⟩
    -- The agent is left, since it is no part of a rule.
    have hp₂ : st₂.Has p := by
      refine hkeeps.2 p (hleft p hp) fun hbelow => ?_
      have hagent : ∀ t ∈ project.parentsOf .rules, t.isRulePart = false := by decide
      exact Bool.false_ne_true ((hagent _ hparent).symm.trans (isRulePart_of_transGen htable hbelow))
    exact Change.Ends.bind ((ih hkeeps.1 hp₂).mono (fun _ _ hQ => Change.Ends.pure hQ) fun _ hE => hE)

/-- Importing the rules of a source keeps integrity. -/
theorem keeps_importRules (h : st.Integral) {agent : View} (hp : st.Has agent.row)
    {source : String} :
    (importRules agent source).Ends w st (fun _ st' => st'.Integral) Store.Integral := by
  unfold importRules
  refine Change.Ends.bind ((Change.Ends.batch (Q := fun _ st' => st'.Integral) ?_).mono ?_
    fun _ hE => hE)
  · split
    · exact Change.Ends.throw h
    · exact keeps_importProductions h hp
  · rintro rules st₁ h₁
    exact Change.Ends.query (View.finds_name h₁.toSound) (fun _ _ => Change.Ends.pure h₁) fun _ => h₁

/-- Importing the rules of any value keeps integrity. -/
theorem keeps_importFrom (h : st.Integral) {agent : View} (hp : st.Has agent.row) {source : Value} :
    (importFrom agent source).Ends w st (fun _ st' => st'.Integral) Store.Integral := by
  unfold importFrom
  split
  · exact keeps_importRules h hp
  · exact Change.Ends.throw h

end SoarProject
