import SoarProject.Proofs.Project.Saving

/-!
# Saving a rule that has several views

A rule that is saved is given the name of its production, unless the view through which it is saved shows this
name already. A view that remembers a name shows it even if the rule was renamed through another view since,
and then the rule keeps its other name. As long as all other views only look at the name, a view shows the
name of its rule, and the rule has the name of its production once it is saved.

* `saveRuleText_revises`: what saving does through any view, whatever it remembers.
* `View.IsCurrent`, `View.useAll_keeps`: what holds of the views of a row that are used one after another.
* `saveRuleText_named`: a rule is saved under the name of its production through a view after which no other
  one was used to rename it.
-/

namespace SoarProject

open Registry Rule

variable {s : Session} {st st' : Store} {r q : Row} {v : View} {text name : String} {p : Production}
  {column : String}

/-- Saving a text that reads as a production succeeds through every view of a rule, whatever name it
remembers. Then the view remembers the name of the production. -/
theorem saveRuleText_revises (hopen : s.Opens true st) (h : st.Integral) (htabular : st.Tabular)
    (hr : st.Has v.row) (htable : v.row.table = .rules) (hparse : parseProduction text = .ok p)
    (hfit : IntegersFit p.constants) (hroom : st.Room (Outline.sizes p.parts)) :
    ∃ s' st', (saveRuleText text).run.run (v, s) = (.ok (), ⟨v.row, some (.text p.name)⟩, s') ∧
      s'.Opens true st' ∧ st.Revises st' v text p := by
  obtain ⟨⟨⟩, _, s', st', hrun, hopen', rfl, hrebuilds, -⟩ :=
    ViewChange.gives_saveRuleText (k := 0) h hr htable hparse hfit hroom s hopen
  exact ⟨s', st', hrun, hopen', hrebuilds.revises h (htabular.complete _) hr htable⟩

/-! ### Current views -/

/-- A text that a view remembers is the name of its row. -/
def View.IsCurrent (v : View) (st : Store) : Prop :=
  ∀ name, v.memo = some (.text name) → st.Named v.row name

namespace Store

theorem Sound.named_of_cell_eq (h : st.Sound) (hr : st.Has r) (hcell : st.cell r "name" = .text name) :
    st.Named r name := by
  obtain ⟨record, hrecord, hid⟩ := hr
  rw [h.cell_eq hrecord hid] at hcell
  exact ⟨record, hrecord, hid, by rw [Record.label, hcell]; rfl⟩

/-- Through a current view, a rule is saved under the name of its production. -/
theorem Revises.named (hs : st.Revises st' v text p) (h : st.Sound) (hcurrent : v.IsCurrent st) :
    st'.Named v.row p.name := by
  obtain ⟨shown, hshows, hname⟩ := hs.name_eq
  split at hname
  · next hshown =>
    obtain rfl := Value.isText_eq_true_iff.mp hshown
    have hnamed : st.Named v.row p.name := by
      rcases hshows with hmemo | ⟨-, name, heq, hnamed⟩
      · exact hcurrent p.name hmemo
      · cases heq
        exact hnamed
    exact hnamed.of_cell_eq h hs.integral.toSound hs.has hname
  · exact hs.integral.named_of_cell_eq hs.has hname

end Store

/-! ### Using views -/

namespace View

/-- What may be done with the name of a row through one of its views. -/
inductive Use where
  /-- Look at the name. -/
  | look
  /-- Rename the row. -/
  | rename (name : Value)
  /-- Change columns other than ids and keys. -/
  | update (columns : List String) (values : List Value) (plain : ∀ c ∈ columns, IsAttribute c)

namespace Use

/-- Whether the name is written. -/
def WritesName : Use → Prop
  | look => False
  | rename _ => True
  | update columns _ _ => "name" ∈ columns

/-- What is done through a view. It gives the view anew. -/
def through (v : View) : Use → Change View
  | look => return (← v.name).2
  | rename name => v.rename name
  | update columns values _ => v.updateAll columns values

end Use

/-- Use one of the views of a row. What fails leaves the view as it is. -/
def useOne (state : (Nat → View) × Session) (use : Nat × Use) : (Nat → View) × Session :=
  match (use.2.through (state.1 use.1)).run.run state.2 with
  | (.ok v, s) => (Function.update state.1 use.1 v, s)
  | (.error _, s) => (state.1, s)

/-- Use the views of a row one after another. -/
def useAll (state : (Nat → View) × Session) (uses : List (Nat × Use)) : (Nat → View) × Session :=
  uses.foldl useOne state

end View

namespace Store

/-- What a use of a view leaves: all rows with their keys, joins and columns, and their names unless the name
is written. -/
structure Retains (st st' : Store) (use : View.Use) : Prop extends Renews st st' where
  tabular : st'.Tabular
  named : ¬ use.WritesName → ∀ r name, st.Named r name → st'.Named r name

theorem Retains.refl {use : View.Use} (h : st.Integral) (htabular : st.Tabular) : st.Retains st use where
  toRenews := .refl h
  tabular := htabular
  named _ _ _ := id

/-- Changing columns other than ids and keys leaves all rows. -/
theorem Integral.retains_updateRecord {use : View.Use} {t : Table} {key : Cell}
    {values prepared : List (String × Value)} (h : st.Integral) (htabular : st.Tabular)
    (hplain : ∀ v ∈ values, IsAttribute v.1)
    (hname : ¬ use.WritesName → ∀ v ∈ values, v.1 ≠ "name")
    (hprepared : project.prepare t values = .ok prepared)
    (hupdated : st.updateRecord t key prepared = .ok st') : st.Retains st' use := by
  refine ⟨h.renews_updateRecord hplain hprepared hupdated, ?_, ?_⟩
  -- Both sides follow from what the update makes of each record.
  all_goals
    obtain ⟨f, rfl, hid, hkept⟩ := h.shaped.exists_map_of_updateRecord hprepared hupdated
  · intro u record hrecord
    rw [h.shaped.rows_setRows] at hrecord
    split at hrecord
    · next hu =>
      obtain ⟨old, hold, rfl⟩ := List.mem_map.mp hrecord
      rw [(hid old).2, hu]
      exact htabular t old hold
    · exact htabular u record hrecord
  · rintro hwrites r name ⟨record, hrecord, hrid, rfl⟩
    have hget := hkept "name" (mem_columnNamesOf_of_columnType? (columnType?_name t)) (hname hwrites)
    -- Only records of the table change, and these keep their name when it is not written.
    by_cases ht : r.table = t
    · refine ⟨f record, ?_, by rw [(hid record).1, hrid], by rw [Record.label, Record.label, hget]⟩
      rw [h.shaped.rows_setRows, if_pos ht]
      exact List.mem_map_of_mem (ht ▸ hrecord)
    · refine ⟨record, ?_, hrid, rfl⟩
      rwa [h.shaped.rows_setRows, if_neg ht]

end Store

namespace View

variable {views : Nat → View} {uses : List (Nat × Use)}

/-- Looking at the name leaves everything as it is, and a current view stays so. -/
theorem ends_look (h : st.Integral) (htabular : st.Tabular) (hfits : st.Fits) (hv : st.Has v.row) :
    (Use.look.through v).Ends true st
      (fun v' st' => v'.row = v.row ∧ st.Retains st' .look ∧ (v.IsCurrent st → v'.IsCurrent st'))
      (fun st' => st' = st) := by
  refine Change.Ends.query (finds_shown h.toSound hv) ?_ fun hnot => absurd hfits hnot
  rintro ⟨shown, v'⟩ ⟨hshows, hv'⟩
  obtain rfl : v' = ⟨v.row, some shown⟩ := hv'
  refine Change.Ends.pure ⟨rfl, .refl h htabular, fun hcurrent name hname => ?_⟩
  obtain rfl : shown = .text name := Option.some.inj hname
  rcases hshows with hmemo | ⟨-, name', heq, hnamed⟩
  · exact hcurrent name hmemo
  · cases heq
    exact hnamed

/-- A view through which the row was renamed is current. -/
theorem ends_renameTo (h : st.Integral) (htabular : st.Tabular) (hfits : st.Fits) (hv : st.Has v.row)
    (name : Value) : ((Use.rename name).through v).Ends true st
      (fun v' st' => v'.row = v.row ∧ st.Retains st' (.rename name) ∧ v'.IsCurrent st')
      (fun st' => st' = st) := by
  by_cases htext : ∃ text, name = .text text
  · obtain ⟨text, rfl⟩ := htext
    refine (ends_rename_kept h (hfits.row hv)).mono ?_ fun _ hE => hE.elim
    rintro _ _ ⟨rfl, rfl⟩
    have hname : IsAttribute "name" := by decide
    have hrenews := h.renews_setCell (r := v.row) hname (.text text)
    refine ⟨rfl, ⟨hrenews, h.tabular_setCell htabular hv, fun hnot => absurd trivial hnot⟩, ?_⟩
    intro name' hname'
    obtain rfl : text = name' := Value.text.inj (Option.some.inj hname')
    exact hrenews.integral.named_of_cell_eq ((hrenews.has_iff _).mpr hv)
      (h.cell_setCell (htabular.complete _) hv hname (mem_columnNamesOf_of_columnType? (columnType?_name _)))
  -- What is no text is stored in some way or not at all; no text is remembered for it.
  · refine Change.Ends.bind (ends_updateRecord (fun prepared st' hprepared hupdated => ?_) fun _ => rfl)
    refine Change.Ends.pure ⟨row_after v _, h.retains_updateRecord htabular isAttribute_of_mem_name
      (fun hnot => absurd trivial hnot) hprepared hupdated, fun name' hname' => ?_⟩
    simp only [Row.named] at hname'
    split at hname'
    · exact absurd ⟨name', Option.some.inj hname'⟩ htext
    · cases hname'

/-- Changing columns forgets the name if it is among them, and leaves it as it was if not. -/
theorem ends_updateColumns (h : st.Integral) (htabular : st.Tabular) {columns : List String}
    (values : List Value) (hplain : ∀ c ∈ columns, IsAttribute c) :
    ((Use.update columns values hplain).through v).Ends true st
      (fun v' st' => v'.row = v.row ∧ st.Retains st' (.update columns values hplain) ∧
        (v.IsCurrent st ∨ "name" ∈ columns → v'.IsCurrent st'))
      (fun st' => st' = st) := by
  refine ends_updateAll (fun hnone => ⟨rfl, .refl h htabular, fun hcurrent => ?_⟩)
    (fun prepared st' hprepared hupdated => ?_) fun _ => rfl
  · subst hnone
    exact hcurrent.resolve_right List.not_mem_nil
  · have hzip : ∀ x ∈ columns.zip values, x.1 ∈ columns := fun x hx => (List.of_mem_zip hx).1
    have hretains : st.Retains st' (.update columns values hplain) :=
      h.retains_updateRecord htabular (fun x hx => hplain _ (hzip x hx))
        (fun hnot x hx heq => hnot (show "name" ∈ columns from heq ▸ hzip x hx)) hprepared hupdated
    refine ⟨row_after v _, hretains, fun hcurrent => ?_⟩
    unfold after
    split
    · exact fun name hname => nomatch hname
    -- The view remembers what it did, and the name is what it was.
    · next hother =>
      exact fun name hname => hretains.named hother _ name (hcurrent.resolve_right hother name hname)

/-- A use of a view keeps the view one of its row. A view that was current is so afterwards, and so is one
through which the name was written. -/
theorem ends_use (h : st.Integral) (htabular : st.Tabular) (hfits : st.Fits) (hv : st.Has v.row)
    (use : Use) : (use.through v).Ends true st
      (fun v' st' => v'.row = v.row ∧ st.Retains st' use ∧
        (v.IsCurrent st ∨ use.WritesName → v'.IsCurrent st'))
      (fun st' => st' = st) := by
  cases use with
  | look =>
    refine (ends_look h htabular hfits hv).mono ?_ fun _ hE => hE
    -- Looking writes nothing, so only a view that was current before is current now.
    rintro v' st' ⟨hrow, hretains, hcurrent⟩
    exact ⟨hrow, hretains, fun hor => hcurrent (hor.resolve_right id)⟩
  | rename name =>
    refine (ends_renameTo h htabular hfits hv name).mono ?_ fun _ hE => hE
    rintro v' st' ⟨hrow, hretains, hcurrent⟩
    exact ⟨hrow, hretains, fun _ => hcurrent⟩
  | update columns values hplain => exact ends_updateColumns h htabular values hplain

/-- One use of the views of a row. -/
theorem useOne_keeps (hopen : s.Opens true st) (h : st.Integral) (htabular : st.Tabular) (hfits : st.Fits)
    (hr : st.Has r) (hviews : ∀ i, (views i).row = r) (use : Nat × Use) :
    ∃ st', (useOne (views, s) use).2.Opens true st' ∧ st.Retains st' use.2 ∧
      (∀ i, ((useOne (views, s) use).1 i).row = r) ∧
      ∀ i, (views i).IsCurrent st → (use.2.WritesName → use.1 = i) →
        ((useOne (views, s) use).1 i).IsCurrent st' := by
  obtain ⟨j, use⟩ := use
  obtain ⟨st', hopen', hresult⟩ := ends_use h htabular hfits (hviews j ▸ hr) use s hopen
  unfold useOne
  dsimp only
  cases hrun : (use.through (views j)).run.run s with
  | mk result s' =>
    rw [hrun] at hopen' hresult
    cases result with
    | error e =>
      obtain rfl := hresult
      exact ⟨_, hopen', .refl h htabular, hviews, fun i hi _ => hi⟩
    | ok v' =>
      obtain ⟨hrow, hretains, hcurrent⟩ := hresult
      show ∃ st', s'.Opens true st' ∧ st.Retains st' use ∧ (∀ i, (Function.update views j v' i).row = r) ∧
        ∀ i, (views i).IsCurrent st → (use.WritesName → j = i) →
          (Function.update views j v' i).IsCurrent st'
      refine ⟨st', hopen', hretains, fun i => ?_, fun i hi honly => ?_⟩
      · -- The used view is the only one that is replaced.
        by_cases hij : i = j
        · subst hij
          rw [Function.update_self, hrow, hviews]
        · rw [Function.update_of_ne hij, hviews]
      · by_cases hij : i = j
        · subst hij
          rw [Function.update_self]
          exact hcurrent (.inl hi)
        · rw [Function.update_of_ne hij]
          -- Another view writes no name, so the name that was remembered is still right.
          have hkeeps := hretains.named fun hwrites => hij (honly hwrites).symm
          exact fun name hname => hkeeps _ name (hi name hname)

/-- The views of a row are used one after another. The row stays, and a view that was current is so
afterwards if the name was written through it alone. -/
theorem useAll_keeps (views : Nat → View) (hopen : s.Opens true st) (h : st.Integral)
    (htabular : st.Tabular) (hfits : st.Fits) (hr : st.Has r) (hviews : ∀ i, (views i).row = r)
    (uses : List (Nat × Use)) :
    ∃ st', (useAll (views, s) uses).2.Opens true st' ∧ st.Renews st' ∧ st'.Tabular ∧
      (∀ i, ((useAll (views, s) uses).1 i).row = r) ∧
      ∀ i, (views i).IsCurrent st → (∀ use ∈ uses, use.2.WritesName → use.1 = i) →
        ((useAll (views, s) uses).1 i).IsCurrent st' := by
  -- By induction on the uses: what one of them leaves is what the next one starts from.
  induction uses generalizing views s st with
  | nil => exact ⟨st, hopen, .refl h, htabular, hviews, fun i hi _ => hi⟩
  | cons use uses ih =>
    obtain ⟨st₁, hopen₁, hretains, hviews₁, hcurrent₁⟩ := useOne_keeps hopen h htabular hfits hr hviews use
    obtain ⟨st₂, hopen₂, hrenews, htabular₂, hviews₂, hcurrent₂⟩ := ih _ hopen₁ hretains.integral
      hretains.tabular (hfits.of_has fun q hq => (hretains.has_iff q).mp hq) ((hretains.has_iff r).mpr hr)
      hviews₁
    refine ⟨st₂, hopen₂, hretains.toRenews.trans hrenews, htabular₂, hviews₂, fun i hi honly => ?_⟩
    rw [List.forall_mem_cons] at honly
    exact hcurrent₂ i (hcurrent₁ i hi honly.1) honly.2

end View

/-- Any number of views of a rule are used one after another, and then a text that reads as a production is
saved through one of them. This succeeds, and the view remembers the name of the production. The rule has
this name too, if no other view was used to write its name. -/
theorem saveRuleText_named {uses : List (Nat × View.Use)} {i : Nat} (hopen : s.Opens true st)
    (h : st.Integral) (htabular : st.Tabular) (hr : st.Has r) (htable : r.table = .rules)
    (hparse : parseProduction text = .ok p) (hfit : IntegersFit p.constants)
    (hroom : st.Room (Outline.sizes p.parts)) :
    ∃ st₁ s' st', (View.useAll (fun _ => r.view, s) uses).2.Opens true st₁ ∧
      (saveRuleText text).run.run ((View.useAll (fun _ => r.view, s) uses).1 i,
        (View.useAll (fun _ => r.view, s) uses).2) = (.ok (), ⟨r, some (.text p.name)⟩, s') ∧
      s'.Opens true st' ∧ st₁.Revises st' ((View.useAll (fun _ => r.view, s) uses).1 i) text p ∧
      ((∀ use ∈ uses, use.2.WritesName → use.1 = i) → st'.Named r p.name) := by
  obtain ⟨st₁, hopen₁, hrenews, htabular₁, hviews, hcurrent⟩ :=
    View.useAll_keeps (fun _ => r.view) hopen h htabular hroom.fits hr (fun _ => rfl) uses
  -- From here on only what `useAll_keeps` says about the views matters.
  generalize View.useAll (fun _ => r.view, s) uses = state at hopen₁ hviews hcurrent ⊢
  obtain rfl := hviews i
  obtain ⟨s', st', hrun, hopen', hrevises⟩ := saveRuleText_revises hopen₁ hrenews.integral htabular₁
    ((hrenews.has_iff _).mpr hr) htable hparse hfit (hroom.of_has fun q hq => (hrenews.has_iff q).mp hq)
  refine ⟨st₁, s', st', hopen₁, hrun, hopen', hrevises, fun honly => ?_⟩
  exact hrevises.named hrenews.integral.toSound (hcurrent i nofun honly)

end SoarProject
