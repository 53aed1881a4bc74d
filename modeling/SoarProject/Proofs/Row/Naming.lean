import SoarProject.Proofs.Row.Update
import SoarProject.Proofs.Session.Giving

/-!
# Names of rows

A row has the name in its record. A view remembers a name once it was looked at or given, and goes on to show
it whatever is written through other views.

* `Store.Named`: the name of a row.
* `View.Shows`, `View.finds_shown`: the name that a view shows.
* `View.Knows`, `View.finds_name_of_knows`: a view that remembers no other name shows that of its row.
* `ViewChange.gives_name`, `ViewChange.gives_rename_kept`, `ViewChange.gives_update_kept`: what a view
  remembers afterwards.
-/

namespace SoarProject

open Registry

variable {st : Store} {r : Row} {v : View} {name : String}

/-- The name by which a record is shown. -/
def Record.label (record : Record) : String :=
  match record.get "name" with
  | .null => ""
  | cell => cell.shown

namespace Store

/-- An existing row has a name. -/
def Named (st : Store) (r : Row) (name : String) : Prop :=
  ∃ record ∈ st.rows r.table, r.id = .int record.id ∧ record.label = name

/-- A row has one name. -/
theorem Sound.named_unique (h : st.Sound) {a b : String} (ha : st.Named r a) (hb : st.Named r b) :
    a = b := by
  obtain ⟨record, hrecord, hid, rfl⟩ := ha
  obtain ⟨other, hother, hid', rfl⟩ := hb
  rw [h.eq_of_id_eq hrecord hother (Cell.int.inj (hid.symm.trans hid'))]

theorem Named.has (h : st.Named r name) : st.Has r := by
  obtain ⟨record, hrecord, hid, -⟩ := h
  exact ⟨record, hrecord, hid⟩

end Store

/-! ### What a view shows -/

/-- A value is a text just if it is that text. -/
theorem Value.isText_eq_true_iff {value : Value} : value.isText name = true ↔ value = .text name := by
  cases value <;> simp [isText]

/-- A view shows the name that it remembers, or else that of its row. -/
def View.Shows (v : View) (st : Store) (value : Value) : Prop :=
  v.memo = some value ∨ v.memo = none ∧ ∃ name, value = .text name ∧ st.Named v.row name

/-- What a view of an existing row shows is found, and is remembered from then on. -/
theorem View.finds_shown (h : st.Sound) (hv : st.Has v.row) :
    v.name.Finds st st.Fits (fun found => v.Shows st found.1 ∧ found.2 = ⟨v.row, some found.1⟩) := by
  unfold name
  split
  · next value hvalue =>
    exact Query.Finds.pure ⟨.inl hvalue, by rw [← hvalue]⟩
  next hforgot =>
  have hused : ∀ c ∈ ["name"], c ∈ project.columnNamesOf v.row.table := by
    intro c hc
    rw [List.mem_singleton.mp hc]
    exact List.mem_cons_of_mem _ List.mem_cons_self
  -- The record is there, so it is found.
  have hquery : (some <$> v.row.record? ["name"]).Finds st st.Fits (fun found =>
      ∃ record ∈ st.rows v.row.table, v.row.id = .int record.id ∧ found = some (some record)) := by
    obtain ⟨id, hid⟩ := hv.exists_id
    rw [hid] at hused ⊢
    refine Query.Finds.map (((Row.finds_record? h hused).mono_sure fun hfits => hid ▸ hfits.row hv).mono
      fun found hfound => ?_)
    obtain ⟨record, hrecord, hrid⟩ := hid ▸ hv
    exact ⟨record, hrecord, hrid, congrArg some
      ((hfound record).mpr ⟨hrecord, (Cell.int.inj hrid).symm⟩)⟩
  refine Query.Finds.bind (hquery.orDefault ?_) ?_
  · -- The default stands in for a storage error, and there is none.
    obtain ⟨id, hid⟩ := hv.exists_id
    rw [hid] at hused ⊢
    intro w s e hs heq
    have hrun : (some <$> (Row.ofId v.row.table id).record? ["name"] : Query _).run s =
        ((Row.ofId v.row.table id).record? ["name"]).run s >>= fun found => .ok (some found) := rfl
    rw [hrun] at heq
    cases hrecord : ((Row.ofId v.row.table id).record? ["name"]).run s with
    | ok found =>
      rw [hrecord] at heq
      cases heq
    | error e' =>
      rw [hrecord] at heq
      cases heq
      exact Row.record?_run_ne_storage h hs hused e hrecord
  · -- A null name is shown as empty, and any other as it is.
    rintro _ ⟨record, hrecord, hrid, rfl⟩
    have hshows : v.Shows st (.text record.label) :=
      .inr ⟨hforgot, record.label, rfl, record, hrecord, hrid, rfl⟩
    dsimp only
    split
    · next hnull =>
      have hlabel : record.label = "" := by rw [Record.label, hnull]
      exact Query.Finds.pure ⟨hlabel ▸ hshows, rfl⟩
    · next hcell =>
      have hlabel : record.label = (record.get "name").shown := by
        unfold Record.label
        split
        · next hnull => exact absurd hnull hcell
        · rfl
      exact Query.Finds.pure ⟨hlabel ▸ hshows, rfl⟩

/-! ### Views that remember no other name -/

/-- A view remembers no other name than that of its row. -/
def View.Knows (v : View) (st : Store) : Prop :=
  ∀ name, v.memo = some name → ∃ text, name = .text text ∧ st.Named v.row text

/-- A view that remembers nothing remembers no other name. -/
theorem Row.knows_view (r : Row) (st : Store) : r.view.Knows st := nofun

theorem View.Shows.named {value : Value} (h : v.Shows st value) (hknows : v.Knows st) :
    ∃ name, value = .text name ∧ st.Named v.row name := by
  rcases h with hvalue | ⟨-, hname⟩
  · exact hknows value hvalue
  · exact hname

/-- The name of an existing row is found through a view that remembers no other one. -/
theorem View.finds_name_of_knows (h : st.Sound) (hv : st.Has v.row) (hknows : v.Knows st) :
    v.name.Finds st st.Fits
      (fun found => found.2.row = v.row ∧ found.2.Knows st ∧
        ∃ name, found.1 = .text name ∧ st.Named v.row name) := by
  refine (finds_shown h hv).mono ?_
  rintro ⟨value, v'⟩ ⟨hshows, hv'⟩
  obtain rfl : v' = ⟨v.row, some value⟩ := hv'
  obtain ⟨name, rfl, hname⟩ := View.Shows.named hshows hknows
  exact ⟨rfl, fun other hother => ⟨name, (Option.some.inj hother).symm, hname⟩, name, rfl, hname⟩

namespace Row

/-- The name of an existing row is found, and its view stays one of the row. -/
theorem finds_viewName (h : st.Sound) (hr : st.Has r) :
    r.view.name.Finds st st.Fits
      (fun found => found.2.row = r ∧ ∃ name, found.1 = .text name ∧ st.Named r name) :=
  (View.finds_name_of_knows (v := r.view) h hr (knows_view r st)).mono
    fun _ ⟨hrow, _, hname⟩ => ⟨hrow, hname⟩

/-- The name of an existing row is found. -/
theorem finds_name (h : st.Sound) (hr : st.Has r) :
    r.name.Finds st st.Fits (fun name => st.Named r name) := by
  unfold name
  refine (finds_viewName h hr).bind fun found ⟨_, name, hname, hnamed⟩ => ?_
  rw [hname]
  exact Query.Finds.pure hnamed

end Row

/-! ### What a view remembers -/

namespace ViewChange

/-- The name that a view shows is looked at, and is remembered from then on. -/
theorem gives_name (h : st.Sound) (hfits : st.Fits) (hv : st.Has v.row) :
    ViewChange.name.Gives st v fun value v' st' =>
      v.Shows st value ∧ v' = ⟨v.row, some value⟩ ∧ st' = st := by
  refine Gives.through ?_
  have hends : ((liftM v.name : Change (Value × View)) >>= Pure.pure).Ends true st
      (fun found st' => v.Shows st found.1 ∧ found.2 = ⟨v.row, some found.1⟩ ∧ st' = st)
      (fun _ => False) :=
    Change.Ends.query (View.finds_shown h hv) (fun found ⟨hshows, hview⟩ =>
      Change.Ends.pure ⟨hshows, hview, rfl⟩) fun hnot => hnot hfits
  rwa [bind_pure] at hends

/-- The name that a view remembers is looked at. -/
theorem gives_name_of_memo {value : Value} : ViewChange.name.Gives st ⟨r, some value⟩
    fun found v' st' => found = value ∧ v' = ⟨r, some value⟩ ∧ st' = st :=
  Gives.through fun _ hs => ⟨st, hs, rfl, rfl, rfl⟩

/-- A value that its column keeps is put into the column. -/
theorem gives_update_kept (h : st.Integral) (hfits : v.row.Fits) {column : String}
    (hcolumn : IsAttribute column) (hparameter : column ≠ Row.idParameter) {type : StoredType}
    (htype : project.columnType? v.row.table column = some type) {value : Value}
    (hkeeps : type.Keeps value) :
    (ViewChange.update column value).Gives st v fun _ v' st' =>
      v' = v.after [column] ∧ st' = st.setCell v.row column value.cell := by
  refine Gives.through ?_
  refine Change.Ends.bind ((View.ends_update_kept h hfits hcolumn hparameter htype hkeeps).mono ?_
    fun _ hE => hE)
  exact fun v' st' hst' => Change.Ends.pure hst'

/-- A row is given a name, and the view remembers it. -/
theorem gives_rename_kept (h : st.Integral) (hfits : v.row.Fits) {name : String} :
    (ViewChange.rename (.text name)).Gives st v fun _ v' st' =>
      v' = ⟨v.row, some (.text name)⟩ ∧ st' = st.setCell v.row "name" (.text name) := by
  refine Gives.through ?_
  refine Change.Ends.bind ((View.ends_rename_kept h hfits).mono ?_ fun _ hE => hE)
  exact fun v' st' hst' => Change.Ends.pure hst'

end ViewChange

end SoarProject
