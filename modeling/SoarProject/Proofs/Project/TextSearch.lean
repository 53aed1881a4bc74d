import SoarProject.Project.Search
import SoarProject.Proofs.Project.Reading
import SoarProject.Proofs.Text.Like

/-!
# Searching the text of rules

The search for a text puts it into a pattern as it is, so that percent signs and underscores in it are signs
of the pattern. A query without them finds the rules whose name or text holds it. Any other query finds these
too, and possibly more.

* `finds_searchText`: what the search finds.
* `finds_searchText_of_plain`: what it finds for a query without signs.
* `finds_searchText_of_holds`: no rule that holds the query is left out.
-/

namespace SoarProject

open Registry

variable {st : Store} {r : Row} {t : Table} {rows : List Row}

namespace Store

/-- The name or the text of a row meets a condition. -/
def HasText (st : Store) (r : Row) (p : List Char → Prop) : Prop :=
  ∃ column ∈ ["name", "raw_text"], ∃ text, st.cell r column = .text text ∧ p text.toList

/-- Rows are all those of a table that meet a condition, each once, in the order of their ids. -/
def Lists (st : Store) (t : Table) (p : Row → Prop) (rows : List Row) : Prop :=
  ∃ ids : List Int, rows = ids.map (.ofId t) ∧ ids.Pairwise (· < ·) ∧
    ∀ r, r ∈ rows ↔ r.table = t ∧ st.Has r ∧ p r

/-- Conditions that say the same of the existing rows. -/
theorem Lists.congr {p q : Row → Prop} (h : st.Lists t p rows) (hpq : ∀ r, p r ↔ q r) :
    st.Lists t q rows := by
  obtain ⟨ids, hrows, hascend, hmem⟩ := h
  exact ⟨ids, hrows, hascend, fun r => by rw [hmem, hpq]⟩

/-- The rows of the records that meet a condition, as the records stand in a table. -/
theorem Sound.lists_filter (h : st.Sound) (t : Table) {p : Record → Bool} {q : Row → Prop}
    (hpq : ∀ record ∈ st.rows t, p record = true ↔ q (.ofId t record.id)) :
    st.Lists t q (((st.rows t).filter p).map fun record => .ofId t record.id) := by
  -- Rows are listed in the order of their ids, and a filter keeps the order.
  refine ⟨((st.rows t).filter p).map (·.id), ?_, ?_, fun r => ?_⟩
  · rw [List.map_map]
    rfl
  · rw [List.pairwise_map]
    exact (h.ids_ascend t).filter p
  · simp only [List.mem_map, List.mem_filter]
    constructor
    · rintro ⟨record, ⟨hrecord, hp⟩, rfl⟩
      exact ⟨rfl, ⟨record, hrecord, rfl⟩, (hpq record hrecord).mp hp⟩
    · rintro ⟨rfl, ⟨record, hrecord, hid⟩, hq⟩
      have hrow : Row.ofId r.table record.id = r := by rw [Row.ofId, ← hid]
      exact ⟨record, ⟨hrecord, (hpq record hrecord).mpr (by rwa [hrow])⟩, hrow⟩

end Store

/-- A cell is compared with a pattern if it is a text. -/
theorem Cell.isLike_eq_true_iff {pattern : List Char} {c : Cell} :
    c.isLike pattern = true ↔ ∃ text, c = .text text ∧ Text.Fits pattern text.toList := by
  cases c with
  | text s => simp [isLike, Text.like_eq_true_iff]
  | null | int _ | real _ => simp [isLike]

/-- The search for a text finds the rules with a piece that fits it in their name or text. -/
theorem finds_searchText (h : st.Sound) (query : Value) : (searchText query).Finds st True
    (st.Lists .rules fun r => st.HasText r fun text =>
      ∃ piece, piece <:+: text ∧ Text.Fits query.shown.toList piece) := by
  unfold searchText
  have hused : ∀ c ∈ ["id", "name", "raw_text"], c ∈ project.columnNamesOf .rules := by decide
  have hrecords : (Query.ask (·.records .rules ["id", "name", "raw_text"])).Finds st True
      (· = st.rows .rules) :=
    Query.finds_ask_checked (.ok ()) (h.shaped.records_eq hused) fun _ => rfl
  refine hrecords.bind ?_
  rintro _ rfl
  refine Query.Finds.pure (h.lists_filter .rules fun record hrecord => ?_)
  -- The condition on a record is one on the two cells of its row.
  have hcell (column : String) : st.cell (.ofId .rules record.id) column = record.get column :=
    h.cell_eq hrecord rfl column
  simp only [Bool.or_eq_true, Cell.isLike_eq_true_iff, Text.fits_around_iff, Store.HasText, hcell,
    List.mem_cons, List.not_mem_nil, or_false, exists_eq_or_imp, exists_eq_left]

/-- The search for a text without signs finds the rules whose name or text holds it, in any letter case. -/
theorem finds_searchText_of_plain (h : st.Sound) {query : String} (hplain : Text.IsPlain query.toList) :
    (searchText (.text query)).Finds st True
      (st.Lists .rules fun r => st.HasText r (Text.Holds · query.toList)) := by
  refine (finds_searchText h (.text query)).mono fun rows hrows => hrows.congr fun r => ?_
  have hholds (text : List Char) :
      (∃ piece, piece <:+: text ∧ Text.Fits query.toList piece) ↔ Text.Holds text query.toList :=
    Text.fits_around_iff.symm.trans (Text.fits_around_iff_holds hplain)
  show st.HasText r (fun text => ∃ piece, piece <:+: text ∧ Text.Fits query.toList piece) ↔ _
  simp only [hholds]

/-- The search for a text finds every rule whose name or text holds it, in any letter case. -/
theorem finds_searchText_of_holds (h : st.Sound) {query : String} (ht : r.table = .rules) (hr : st.Has r)
    (hholds : st.HasText r (Text.Holds · query.toList)) :
    (searchText (.text query)).Finds st True (r ∈ ·) := by
  refine (finds_searchText h (.text query)).mono fun rows ⟨_, _, _, hmem⟩ => (hmem r).mpr ⟨ht, hr, ?_⟩
  obtain ⟨column, hcolumn, text, htext, hpiece⟩ := hholds
  exact ⟨column, hcolumn, text, htext, Text.fits_around_iff.mp (Text.fits_around_of_holds hpiece)⟩

end SoarProject
