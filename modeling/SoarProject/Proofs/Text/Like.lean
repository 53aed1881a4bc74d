import Mathlib.Data.List.Infix
import SoarProject.Text.Like

/-!
# Fitting a pattern

A text fits a pattern if it is made of pieces that the signs of the pattern stand for, one behind the other.
The table of a pattern tells this of every suffix of a text.

* `Text.Fits`: what it means to fit a pattern.
* `Text.like_eq_true_iff`: the table decides it.
* `Text.fits_around_iff`: a text fits the pattern around a query if one of its pieces fits the query.
* `Text.fits_iff_of_plain`: only the text itself fits a query without signs, in any letter case.
-/

namespace SoarProject.Text

variable {c d : Char} {pattern query s t : List Char}

/-- A text fits a pattern. -/
inductive Fits : List Char → List Char → Prop where
  | nil : Fits [] []
  | char {c d : Char} {pattern s : List Char} :
    c ≠ '%' → likeChar c d = true → Fits pattern s → Fits (c :: pattern) (d :: s)
  | percent {pattern s : List Char} (piece : List Char) :
    Fits pattern s → Fits ('%' :: pattern) (piece ++ s)

/-! ### The table of a pattern -/

theorem anyFrom_cons (b : Bool) (bs : List Bool) :
    anyFrom (b :: bs) = (b || (anyFrom bs).head?.getD false) :: anyFrom bs := rfl

theorem likeSuffixes_cons (c : Char) (pattern s : List Char) : likeSuffixes (c :: pattern) s =
    if c = '%' then anyFrom (likeSuffixes pattern s)
    else (s.zip (likeSuffixes pattern s).tail).map (fun (d, fits) => likeChar c d && fits) ++ [false] := rfl

/-- There is an entry for the whole text. -/
theorem likeSuffixes_ne_nil (pattern s : List Char) : likeSuffixes pattern s ≠ [] := by
  induction pattern with
  | nil => simp [likeSuffixes]
  | cons c pattern ih =>
    rw [likeSuffixes_cons]
    split
    · obtain ⟨b, bs, hlater⟩ := List.exists_cons_of_ne_nil ih
      rw [hlater, anyFrom_cons]
      exact List.cons_ne_nil _ _
    · exact List.concat_ne_nil _ _

theorem likeSuffixes_eq_cons (pattern s : List Char) :
    likeSuffixes pattern s = like pattern s :: (likeSuffixes pattern s).tail := by
  obtain ⟨b, bs, hentries⟩ := List.exists_cons_of_ne_nil (likeSuffixes_ne_nil pattern s)
  rw [like, hentries]
  rfl

/-- The other entries are those of the rest of the text. -/
theorem tail_likeSuffixes_cons (pattern : List Char) (d : Char) (s : List Char) :
    (likeSuffixes pattern (d :: s)).tail = likeSuffixes pattern s := by
  induction pattern with
  | nil => rfl
  | cons c pattern ih =>
    rw [likeSuffixes_cons, likeSuffixes_cons, likeSuffixes_eq_cons pattern (d :: s), ih]
    split
    · rw [anyFrom_cons, List.tail_cons]
    · rw [List.tail_cons, likeSuffixes_eq_cons pattern s, List.zip_cons_cons]
      rfl

theorem like_nil (s : List Char) : like [] s = s.isEmpty := by
  cases s with
  | nil => rfl
  | cons d s => rfl

/-- A percent sign stands for nothing at the end of a text. -/
theorem like_percent_nil (pattern : List Char) : like ('%' :: pattern) [] = like pattern [] := by
  have hlast : (likeSuffixes pattern []).tail = [] := by
    induction pattern with
    | nil => rfl
    | cons c pattern ih =>
      rw [likeSuffixes_cons]
      split
      · rw [likeSuffixes_eq_cons, ih]
        rfl
      · rfl
  rw [like, likeSuffixes_cons, if_pos rfl, likeSuffixes_eq_cons, hlast, anyFrom_cons]
  simp [anyFrom]

/-- A percent sign stands for nothing, or for the first character and what follows. -/
theorem like_percent_cons (pattern : List Char) (d : Char) (s : List Char) :
    like ('%' :: pattern) (d :: s) = (like pattern (d :: s) || like ('%' :: pattern) s) := by
  have hrest : (anyFrom (likeSuffixes pattern s)).head?.getD false = like ('%' :: pattern) s := by
    rw [like, likeSuffixes_cons, if_pos rfl]
  rw [like, likeSuffixes_cons, if_pos rfl, likeSuffixes_eq_cons, tail_likeSuffixes_cons, anyFrom_cons, hrest]
  rfl

/-- Any other sign needs a character. -/
theorem like_char_nil (hc : c ≠ '%') (pattern : List Char) : like (c :: pattern) [] = false := by
  rw [like, likeSuffixes_cons, if_neg hc]
  rfl

/-- Any other sign stands for the first character. -/
theorem like_char_cons (hc : c ≠ '%') (pattern : List Char) (d : Char) (s : List Char) :
    like (c :: pattern) (d :: s) = (likeChar c d && like pattern s) := by
  rw [like, likeSuffixes_cons, if_neg hc]
  dsimp only
  rw [tail_likeSuffixes_cons, likeSuffixes_eq_cons pattern s]
  rfl

/-! ### Fitting -/

/-- Nothing but the empty text fits the empty pattern. -/
theorem fits_nil_iff : Fits [] s ↔ s = [] := by
  constructor
  · intro h
    cases h
    rfl
  · rintro rfl
    exact .nil

/-- What fits behind a percent sign. -/
theorem fits_percent_iff : Fits ('%' :: pattern) s ↔ ∃ rest, rest <:+ s ∧ Fits pattern rest := by
  constructor
  · intro h
    cases h with
    | char hc _ _ => exact absurd rfl hc
    | percent piece h => exact ⟨_, List.suffix_append _ _, h⟩
  · rintro ⟨rest, ⟨piece, rfl⟩, h⟩
    exact .percent piece h

/-- What fits behind any other sign. -/
theorem fits_char_iff (hc : c ≠ '%') :
    Fits (c :: pattern) s ↔ ∃ d rest, s = d :: rest ∧ likeChar c d = true ∧ Fits pattern rest := by
  constructor
  · intro h
    cases h with
    | char _ hd h => exact ⟨_, _, rfl, hd, h⟩
    | percent _ _ => exact absurd rfl hc
  · rintro ⟨d, rest, rfl, hd, h⟩
    exact .char hc hd h

/-- The first entry of the table tells whether a text fits. -/
theorem like_eq_true_iff : like pattern s = true ↔ Fits pattern s := by
  induction pattern generalizing s with
  | nil => rw [like_nil, List.isEmpty_iff, fits_nil_iff]
  | cons c pattern ih =>
    by_cases hc : c = '%'
    · subst hc
      rw [fits_percent_iff]
      -- The percent sign stays in the pattern while the text gets shorter.
      induction s with
      | nil => simp [like_percent_nil, ih]
      | cons d s ihs => simp [like_percent_cons, ih, ihs, List.suffix_cons_iff, or_and_right, exists_or]
    · rw [fits_char_iff hc]
      cases s with
      | nil => simp [like_char_nil hc]
      | cons d s => simp [like_char_cons hc, ih]

/-- A text fits two patterns, one behind the other, if it is made of two texts that fit them. -/
theorem fits_append_iff :
    Fits (pattern ++ query) s ↔ ∃ front back, s = front ++ back ∧ Fits pattern front ∧ Fits query back := by
  constructor
  · intro h
    -- Each part of the first pattern takes its piece off the front.
    induction pattern generalizing s with
    | nil => exact ⟨[], s, rfl, .nil, h⟩
    | cons c pattern ih =>
      cases h with
      | char hc hd h =>
        obtain ⟨front, back, rfl, hfront, hback⟩ := ih h
        exact ⟨_, back, rfl, .char hc hd hfront, hback⟩
      | percent piece h =>
        obtain ⟨front, back, rfl, hfront, hback⟩ := ih h
        exact ⟨piece ++ front, back, (List.append_assoc _ _ _).symm, .percent piece hfront, hback⟩
  · rintro ⟨front, back, rfl, hfront, hback⟩
    induction hfront with
    | nil => exact hback
    | char hc hd _ ih => exact .char hc hd ih
    | percent piece _ ih =>
      rw [List.append_assoc]
      exact .percent piece ih

/-- Every text fits a percent sign. -/
theorem fits_percent (s : List Char) : Fits ['%'] s :=
  fits_percent_iff.mpr ⟨[], List.nil_suffix, .nil⟩

/-- A text fits the pattern around a query if one of its pieces fits the query. -/
theorem fits_around_iff : Fits ('%' :: query ++ ['%']) s ↔ ∃ piece, piece <:+: s ∧ Fits query piece := by
  rw [List.cons_append, fits_percent_iff]
  constructor
  · rintro ⟨rest, hrest, h⟩
    obtain ⟨piece, back, rfl, hpiece, -⟩ := fits_append_iff.mp h
    exact ⟨piece, (List.prefix_append _ _).isInfix.trans hrest.isInfix, hpiece⟩
  · rintro ⟨piece, ⟨front, back, rfl⟩, hpiece⟩
    refine ⟨piece ++ back, ⟨front, (List.append_assoc _ _ _).symm⟩, ?_⟩
    exact fits_append_iff.mpr ⟨piece, back, rfl, hpiece, fits_percent back⟩

/-! ### Letter case -/

/-- A text fits itself as a query, in any letter case. -/
theorem fits_of_map_toLower (h : query.map Char.toLower = s.map Char.toLower) : Fits query s := by
  induction query generalizing s with
  | nil =>
    rw [List.map_eq_nil_iff.mp h.symm]
    exact .nil
  | cons c query ih =>
    obtain ⟨d, rest, rfl, hd, hrest⟩ := List.map_eq_cons_iff.mp h.symm
    have hrest := ih hrest.symm
    by_cases hc : c = '%'
    · subst hc
      exact .percent [d] hrest
    · exact .char hc (by simp [likeChar, hd]) hrest

/-- A query without signs. -/
def IsPlain (query : List Char) : Prop := '%' ∉ query ∧ '_' ∉ query

/-- Only the text itself fits a query without signs, in any letter case. -/
theorem fits_iff_of_plain (h : IsPlain query) :
    Fits query s ↔ query.map Char.toLower = s.map Char.toLower := by
  refine ⟨fun hfits => ?_, fits_of_map_toLower⟩
  obtain ⟨hpercent, hunderscore⟩ := h
  induction hfits with
  | nil => rfl
  | @char c d pattern s _ hd _ ih =>
    have hc : c ≠ '_' := fun heq => hunderscore (heq ▸ List.mem_cons_self)
    have hlower : c.toLower = d.toLower := by simpa [likeChar, hc] using hd
    have hrest := ih (fun hmem => hpercent (.tail _ hmem)) fun hmem => hunderscore (.tail _ hmem)
    rw [List.map_cons, List.map_cons, hlower, hrest]
  | percent _ _ _ => exact absurd List.mem_cons_self hpercent

/-- A text holds a query, in any letter case. -/
def Holds (s query : List Char) : Prop := query.map Char.toLower <:+: s.map Char.toLower

/-- A text that holds a query has a piece that is the query, in any letter case. -/
theorem holds_iff : Holds s query ↔
    ∃ piece, piece <:+: s ∧ query.map Char.toLower = piece.map Char.toLower := by
  constructor
  · rintro ⟨front, back, h⟩
    rw [List.append_assoc] at h
    obtain ⟨front', rest, rfl, -, hrest⟩ := List.map_eq_append_iff.mp h.symm
    obtain ⟨piece, back', rfl, hpiece, -⟩ := List.map_eq_append_iff.mp hrest
    exact ⟨piece, ⟨front', back', List.append_assoc _ _ _⟩, hpiece.symm⟩
  · rintro ⟨piece, hpiece, heq⟩
    rw [Holds, heq]
    exact hpiece.map _

/-- A text that holds a query fits the pattern around it. -/
theorem fits_around_of_holds (h : Holds s query) : Fits ('%' :: query ++ ['%']) s := by
  obtain ⟨piece, hpiece, heq⟩ := holds_iff.mp h
  exact fits_around_iff.mpr ⟨piece, hpiece, fits_of_map_toLower heq⟩

/-- Without signs in the query, only a text that holds it fits the pattern around it. -/
theorem fits_around_iff_holds (h : IsPlain query) : Fits ('%' :: query ++ ['%']) s ↔ Holds s query := by
  simp only [fits_around_iff, fits_iff_of_plain h, holds_iff]

end SoarProject.Text
