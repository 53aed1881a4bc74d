import Mathlib.Data.List.Forall2
import SoarProject.Proofs.Rule.Munch
import SoarProject.Proofs.Rule.Progress

/-!
# Layout between tokens

White space and comments between the tokens of a production say nothing. A body that reads as a
production is cut into its tokens and the gaps between them; with any other layout in the gaps, and any
layout in places where two tokens touch, it reads as the same production. A gap that parts two tokens has
to stay one, since two words without anything between them are one word.

* `Rule.IsGap`: layout characters, and comments with the ends of their lines.
* `Rule.cutBody`: the tokens of a body, with the gaps between them.
* `Rule.Cut.Relaid`: the same tokens with other gaps.
* `Rule.Reader.run_relaid`: a reader reads the same tokens whatever gaps are between them.
* `Rule.parseBody_relaid`: the layout of a body does not change its meaning.
-/

namespace SoarProject.Rule

open SoarProject.Text

/-! ### Gaps -/

/-- Layout between two tokens: layout characters, and comments with the ends of their lines. -/
inductive IsGap : List Char → Prop
  | nil : IsGap []
  | layout {c : Char} {s : List Char} (hc : isLayout c = true) (hs : IsGap s) : IsGap (c :: s)
  | comment {text s : List Char} (htext : '\n' ∉ text) (hs : IsGap s) : IsGap ('#' :: (text ++ '\n' :: s))

/-- Layout behind the last token: a gap, and possibly a comment that ends with the text. -/
inductive IsEnding : List Char → Prop
  | gap {s : List Char} (hs : IsGap s) : IsEnding s
  | comment {s text : List Char} (hs : IsGap s) (htext : '\n' ∉ text) : IsEnding (s ++ '#' :: text)

section Gaps

variable {g s text : List Char} {c : Char}

theorem IsGap.append (hg : IsGap g) (hs : IsGap s) : IsGap (g ++ s) := by
  induction hg with
  | nil => exact hs
  | layout hc _ ih => exact .layout hc ih
  | @comment text _ htext _ ih =>
    rw [List.cons_append, List.append_assoc, List.cons_append]
    exact .comment htext ih

/-- A layout character in front of an ending. -/
theorem IsEnding.layout (hc : isLayout c = true) (hs : IsEnding s) : IsEnding (c :: s) := by
  cases hs with
  | gap hs => exact .gap (.layout hc hs)
  | comment hs htext => exact .comment (.layout hc hs) htext

theorem IsGap.comment_cons (hg : IsGap ('#' :: g)) (hc : c ≠ '\n') : IsGap ('#' :: c :: g) := by
  cases hg with
  | layout hc' _ => exact absurd hc' (by decide)
  | @comment text s htext hs =>
    have hlonger : '\n' ∉ c :: text := by simp [htext, hc.symm]
    exact .comment hlonger hs

/-- A comment at the end grows at its front. -/
theorem IsEnding.comment_cons (hg : IsEnding ('#' :: g)) (hc : c ≠ '\n') : IsEnding ('#' :: c :: g) := by
  generalize htext : '#' :: g = text at hg
  cases hg with
  | gap hg => exact .gap (IsGap.comment_cons (htext ▸ hg) hc)
  | @comment s text hs hno =>
    cases s with
    | nil =>
      obtain ⟨-, rfl⟩ := List.cons.inj htext
      have hlonger : '\n' ∉ c :: g := by simp [hno, hc.symm]
      exact .comment .nil hlonger
    | cons d s =>
      obtain ⟨rfl, rfl⟩ := List.cons.inj htext
      exact .comment (s := '#' :: c :: s) (hs.comment_cons hc) hno

/-- A comment takes up a gap behind it until the first end of a line. -/
theorem IsGap.after_comment (hg : IsGap g) (htext : '\n' ∉ text) :
    IsGap ('#' :: (text ++ g)) ∨ '\n' ∉ g := by
  induction hg generalizing text with
  | nil => exact .inr List.not_mem_nil
  | @layout c s hc hs ih =>
    -- The first line break ends the comment; without one the comment has no end.
    by_cases hline : c = '\n'
    · subst hline
      exact .inl (.comment htext hs)
    · have htext' : '\n' ∉ text ++ [c] := by simpa [htext] using Ne.symm hline
      rcases ih htext' with hgap | hno
      · exact .inl (by simpa using hgap)
      · exact .inr (by simpa [hno] using Ne.symm hline)
  | @comment inner s hinner hs _ =>
    have htext' : '\n' ∉ text ++ '#' :: inner := by simp [htext, hinner]
    exact .inl (by simpa using IsGap.comment htext' hs)

/-- An ending behind an ending is one, even where the first leaves a comment open. -/
theorem IsEnding.append (hg : IsEnding g) (hs : IsEnding s) : IsEnding (g ++ s) := by
  cases hg with
  | gap hg =>
    cases hs with
    | gap hs => exact .gap (hg.append hs)
    | comment hs htext =>
      rw [← List.append_assoc]
      exact .comment (hg.append hs) htext
  -- The comment runs on into the next piece, up to its first line break.
  | @comment g text hg htext =>
    rw [List.append_assoc, List.cons_append]
    cases hs with
    | gap hs =>
      rcases hs.after_comment htext with hgap | hno
      · exact .gap (hg.append hgap)
      · exact .comment hg (by simp [htext, hno])
    | @comment s' text' hs htext' =>
      rcases hs.after_comment htext with hgap | hno
      · have hassoc : g ++ '#' :: (text ++ (s' ++ '#' :: text')) =
            g ++ '#' :: (text ++ s') ++ '#' :: text' := by simp
        rw [hassoc]
        exact .comment (hg.append hgap) htext'
      · exact .comment hg (by simp [htext, hno, htext'])

/-- A gap that is not empty begins with a separator. -/
theorem IsGap.separated (hg : IsGap g) (hne : g ≠ []) (s : List Char) : Separated (g ++ s) := by
  rintro c hc
  cases hg with
  | nil => exact absurd rfl hne
  | layout hc' _ =>
    cases hc
    simp [isSeparator, hc']
  | comment =>
    cases hc
    decide

/-- An ending begins with a separator. -/
theorem IsEnding.separated (hs : IsEnding s) : Separated s := by
  have hgap {g : List Char} (hg : IsGap g) : Separated g := by
    -- An empty gap has no character to look at.
    by_cases hne : g = []
    · subst hne
      exact fun c hc => by cases hc
    · simpa using hg.separated hne []
  cases hs with
  | gap hs => exact hgap hs
  | @comment g text hs _ =>
    by_cases hne : g = []
    · subst hne
      rintro c hc
      cases hc
      decide
    · exact hs.separated hne _

/-! ### Skipping layout -/

/-- A comment is skipped to the end of its line. -/
theorem skipLayout_comment (htext : '\n' ∉ text) (p : Position) (s : List Char) :
    skipLayout true p (text ++ s) = skipLayout true (p.after text) s := by
  induction text generalizing p with
  | nil => rfl
  | cons c text ih =>
    obtain ⟨hc, htext⟩ := List.ne_and_not_mem_of_not_mem_cons htext
    have hopen : (c != '\n') = true := bne_iff_ne.mpr (Ne.symm hc)
    rw [List.cons_append, skipLayout, if_pos rfl, hopen, ih htext]
    rfl

/-- A gap is skipped. -/
theorem IsGap.skipLayout_append (hg : IsGap g) (p : Position) (s : List Char) :
    skipLayout false p (g ++ s) = skipLayout false (p.after g) s := by
  induction hg generalizing p with
  | nil => rfl
  | @layout c g hc _ ih =>
    rw [List.cons_append, skipLayout, if_neg Bool.false_ne_true, if_pos hc, ih]
    rfl
  | @comment text g htext _ ih =>
    rw [List.cons_append, List.append_assoc, skipLayout, if_neg Bool.false_ne_true,
      if_neg (by decide), if_pos rfl, skipLayout_comment htext, List.cons_append, skipLayout, if_pos rfl,
      bne_self_eq_false, ih]
    simp [Position.after]

/-- An ending is skipped to the end. -/
theorem IsEnding.skipLayout_eq (hs : IsEnding s) (p : Position) :
    skipLayout false p s = (p.after s, []) := by
  cases hs with
  | gap hs => simpa [skipLayout] using hs.skipLayout_append p []
  | @comment g text hg htext =>
    have hopen := skipLayout_comment htext ((p.after g).next '#') []
    rw [List.append_nil] at hopen
    rw [hg.skipLayout_append, skipLayout, if_neg Bool.false_ne_true, if_neg (by decide), if_pos rfl, hopen]
    simp [skipLayout, Position.after]

/-- What is skipped is a gap, or an ending if nothing follows it. A scan that begins inside a comment
completes that comment. -/
theorem exists_gap_of_skipLayout (inComment : Bool) (p : Position) (s : List Char) :
    ∃ g, s = g ++ (skipLayout inComment p s).2 ∧
      ((skipLayout inComment p s).2 ≠ [] → IsGap (if inComment then '#' :: g else g)) ∧
      ((skipLayout inComment p s).2 = [] → IsEnding (if inComment then '#' :: g else g)) := by
  induction s generalizing inComment p with
  | nil =>
    refine ⟨[], rfl, fun hne => absurd rfl hne, fun _ => ?_⟩
    cases inComment
    · exact .gap .nil
    · exact .comment .nil List.not_mem_nil
  | cons c s ih =>
    cases inComment with
    -- Inside a comment every character is skipped, and a line break ends the comment.
    | true =>
      obtain ⟨g, hs, hgap, hending⟩ := ih (c != '\n') (p.next c)
      rw [skipLayout, if_pos rfl]
      refine ⟨c :: g, congrArg (c :: ·) hs, fun hne => ?_, fun hnil => ?_⟩
      · have hg := hgap hne
        by_cases hc : c = '\n'
        · subst hc
          exact .comment List.not_mem_nil hg
        · rw [if_pos (by simpa using hc)] at hg
          exact hg.comment_cons hc
      · have hg := hending hnil
        by_cases hc : c = '\n'
        · subst hc
          exact IsEnding.append (.gap (.comment List.not_mem_nil .nil)) hg
        · rw [if_pos (by simpa using hc)] at hg
          exact hg.comment_cons hc
    | false =>
      by_cases hlayout : isLayout c = true
      · obtain ⟨g, hs, hgap, hending⟩ := ih false (p.next c)
        have hskip : skipLayout false p (c :: s) = skipLayout false (p.next c) s := by
          simp [skipLayout, hlayout]
        rw [hskip]
        exact ⟨c :: g, congrArg (c :: ·) hs, fun hne => .layout hlayout (hgap hne),
          fun hnil => .layout hlayout (hending hnil)⟩
      -- A sign begins a comment, and any other character is the end of the gap.
      by_cases hsign : c = '#'
      · subst hsign
        obtain ⟨g, hs, hgap, hending⟩ := ih true (p.next '#')
        have hskip : skipLayout false p ('#' :: s) = skipLayout true (p.next '#') s := by
          simp [skipLayout, hlayout]
        rw [hskip]
        exact ⟨'#' :: g, congrArg ('#' :: ·) hs, hgap, hending⟩
      · have hskip : skipLayout false p (c :: s) = (p, c :: s) := by
          simp [skipLayout, hlayout, hsign]
        rw [hskip]
        exact ⟨[], rfl, fun _ => .nil, fun hnil => by cases hnil⟩

end Gaps

/-! ### Tokens and gaps -/

/-- A token with the gap in front of it. -/
structure Piece where
  /-- The gap. -/
  gap : List Char
  /-- The characters of the token. -/
  token : List Char
  deriving DecidableEq

/-- The text of a piece. -/
def Piece.text (q : Piece) : List Char := q.gap ++ q.token

/-- A body in pieces, with the text behind the last token. -/
structure Cut where
  /-- The tokens with their gaps. -/
  pieces : List Piece
  /-- The text behind the last token. -/
  ending : List Char

namespace Cut

/-- The text of a body in pieces. -/
def text (c : Cut) : List Char := c.pieces.flatMap Piece.text ++ c.ending

/-- One more piece at the front. -/
def cons (q : Piece) (c : Cut) : Cut := { c with pieces := q :: c.pieces }

/-- The pieces are tokens behind gaps, and nothing but layout is behind the last of them. -/
structure Laid (c : Cut) : Prop where
  gaps : ∀ q ∈ c.pieces, IsGap q.gap ∧ q.token ≠ []
  ending : IsEnding c.ending

/-- The same tokens with other gaps. A gap may take the place of none, but not the other way round. -/
structure Relaid (c c' : Cut) : Prop where
  pieces : List.Forall₂ (fun q q' => q'.token = q.token ∧ IsGap q'.gap ∧ (q.gap ≠ [] → q'.gap ≠ []))
    c.pieces c'.pieces
  ending : IsEnding c'.ending

/-- A place between two tokens, outside of comments, or in front of the first token or behind the last. -/
inductive IsBoundary (c : Cut) : List Char → List Char → Prop
  | between {front back : List Piece} {g g' token : List Char}
    (hpieces : c.pieces = front ++ ⟨g ++ g', token⟩ :: back) (hg : IsGap g) (hg' : IsGap g') :
    IsBoundary c (front.flatMap Piece.text ++ g)
      (g' ++ (token ++ (back.flatMap Piece.text ++ c.ending)))
  | behind {e e' : List Char} (hending : c.ending = e ++ e') (he : IsEnding e) (he' : IsEnding e') :
    IsBoundary c (c.pieces.flatMap Piece.text ++ e) e'

end Cut

/-- The text that a reader reads as tokens, in pieces; what it refuses is not cut. -/
def Reader.cut (r : Reader) (p : Position) (s : List Char) : Cut :=
  match _hl : skipLayout false p s with
  | (_, []) => ⟨[], s⟩
  | (p', c :: rest) =>
    match _hs : scan r.place.expected (c :: rest) with
    | none => ⟨[], s⟩
    | some (terminal, piece, rest') =>
      match r.accept ⟨terminal, piece, p'⟩ with
      | .error _ => ⟨[], s⟩
      | .ok r' => (r'.cut (p'.after piece) rest').cons ⟨s.take (s.length - (c :: rest).length), piece⟩
termination_by s.length
decreasing_by
  have h1 := length_skipLayout_le false p s
  have h2 := length_lt_of_scan _hs
  rw [_hl] at h1
  simp only at h1 h2
  omega

/-- The tokens of a body and the gaps between them. -/
def cutBody (body : String) : Cut := Reader.cut {} .start body.toList

section Reading

variable {r r' : Reader} {p p' : Position} {s s' rest piece g : List Char} {c : Char} {t : Terminal}
  {production : Production}

/-- What is behind the last token is not cut. -/
theorem Reader.cut_of_end (hlayout : skipLayout false p s = (p', [])) : r.cut p s = ⟨[], s⟩ := by
  rw [cut]
  split
  · rfl
  · next heq => rw [hlayout] at heq; cases heq

/-- A token is cut off with the gap in front of it. -/
theorem Reader.cut_of_accept (hlayout : skipLayout false p (g ++ c :: s) = (p', c :: s))
    (hscan : scan r.place.expected (c :: s) = some (t, piece, rest))
    (haccept : r.accept ⟨t, piece, p'⟩ = .ok r') :
    r.cut p (g ++ c :: s) = (r'.cut (p'.after piece) rest).cons ⟨g, piece⟩ := by
  -- What is cut off before the token is what the layout took.
  have hgap : (g ++ c :: s).take ((g ++ c :: s).length - (c :: s).length) = g := by simp
  rw [cut]
  split
  · next heq => rw [hlayout] at heq; cases heq
  · next heq =>
    rw [hlayout] at heq
    cases heq
    split
    · next heq => rw [hscan] at heq; cases heq
    · next heq =>
      rw [hscan] at heq
      cases heq
      rw [haccept, hgap]

/-- The step of a reader depends on what a token is, not on where it stands. -/
theorem State.step?_congr (state : State) (t : Terminal) (piece : List Char) (p p' : Position) :
    state.step? ⟨t, piece, p⟩ = state.step? ⟨t, piece, p'⟩ := by
  cases state <;> rfl

/-- A reader takes a token wherever it stands. -/
theorem Reader.accept_congr (h : r.accept ⟨t, piece, p⟩ = .ok r') (last p' : Position) :
    Reader.accept { r with last } ⟨t, piece, p'⟩ = .ok { r' with last := p' } := by
  unfold accept at h ⊢
  split at h
  · cases h
  · next hexcess =>
    split at h
    · next hstep =>
      cases h
      rw [State.step?_congr _ _ _ p p'] at hstep
      simp only [hexcess, hstep]
      rfl
    · cases h

/-- The layout in front of a token is a gap. -/
theorem exists_gap_of_token (h : skipLayout false p s = (p', c :: rest)) :
    ∃ g, s = g ++ c :: rest ∧ IsGap g := by
  obtain ⟨g, hs, hgap, -⟩ := exists_gap_of_skipLayout false p s
  rw [h] at hs hgap
  exact ⟨g, hs, hgap (List.cons_ne_nil c rest)⟩

/-- The layout behind the last token is an ending. -/
theorem isEnding_of_skipLayout (h : skipLayout false p s = (p', [])) : IsEnding s := by
  obtain ⟨g, hs, -, hending⟩ := exists_gap_of_skipLayout false p s
  rw [h, List.append_nil] at hs
  rw [hs]
  exact hending (by rw [h])

/-- A reader takes the token behind a gap. -/
theorem Reader.run_token (hg : IsGap g) (hscan : scan r.place.expected (piece ++ s) = some (t, piece, s))
    (haccept : r.accept ⟨t, piece, p.after g⟩ = .ok r') :
    r.run p (g ++ (piece ++ s)) = r'.run ((p.after g).after piece) s := by
  obtain ⟨-, -, -, -, hmatch, -⟩ := scan_eq_some_iff.mp hscan
  obtain ⟨c, y, rfl, hc⟩ := Terminal.exists_cons_of_match? hmatch
  -- The first character of a token is neither layout nor the sign of a comment.
  obtain ⟨hlayout, hsign⟩ : isLayout c = false ∧ c ≠ '#' := by simpa [isSeparator] using hc
  have hskip : skipLayout false p (g ++ (c :: y ++ s)) = (p.after g, c :: (y ++ s)) := by
    rw [hg.skipLayout_append]
    simp [skipLayout, hlayout, hsign]
  rw [List.cons_append] at hscan
  rw [run_eq, hskip]
  dsimp only
  rw [hscan]
  dsimp only
  rw [haccept]

/-- Cutting keeps the text of a body that reads as a production, and cuts all of it into tokens. -/
theorem Reader.cut_of_run (h : r.run p s = .ok production) : (r.cut p s).text = s ∧ (r.cut p s).Laid := by
  fun_induction Reader.run r p s with
  | case1 r p s p' hlayout =>
    rw [cut_of_end hlayout]
    exact ⟨rfl, fun q hq => (List.not_mem_nil hq).elim, isEnding_of_skipLayout hlayout⟩
  | case2 => cases h
  | case3 => cases h
  | case4 r p s p' c rest hlayout t piece rest' hscan r' haccept ih =>
    -- The gap is cut off with the token, and the rest is cut by induction.
    obtain ⟨g, rfl, hg⟩ := exists_gap_of_token hlayout
    obtain ⟨hne, hsplit⟩ := scan_splits hscan
    obtain ⟨htext, hlaid⟩ := ih h
    rw [cut_of_accept hlayout hscan haccept]
    refine ⟨?_, List.forall_mem_cons.mpr ⟨⟨hg, hne⟩, hlaid.gaps⟩, hlaid.ending⟩
    have hrest : Cut.text (Cut.cons ⟨g, piece⟩ (r'.cut (p'.after piece) rest')) =
        g ++ (piece ++ (r'.cut (p'.after piece) rest').text) := by
      simp [Cut.text, Cut.cons, Piece.text]
    rw [hrest, htext, hsplit]

/-- Texts with the same tokens are alike up to a separator in the second. -/
theorem Cut.Relaid.exists_common {c c' : Cut} (h : c.Relaid c') :
    ∃ s u v, c.text = s ++ u ∧ c'.text = s ++ v ∧ Separated v := by
  obtain ⟨pieces, ending⟩ := c
  obtain ⟨pieces', ending'⟩ := c'
  obtain ⟨hpieces, hending⟩ := h
  dsimp only at hpieces hending
  induction hpieces with
  | nil => exact ⟨[], ending, ending', rfl, rfl, hending.separated⟩
  | @cons q q' qs qs' hq _ ih =>
    obtain ⟨htoken, hgap, hkeeps⟩ := hq
    -- Pieces agree as long as there is no gap before them; a gap separates what follows.
    by_cases hnil : q'.gap = []
    · have hnil' : q.gap = [] := by
        by_contra hne
        exact hkeeps hne hnil
      obtain ⟨s, u, v, hu, hv, hseparated⟩ := ih
      refine ⟨q.token ++ s, u, v, ?_, ?_, hseparated⟩
      · simpa [text, Piece.text, hnil'] using hu
      · simpa [text, Piece.text, hnil, htoken] using hv
    · refine ⟨[], _, _, rfl, rfl, ?_⟩
      simpa [text, Piece.text] using hgap.separated hnil (q'.token ++ (qs'.flatMap Piece.text ++ ending'))

/-- A reader reads the same tokens with other gaps between them as the same production. -/
theorem Reader.run_relaid {c : Cut} (h : r.run p s = .ok production) (hc : (r.cut p s).Relaid c)
    (last q : Position) : Reader.run { r with last } q c.text = .ok production := by
  fun_induction Reader.run r p s generalizing c last q with
  | case1 r p s p' hlayout =>
    rw [cut_of_end hlayout] at hc
    obtain ⟨pieces, ending⟩ := c
    cases hc.pieces
    rw [run_eq, Cut.text, List.flatMap_nil, List.nil_append, hc.ending.skipLayout_eq]
    unfold finish at h ⊢
    dsimp only
    split at h
    · exact h
    · cases h
  | case2 => cases h
  | case3 => cases h
  | case4 r p s p' d rest hlayout t piece rest' hscan r' haccept ih =>
    obtain ⟨g, rfl, -⟩ := exists_gap_of_token hlayout
    rw [cut_of_accept hlayout hscan haccept] at hc
    obtain ⟨pieces, ending⟩ := c
    obtain ⟨hpieces, hending⟩ := hc
    cases hpieces with
    | @cons _ q' _ qs' hq hqs =>
      obtain ⟨htoken, hgap, -⟩ := hq
      subst htoken
      have hrelaid : (r'.cut (p'.after q'.token) rest').Relaid ⟨qs', ending⟩ := ⟨hqs, hending⟩
      -- The token is scanned as before, since the texts behind it are alike up to a separator.
      obtain ⟨s, u, v, hu, hv, hseparated⟩ := hrelaid.exists_common
      rw [(cut_of_run h).1] at hu
      have hsplit : q'.token ++ rest' = d :: rest := (scan_splits hscan).2
      have hsame : scan r.place.expected (q'.token ++ Cut.text ⟨qs', ending⟩) =
          some (t, q'.token, Cut.text ⟨qs', ending⟩) := by
        rw [hv]
        refine scan_congr (u := u) ?_ hseparated
        rw [← hu, ← hscan]
        exact congrArg _ hsplit
      have htext : Cut.text ⟨q' :: qs', ending⟩ = q'.gap ++ (q'.token ++ Cut.text ⟨qs', ending⟩) := by
        simp [Cut.text, Piece.text]
      rw [htext, run_token (r := { r with last }) hgap hsame (accept_congr haccept last (q.after q'.gap))]
      exact ih h hrelaid _ _

end Reading

/-! ### The meaning of a body -/

namespace Cut

variable {c : Cut} {before after x : List Char}

/-- A boundary parts the text. -/
theorem IsBoundary.append_eq (h : c.IsBoundary before after) : before ++ after = c.text := by
  cases h with
  | between hpieces => simp [text, hpieces, Piece.text]
  | behind hending => simp [text, hending]

/-- A gap that is put in at a boundary makes other gaps around the same tokens. -/
theorem IsBoundary.exists_relaid (h : c.IsBoundary before after) (hc : c.Laid) (hx : IsGap x) :
    ∃ c', c.Relaid c' ∧ c'.text = before ++ (x ++ after) := by
  have hsame (q : Piece) (hq : q ∈ c.pieces) :
      q.token = q.token ∧ IsGap q.gap ∧ (q.gap ≠ [] → q.gap ≠ []) := ⟨rfl, (hc.gaps q hq).1, id⟩
  cases h with
  | @between front back g g' token hpieces hg hg' =>
    refine ⟨⟨front ++ ⟨g ++ (x ++ g'), token⟩ :: back, c.ending⟩, ⟨?_, hc.ending⟩, ?_⟩
    · rw [hpieces] at hsame ⊢
      refine List.rel_append (List.forall₂_same.mpr fun q hq => hsame q (by simp [hq]))
        (.cons ⟨rfl, hg.append (hx.append hg'), fun hne hnil => hne ?_⟩
          (List.forall₂_same.mpr fun q hq => hsame q (by simp [hq])))
      -- The wider gap is empty only if both its halves were.
      have hempty : g = [] ∧ x = [] ∧ g' = [] := by simpa using hnil
      exact List.append_eq_nil_iff.mpr ⟨hempty.1, hempty.2.2⟩
    · simp [text, Piece.text]
  | @behind e _ hending he hafter =>
    -- Behind the last token the gap goes into the ending.
    refine ⟨⟨c.pieces, e ++ (x ++ after)⟩,
      ⟨List.forall₂_same.mpr hsame, he.append (.append (.gap hx) hafter)⟩, ?_⟩
    simp [text]

end Cut

/-- A body that reads as a production consists of tokens with gaps between them. It reads as the same
production with a gap put in at any boundary of its tokens, and with any other gaps between them as long as
none that is not empty is taken away. -/
theorem parseBody_relaid {body : String} {production : Production} (h : parseBody body = .ok production) :
    (cutBody body).text = body.toList ∧ (cutBody body).Laid ∧
      (∀ before after x, (cutBody body).IsBoundary before after → IsGap x →
        before ++ after = body.toList ∧
          parseBody (String.ofList (before ++ (x ++ after))) = .ok production) ∧
      ∀ c, (cutBody body).Relaid c → parseBody (String.ofList c.text) = .ok production := by
  obtain ⟨htext, hlaid⟩ := Reader.cut_of_run h
  have hrelaid (c : Cut) (hc : (cutBody body).Relaid c) :
      parseBody (String.ofList c.text) = .ok production := by
    rw [parseBody, String.toList_ofList]
    exact Reader.run_relaid h hc .start .start
  refine ⟨htext, hlaid, fun before after x hboundary hx => ⟨hboundary.append_eq.trans htext, ?_⟩, hrelaid⟩
  -- Inserting a gap is one way of laying the body out anew.
  obtain ⟨c, hc, heq⟩ := hboundary.exists_relaid hlaid hx
  rw [← heq]
  exact hrelaid c hc

/-- A body with tokens that touch, and with the sign of a comment between bars. -/
def touchingBody : String := "p(<s>^a|# b|)-->(<s> ^x 1.5)"

/-- A comment in front of the bars, where two tokens touched. -/
theorem parseBody_relaid_touching :
    ∃ production, parseBody touchingBody = .ok production ∧
      parseBody "p(<s>^a # |\n|# b|)-->(<s> ^x 1.5)" = .ok production := by
  have hreads : (parseBody touchingBody).isOk = true := by decide +kernel
  cases hparse : parseBody touchingBody with
  | error e =>
    rw [hparse] at hreads
    exact absurd hreads Bool.false_ne_true
  | ok production =>
    -- The gap goes between the attribute and the quoted value, which touched.
    have hpieces : (cutBody touchingBody).pieces =
        ["p", "(", "<s>", "^", "a"].map (fun s => ⟨[], s.toList⟩) ++ ⟨[] ++ [], "|# b|".toList⟩ ::
          ([")", "-->", "(", "<s>"].map (fun s => ⟨[], s.toList⟩) ++
            [⟨[' '], ['^']⟩, ⟨[], ['x']⟩, ⟨[' '], "1.5".toList⟩, ⟨[], [')']⟩]) := by
      decide +kernel
    have hending : (cutBody touchingBody).ending = [] := by decide +kernel
    have htext : '\n' ∉ [' ', '|'] := by decide
    have hgap : IsGap " # |\n".toList := .layout rfl (.comment htext .nil)
    obtain ⟨-, -, hinsert, -⟩ := parseBody_relaid hparse
    have hread := (hinsert _ _ _ (.between hpieces .nil .nil) hgap).2
    rw [hending] at hread
    exact ⟨production, rfl, hread⟩

end SoarProject.Rule
