import Mathlib.Data.List.DropRight
import SoarProject.Rule.Framing
import SoarProject.Rule.Source

/-!
# Cutting out a framed text

The scan for braces knows neither words nor parts of a production, only texts between quotes and
comments. It comes through a text piece by piece, and what it finds behind a piece depends on the mode and
the open braces there.

* `Rule.Passes`: the scan comes through a piece without finding the brace that it looks for.
* `Rule.exists_frame`: what a text looks like whose frame can be taken off.
* `Rule.splitProductions_trimmed`: such a text is cut out as a whole if the scan comes to its last brace in
  code; if that brace stands in a comment, the braces are not balanced.
-/

namespace SoarProject.Rule

open SoarProject.Text

variable {mode mode₁ mode₂ : ScanMode} {depth depth₁ depth₂ : Nat} {c quote : Char} {s t : List Char}

/-! ### Passing pieces of text -/

/-- Where a scan for braces is after a character. -/
def ScanMode.next : ScanMode → Char → ScanMode
  | .code, c => if c = '|' || c = '"' then .literal c else if c = '#' then .comment else .code
  | .literal quote, c => if c = quote then .code else .literal quote
  | .comment, c => if c = '\n' then .code else .comment

/-- Whether a comment is open at the end of a text. -/
def endsInComment (s : List Char) : Bool :=
  match s.foldl ScanMode.next .code with
  | .comment => true
  | _ => false

/-- A scan comes through a piece of text without finding the brace that it looks for. Behind the piece it
goes on in another mode, with another number of open braces. -/
structure Passes (mode : ScanMode) (depth : Nat) (s : List Char) (mode₁ : ScanMode) (depth₁ : Nat) :
    Prop where
  balanced?_append : ∀ t, balanced? mode depth (s ++ t) =
    (balanced? mode₁ depth₁ t).map fun m => (s ++ m.1, m.2)
  foldl_next : s.foldl ScanMode.next mode = mode₁

/-- Nothing is passed. -/
theorem Passes.nil (mode : ScanMode) (depth : Nat) : Passes mode depth [] mode depth :=
  ⟨fun _ => Option.map_id'.symm, rfl⟩

theorem Passes.append (h : Passes mode depth s mode₁ depth₁) (h' : Passes mode₁ depth₁ t mode₂ depth₂) :
    Passes mode depth (s ++ t) mode₂ depth₂ := by
  refine ⟨fun u => ?_, by rw [List.foldl_append, h.foldl_next, h'.foldl_next]⟩
  rw [List.append_assoc, h.balanced?_append, h'.balanced?_append, Option.map_map]
  simp only [Function.comp_def, List.append_assoc]

/-- A character that is no brace, or that does not stand in code, is passed. -/
theorem passes_char (h : mode = .code → c ≠ '\x7b' ∧ c ≠ '\x7d') (depth : Nat) :
    Passes mode depth [c] (mode.next c) depth := by
  refine ⟨fun t => ?_, rfl⟩
  rw [List.singleton_append, balanced?.eq_def]
  dsimp only
  -- In code the character is no brace; elsewhere every character passes.
  cases mode with
  | code =>
    obtain ⟨hopening, hclosing⟩ := h rfl
    unfold ScanMode.next
    rw [if_neg hopening, if_neg hclosing]
    dsimp only
    split
    · rfl
    · split <;> rfl
  | literal quote => rfl
  | comment => rfl

/-- A brace is opened. -/
theorem passes_opening (depth : Nat) : Passes .code depth ['\x7b'] .code (depth + 1) :=
  ⟨fun _ => rfl, rfl⟩

/-- A brace inside another one is closed. -/
theorem passes_closing (depth : Nat) : Passes .code (depth + 2) ['\x7d'] .code (depth + 1) :=
  ⟨fun _ => rfl, rfl⟩

/-- A comment begins. -/
theorem passes_sign (depth : Nat) : Passes .code depth ['#'] .comment depth :=
  ⟨fun _ => rfl, rfl⟩

/-- The characters that mean something to a scan in code. -/
def marks : List Char := ['\x7b', '\x7d', '|', '"', '#']

/-- Whether a character means nothing to a scan in code. -/
def isUnmarked (c : Char) : Bool := !marks.contains c

/-- A class of characters without a mark. -/
theorem isUnmarked_of_class {p : Char → Bool} (hp : marks.any p = false) (h : p c = true) :
    isUnmarked c = true := by
  rw [isUnmarked, Bool.not_eq_true', ← Bool.not_eq_true, List.contains_iff_mem]
  intro hc
  exact List.any_eq_false.mp hp c hc h

/-- A text of a class of characters without a mark. -/
theorem all_isUnmarked_of_class {p : Char → Bool} (hp : marks.any p = false) (h : s.all p = true) :
    s.all isUnmarked = true :=
  List.all_eq_true.mpr fun c hc => isUnmarked_of_class hp (List.all_eq_true.mp h c hc)

/-- In code, characters without a meaning are passed. -/
theorem passes_unmarked (h : s.all isUnmarked = true) (depth : Nat) :
    Passes .code depth s .code depth := by
  induction s with
  | nil => exact .nil .code depth
  | cons c s ih =>
    obtain ⟨hc, hs⟩ := Bool.and_eq_true_iff.mp h
    have hne : c ≠ '\x7b' ∧ c ≠ '\x7d' ∧ c ≠ '|' ∧ c ≠ '"' ∧ c ≠ '#' := by
      simpa [isUnmarked, marks] using hc
    obtain ⟨hopening, hclosing, hbar, hquote, hsign⟩ := hne
    have hnext : ScanMode.next .code c = .code := by simp [ScanMode.next, hbar, hquote, hsign]
    have hchar : Passes .code depth [c] (ScanMode.next .code c) depth :=
      passes_char (fun _ => ⟨hopening, hclosing⟩) depth
    rw [hnext] at hchar
    exact hchar.append (ih hs)

/-- A text between quotes is passed. -/
theorem passes_enclosed (hquote : quote = '|' ∨ quote = '"') (h : s.all (· != quote) = true) (depth : Nat) :
    Passes .code depth (quote :: (s ++ [quote])) .code depth := by
  have hopening : Passes .code depth [quote] (.literal quote) depth := by
    rcases hquote with rfl | rfl <;> exact ⟨fun _ => rfl, rfl⟩
  -- Inside the quotes only the closing quote changes the mode.
  have hchar (c : Char) :
      Passes (.literal quote) depth [c] (if c = quote then .code else .literal quote) depth :=
    passes_char (fun hcode => by cases hcode) depth
  have hinner : Passes (.literal quote) depth s (.literal quote) depth := by
    induction s with
    | nil => exact .nil _ depth
    | cons c s ih =>
      obtain ⟨hc, hs⟩ := Bool.and_eq_true_iff.mp h
      have hpassed := hchar c
      rw [if_neg (bne_iff_ne.mp hc)] at hpassed
      exact hpassed.append (ih hs)
  have hclosing := hchar quote
  rw [if_pos rfl] at hclosing
  exact hopening.append (hinner.append hclosing)

/-! ### The frame -/

/-- The end of a text without blanks at its end has none there either. -/
theorem trimRight_eq_self_of_suffix (h : trimRight t = t) (hs : s <:+ t) : trimRight s = s := by
  obtain ⟨u, rfl⟩ := hs
  refine List.rdropWhile_eq_self_iff.mpr fun hne => ?_
  have hlast := List.rdropWhile_eq_self_iff.mp h (List.append_ne_nil_of_right_ne_nil u hne)
  rwa [List.getLast_append_of_ne_nil _ hne] at hlast

/-- Trimming leaves no blanks at the end. -/
theorem trimRight_trim (s : List Char) : trimRight (trim s) = trim s :=
  List.rdropWhile_idempotent isBlank (trimLeft s)

/-- The end of a text without blanks at its end: only blanks at its start are trimmed. -/
theorem exists_blanks (h : trimRight t = t) (hs : s <:+ t) :
    ∃ blanks, blanks.all isBlank = true ∧ s = blanks ++ trim s := by
  have htrim : trim s = trimLeft s :=
    trimRight_eq_self_of_suffix h ((List.dropWhile_suffix isBlank).trans hs)
  exact ⟨s.takeWhile isBlank, List.all_takeWhile,
    htrim ▸ (List.takeWhile_append_dropWhile (p := isBlank)).symm⟩

/-- A text whose frame can be taken off begins with the word and the opening brace, ends with the closing
brace, and has its body between them; only blanks stand around the opening brace. -/
theorem exists_frame {text body : String} (h : stripFraming text = .ok body) :
    ∃ blanks lead, blanks.all isBlank = true ∧ lead.all isBlank = true ∧
      trim text.toList = 's' :: 'p' :: (blanks ++ '\x7b' :: (lead ++ (body.toList ++ ['\x7d']))) := by
  unfold stripFraming at h
  split at h
  · next rest hframe =>
    have htrimmed := trimRight_trim text.toList
    have hrest : rest <:+ trim text.toList := ⟨['s', 'p'], hframe.symm⟩
    obtain ⟨blanks, hblanks, heq⟩ := exists_blanks htrimmed hrest
    -- The frame ends with a closing brace, so no blank is lost on the right.
    split at h
    · next inner hopening =>
      rw [hopening] at heq
      have hinner : inner <:+ trim text.toList := by
        refine ⟨'s' :: 'p' :: (blanks ++ ['\x7b']), ?_⟩
        rw [hframe, heq]
        simp
      obtain ⟨lead, hlead, heq'⟩ := exists_blanks htrimmed hinner
      split at h
      · next reversed hclosing =>
        cases h
        refine ⟨blanks, lead, hblanks, hlead, ?_⟩
        -- The rest is read backwards, as the closing brace is the last character.
        rw [hframe, heq, String.toList_ofList, ← List.reverse_cons, ← hclosing, List.reverse_reverse, ← heq']
      · cases h
    · cases h
  · cases h

/-- A production begins before its opening brace. -/
theorem opening?_eq {blanks : List Char} (h : blanks.all isBlank = true) (s : List Char) :
    opening? ('s' :: 'p' :: (blanks ++ '\x7b' :: s)) = some ('s' :: 'p' :: (blanks ++ ['\x7b']), s) := by
  have hblanks : ∀ c ∈ blanks, isBlank c = true := List.all_eq_true.mp h
  have hdrop : (blanks ++ '\x7b' :: s).dropWhile isBlank = '\x7b' :: s := by
    rw [List.dropWhile_append_of_pos hblanks]
    rfl
  have htake : (blanks ++ '\x7b' :: s).takeWhile isBlank = blanks := by
    rw [List.takeWhile_append_of_pos hblanks, List.takeWhile_cons_of_neg (by decide), List.append_nil]
  simp [opening?, hdrop, htake]

/-- What a text is cut into that is a production from its first character on. -/
theorem splitFrom_eq_of_opening? {line : Nat} {opening body : List Char}
    (h : opening? ('s' :: s) = some (opening, body)) :
    splitFrom true line ('s' :: s) = match balanced? .code 1 body with
      | none => .error (.unbalanced (line + lineBreaks opening))
      | some (block, more) => do
        let blocks ← splitFrom false (line + lineBreaks (opening ++ block)) more
        return String.ofList (opening ++ block) :: blocks := by
  rw [splitFrom]
  rw [if_neg (by decide)]
  -- The opening that the function finds is the given one.
  split
  · next hnone =>
    rw [if_pos rfl, h] at hnone
    cases hnone
  · next hsome =>
    rw [if_pos rfl, h] at hsome
    cases hsome
    split
    · next hbalanced => rw [hbalanced]
    · next hbalanced => rw [hbalanced]

/-- A text in a frame is cut out as a whole if a scan comes to its last brace in code, and its braces are
not balanced if it comes there in a comment. -/
theorem splitProductions_trimmed {text body : String} (hbody : stripFraming text = .ok body)
    (h : Passes .code 1 body.toList mode 1) (hmode : mode = .code ∨ mode = .comment) :
    splitProductions (trimmed text) =
      if endsInComment body.toList then
        .error (.unbalanced (1 + lineBreaks ((trim text.toList).takeWhile (· != '\x7b'))))
      else .ok [trimmed text] := by
  obtain ⟨blanks, lead, hblanks, hlead, htext⟩ := exists_frame hbody
  have hpassed : Passes .code 1 (lead ++ body.toList) mode 1 :=
    (passes_unmarked (all_isUnmarked_of_class (by decide) hlead) 1).append h
  -- The braces of the text begin behind the name of the form.
  have hopening : (trim text.toList).takeWhile (· != '\x7b') = 's' :: 'p' :: blanks := by
    have hnone : ∀ c ∈ blanks, (c != '\x7b') = true := by
      intro c hc
      rw [bne_iff_ne]
      rintro rfl
      exact absurd (List.all_eq_true.mp hblanks _ hc) (by decide)
    rw [htext, List.takeWhile_cons_of_pos (by decide), List.takeWhile_cons_of_pos (by decide),
      List.takeWhile_append_of_pos hnone, List.takeWhile_cons_of_neg (by decide), List.append_nil]
  have hlines : lineBreaks ('s' :: 'p' :: (blanks ++ ['\x7b'])) = lineBreaks ('s' :: 'p' :: blanks) := by
    rw [← List.cons_append, ← List.cons_append, lineBreaks, List.count_append]
    rfl
  rw [splitProductions, trimmed, String.toList_ofList, hopening, htext,
    splitFrom_eq_of_opening? (opening?_eq hblanks _), ← List.append_assoc, hpassed.balanced?_append, hlines]
  rcases hmode with rfl | rfl
  · -- Outside a comment the last brace closes the production.
    have hends : endsInComment body.toList = false := by rw [endsInComment, h.foldl_next]
    rw [hends, if_neg Bool.false_ne_true]
    have hlast : balanced? .code 1 ['\x7d'] = some (['\x7d'], []) := rfl
    rw [hlast, Option.map_some]
    dsimp only
    rw [splitFrom]
    simp
  · -- Inside a comment it is no brace, so none closes.
    have hends : endsInComment body.toList = true := by rw [endsInComment, h.foldl_next]
    have hlast : balanced? .comment 1 ['\x7d'] = none := rfl
    rw [hends, if_pos rfl, hlast]
    rfl

end SoarProject.Rule
