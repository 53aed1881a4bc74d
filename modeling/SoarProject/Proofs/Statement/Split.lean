import SoarProject.Statement.Basic
import SoarProject.Statement.Split

/-!
# Cutting a dump

A text of statements with a semicolon behind each is cut into these statements, whatever stands in
their literals and quoted names.

* `Statement.Closed`: a text with no semicolon outside quotes, whose quotes are closed.
* `Statement.splitStatements_join`: statements behind each other are cut apart.
-/

namespace SoarProject

/-- The characters of a text with each quote doubled. -/
def doubled (quote : Char) (s : List Char) : List Char :=
  s.flatMap fun c => if c = quote then [quote, quote] else [c]

theorem doubled_cons (quote c : Char) (s : List Char) :
    doubled quote (c :: s) = (if c = quote then [quote, quote] else [c]) ++ doubled quote s := rfl

theorem doubleQuotes_eq (s : List Char) : Text.doubleQuotes s = doubled '\'' s := by
  induction s with
  | nil => rfl
  | cons c s ih =>
    rw [Text.doubleQuotes, doubled_cons, ih]
    split <;> rfl

theorem escaped_eq (s : List Char) : Identifier.escaped s = doubled '"' s := by
  induction s with
  | nil => rfl
  | cons c s ih =>
    rw [Identifier.escaped, doubled_cons, ih]
    split <;> rfl

namespace Statement

open SoarProject.Text

variable {s t : List Char}

/-! ### Closed texts -/

/-- A text that a scan outside of quotes leaves outside of quotes, without a cut. -/
def Closed (s : List Char) : Prop :=
  ∀ front rest, splitFrom none front (s ++ rest) = splitFrom none (s.reverse ++ front) rest

theorem Closed.append (hs : Closed s) (ht : Closed t) : Closed (s ++ t) := by
  intro front rest
  rw [List.append_assoc, hs, ht, List.reverse_append, List.append_assoc]

/-- A closed text is the last piece. -/
theorem Closed.splitFrom_end (h : Closed s) : splitFrom none [] s = piece s := by
  have hscan := h [] []
  rw [List.append_nil, List.append_nil] at hscan
  rw [hscan, splitFrom, List.reverse_reverse]

/-- A closed text is cut off at the semicolon behind it. -/
theorem Closed.splitFrom_semicolon (h : Closed s) (rest : List Char) :
    splitFrom none [] (s ++ ';' :: rest) = piece s ++ splitFrom none [] rest := by
  rw [h, splitFrom, if_pos ⟨rfl, rfl⟩, List.append_nil, List.reverse_reverse]

/-- A character that is neither a quote nor a semicolon. -/
def isPlainText (c : Char) : Bool := c != ';' && c != '\'' && c != '"'

/-- A text without quotes and semicolons is closed. -/
theorem closed_of_all (h : ∀ c ∈ s, isPlainText c = true) : Closed s := by
  induction s with
  | nil => exact fun _ _ => rfl
  | cons c s ih =>
    intro front rest
    obtain ⟨hc, hs⟩ := List.forall_mem_cons.mp h
    simp only [isPlainText, Bool.and_eq_true, bne_iff_ne] at hc
    have hquote : quoteAfter none c = none := if_neg (not_or.mpr ⟨hc.1.2, hc.2⟩)
    rw [List.cons_append, splitFrom, if_neg fun hcut => hc.1.1 hcut.2, hquote, ih hs]
    simp

/-- Blanks are no quotes and no semicolons. -/
theorem closed_of_blanks (h : ∀ c ∈ s, isBlank c = true) : Closed s := by
  refine closed_of_all fun c hc => ?_
  have hblank := h c hc
  simp only [isPlainText, Bool.and_eq_true, bne_iff_ne]
  refine ⟨⟨?_, ?_⟩, ?_⟩ <;> rintro rfl <;> exact absurd hblank (by decide)

/-- Behind an opening quote a scan goes on to the quote that closes it. -/
theorem splitFrom_doubled {quote : Char} (hquote : quote = '\'' ∨ quote = '"')
    (front rest : List Char) :
    splitFrom (some quote) front (doubled quote s ++ quote :: rest) =
      splitFrom none (quote :: ((doubled quote s).reverse ++ front)) rest := by
  have hcut : ∀ c : Char, ¬ (some quote = none ∧ c = ';') := fun _ h => nomatch h.1
  have hopen : ¬ ((none : Option Char) = none ∧ quote = ';') := by
    rintro ⟨-, rfl⟩
    revert hquote
    decide
  have hopened : quoteAfter none quote = some quote := if_pos hquote
  induction s generalizing front with
  | nil =>
    change splitFrom (some quote) front (quote :: rest) = _
    rw [splitFrom, if_neg (hcut _), quoteAfter, if_pos rfl]
    rfl
  | cons c s ih =>
    rw [doubled_cons]
    split
    · -- The quote closes the literal, and its double opens it again.
      simp only [List.cons_append, List.nil_append]
      rw [splitFrom, if_neg (hcut _), quoteAfter, if_pos rfl, splitFrom, if_neg hopen, hopened, ih]
      simp
    · next hc =>
      simp only [List.cons_append, List.nil_append]
      rw [splitFrom, if_neg (hcut _), quoteAfter, if_neg hc, ih]
      simp

/-- A text between quotes, with its quotes doubled, is closed. -/
theorem closed_enclosed {quote : Char} (hquote : quote = '\'' ∨ quote = '"') :
    Closed (quote :: (doubled quote s ++ [quote])) := by
  intro front rest
  have hopen : ¬ ((none : Option Char) = none ∧ quote = ';') := by
    rintro ⟨-, rfl⟩
    revert hquote
    decide
  have hopened : quoteAfter none quote = some quote := if_pos hquote
  rw [List.cons_append, splitFrom, if_neg hopen, hopened, List.append_assoc, List.singleton_append,
    splitFrom_doubled hquote]
  simp

/-- The literal of a text is closed. -/
theorem closed_sqlQuoted (text : String) : Closed (sqlQuoted text).toList := by
  rw [sqlQuoted, String.toList_ofList, doubleQuotes_eq]
  exact closed_enclosed (.inl rfl)

/-- A character of a name without quotes is no quote and no semicolon. -/
theorem isPlainText_of_isPlainChar {c : Char} (h : Identifier.isPlainChar c = true) :
    isPlainText c = true := by
  simp only [isPlainText, Bool.and_eq_true, bne_iff_ne]
  refine ⟨⟨?_, ?_⟩, ?_⟩ <;> rintro rfl <;> exact absurd h (by decide)

/-- A name ends with a line break, or is the same without one. -/
theorem unbroken_eq (name : String) :
    name.toList = (Identifier.unbroken name).toList ++ ['\n'] ∨ name = Identifier.unbroken name := by
  unfold Identifier.unbroken
  split
  · next c front heq =>
    refine .inl ?_
    rw [String.toList_ofList, ← List.reverse_inj, heq]
    simp
  · exact .inr rfl

/-- A name as a statement writes it is closed. -/
theorem closed_written (name : String) : Closed (Identifier.written name).toList := by
  unfold Identifier.written
  split
  · next hplain =>
    simp only [Identifier.isPlain, Identifier.isPlainWord, Bool.and_eq_true, List.all_eq_true] at hplain
    have hword : Closed (Identifier.unbroken name).toList :=
      closed_of_all fun c hc => isPlainText_of_isPlainChar (hplain.1.1 c hc)
    rcases unbroken_eq name with hname | hname
    · rw [hname]
      exact hword.append (closed_of_all (List.forall_mem_singleton.mpr rfl))
    · rwa [← hname] at hword
  · rw [Identifier.quoted, String.toList_ofList, escaped_eq, List.cons_append]
    exact closed_enclosed (.inr rfl)

/-! ### Statements -/

/-- Blanks are no piece. -/
theorem piece_of_blanks (h : ∀ c ∈ s, isBlank c = true) : piece s = [] := by
  rw [piece, trim_of_blanks h]

/-- What begins and ends with something else than blanks is the piece that is left of it and the blanks
around it. -/
theorem piece_append {front back : List Char} (hfront : ∀ c ∈ front, isBlank c = true)
    (hback : ∀ c ∈ back, isBlank c = true) (hne : s ≠ []) (hfirst : ∀ c ∈ s.head?, isBlank c = false)
    (hlast : ∀ c ∈ s.getLast?, isBlank c = false) : piece (front ++ s ++ back) = [String.ofList s] := by
  rw [piece, trim_append hfront hback hne hfirst hlast]
  split
  · exact absurd rfl hne
  · rfl

/-- A statement that ends with itself: its quotes are closed, and no blanks stand around it. -/
structure Whole (statement : String) : Prop where
  closed : Closed statement.toList
  ends : ∃ first s last, statement.toList = first :: (s ++ [last]) ∧ isBlank first = false ∧
    isBlank last = false

/-- A statement is cut off at the semicolon behind it, also behind blanks. -/
theorem Whole.splitFrom_eq {statement : String} (h : Whole statement) {front : List Char}
    (hfront : ∀ c ∈ front, isBlank c = true) (rest : List Char) :
    splitFrom none [] (front ++ statement.toList ++ ';' :: rest) =
      statement :: splitFrom none [] rest := by
  obtain ⟨first, s, last, hchars, hfirst, hlast⟩ := h.ends
  have hpiece : piece (front ++ statement.toList ++ []) = [String.ofList statement.toList] := by
    refine piece_append hfront (by simp) (by simp [hchars]) (by simpa [hchars] using hfirst) ?_
    rw [hchars, ← List.cons_append, List.getLast?_concat]
    simpa using hlast
  rw [((closed_of_blanks hfront).append h.closed).splitFrom_semicolon, ← List.append_nil (front ++ _),
    hpiece, String.ofList_toList, List.singleton_append]

/-- Statements with a semicolon and a line break behind each are cut apart. -/
theorem splitStatements_join {statements : List String} (h : ∀ s ∈ statements, Whole s) :
    splitStatements (String.join (statements.map (· ++ ";\n"))) = statements := by
  have hchars : ∀ statements : List String, (String.join (statements.map (· ++ ";\n"))).toList =
      statements.flatMap fun s => s.toList ++ ';' :: ['\n'] := by
    intro statements
    rw [String.toList_join, List.flatMap_map]
    simp
  have hsplit : ∀ front : List Char, (∀ c ∈ front, isBlank c = true) → splitFrom none []
      (front ++ statements.flatMap fun s => s.toList ++ ';' :: ['\n']) = statements := by
    induction statements with
    | nil =>
      intro front hfront
      rw [List.flatMap_nil, List.append_nil, (closed_of_blanks hfront).splitFrom_end,
        piece_of_blanks hfront]
    | cons s rest ih =>
      intro front hfront
      obtain ⟨hs, hrest⟩ := List.forall_mem_cons.mp h
      rw [List.flatMap_cons, ← List.append_assoc, ← List.append_assoc, List.append_assoc _ _ (List.flatMap _ _),
        List.cons_append, hs.splitFrom_eq hfront]
      -- The line break behind the semicolon is trimmed from the next statement.
      exact congrArg (s :: ·) (ih hrest ['\n'] (by simp [isBlank]))
  rw [splitStatements, hchars]
  exact hsplit [] (by simp)

end Statement

end SoarProject
