/-!
# Blanks

Two classes of white space. `isBlank` is the wide class, every white space of Unicode and the
separator controls; it decides where a production or a statement is trimmed and where a word may
start. `isLayout` is the narrow class that may stand between the tokens of a production.
-/

namespace SoarProject.Text

/-- White space in the wide sense. -/
def isBlank (c : Char) : Bool :=
  let n := c.toNat
  (0x9 ≤ n && n ≤ 0xd) || (0x1c ≤ n && n ≤ 0x20) || n == 0x85 || n == 0xa0 || n == 0x1680 ||
    (0x2000 ≤ n && n ≤ 0x200a) || n == 0x2028 || n == 0x2029 || n == 0x202f || n == 0x205f ||
    n == 0x3000

/-- White space that may separate the tokens of a production: space, tab, form feed and the two
line-break characters. -/
def isLayout (c : Char) : Bool :=
  c == ' ' || c == '\t' || c == '\x0c' || c == '\r' || c == '\n'

/-- Drop the blanks at the start. -/
def trimLeft (s : List Char) : List Char := s.dropWhile isBlank

/-- Drop the blanks at the end. -/
def trimRight (s : List Char) : List Char := (s.reverse.dropWhile isBlank).reverse

/-- Drop the blanks at both ends. -/
def trim (s : List Char) : List Char := trimRight (trimLeft s)

/-- The text without the blanks at both ends. -/
def trimmed (s : String) : String := String.ofList (trim s.toList)

/-- Nothing is left of blanks. -/
theorem trim_of_blanks {blanks : List Char} (h : ∀ c ∈ blanks, isBlank c = true) : trim blanks = [] := by
  have hleft : trimLeft blanks = [] := by
    rw [trimLeft, ← List.append_nil blanks, List.dropWhile_append_of_pos h, List.dropWhile_nil]
  rw [trim, hleft]
  rfl

theorem dropWhile_blanks_append {blanks s : List Char} (hblanks : ∀ c ∈ blanks, isBlank c = true)
    (hs : ∀ c ∈ s.head?, isBlank c = false) : (blanks ++ s).dropWhile isBlank = s := by
  rw [List.dropWhile_append_of_pos hblanks]
  cases s with
  | nil => rfl
  | cons c s => rw [List.dropWhile_cons, hs c rfl, if_neg Bool.false_ne_true]

/-- Of a text with blanks around it, what is left begins and ends with something else. -/
theorem trim_append {front s back : List Char} (hfront : ∀ c ∈ front, isBlank c = true)
    (hback : ∀ c ∈ back, isBlank c = true) (hne : s ≠ []) (hfirst : ∀ c ∈ s.head?, isBlank c = false)
    (hlast : ∀ c ∈ s.getLast?, isBlank c = false) : trim (front ++ s ++ back) = s := by
  have hleft : trimLeft (front ++ s ++ back) = s ++ back := by
    rw [trimLeft, List.append_assoc, dropWhile_blanks_append hfront]
    obtain ⟨c, s, rfl⟩ := List.exists_cons_of_ne_nil hne
    exact hfirst
  rw [trim, hleft, trimRight, List.reverse_append, dropWhile_blanks_append, List.reverse_reverse]
  · exact fun c hc => hback c (List.mem_reverse.mp hc)
  · rwa [List.head?_reverse]

/-- A text that begins and ends with something else than blanks stays as it is. -/
theorem trim_eq {first last : Char} {s : List Char} (hfirst : isBlank first = false)
    (hlast : isBlank last = false) : trim (first :: (s ++ [last])) = first :: (s ++ [last]) := by
  have hends : ∀ c ∈ (first :: (s ++ [last])).getLast?, isBlank c = false := by
    rw [← List.cons_append, List.getLast?_concat]
    simpa using hlast
  have htrim : trim ([] ++ first :: (s ++ [last]) ++ []) = first :: (s ++ [last]) :=
    trim_append (by simp) (by simp) (List.cons_ne_nil _ _) (by simpa using hfirst) hends
  simpa using htrim

theorem trim_blank (s : List Char) : trim (' ' :: s) = trim s := rfl

/-- Layout is white space in the wide sense too. -/
theorem isBlank_of_isLayout {c : Char} (h : isLayout c = true) : isBlank c = true := by
  simp only [isLayout, Bool.or_eq_true, beq_iff_eq] at h
  rcases h with (((h | h) | h) | h) | h <;> subst h <;> decide

end SoarProject.Text
