import SoarProject.Proofs.Number.Numeral
import SoarProject.Proofs.Statement.Split
import SoarProject.Statement.Token

/-!
# Where tokens end

What words, numbers, quoted names and texts are cut into. Each ends before a delimiter.

* `Statement.Ends`: a text before which a token ends.
* `Statement.tokenize_word`, `Statement.tokenize_enclosed`, `Statement.tokenize_numeral`: single tokens.
-/

namespace SoarProject.Statement

open SoarProject.Text

variable {c : Char} {s t u w : List Char} {ts ts' : List Token} {begun : Bool}

/-- The characters that end the token before them. -/
def delimiters : List Char := [' ', ',', '(', ')', '\n', '\t']

/-- A text is at its end or begins with a delimiter. -/
def Ends (u : List Char) : Prop := ∀ c ∈ u.head?, c ∈ delimiters

/-- What is said of each delimiter is said of the character that such a text begins with. -/
theorem Ends.of_all (h : Ends u) {p : Char → Bool} (hp : delimiters.all p = true) :
    ∀ c ∈ u.head?, p c = true :=
  fun c hc => List.all_eq_true.mp hp c (h c hc)

/-- What no delimiter is does not begin such a text. -/
theorem Ends.head?_ne (h : Ends u) (hc : delimiters.all (· != c) = true) : u.head? ≠ some c :=
  fun heq => bne_iff_ne.mp (h.of_all hc c heq) rfl

/-- A run of characters of a class ends before a delimiter. -/
theorem Ends.takeWhile_append (h : Ends u) {p : Char → Bool} (hp : delimiters.all (!p ·) = true)
    (hs : ∀ c ∈ s, p c = true) : (s ++ u).takeWhile p = s := by
  rw [List.takeWhile_append_of_pos hs]
  cases u with
  | nil => simp
  | cons d u =>
    have hd : p d = false := by simpa using h.of_all hp d rfl
    rw [List.takeWhile_cons, hd, if_neg Bool.false_ne_true, List.append_nil]

/-! ### Single tokens -/

/-- A token that is no parameter is read where it begins. -/
theorem tokenize_cons {token : Token} {n : Nat} (hgap : isGap c = false) (hmark : c ≠ orderMark)
    (hend : c ≠ ';') (hcomment : behindComment? (c :: u) = none) (htoken : tokenAt 0 c u = (token, n))
    (hparameter : ∀ written index, token ≠ .parameter written index) :
    tokenize begun 0 (c :: u) = token :: tokenize true 0 (u.drop n) := by
  have hskip : (isGap c || c == orderMark || (c == ';' && !begun)) = false := by simp [hgap, hmark, hend]
  rw [tokenize]
  simp only [hskip, if_neg hend, Bool.false_eq_true, if_false]
  split
  · next heq => rw [hcomment] at heq; cases heq
  · rw [htoken]
    dsimp only
    split
    · next written index => exact absurd rfl (hparameter written index)
    · rfl

/-- No comment begins with such a character. -/
theorem behindComment?_eq_none (hminus : c ≠ '-') (hslash : c ≠ '/') :
    behindComment? (c :: u) = none := by
  unfold behindComment?
  split
  · next heq => cases heq; exact absurd rfl hminus
  · next heq => cases heq; exact absurd rfl hslash
  · rfl

/-- A word begins with none of these characters. -/
theorem ne_of_isWordStart (h : isWordStart c = true) : ∀ d ∈ ['?', '@', '#', ':', '$', '\'', '"', '`',
    '[', ' ', '\t', '\n', '\r', '\x0c', ';', '-', '/'], c ≠ d := by
  rintro d hd rfl
  revert h
  simp only [List.mem_cons, List.not_mem_nil, or_false] at hd
  rcases hd with rfl | rfl | rfl | rfl | rfl | rfl | rfl | rfl | rfl | rfl | rfl | rfl | rfl | rfl | rfl |
    rfl | rfl <;> decide

/-- Before a word it does not matter whether tokens came before. -/
theorem tokenize_begun (hc : isWordStart c = true) (hmark : c ≠ orderMark) :
    tokenize false 0 (c :: u) = tokenize true 0 (c :: u) := by
  -- A word begins with none of the signs that the two modes treat differently.
  have hne := ne_of_isWordStart hc
  simp only [List.forall_mem_cons] at hne
  obtain ⟨-, -, -, -, -, -, -, -, -, hspace, htab, hline, hreturn, hfeed, hsemicolon, hminus, hslash, -⟩ :=
    hne
  have hgap : isGap c = false := by simp [isGap, hspace, htab, hline, hreturn, hfeed]
  have hcomment := behindComment?_eq_none (u := u) hminus hslash
  have hskip : ∀ begun, (isGap c || c == orderMark || (c == ';' && !begun)) = false := by
    simp [hgap, hmark, hsemicolon]
  conv => lhs; rw [tokenize]
  conv => rhs; rw [tokenize]
  simp only [hskip, if_neg hsemicolon, Bool.false_eq_true, if_false]
  split
  · next heq =>
    rw [hcomment] at heq
    cases heq
  · rfl

/-- A word is read to its end. -/
theorem tokenize_word (hc : isWordStart c = true) (hmark : c ≠ orderMark)
    (hw : ∀ d ∈ w, isWordPart d = true) (hu : Ends u) :
    tokenize begun 0 (c :: (w ++ u)) = .word (String.ofList (c :: w)) :: tokenize true 0 u := by
  have hne := ne_of_isWordStart hc
  simp only [List.forall_mem_cons] at hne
  obtain ⟨hquestion, hat, hnumber, hcolon, hdollar, hsingle, hdouble, hback, hbracket, hspace, htab,
    hline, hreturn, hfeed, hsemicolon, hminus, hslash, -⟩ := hne
  have hgap : isGap c = false := by simp [isGap, hspace, htab, hline, hreturn, hfeed]
  have htake : (w ++ u).takeWhile isWordPart = w := hu.takeWhile_append (by decide) hw
  -- A quote would make it a literal of bytes, but what follows the word is no quote.
  have hbytes : ¬ ((c = 'x' ∨ c = 'X') ∧ (w ++ u).head? = some '\'') := by
    rintro ⟨-, hhead⟩
    cases w with
    | nil => exact hu.head?_ne (by decide) hhead
    | cons d w =>
      cases hhead
      exact absurd (hw _ List.mem_cons_self) (by decide)
  -- None of the other kinds of token begins with a letter.
  have htoken : tokenAt 0 c (w ++ u) = (.word (String.ofList (c :: w)), w.length) := by
    unfold tokenAt
    dsimp only
    rw [if_neg hquestion, if_neg (by simp [hat, hnumber, hcolon, hdollar]),
      if_neg (by simp [hsingle, hdouble, hback]), if_neg hbracket, if_neg hbytes, if_pos hc, htake,
      List.take_left]
  rw [tokenize_cons hgap hmark hsemicolon (behindComment?_eq_none hminus hslash) htoken nofun,
    List.drop_left]

/-- A literal is read to the quote that closes it. -/
theorem literal?_doubled (quote : Char) (hu : u.head? ≠ some quote) :
    literal? quote (doubled quote s ++ quote :: u) = some (s, u) := by
  induction s with
  -- A single quote closes the text, as no other one follows.
  | nil =>
    change literal? quote (quote :: u) = _
    cases u with
    | nil => simp [literal?]
    | cons d u =>
      have hd : d ≠ quote := fun heq => hu (congrArg some heq)
      rw [literal?, if_neg (not_not.mpr rfl), if_neg hd]
  | cons c s ih =>
    rw [doubled_cons]
    split
    · next heq =>
      -- A doubled quote stands for one and does not close the text.
      simp only [List.cons_append, List.nil_append]
      rw [literal?, if_neg (not_not.mpr rfl), if_pos rfl, ih, heq]
      rfl
    · next hne =>
      obtain ⟨d, rest, hrest⟩ : ∃ d rest, doubled quote s ++ quote :: u = d :: rest := by
        cases doubled quote s with
        | nil => exact ⟨_, _, rfl⟩
        | cons d rest => exact ⟨_, _, rfl⟩
      simp only [List.cons_append, List.nil_append]
      rw [hrest] at ih ⊢
      rw [literal?, if_pos hne, ih]
      rfl

/-- A text between quotes is read to its end. -/
theorem tokenize_enclosed {quote : Char} (hquote : quote = '\'' ∨ quote = '"') (hu : Ends u) :
    tokenize true 0 (quote :: (doubled quote s ++ quote :: u)) =
      (if quote = '\'' then .text (String.ofList s) else .quoted (String.ofList s)) ::
        tokenize true 0 u := by
  -- The closing quote is not followed by another, or the two would be one character.
  have hhead : u.head? ≠ some quote := by
    rcases hquote with rfl | rfl <;> exact hu.head?_ne (by decide)
  have hliteral := literal?_doubled (s := s) quote hhead
  have hlength : (doubled quote s ++ quote :: u).length - u.length = (doubled quote s).length + 1 := by
    simp only [List.length_append, List.length_cons]
    omega
  have hdrop : (doubled quote s ++ quote :: u).drop ((doubled quote s).length + 1) = u := by simp
  have htoken : tokenAt 0 quote (doubled quote s ++ quote :: u) =
      (if quote = '\'' then .text (String.ofList s) else .quoted (String.ofList s),
        (doubled quote s).length + 1) := by
    unfold tokenAt
    dsimp only
    rw [hliteral]
    dsimp only
    rw [hlength]
    rcases hquote with rfl | rfl <;> rfl
  rw [tokenize_cons ?_ ?_ ?_ (behindComment?_eq_none ?_ ?_) htoken ?_, hdrop]
  all_goals rcases hquote with rfl | rfl <;> first | decide | nofun

/-! ### Numbers -/

/-- What begins with no digit. -/
def NoDigit (u : List Char) : Prop := ∀ c ∈ u.head?, c.isDigit = false

/-- No delimiter is a digit. -/
theorem Ends.noDigit (h : Ends u) : NoDigit u := by
  intro c hc
  have hall : delimiters.all (!Char.isDigit ·) = true := by decide
  simpa using h.of_all hall c hc

/-- A run of digits ends before what is no digit. -/
theorem digitRun_append (hs : Number.AreDigits s) (hu : NoDigit u) : digitRun (s ++ u) = s.length := by
  have htake : (s ++ u).takeWhile Char.isDigit = s := by
    rw [List.takeWhile_append_of_pos hs.2]
    cases u with
    | nil => simp
    | cons d u => rw [List.takeWhile_cons, hu d rfl, if_neg Bool.false_ne_true, List.append_nil]
  rw [digitRun, htake]

/-- An exponent is read to its end. -/
theorem exponentLength_append (hs : Number.IsExponent s) (hu : Ends u) :
    exponentLength (s ++ u) = s.length := by
  -- No exponent: what follows the number does not begin with its letter.
  rcases hs with rfl | ⟨sign, digits, hsign, hdigits, rfl⟩
  · rw [List.nil_append]
    unfold exponentLength
    split
    · next e d rest =>
      have he : e ≠ 'e' ∧ e ≠ 'E' := by
        constructor <;> rintro rfl <;> exact hu.head?_ne (by decide) rfl
      exact if_pos he
    · rfl
  · -- The exponent is read up to its last digit.
    obtain ⟨c, rest, hcons⟩ := List.exists_cons_of_ne_nil hdigits.1
    have hhead : (digits ++ u).head?.any Char.isDigit = true := by
      simpa [hcons] using hdigits.2 c (by simp [hcons])
    have hnodigit : sign.isDigit = false := by rcases hsign with rfl | rfl <;> decide
    have hmark : (sign == '+' || sign == '-') = true := by rcases hsign with rfl | rfl <;> decide
    simp only [List.cons_append]
    rw [exponentLength, if_neg (by simp), hnodigit, if_neg Bool.false_ne_true, hmark, hhead,
      Bool.and_self, if_pos rfl, digitRun_append hdigits hu.noDigit]
    simp only [List.length_cons]
    omega

/-- A number with decimal digits is read to its end. -/
theorem decimalLength_append (h : Number.IsNumeral s) (hu : Ends u) :
    numberLength.decimalLength (s ++ u) = s.length := by
  obtain ⟨whole, fraction, exponent, hwhole, hfraction, hexponent, rfl⟩ := h
  -- What follows the digits is an exponent or the end, and neither begins with a digit.
  have hend : NoDigit (exponent ++ u) := by
    rcases hexponent with rfl | ⟨sign, digits, -, -, rfl⟩
    · exact hu.noDigit
    · rintro c ⟨⟩
      decide
  have hscale := exponentLength_append hexponent hu
  rw [numberLength.decimalLength, List.append_assoc, List.append_assoc]
  -- Without a fraction the exponent follows the digits directly.
  rcases hfraction with rfl | ⟨digits, hdigits, rfl⟩
  · rw [List.nil_append, digitRun_append hwhole hend, List.drop_left]
    split
    · next rest heq =>
      rcases hexponent with rfl | ⟨sign, digits, -, -, rfl⟩
      · exact absurd (congrArg List.head? heq) (hu.head?_ne (by decide))
      · cases heq
    · rw [Nat.add_zero, List.drop_left, hscale]
      simp
  · -- The fraction begins with its point, and the point is no digit.
    have hpoint : NoDigit ('.' :: digits ++ (exponent ++ u)) := by
      rintro c ⟨⟩
      decide
    rw [digitRun_append hwhole hpoint, List.drop_left]
    simp only [List.cons_append]
    rw [digitRun_append hdigits hend, ← List.drop_drop, List.drop_left, Nat.add_comm 1, List.drop_succ_cons,
      List.drop_left, hscale]
    simp only [List.length_append, List.length_cons]
    omega

/-- A numeral is read to its end. -/
theorem numberLength_append (h : Number.IsNumeral s) (hu : Ends u) :
    numberLength (s ++ u) = s.length := by
  have hdecimal := decimalLength_append h hu
  have hmem : ∀ c ∈ s, c ≠ 'x' ∧ c ≠ 'X' := by
    intro c hc
    rcases h.isDigit_or_mark hc with hdigit | hmark
    · constructor <;> rintro rfl <;> exact absurd hdigit (by decide)
    · constructor <;> rintro rfl <;> exact absurd hmark (by decide)
  -- What stands behind a zero is no mark of hexadecimal digits.
  have hhexadecimal : ∀ x rest, s ++ u = '0' :: x :: rest → (x == 'x' || x == 'X') = false := by
    intro x rest heq
    have hx : x ∈ s ∨ u.head? = some x := by
      rcases s with _ | ⟨c, _ | ⟨d, s⟩⟩
      · obtain ⟨c, t, hcons, -⟩ := h.exists_eq_cons
        cases hcons
      · cases heq
        exact .inr rfl
      · cases heq
        exact .inl (by simp)
    rcases hx with hx | hx
    · simp [hmem x hx]
    · have hdelimiters : delimiters.all (fun d => !(d == 'x' || d == 'X')) = true := by decide
      simpa using hu.of_all hdelimiters x hx
  unfold numberLength
  split
  · next x digit rest heq =>
    rw [hhexadecimal x _ heq, Bool.false_and, if_neg Bool.false_ne_true]
    exact hdecimal
  · exact hdecimal

/-- A numeral is read to its end. -/
theorem tokenize_numeral (h : Number.IsNumeral s) (hu : Ends u) :
    tokenize true 0 (s ++ u) = .number (String.ofList s) :: tokenize true 0 u := by
  have hlength := numberLength_append h hu
  obtain ⟨c, t, rfl, hc⟩ := h.exists_eq_cons
  -- A digit is none of the characters that begin another token.
  have hne : ∀ d ∈ ['?', '@', '#', ':', '$', '\'', '"', '`', '[', ' ', '\t', '\n', '\r', '\x0c', ';',
      '-', '/', 'x', 'X', '_', orderMark], c ≠ d := by
    rintro d hd rfl
    revert hc
    simp only [List.mem_cons, List.not_mem_nil, or_false] at hd
    rcases hd with rfl | rfl | rfl | rfl | rfl | rfl | rfl | rfl | rfl | rfl | rfl | rfl | rfl | rfl |
      rfl | rfl | rfl | rfl | rfl | rfl | rfl <;> decide
  simp only [List.forall_mem_cons] at hne
  obtain ⟨hquestion, hat, hnumber, hcolon, hdollar, hsingle, hdouble, hback, hbracket, hspace, htab,
    hline, hreturn, hfeed, hsemicolon, hminus, hslash, hsmall, hcapital, hunderscore, hmark, -⟩ := hne
  have hgap : isGap c = false := by simp [isGap, hspace, htab, hline, hreturn, hfeed]
  have hword : isWordStart c = false := by
    have hcode := toNat_of_isDigit hc
    have halpha : c.isAlpha = false := by
      rw [← Bool.not_eq_true]
      intro halpha
      have := toNat_of_isAlpha halpha
      omega
    have hsmall : ¬ 0x80 ≤ c.toNat := by omega
    simp [isWordStart, halpha, hunderscore, hsmall]
  -- No part of a word follows the number, so it is read to its end.
  have hmore : (u.takeWhile isWordPart) = [] := hu.takeWhile_append (by decide) (s := []) nofun
  have htoken : tokenAt 0 c (t ++ u) = (.number (String.ofList (c :: t)), t.length) := by
    unfold tokenAt
    dsimp only
    rw [← List.cons_append, hlength, if_neg hquestion, if_neg (by simp [hat, hnumber, hcolon, hdollar]),
      if_neg (by simp [hsingle, hdouble, hback]), if_neg hbracket,
      if_neg (fun hx => hx.1.elim hsmall hcapital), hword, if_neg Bool.false_ne_true, hc, Bool.true_or,
      if_pos rfl]
    simp [hmore]
  rw [List.cons_append, tokenize_cons hgap hmark hsemicolon (behindComment?_eq_none hminus hslash)
    htoken nofun, List.drop_left]

end SoarProject.Statement
