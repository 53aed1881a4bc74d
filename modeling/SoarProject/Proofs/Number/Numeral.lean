import Mathlib.Data.List.TakeWhile
import SoarProject.Number.Literal
import SoarProject.Number.Shortest
import SoarProject.Text.Digit

/-!
# How numbers are written

The text of a finite floating-point number is a numeral, behind a minus sign if it is negative.

* `Number.IsNumeral`: digits, perhaps a point with digits, and perhaps an exponent with its sign.
* `Number.exists_floatText_eq`: the text of a finite number.
-/

namespace SoarProject.Number

open SoarProject.Text

variable {s : List Char}

/-! ### Numerals -/

/-- One digit at least, and nothing else. -/
def AreDigits (s : List Char) : Prop := s ≠ [] ∧ ∀ c ∈ s, c.isDigit = true

/-- A point with digits, if there is one. -/
def IsFraction (s : List Char) : Prop := s = [] ∨ ∃ digits, AreDigits digits ∧ s = '.' :: digits

/-- An exponent with its sign, if there is one. -/
def IsExponent (s : List Char) : Prop :=
  s = [] ∨ ∃ sign digits, (sign = '+' ∨ sign = '-') ∧ AreDigits digits ∧ s = 'e' :: sign :: digits

/-- A number without a sign in front. -/
def IsNumeral (s : List Char) : Prop :=
  ∃ whole fraction exponent, AreDigits whole ∧ IsFraction fraction ∧ IsExponent exponent ∧
    s = whole ++ (fraction ++ exponent)

/-- The digits of a number. -/
theorem areDigits_toDigits (n : Nat) : AreDigits (Nat.toDigits 10 n) :=
  ⟨Nat.toDigits_ne_nil, fun _ hc => Nat.isDigit_of_mem_toDigits (by decide) (by decide) hc⟩

/-- The digits of a number are worth it. -/
theorem digitsValue_toDigits (n : Nat) : digitsValue (Nat.toDigits 10 n) = n := by
  have hvalue : ∀ digits : List Char, (∀ c ∈ digits, c.isDigit = true) → ∀ init,
      digits.foldl (fun n c => 10 * n + (digitValue? c).getD 0) init =
        Nat.ofDigitChars 10 digits init := by
    intro digits hdigits
    induction digits with
    | nil => exact fun _ => Nat.ofDigitChars_nil.symm
    | cons c digits ih =>
      intro init
      obtain ⟨hc, hdigits⟩ := List.forall_mem_cons.mp hdigits
      rw [List.foldl_cons, ih hdigits, Nat.ofDigitChars_cons]
      simp [digitValue?, hc]
  rw [digitsValue, hvalue _ fun c hc => Nat.isDigit_of_mem_toDigits (by decide) (by decide) hc]
  exact Nat.ofDigitChars_ten_toDigits

/-- The sign and the digits of an integer are worth it. -/
theorem Literal.toInt_toDigits (n : Int) :
    Literal.toInt ⟨decide (n < 0), Nat.toDigits 10 n.natAbs, none, none⟩ = n := by
  rw [Literal.toInt]
  dsimp only
  rw [digitsValue_toDigits]
  split
  · next hneg =>
    rw [decide_eq_true_eq] at hneg
    omega
  · next hneg =>
    rw [decide_eq_true_eq] at hneg
    omega

/-- Digits behind a sign are a literal without a fraction and without an exponent. -/
theorem Literal.ofChars?_of_takeSign {isDigit : Char → Bool} {t : List Char} {negative : Bool}
    (hsign : takeSign t = (negative, s)) (hne : s ≠ []) (hs : ∀ c ∈ s, isDigit c = true) :
    Literal.ofChars? isDigit t = some ⟨negative, s, none, none⟩ := by
  have htake : s.takeWhile isDigit = s := List.takeWhile_eq_self_iff.mpr hs
  have hdrop : s.dropWhile isDigit = [] := List.dropWhile_eq_nil_iff.mpr hs
  have hguard : (guard ((!s.isEmpty) = true) : Option Unit) = some () := if_pos (by simp [hne])
  unfold Literal.ofChars?
  rw [hsign]
  dsimp only
  rw [htake, hdrop]
  dsimp only
  rw [Option.getD_none, List.append_nil, hguard]
  rfl

/-- Zeros and digits. -/
theorem AreDigits.replicate_append (h : AreDigits s) (n : Nat) :
    AreDigits (List.replicate n '0' ++ s) := by
  refine ⟨by simp [h.1], fun c hc => ?_⟩
  rcases List.mem_append.mp hc with hc | hc
  · rw [List.eq_of_mem_replicate hc]
    decide
  · exact h.2 c hc

/-- Digits and zeros. -/
theorem AreDigits.append_replicate (h : AreDigits s) (n : Nat) :
    AreDigits (s ++ List.replicate n '0') := by
  refine ⟨by simp [h.1], fun c hc => ?_⟩
  rcases List.mem_append.mp hc with hc | hc
  · exact h.2 c hc
  · rw [List.eq_of_mem_replicate hc]
    decide

theorem AreDigits.of_subset {t : List Char} (h : AreDigits s) (ht : t ⊆ s) (hne : t ≠ []) :
    AreDigits t :=
  ⟨hne, fun c hc => h.2 c (ht hc)⟩

/-- Digits are a numeral. -/
theorem AreDigits.isNumeral (h : AreDigits s) : IsNumeral s :=
  ⟨s, [], [], h, .inl rfl, .inl rfl, by simp⟩

theorem IsNumeral.exists_eq_cons (h : IsNumeral s) : ∃ c t, s = c :: t ∧ c.isDigit = true := by
  obtain ⟨_ | ⟨c, whole⟩, fraction, exponent, hwhole, -, -, rfl⟩ := h
  · exact absurd rfl hwhole.1
  · exact ⟨c, _, rfl, hwhole.2 c List.mem_cons_self⟩

/-- The characters of a numeral. -/
theorem IsNumeral.isDigit_or_mark (h : IsNumeral s) {c : Char} (hc : c ∈ s) :
    c.isDigit = true ∨ c ∈ ['.', 'e', '+', '-'] := by
  obtain ⟨whole, fraction, exponent, hwhole, hfraction, hexponent, rfl⟩ := h
  -- A character of the numeral stands in one of its three parts.
  rcases List.mem_append.mp hc with hc | hc
  · exact .inl (hwhole.2 c hc)
  rcases List.mem_append.mp hc with hc | hc
  · rcases hfraction with rfl | ⟨digits, hdigits, rfl⟩
    · cases hc
    · rcases List.mem_cons.mp hc with rfl | hc
      · exact .inr (by decide)
      · exact .inl (hdigits.2 c hc)
  · rcases hexponent with rfl | ⟨sign, digits, hsign, hdigits, rfl⟩
    · cases hc
    · rcases List.mem_cons.mp hc with rfl | hc
      · exact .inr (by decide)
      rcases List.mem_cons.mp hc with rfl | hc
      · rcases hsign with rfl | rfl <;> exact .inr (by decide)
      · exact .inl (hdigits.2 c hc)

/-! ### Written numbers -/

/-- Digits in the plain layout are a numeral, wherever the point stands. -/
theorem isNumeral_render (h : AreDigits s) (exponent : Int) : IsNumeral (plain.render s exponent) := by
  have hzero : AreDigits ['0'] := ⟨by simp, List.forall_mem_singleton.mpr rfl⟩
  unfold Layout.render
  dsimp only
  split
  · split
    · exact ⟨['0'], _, [], hzero, .inr ⟨_, h.replicate_append _, rfl⟩, .inl rfl,
        congrArg (['0'] ++ ·) (List.append_nil _).symm⟩
    · next hlead =>
      split
      · exact ⟨_, ['.', '0'], [], h.append_replicate _, .inr ⟨_, hzero, rfl⟩, .inl rfl, rfl⟩
      · next hlong =>
        -- The point stands between two of the digits.
        refine ⟨_, _, [], h.of_subset (List.take_subset _ _) ?_,
          .inr ⟨_, h.of_subset (List.drop_subset _ _) ?_, rfl⟩, .inl rfl,
          congrArg (List.take _ s ++ ·) (List.append_nil _).symm⟩
        · rw [Ne, List.take_eq_nil_iff]
          rintro (htake | hnil)
          · omega
          · exact h.1 hnil
        · rw [Ne, List.drop_eq_nil_iff]
          exact hlong
  · refine ⟨s.take 1, _, _, h.of_subset (List.take_subset _ _) (by simp [h.1]), ?_, .inr ⟨_, _, ?_, ?_, rfl⟩,
      by simp only [List.append_assoc]; rfl⟩
    · split
      · exact .inl rfl
      · next hfraction =>
        exact .inr ⟨_, h.of_subset (List.drop_subset _ _) (by simpa using hfraction), rfl⟩
    · split
      · exact .inr rfl
      · exact .inl rfl
    · split
      · exact (areDigits_toDigits _).replicate_append 1
      · exact areDigits_toDigits _

/-- Zero lies in no interval around a positive number. -/
theorem contains_zero {mantissa : Nat} (h : mantissa ≠ 0) (exponent : Int) {scale : Nat}
    (hscale : scale ≠ 0) : (Interval.of mantissa exponent).contains 0 scale = false := by
  have hlow : 0 < (Interval.of mantissa exponent).low * scale := by
    refine Nat.mul_pos (Nat.mul_pos ?_ ?_) (Nat.pos_of_ne_zero hscale)
    · split <;> omega
    · rw [Nat.one_shiftLeft]
      exact Nat.two_pow_pos _
  rw [Interval.contains]
  simp only [Nat.zero_mul]
  split
  · simp [Nat.not_le.mpr hlow]
  · simp

/-- What a grid offers for a positive number is not zero. -/
theorem ne_zero_of_onGrid? {mantissa : Nat} (h : mantissa ≠ 0) {exponent grid : Int} {n : Nat}
    (hn : (Interval.of mantissa exponent).onGrid? grid = some n) : n ≠ 0 := by
  have hdown : Nat.pow 10 (-grid).toNat ≠ 0 := Nat.ne_of_gt (Nat.pow_pos (by decide : 0 < 10))
  have hzero := contains_zero h exponent hdown
  -- No multiple of the grid that the interval holds is zero, since the interval does not hold zero.
  have hhits : ∀ n, (Interval.of mantissa exponent).contains (n * Nat.pow 10 grid.toNat)
      (Nat.pow 10 (-grid).toNat) = true → n ≠ 0 := by
    rintro n hcontains rfl
    rw [Nat.zero_mul, hzero] at hcontains
    cases hcontains
  unfold Interval.onGrid? at hn
  dsimp only at hn
  split at hn
  · cases hn
  · next hfloor _ =>
    obtain rfl := Option.some.inj hn
    exact hhits _ hfloor
  · obtain rfl := Option.some.inj hn
    exact Nat.succ_ne_zero _
  · next hfloor _ =>
    split at hn
    · obtain rfl := Option.some.inj hn
      exact hhits _ hfloor
    · obtain rfl := Option.some.inj hn
      exact Nat.succ_ne_zero _

/-- The shortest digits of a positive number are not zero, but for the zero that a search in vain
ends with. -/
theorem shortest_cases {mantissa : Nat} (h : mantissa ≠ 0) (exponent : Int) :
    shortest mantissa exponent = ⟨0, 0⟩ ∨ (shortest mantissa exponent).digits ≠ 0 := by
  have hsearch : ∀ more grid, (Interval.of mantissa exponent).search grid more = ⟨0, 0⟩ ∨
      ((Interval.of mantissa exponent).search grid more).digits ≠ 0 := by
    intro more
    induction more with
    | zero => exact fun _ => .inl rfl
    | succ more ih =>
      intro grid
      unfold Interval.search
      split
      · next hgrid => exact .inr (ne_zero_of_onGrid? h hgrid)
      · exact ih _
  exact hsearch _ _

/-- The digits of a number other than zero are left with some when the zeros at the end are removed. -/
theorem areDigits_stripZeros {n : Nat} (hn : n ≠ 0) (exponent : Int) :
    AreDigits (stripZeros (Nat.toDigits 10 n) exponent).1 := by
  have hdigits := areDigits_toDigits n
  refine hdigits.of_subset (fun c hc => ?_) fun hnil => hn ?_
  · have hdropped := (List.dropWhile_sublist (· == '0')).subset (List.mem_reverse.mp hc)
    exact List.mem_reverse.mp hdropped
  · -- All digits are zeros, so that the number is zero.
    have hzeros : ∀ c ∈ Nat.toDigits 10 n, c = '0' := by
      intro c hc
      have hall : ((Nat.toDigits 10 n).reverse.dropWhile (· == '0')) = [] :=
        List.reverse_eq_nil_iff.mp hnil
      rw [List.dropWhile_eq_nil_iff] at hall
      exact eq_of_beq (hall c (List.mem_reverse.mpr hc))
    have hvalue : ∀ digits : List Char, (∀ c ∈ digits, c = '0') → Nat.ofDigitChars 10 digits 0 = 0 := by
      intro digits hdigits
      induction digits with
      | nil => rfl
      | cons c rest ih =>
        obtain ⟨rfl, hrest⟩ := List.forall_mem_cons.mp hdigits
        exact ih hrest
    rw [← Nat.ofDigitChars_ten_toDigits (n := n), hvalue _ hzeros]

/-- Whatever the layout, a point or an exponent is written. -/
theorem exists_mark_render (s : List Char) (exponent : Int) :
    ∃ c ∈ plain.render s exponent, c.isDigit = false := by
  unfold Layout.render
  dsimp only
  split
  · split
    · exact ⟨'.', by simp, rfl⟩
    · split
      · exact ⟨'.', by simp, rfl⟩
      · exact ⟨'.', by simp, rfl⟩
  · exact ⟨'e', by simp, rfl⟩

/-- A finite number is written as a numeral with a point or an exponent, behind a minus sign if it is
negative. -/
theorem exists_floatText_eq {x : Float} {negative : Bool} {mantissa : Nat} {exponent : Int}
    (h : decode x = .finite negative mantissa exponent) :
    ∃ s, IsNumeral s ∧ (∃ c ∈ s, c.isDigit = false) ∧
      floatText x = (if negative then "-" else "") ++ String.ofList s := by
  have hdigit : AreDigits ['0'] := ⟨by simp, List.forall_mem_singleton.mpr rfl⟩
  have hzero : IsNumeral ['0', '.', '0'] :=
    ⟨['0'], ['.', '0'], [], hdigit, .inr ⟨['0'], hdigit, rfl⟩, .inl rfl, rfl⟩
  unfold floatText Layout.write
  rw [h]
  dsimp only
  split
  · -- Zero is written out.
    refine ⟨_, hzero, ⟨'.', by simp, rfl⟩, ?_⟩
    cases negative <;> rfl
  · next hmantissa =>
    refine ⟨_, ?_, exists_mark_render _ _, rfl⟩
    -- The shortest digits that read back are laid out, if the search found any.
    rcases shortest_cases hmantissa exponent with hshortest | hdigits
    · rw [hshortest]
      exact hzero
    · exact isNumeral_render (areDigits_stripZeros hdigits _) _

end SoarProject.Number
