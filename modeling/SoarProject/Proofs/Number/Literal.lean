import Mathlib.Data.Option.Basic
import SoarProject.Number.Stored
import SoarProject.Proofs.Number.Numeral

/-!
# Reading numbers back

A finite number is written as a literal, and a literal reads without its sign as it does with it. So what
a store reads from the text of a number tells what a statement reads that writes the sign apart.

* `Number.ReadsBack`: a number that a store reads back from its text.
* `Number.ReadsBack.exists_literal`: the text of such a number, and the literal behind its sign.
-/

namespace SoarProject.Number

open SoarProject.Text

variable {s : List Char} {x : Float} {p : Char → Bool} {l : Literal}

/-! ### Finite numbers -/

/-- A number whose exponent has all its bits is not finite. -/
theorem isFinite_eq_false (h : (x.toBits.toNat >>> 52) % (1 <<< 11) = 0x7ff) : x.isFinite = false := by
  have hexponent : @Float.Model.UnpackedFloat.unpackExponent Float.Model.Format.binary64
      x.toModel.toBits.toBitVec = -1#11 := by
    refine BitVec.eq_of_toNat_eq ?_
    simp only [Float.Model.UnpackedFloat.unpackExponent, BitVec.toNat_cast, BitVec.extractLsb_toNat]
    exact h
  have hunpack : x.toModel.unpack.isFinite = false := by
    unfold Float.Model.unpack Float.Model.UnpackedFloat.unpack
    dsimp only
    rw [if_pos hexponent]
    split <;> rfl
  exact hunpack

/-- A finite number has a sign, a mantissa and an exponent. -/
theorem decode_of_isFinite (h : x.isFinite = true) :
    ∃ negative mantissa exponent, decode x = .finite negative mantissa exponent := by
  unfold decode
  dsimp only
  split
  · next hbiased =>
    rw [isFinite_eq_false hbiased] at h
    cases h
  · split
    · exact ⟨_, _, _, rfl⟩
    · exact ⟨_, _, _, rfl⟩

/-- A finite number is no special value. -/
theorem not_special_of_isFinite (h : x.isFinite = true) : x.isNaN = false ∧ x.isInf = false := by
  unfold Float.isFinite Float.Model.isFinite at h
  unfold Float.isNaN Float.isInf Float.Model.isNaN Float.Model.isInf
  cases hx : x.toModel.unpack <;> rw [hx] at h <;> first | exact ⟨rfl, rfl⟩ | cases h

/-! ### Literals and their signs -/

/-- A text that begins with a digit has no sign. -/
theorem takeSign_of_isDigit {c : Char} (hc : c.isDigit = true) (s : List Char) :
    takeSign (c :: s) = (false, c :: s) := by
  unfold takeSign
  split
  · next heq => cases heq; exact absurd hc (by decide)
  · next heq => cases heq; exact absurd hc (by decide)
  · rfl

theorem IsNumeral.takeSign_eq (h : IsNumeral s) : takeSign s = (false, s) := by
  obtain ⟨c, t, rfl, hc⟩ := h.exists_eq_cons
  exact takeSign_of_isDigit hc t

/-- A literal has the sign that it is written with. -/
theorem negative_eq_of_ofChars? (hl : Literal.ofChars? p s = some l) : l.negative = (takeSign s).1 := by
  unfold Literal.ofChars? at hl
  obtain ⟨-, -, hl⟩ := Option.bind_eq_some_iff.mp hl
  obtain ⟨exponent, -, hl⟩ := Option.bind_eq_some_iff.mp hl
  cases hl
  rfl

/-- Behind a minus sign the same literal is read, but a negative one. -/
theorem ofChars?_minus (hs : takeSign s = (false, s)) :
    Literal.ofChars? p ('-' :: s) = (Literal.ofChars? p s).map ({ · with negative := true }) := by
  have hminus : takeSign ('-' :: s) = (true, s) := rfl
  unfold Literal.ofChars?
  rw [hs, hminus]
  dsimp only
  rw [Option.bind_eq_bind, Option.bind_eq_bind, Option.map_bind]
  refine congrArg _ (funext fun _ => ?_)
  rw [Function.comp_apply, Option.map_bind]
  rfl

/-- Without a point and an exponent a literal is a row of digits. -/
theorem forall_mem_of_isInteger (hs : takeSign s = (false, s)) (hl : Literal.ofChars? p s = some l)
    (hinteger : l.isInteger = true) : ∀ c ∈ s, p c = true := by
  unfold Literal.ofChars? at hl
  rw [hs] at hl
  obtain ⟨-, -, hl⟩ := Option.bind_eq_some_iff.mp hl
  obtain ⟨exponent, hexponent, hl⟩ := Option.bind_eq_some_iff.mp hl
  cases hl
  simp only [Literal.isInteger, Bool.and_eq_true, Option.isNone_iff_eq_none] at hinteger
  obtain ⟨hfraction, rfl⟩ := hinteger
  -- What follows the digits is no point, and it is no exponent either.
  have hrest : s.dropWhile p = [] := by
    split at hfraction
    · cases hfraction
    · next rest hpoint =>
      have hdrop : takeExponent p (s.dropWhile p) = some none := by
        split at hexponent
        · next more heq => exact absurd heq (hpoint more)
        · exact hexponent
      unfold takeExponent at hdrop
      split at hdrop
      · assumption
      · grind
  exact List.dropWhile_eq_nil_iff.mp hrest

/-! ### Written numbers -/

/-- A store reads the number back from its text. -/
def ReadsBack (x : Float) : Prop := (readStored? (floatText x)).map Literal.toStored = some x

/-- No blanks stand around a text without blanks. -/
theorem trimBlanks_eq {text : String} (h : ∀ c ∈ text.toList, p c = false) :
    trimBlanks p text = text.toList := by
  have hfront : text.toList.dropWhile p = text.toList := by
    cases hchars : text.toList with
    | nil => rfl
    | cons c rest => rw [List.dropWhile_cons, h c (hchars ▸ List.mem_cons_self), if_neg Bool.false_ne_true]
  have hback : text.toList.reverse.dropWhile p = text.toList.reverse := by
    cases hchars : text.toList.reverse with
    | nil => rfl
    | cons c rest =>
      have hc : c ∈ text.toList := List.mem_reverse.mp (hchars ▸ List.mem_cons_self)
      rw [List.dropWhile_cons, h c hc, if_neg Bool.false_ne_true]
  rw [trimBlanks, hfront, hback, List.reverse_reverse]

/-- No blank stands in a numeral. -/
theorem IsNumeral.not_isPlainBlank (h : IsNumeral s) : ∀ c ∈ s, isPlainBlank c = false := by
  intro c hc
  rcases h.isDigit_or_mark hc with hdigit | hmark
  · have hcode := toNat_of_isDigit hdigit
    have hspace : c ≠ ' ' := by
      rintro rfl
      exact absurd hdigit (by decide)
    simp only [isPlainBlank, Bool.or_eq_false_iff, beq_eq_false_iff_ne, Bool.and_eq_false_imp,
      decide_eq_true_eq, decide_eq_false_iff_not]
    exact ⟨hspace, fun _ => by omega⟩
  · simp only [List.mem_cons, List.not_mem_nil, or_false] at hmark
    rcases hmark with rfl | rfl | rfl | rfl <;> decide

/-- A finite number that is read back is written as a numeral behind its sign, and the literal of the
numeral with this sign is the number. -/
theorem ReadsBack.exists_literal (h : ReadsBack x) (hx : x.isFinite = true) :
    ∃ negative s l, IsNumeral s ∧ floatText x = (if negative then "-" else "") ++ String.ofList s ∧
      Literal.ofChars? Char.isDigit s = some l ∧ l.isInteger = false ∧
        { l with negative : Literal }.toStored = x := by
  obtain ⟨negative, mantissa, exponent, hdecode⟩ := decode_of_isFinite hx
  obtain ⟨s, hs, ⟨c, hc, hmark⟩, htext⟩ := exists_floatText_eq hdecode
  have hchars : (floatText x).toList = (if negative then ['-'] else []) ++ s := by
    rw [htext]
    cases negative <;> simp
  -- A sign and a numeral: there is no blank in them to trim.
  have hblank : ∀ c ∈ (floatText x).toList, isPlainBlank c = false := by
    rw [hchars, List.forall_mem_append]
    refine ⟨?_, hs.not_isPlainBlank⟩
    cases negative with
    | true => exact List.forall_mem_singleton.mpr (by decide)
    | false => exact List.forall_mem_nil _
  rw [ReadsBack, readStored?, trimBlanks_eq hblank, hchars] at h
  -- Reading takes the sign off, and what is left is the literal.
  have hread : ∃ l, Literal.ofChars? Char.isDigit s = some l ∧ { l with negative : Literal }.toStored = x := by
    cases negative with
    | true =>
      simp only [if_true, List.singleton_append, ofChars?_minus hs.takeSign_eq, Option.map_map,
        Option.map_eq_some_iff] at h
      exact h
    | false =>
      simp only [Bool.false_eq_true, if_false, List.nil_append, Option.map_eq_some_iff] at h
      obtain ⟨l, hl, hvalue⟩ := h
      have hsign : l.negative = false := by rw [negative_eq_of_ofChars? hl, hs.takeSign_eq]
      exact ⟨l, hl, by rw [← hsign]; exact hvalue⟩
  obtain ⟨l, hl, hvalue⟩ := hread
  refine ⟨negative, s, l, hs, htext, hl, ?_, hvalue⟩
  -- An integer literal consists of digits, but the text has a mark that is none.
  rw [← Bool.not_eq_true]
  intro hinteger
  rw [forall_mem_of_isInteger hs.takeSign_eq hl hinteger c hc] at hmark
  cases hmark

end SoarProject.Number
