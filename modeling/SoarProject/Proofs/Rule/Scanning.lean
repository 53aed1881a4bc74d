import Mathlib.Data.Option.Basic
import SoarProject.Proofs.Number.Numeral
import SoarProject.Proofs.Rule.Munch
import SoarProject.Proofs.Rule.Shape
import SoarProject.Rule.Reader

/-!
# Scanning words

A word that is spelled right, with a blank behind it, is scanned as its terminal wherever that is
welcome: no terminal that is tried earlier matches there, and the pattern ends before the blank.

* `Rule.scan_eq_of_scan_all`: what all terminals would scan is scanned where it is welcome.
* `Rule.Word.Readable`: a word that is scanned as what it is.
-/

namespace SoarProject.Rule

open SoarProject.Text

variable {s u : List Char} {c : Char} {p : Char → Bool} {t : Terminal} {m : Match} {style : Style}

/-! ### The first terminal that matches -/

/-- Every terminal is tried. -/
theorem Terminal.mem_all (t : Terminal) : t ∈ Terminal.all := by
  cases t <;> decide

/-- What all terminals would scan is scanned where it is welcome. -/
theorem scan_eq_of_scan_all {welcome : List Terminal} (h : scan Terminal.all s = some (t, m))
    (ht : t ∈ welcome) : scan welcome s = some (t, m) := by
  unfold scan at h ⊢
  simp only [Terminal.mem_all, if_true] at h
  generalize Terminal.all = tried at h
  induction tried with
  | nil => simp at h
  | cons first rest ih =>
    rw [List.findSome?_cons] at h ⊢
    -- A terminal before the found one has no match, so it does not matter whether it is welcome.
    cases hfirst : first.match? s with
    | none =>
      rw [hfirst] at h
      simpa using ih h
    | some n =>
      rw [hfirst] at h
      cases h
      simp [ht]

/-- The first terminal that matches is scanned. -/
theorem scan_all_eq {l l' : List Terminal} (hall : Terminal.all = l ++ t :: l')
    (hbefore : ∀ other ∈ l, other.match? s = none) (ht : t.match? s = some m) :
    scan Terminal.all s = some (t, m) := by
  unfold scan
  simp only [Terminal.mem_all, if_true]
  rw [hall, List.findSome?_append, List.findSome?_eq_none_iff.mpr fun other hother => by
    rw [hbefore other hother, Option.map_none]]
  simp [ht]

/-! ### Matches before a blank -/

/-- A text that a terminal matches is matched before a blank. -/
theorem Terminal.Matches.before_blank (h : t.Matches s) (u : List Char) :
    t.match? (s ++ ' ' :: u) = some (s, ' ' :: u) := by
  have hwhole : t.match? (s ++ ([] ++ [])) = some (s, [] ++ []) := by
    rw [List.append_nil, List.append_nil]
    exact h
  refine Terminal.match?_congr hwhole fun c hc => ?_
  cases hc
  decide

/-- A text that a terminal matches begins with neither layout nor a comment. -/
theorem Terminal.Matches.begins (h : t.Matches s) :
    ∃ c s', s = c :: s' ∧ isLayout c = false ∧ c ≠ '#' := by
  obtain ⟨c, s', hs, hc⟩ := Terminal.exists_cons_of_match? h
  exact ⟨c, s', hs, by simpa [isSeparator] using hc⟩

/-! ### Terminals that do not match -/

/-- A letter is no digit. -/
theorem isDecimalDigit_of_isLetter (h : isLetter c = true) : isDecimalDigit c = false := by
  have hbounds := toNat_of_isAlpha h
  have hsmall : c.toNat < 0x80 := by omega
  have hdigit : c.isDigit = false := by
    rw [← Bool.not_eq_true]
    intro hdigit
    have := toNat_of_isDigit hdigit
    omega
  simp [isDecimalDigit, digitValue?, hdigit, hsmall]

/-- A letter is no blank. -/
theorem isBlank_of_isLetter (h : isLetter c = true) : isBlank c = false := by
  have hbounds := toNat_of_isAlpha h
  simp only [isBlank, Bool.or_eq_false_iff, Bool.and_eq_false_iff, decide_eq_false_iff_not,
    beq_eq_false_iff_ne]
  omega

/-- No integer begins with another character. -/
theorem integer?_eq_none (hminus : c ≠ '-') (hdigit : isDecimalDigit c = false) :
    integer? (c :: s) = none := by
  unfold integer?
  split
  · next heq =>
    cases heq
    exact absurd rfl hminus
  · simp [run?, hdigit]

/-- Where no integer begins there is no floating-point number. -/
theorem float?_eq_none (h : integer? s = none) : float? s = none := by
  rw [float?, h]

/-- No variable begins with another character. -/
theorem angled?_eq_none (h : c ≠ '<') : angled? (c :: s) = none := by
  simp [angled?, enclosed?, h]

/-! ### Words -/

namespace Word

/-- A word as a token. -/
def token (style : Style) (w : Word) (position : Position) : Token :=
  ⟨w.terminal, w.chars style, position⟩

/-- A word that is scanned as what it is before a blank. It begins with neither layout nor a comment,
and is no integer of too many digits. -/
structure Readable (style : Style) (w : Word) : Prop where
  scan_eq : ∀ u, scan Terminal.all (w.chars style ++ ' ' :: u) =
    some (w.terminal, w.chars style, ' ' :: u)
  begins : ∃ c s, w.chars style = c :: s ∧ isLayout c = false ∧ c ≠ '#'
  excess?_eq : ∀ position, (w.token style position).excess? = none

/-- A word that is no integer does not have too many digits. -/
theorem excess?_token {w : Word} (h : w.terminal ≠ .integer) (position : Position) :
    (w.token style position).excess? = none := by
  simp [Token.excess?, token, h]

/-- A fixed sign. -/
theorem readable_sign (h : t.sign ≠ []) : (sign t).Readable style := by
  refine ⟨fun u => ?_, ?_, excess?_token ?_⟩
  · cases t <;> first | exact absurd rfl h | rfl
  · cases t <;> first | exact absurd rfl h | exact ⟨_, _, rfl, by decide, by decide⟩
  · rintro rfl
    exact h rfl

/-- A text that the pattern of symbols matches. -/
theorem scan_all_symbol (h : Terminal.symbol.Matches s) :
    (∀ u, scan Terminal.all (s ++ ' ' :: u) = some (.symbol, s, ' ' :: u)) ∧
      ∃ c s', s = c :: s' ∧ isLayout c = false ∧ c ≠ '#' := by
  have hword : word? isLetter isSymbolChar s = some (s, []) := h
  cases s with
  | nil => cases hword
  | cons c s =>
    have hletter : isLetter c = true := by
      cases hc : isLetter c with
      | true => rfl
      | false =>
        rw [word?, hc] at hword
        cases hword
    refine ⟨fun u => ?_, h.begins⟩
    -- None of the terminals that are tried first begins with a letter.
    refine scan_all_eq (l := [.variableName, .float, .integer]) rfl ?_ (h.before_blank u)
    have hinteger : integer? (c :: s ++ ' ' :: u) = none := by
      refine integer?_eq_none ?_ (isDecimalDigit_of_isLetter hletter)
      rintro rfl
      exact absurd hletter (by decide)
    have hvariable : angled? (c :: s ++ ' ' :: u) = none := by
      refine angled?_eq_none ?_
      rintro rfl
      exact absurd hletter (by decide)
    simp only [List.forall_mem_cons]
    exact ⟨hvariable, float?_eq_none hinteger, hinteger, by simp⟩

/-- A symbol. -/
theorem readable_symbol {s : String} (h : (symbol s).Spelled) : (symbol s).Readable style where
  scan_eq := (scan_all_symbol h).1
  begins := (scan_all_symbol h).2
  excess?_eq := excess?_token (by simp [terminal])

/-- A variable. -/
theorem readable_variableName {s : String} (h : (variableName s).Spelled) :
    (variableName s).Readable style := by
  have hmatch : Terminal.variableName.Matches s.toList := h
  exact ⟨fun u => scan_all_eq (l := []) rfl (by simp) (hmatch.before_blank u), hmatch.begins,
    excess?_token (by simp [terminal])⟩

/-- The name of a function. -/
theorem readable_functionName {s : String} (h : (functionName s).Spelled) :
    (functionName s).Readable style := by
  rcases h with h | h
  · -- A name that is a symbol is none of the four signs.
    have hne : functionTerminal s = .symbol := by
      unfold functionTerminal
      split
      · next heq => subst heq; exact absurd h (by decide)
      split
      · next heq => subst heq; exact absurd h (by decide)
      split
      · next heq => subst heq; exact absurd h (by decide)
      split
      · next heq => subst heq; exact absurd h (by decide)
      · rfl
    refine ⟨?_, (scan_all_symbol h).2, excess?_token (by simp [terminal, hne])⟩
    simp only [terminal, hne]
    exact (scan_all_symbol h).1
  · simp only [List.mem_cons, List.not_mem_nil, or_false] at h
    rcases h with rfl | rfl | rfl | rfl
    · exact ⟨fun u => rfl, ⟨_, _, rfl, by decide, by decide⟩, excess?_token (by decide)⟩
    · exact ⟨fun u => rfl, ⟨_, _, rfl, by decide, by decide⟩, excess?_token (by decide)⟩
    · exact ⟨fun u => rfl, ⟨_, _, rfl, by decide, by decide⟩, excess?_token (by decide)⟩
    · exact ⟨fun u => rfl, ⟨_, _, rfl, by decide, by decide⟩, excess?_token (by decide)⟩

/-- The documentation. -/
theorem readable_documentation {s : String} (h : (documentation s).Spelled) :
    (documentation s).Readable style := by
  refine ⟨fun u => ?_, ⟨_, _, rfl, by decide, by decide⟩, excess?_token (by simp [terminal])⟩
  refine scan_all_eq (l := [.variableName, .float, .integer, .symbol, .quoted]) rfl ?_
    ((Terminal.match?_eq_some_iff_of_quote? rfl).mpr ⟨s.toList, rfl, h, rfl⟩)
  simp only [List.forall_mem_cons]
  exact ⟨rfl, rfl, rfl, rfl, rfl, by simp⟩

/-- A flag. -/
theorem readable_flag {s : String} (h : (flag s).Spelled) : (flag s).Readable style := by
  have hmatch : Terminal.flag.Matches (':' :: s.toList) := h
  refine ⟨fun u => ?_, hmatch.begins, excess?_token (by simp [terminal])⟩
  refine scan_all_eq (l := [.variableName, .float, .integer, .symbol, .quoted, .documentation])
    rfl ?_ (hmatch.before_blank u)
  simp only [List.forall_mem_cons]
  exact ⟨rfl, rfl, rfl, rfl, rfl, rfl, by simp⟩

/-! ### Constants -/

/-- A digit of the basic alphabet is one. -/
theorem isDecimalDigit_of_isDigit (h : c.isDigit = true) : isDecimalDigit c = true := by
  simp [isDecimalDigit, digitValue?, h]

/-- The digits of a number are digits. -/
theorem isDecimalDigit_of_mem_toDigits {n : Nat} (h : c ∈ Nat.toDigits 10 n) :
    isDecimalDigit c = true :=
  isDecimalDigit_of_isDigit (Nat.isDigit_of_mem_toDigits (by decide) (by decide) h)

/-- Where an integer begins there is no variable. -/
theorem angled?_eq_none_of_integer? (h : integer? s = some m) (u : List Char) :
    angled? (s ++ u) = none := by
  obtain ⟨⟨minus, digits, hx, hminus, hne, hdigits⟩, -, hs⟩ := integer?_eq_some_iff.mp h
  rw [hs, hx]
  obtain ⟨d, digits, rfl⟩ := List.exists_cons_of_ne_nil hne
  rcases hminus with rfl | rfl
  · refine angled?_eq_none ?_
    rintro rfl
    exact absurd (hdigits '<' List.mem_cons_self) (by decide)
  · exact angled?_eq_none (by decide)

/-- The text of an integer is matched as one. -/
theorem matches_integerChars (n : Int) : Terminal.integer.Matches (integerChars n) := by
  refine integer?_eq_some_iff.mpr ⟨⟨_, Nat.toDigits 10 n.natAbs, rfl, ?_, Nat.toDigits_ne_nil,
    fun c hc => isDecimalDigit_of_mem_toDigits hc⟩, stops_nil _, (List.append_nil _).symm⟩
  split
  · exact .inr rfl
  · exact .inl rfl

/-- The text of an integer reads as it. -/
theorem ofChars?_integerChars (n : Int) :
    (Number.Literal.ofChars? isDecimalDigit (integerChars n)).map (·.toInt) = some n := by
  -- The sign is taken off before the digits; digits begin with no sign of their own.
  have hsign : Number.takeSign (integerChars n) = (decide (n < 0), Nat.toDigits 10 n.natAbs) := by
    unfold integerChars
    split
    · next hneg => simp [Number.takeSign, hneg]
    · next hneg =>
      rw [List.nil_append]
      unfold Number.takeSign
      split
      · next rest heq =>
        have hminus : isDecimalDigit '-' = true :=
          isDecimalDigit_of_mem_toDigits (heq ▸ List.mem_cons_self)
        exact absurd hminus (by decide)
      · next rest heq =>
        have hplus : isDecimalDigit '+' = true :=
          isDecimalDigit_of_mem_toDigits (heq ▸ List.mem_cons_self)
        exact absurd hplus (by decide)
      · simp [hneg]
  rw [Number.Literal.ofChars?_of_takeSign hsign Nat.toDigits_ne_nil fun _ hc =>
    isDecimalDigit_of_mem_toDigits hc, Option.map_some, Number.Literal.toInt_toDigits]

/-- An integer of few digits. -/
theorem readable_integer {n : Int} (h : (constant (.integer n)).Spelled) :
    (constant (.integer n)).Readable style := by
  have hmatch := matches_integerChars n
  refine ⟨fun u => ?_, hmatch.begins, fun position => ?_⟩
  · -- A float is tried before an integer, but there is no point behind the digits.
    refine scan_all_eq (l := [.variableName, .float]) rfl ?_ (hmatch.before_blank u)
    have hfloat : float? (integerChars n ++ ' ' :: u) = none := by
      have hinteger : integer? (integerChars n ++ ' ' :: u) = some (integerChars n, ' ' :: u) :=
        hmatch.before_blank u
      rw [float?, hinteger]
      rfl
    simp only [List.forall_mem_cons]
    exact ⟨angled?_eq_none_of_integer? hmatch _, hfloat, by simp⟩
  · -- Only the digits count for the limit, and the sign does not.
    have hcount : (integerChars n).countP isDecimalDigit = (Nat.toDigits 10 n.natAbs).length := by
      have hall : (Nat.toDigits 10 n.natAbs).countP isDecimalDigit = (Nat.toDigits 10 n.natAbs).length :=
        List.countP_eq_length.mpr fun c hc => isDecimalDigit_of_mem_toDigits hc
      have hminus : isDecimalDigit '-' = false := by decide
      unfold integerChars
      split <;> simp [hall, hminus]
    have hfew : (integerChars n).countP isDecimalDigit ≤ Number.maxIntegerDigits := hcount ▸ h
    exact if_neg fun hlong => Nat.not_lt.mpr hfew hlong.2

/-- A floating-point number. -/
theorem readable_float {x : Float} (h : style.Inverts x) :
    (constant (.floating x)).Readable style := by
  have hmatch : Terminal.float.Matches (style.floatText x).toList := h.1
  refine ⟨fun u => ?_, hmatch.begins, excess?_token (by simp [terminal, Constant.floating])⟩
  refine scan_all_eq (l := [.variableName]) rfl ?_ (hmatch.before_blank u)
  simp only [List.forall_mem_cons]
  refine ⟨?_, by simp⟩
  cases hinteger : integer? (style.floatText x).toList with
  | none =>
    have hnone : float? (style.floatText x).toList = none := float?_eq_none hinteger
    exact absurd (hnone.symm.trans hmatch) (by simp)
  | some m => exact angled?_eq_none_of_integer? hinteger _

/-- A symbolic constant between bars. -/
theorem readable_symbolic {s : String} (h : (constant (.symbolic s)).Spelled) :
    (constant (.symbolic s)).Readable style := by
  refine ⟨fun u => ?_, ⟨_, _, rfl, by decide, by decide⟩,
    excess?_token (by simp [terminal, Constant.symbolic])⟩
  refine scan_all_eq (l := [.variableName, .float, .integer, .symbol]) rfl ?_
    ((Terminal.match?_eq_some_iff_of_quote? rfl).mpr ⟨s.toList, rfl, h, rfl⟩)
  simp only [List.forall_mem_cons]
  exact ⟨rfl, rfl, rfl, rfl, by simp⟩

/-- A style writes a constant that is spelled right so that it can be read. -/
theorem readable_constant {c : Constant} (hc : c.Proper) (h : (constant c).Spelled)
    (hfloat : ∀ x, c = .floating x → style.Inverts x) :
    (constant c).Readable style ∧
      ∀ position, ((constant c).token style position).constant? = some c := by
  obtain ⟨n, rfl⟩ | ⟨x, rfl⟩ | ⟨s, rfl⟩ := hc
  · -- Each sort of constant has its terminal, and what is read inverts what is written.
    refine ⟨readable_integer h, fun position => ?_⟩
    obtain ⟨l, hl, hn⟩ := Option.map_eq_some_iff.mp (ofChars?_integerChars n)
    change (Number.Literal.ofChars? isDecimalDigit (integerChars n)).map
      (fun l => Constant.integer l.toInt) = _
    rw [hl, Option.map_some, hn]
  · refine ⟨readable_float (hfloat x rfl), fun position => ?_⟩
    obtain ⟨l, hl, hx⟩ := Option.map_eq_some_iff.mp (hfloat x rfl).2
    change (Number.Literal.ofChars? isDecimalDigit (style.floatText x).toList).map
      (fun l => Constant.floating l.toFloat) = _
    rw [hl, Option.map_some, hx]
  · refine ⟨readable_symbolic h, fun position => ?_⟩
    simp [Token.constant?, token, terminal, Constant.symbolic, Token.inner, chars]

end Word

end SoarProject.Rule
