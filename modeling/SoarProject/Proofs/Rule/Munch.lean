import Mathlib.Data.List.TakeWhile
import SoarProject.Proofs.Rule.Word

/-!
# Longest pieces

Each terminal takes the longest piece that it fits, and where a token ends depends on nothing behind the
next separator: a token that is not between quotes holds no separator, and one between quotes ends with
its closing quote. So a scan finds the same token whatever stands behind a separator.

* `Rule.Greedy`: a pattern that takes the longest piece that fits.
* `Rule.Terminal.greedy_match?`: every terminal is such a pattern.
* `Rule.Terminal.isTokenChar_of_match?`: the characters of a token that is not between quotes.
* `Rule.scan_congr`: what stands behind a separator does not change the token in front of it.
-/

namespace SoarProject.Rule

open SoarProject.Text

variable {s x y z u : List Char} {c : Char} {p first rest : Char → Bool} {m : Match} {t : Terminal}

/-! ### What a pattern takes -/

/-- A text that does not begin with a character of a class. -/
def Stops (p : Char → Bool) (s : List Char) : Prop := ∀ c ∈ s.head?, p c = false

theorem stops_nil (p : Char → Bool) : Stops p [] := fun _ hc => by cases hc

theorem stops_cons : Stops p (c :: s) ↔ p c = false := by
  simp [Stops]

/-- What a run leaves stops its class. -/
theorem stops_dropWhile (p : Char → Bool) (s : List Char) : Stops p (s.dropWhile p) := by
  intro c hc
  have hhead := List.head?_dropWhile_not p s
  rw [Option.mem_def.mp hc] at hhead
  exact hhead

/-- A run ends where its class stops. -/
theorem takeWhile_append_of_stops (hx : ∀ c ∈ x, p c = true) (hz : Stops p z) :
    (x ++ z).takeWhile p = x ∧ (x ++ z).dropWhile p = z := by
  rw [List.takeWhile_append_of_pos hx, List.dropWhile_append_of_pos hx]
  cases z with
  | nil => simp
  | cons c z => simp [stops_cons.mp hz]

/-- A run is taken as far as its class reaches. -/
theorem run?_eq_some_iff :
    run? p s = some (x, z) ↔ x ≠ [] ∧ (∀ c ∈ x, p c = true) ∧ Stops p z ∧ s = x ++ z := by
  constructor
  · intro h
    unfold run? at h
    split at h
    · cases h
    · next hne =>
      cases h
      exact ⟨fun hnil => hne (by rw [hnil]; rfl), fun _ hc => List.mem_takeWhile_imp hc,
        stops_dropWhile p s, List.takeWhile_append_dropWhile.symm⟩
  · rintro ⟨hne, hx, hz, rfl⟩
    obtain ⟨htake, hdrop⟩ := takeWhile_append_of_stops hx hz
    rw [run?, htake, hdrop, if_neg (by simpa using hne)]

/-- A word is taken as far as the class of its later characters reaches. -/
theorem word?_eq_some_iff : word? first rest s = some (x, z) ↔
    ∃ c y, x = c :: y ∧ first c = true ∧ (∀ d ∈ y, rest d = true) ∧ Stops rest z ∧ s = x ++ z := by
  constructor
  · intro h
    cases s with
    | nil => cases h
    | cons c s =>
      simp only [word?] at h
      split at h
      · next hc =>
        cases h
        exact ⟨c, _, rfl, hc, fun _ hd => List.mem_takeWhile_imp hd, stops_dropWhile rest s, by simp⟩
      · cases h
  · -- The run stops at the first character that does not continue the word.
    rintro ⟨c, y, rfl, hc, hy, hz, rfl⟩
    obtain ⟨htake, hdrop⟩ := takeWhile_append_of_stops hy hz
    rw [List.cons_append, word?, if_pos hc, htake, hdrop]

/-- A text between two signs is taken up to the first closing sign. -/
theorem enclosed?_eq_some_iff {opening closing : Char} (hp : p closing = false) :
    enclosed? opening closing p s = some (x, z) ↔
      ∃ y, x = opening :: (y ++ [closing]) ∧ (∀ c ∈ y, p c = true) ∧ s = x ++ z := by
  constructor
  · -- What was taken is all of the kind, and the closing character is the first that is not.
    intro h
    cases s with
    | nil => cases h
    | cons c s =>
      simp only [enclosed?] at h
      split at h
      · next hopening =>
        split at h
        · next d rest hdrop =>
          split at h
          · next hclosing =>
            cases h
            have hsplit := List.takeWhile_append_dropWhile (p := p) (l := s)
            rw [hdrop] at hsplit
            exact ⟨s.takeWhile p, by rw [hopening, hclosing], fun _ hc => List.mem_takeWhile_imp hc,
              by simp [hsplit]⟩
          · cases h
        · cases h
      · cases h
  · -- The closing character is not of the kind, so the run stops before it.
    rintro ⟨y, rfl, hy, rfl⟩
    obtain ⟨htake, hdrop⟩ := takeWhile_append_of_stops hy (stops_cons (s := z) |>.mpr hp)
    have htext : opening :: (y ++ [closing]) ++ z = opening :: (y ++ closing :: z) := by simp
    rw [htext, enclosed?, if_pos rfl, htake, hdrop]
    simp

/-- A fixed sign is taken as it is. -/
theorem sign?_eq_some_iff {sign : List Char} : sign? sign s = some (x, z) ↔ x = sign ∧ s = x ++ z := by
  constructor
  · intro h
    obtain ⟨hx, happend⟩ := sign?_append h
    exact ⟨hx, happend.symm⟩
  · rintro ⟨rfl, rfl⟩
    induction x with
    | nil => rfl
    | cons c x ih => simp [sign?, ih, Match.cons]

/-- A variable is taken up to the first closing bracket. -/
theorem angled?_eq_some_iff : angled? s = some (x, z) ↔
    ∃ y, x = '<' :: (y ++ ['>']) ∧ y ≠ [] ∧ (∀ c ∈ y, isVariableChar c = true) ∧ s = x ++ z := by
  -- Two angle brackets with nothing in between make no variable.
  have hlength (y : List Char) : ('<' :: (y ++ ['>'])).length ≤ 2 ↔ y = [] := by
    cases y <;> simp
  unfold angled?
  constructor
  · intro h
    split at h
    · next m hm =>
      split at h
      · cases h
      · next hlong =>
        cases h
        obtain ⟨y, rfl, hy, rfl⟩ := (enclosed?_eq_some_iff (by decide)).mp hm
        exact ⟨y, rfl, fun hnil => hlong ((hlength y).mpr hnil), hy, rfl⟩
    · cases h
  · rintro ⟨y, rfl, hne, hy, hs⟩
    rw [(enclosed?_eq_some_iff (by decide)).mpr ⟨y, rfl, hy, hs⟩]
    exact if_neg fun hshort => hne ((hlength y).mp hshort)

/-- A flag is taken as far as the class of its characters reaches. -/
theorem flag?_eq_some_iff : flag? s = some (x, z) ↔
    ∃ w, x = ':' :: w ∧ s = ':' :: (w ++ z) ∧ word? isLetter isFlagChar (w ++ z) = some (w, z) := by
  constructor
  · intro h
    unfold flag? at h
    split at h
    · obtain ⟨⟨w, rest⟩, hw, heq⟩ := Option.map_eq_some_iff.mp h
      cases heq
      obtain ⟨-, -, -, -, -, -, rfl⟩ := word?_eq_some_iff.mp hw
      exact ⟨w, rfl, rfl, hw⟩
    · cases h
  · rintro ⟨w, rfl, rfl, hw⟩
    rw [flag?, hw]
    rfl

/-- A run of digits behind an optional minus sign. -/
def IsInteger (x : List Char) : Prop :=
  ∃ minus digits, x = minus ++ digits ∧ (minus = [] ∨ minus = ['-']) ∧ digits ≠ [] ∧
    ∀ c ∈ digits, isDecimalDigit c = true

/-- An integer is taken as far as its digits reach. -/
theorem integer?_eq_some_iff :
    integer? s = some (x, z) ↔ IsInteger x ∧ Stops isDecimalDigit z ∧ s = x ++ z := by
  constructor
  · intro h
    unfold integer? at h
    split at h
    · obtain ⟨⟨digits, rest⟩, hn, heq⟩ := Option.map_eq_some_iff.mp h
      cases heq
      obtain ⟨hne, hdigits, hz, rfl⟩ := run?_eq_some_iff.mp hn
      exact ⟨⟨['-'], digits, rfl, .inr rfl, hne, hdigits⟩, hz, rfl⟩
    · obtain ⟨hne, hdigits, hz, rfl⟩ := run?_eq_some_iff.mp h
      exact ⟨⟨[], x, rfl, .inl rfl, hne, hdigits⟩, hz, rfl⟩
  · rintro ⟨⟨minus, digits, rfl, hminus, hne, hdigits⟩, hz, rfl⟩
    have hrun : run? isDecimalDigit (digits ++ z) = some (digits, z) :=
      run?_eq_some_iff.mpr ⟨hne, hdigits, hz, rfl⟩
    -- A digit is no minus, so the sign is not taken by mistake.
    rcases hminus with rfl | rfl
    · unfold integer?
      split
      · next heq =>
        obtain ⟨d, digits, rfl⟩ := List.exists_cons_of_ne_nil hne
        cases heq
        exact absurd (hdigits '-' List.mem_cons_self) (by decide)
      · exact hrun
    · change (run? isDecimalDigit (digits ++ z)).map (Match.cons '-') = _
      rw [hrun]
      rfl

/-- The letter of an exponent and an integer that may have either sign. -/
def IsExponent (x : List Char) : Prop :=
  ∃ c sign digits, x = c :: (sign ++ digits) ∧ (c = 'e' ∨ c = 'E') ∧
    (sign = [] ∨ sign = ['+'] ∨ sign = ['-']) ∧ digits ≠ [] ∧ ∀ d ∈ digits, isDecimalDigit d = true

/-- An exponent is taken as far as its digits reach. -/
theorem exponent_eq (hx : IsExponent x) (hz : Stops isDecimalDigit z) : exponent (x ++ z) = (x, z) := by
  obtain ⟨c, sign, digits, rfl, hc, hsign, hne, hdigits⟩ := hx
  have hletter : (c == 'e' || c == 'E') = true := by simpa using hc
  have hrun : run? isDecimalDigit (digits ++ z) = some (digits, z) :=
    run?_eq_some_iff.mpr ⟨hne, hdigits, hz, rfl⟩
  rcases hsign with rfl | rfl | rfl
  · -- Without a sign the first digit must not be taken for one.
    obtain ⟨d, digits, rfl⟩ := List.exists_cons_of_ne_nil hne
    have hdigit := hdigits d List.mem_cons_self
    have hsigned : (d == '+' || d == '-') = false := by
      simp only [Bool.or_eq_false_iff, beq_eq_false_iff_ne]
      constructor <;> rintro rfl <;> exact absurd hdigit (by decide)
    rw [List.cons_append] at hrun
    simp [exponent, hletter, hsigned, hrun, Match.cons]
  · simp [exponent, hletter, hrun, Match.cons]
  · simp [exponent, hletter, hrun, Match.cons]

/-- There is an exponent, or nothing is taken. -/
theorem exponent_cases (s : List Char) : exponent s = ([], s) ∨
    ∃ x z, IsExponent x ∧ Stops isDecimalDigit z ∧ s = x ++ z ∧ exponent s = (x, z) := by
  unfold exponent
  split
  · next c rest =>
    split
    · next hc =>
      -- An exponent needs its letter, maybe a sign, and a digit; otherwise nothing is taken.
      have hletter : c = 'e' ∨ c = 'E' := by simpa using hc
      split
      · next d digits =>
        split
        · next hd =>
          have hsign : [d] = ['+'] ∨ [d] = ['-'] := by simpa using hd
          split
          · next m hm =>
            obtain ⟨hne, hdigits, hz, rfl⟩ := run?_eq_some_iff.mp hm
            exact .inr ⟨c :: d :: m.1, m.2, ⟨c, [d], m.1, rfl, hletter, .inr hsign, hne, hdigits⟩, hz,
              rfl, rfl⟩
          · exact .inl rfl
        · split
          · next m hm =>
            obtain ⟨hne, hdigits, hz, hsplit⟩ := run?_eq_some_iff.mp hm
            exact .inr ⟨c :: m.1, m.2, ⟨c, [], m.1, rfl, hletter, .inl rfl, hne, hdigits⟩, hz,
              by rw [hsplit]; rfl, rfl⟩
          · exact .inl rfl
      · exact .inl rfl
    · exact .inl rfl
  · exact .inl rfl

/-- A floating-point number is an integer, a point, digits, and an exponent if there is one. -/
theorem float?_eq_some_iff : float? s = some (x, z) ↔
    ∃ whole fraction tail, IsInteger whole ∧ (fraction ≠ [] ∧ ∀ c ∈ fraction, isDecimalDigit c = true) ∧
      Stops isDecimalDigit tail ∧ s = whole ++ '.' :: (fraction ++ tail) ∧
      x = whole ++ '.' :: (fraction ++ (exponent tail).1) ∧ z = (exponent tail).2 := by
  constructor
  · -- Digits, a point, digits, and then the exponent, as far as there is one.
    intro h
    unfold float? at h
    split at h
    · next whole rest hwhole =>
      obtain ⟨hinteger, -, rfl⟩ := integer?_eq_some_iff.mp hwhole
      split at h
      · next fraction tail hfraction =>
        obtain ⟨hne, hdigits, htail, rfl⟩ := run?_eq_some_iff.mp hfraction
        cases h
        exact ⟨whole, fraction, tail, hinteger, ⟨hne, hdigits⟩, htail, rfl, rfl, rfl⟩
      · cases h
    · cases h
  · rintro ⟨whole, fraction, tail, hinteger, ⟨hne, hdigits⟩, htail, rfl, rfl, rfl⟩
    have hwhole := integer?_eq_some_iff.mpr
      ⟨hinteger, stops_cons (s := fraction ++ tail) (c := '.') |>.mpr (by decide), rfl⟩
    have hfraction := run?_eq_some_iff.mpr ⟨hne, hdigits, htail, rfl⟩
    simp only [float?, hwhole, hfraction]

/-! ### Greedy patterns -/

/-- A pattern that takes the longest piece that fits: what it takes fits as a whole, and of a text that
begins with a piece that fits it takes no less than that. -/
structure Greedy (f : List Char → Option Match) : Prop where
  fits : ∀ {s x z}, f s = some (x, z) → f x = some (x, [])
  reaches : ∀ {x}, f x = some (x, []) → ∀ u, ∃ y z, f (x ++ u) = some (x ++ y, z)

/-- A word. -/
theorem greedy_word? (first rest : Char → Bool) : Greedy (word? first rest) where
  fits h := by
    obtain ⟨c, y, rfl, hc, hy, -, -⟩ := word?_eq_some_iff.mp h
    exact word?_eq_some_iff.mpr ⟨c, y, rfl, hc, hy, stops_nil rest, by simp⟩
  reaches h u := by
    obtain ⟨c, y, rfl, hc, hy, -, -⟩ := word?_eq_some_iff.mp h
    refine ⟨u.takeWhile rest, u.dropWhile rest, word?_eq_some_iff.mpr
      ⟨c, y ++ u.takeWhile rest, rfl, hc, ?_, stops_dropWhile rest u, by simp⟩⟩
    exact List.forall_mem_append.mpr ⟨hy, fun _ hd => List.mem_takeWhile_imp hd⟩

/-- A text between two signs. -/
theorem greedy_enclosed? {opening closing : Char} (hp : p closing = false) :
    Greedy (enclosed? opening closing p) where
  fits h := by
    obtain ⟨y, rfl, hy, -⟩ := (enclosed?_eq_some_iff hp).mp h
    exact (enclosed?_eq_some_iff hp).mpr ⟨y, rfl, hy, by simp⟩
  reaches h u := by
    obtain ⟨y, rfl, hy, -⟩ := (enclosed?_eq_some_iff hp).mp h
    exact ⟨[], u, (enclosed?_eq_some_iff hp).mpr ⟨y, by simp, hy, by simp⟩⟩

/-- A fixed sign. -/
theorem greedy_sign? (sign : List Char) : Greedy (sign? sign) where
  fits h := by
    obtain ⟨rfl, -⟩ := sign?_eq_some_iff.mp h
    exact sign?_eq_some_iff.mpr ⟨rfl, by simp⟩
  reaches h u := by
    obtain ⟨rfl, -⟩ := sign?_eq_some_iff.mp h
    exact ⟨[], u, sign?_eq_some_iff.mpr ⟨by simp, by simp⟩⟩

/-- A variable. -/
theorem greedy_angled? : Greedy angled? where
  fits h := by
    obtain ⟨y, rfl, hne, hy, -⟩ := angled?_eq_some_iff.mp h
    exact angled?_eq_some_iff.mpr ⟨y, rfl, hne, hy, by simp⟩
  reaches h u := by
    obtain ⟨y, rfl, hne, hy, -⟩ := angled?_eq_some_iff.mp h
    exact ⟨[], u, angled?_eq_some_iff.mpr ⟨y, by simp, hne, hy, by simp⟩⟩

/-- A flag. -/
theorem greedy_flag? : Greedy flag? where
  fits h := by
    obtain ⟨w, rfl, -, hw⟩ := flag?_eq_some_iff.mp h
    refine flag?_eq_some_iff.mpr ⟨w, rfl, by simp, ?_⟩
    rw [List.append_nil]
    exact (greedy_word? isLetter isFlagChar).fits hw
  reaches h u := by
    obtain ⟨w, rfl, -, hw⟩ := flag?_eq_some_iff.mp h
    rw [List.append_nil] at hw
    obtain ⟨y, z, hyz⟩ := (greedy_word? isLetter isFlagChar).reaches hw u
    obtain ⟨-, -, -, -, -, -, hu⟩ := word?_eq_some_iff.mp hyz
    rw [hu] at hyz
    exact ⟨y, z, flag?_eq_some_iff.mpr ⟨w ++ y, rfl, congrArg (':' :: ·) hu, hyz⟩⟩

theorem IsInteger.append (h : IsInteger x) (hy : ∀ c ∈ y, isDecimalDigit c = true) :
    IsInteger (x ++ y) := by
  obtain ⟨minus, digits, rfl, hminus, hne, hdigits⟩ := h
  exact ⟨minus, digits ++ y, by simp, hminus, by simp [hne], List.forall_mem_append.mpr ⟨hdigits, hy⟩⟩

theorem IsExponent.append (h : IsExponent x) (hy : ∀ c ∈ y, isDecimalDigit c = true) :
    IsExponent (x ++ y) := by
  obtain ⟨c, sign, digits, rfl, hc, hsign, hne, hdigits⟩ := h
  exact ⟨c, sign, digits ++ y, by simp, hc, hsign, by simp [hne],
    List.forall_mem_append.mpr ⟨hdigits, hy⟩⟩

/-- An exponent does not begin with a digit. -/
theorem IsExponent.stops (h : IsExponent x) (u : List Char) : Stops isDecimalDigit (x ++ u) := by
  obtain ⟨c, sign, digits, rfl, hc, -⟩ := h
  refine stops_cons.mpr ?_
  rcases hc with rfl | rfl <;> decide

/-- An integer. -/
theorem greedy_integer? : Greedy integer? where
  fits h := by
    obtain ⟨hx, -, -⟩ := integer?_eq_some_iff.mp h
    exact integer?_eq_some_iff.mpr ⟨hx, stops_nil _, by simp⟩
  reaches h u := by
    obtain ⟨hx, -, -⟩ := integer?_eq_some_iff.mp h
    exact ⟨u.takeWhile isDecimalDigit, u.dropWhile isDecimalDigit, integer?_eq_some_iff.mpr
      ⟨hx.append fun _ hc => List.mem_takeWhile_imp hc, stops_dropWhile _ u, by simp⟩⟩

/-- A floating-point number. -/
theorem greedy_float? : Greedy float? where
  fits h := by
    obtain ⟨whole, fraction, tail, hwhole, hfraction, -, -, rfl, -⟩ := float?_eq_some_iff.mp h
    obtain hnone | ⟨e, z, he, -, -, heq⟩ := exponent_cases tail
    · rw [hnone]
      exact float?_eq_some_iff.mpr ⟨whole, fraction, [], hwhole, hfraction, stops_nil _, rfl, rfl, rfl⟩
    · have hexact := exponent_eq he (stops_nil _)
      have hstops := he.stops []
      rw [List.append_nil] at hexact hstops
      rw [heq]
      exact float?_eq_some_iff.mpr
        ⟨whole, fraction, e, hwhole, hfraction, hstops, rfl, by rw [hexact], by rw [hexact]⟩
  reaches h u := by
    obtain ⟨whole, fraction, tail, hwhole, ⟨hne, hdigits⟩, -, hx, -, htail⟩ := float?_eq_some_iff.mp h
    subst hx
    have hu : ∀ c ∈ u.takeWhile isDecimalDigit, isDecimalDigit c = true :=
      fun _ hc => List.mem_takeWhile_imp hc
    obtain hnone | ⟨e, z, he, -, rfl, heq⟩ := exponent_cases tail
    · -- The digits of the fraction go on, and an exponent may follow them.
      obtain rfl : tail = [] := by rw [hnone] at htail; exact htail.symm
      exact ⟨u.takeWhile isDecimalDigit ++ (exponent (u.dropWhile isDecimalDigit)).1, _,
        float?_eq_some_iff.mpr ⟨whole, fraction ++ u.takeWhile isDecimalDigit,
          u.dropWhile isDecimalDigit, hwhole, ⟨by simp [hne], List.forall_mem_append.mpr ⟨hdigits, hu⟩⟩,
          stops_dropWhile _ u, by simp, by simp, rfl⟩⟩
    · -- Only the digits of the exponent go on.
      obtain rfl : z = [] := by rw [heq] at htail; exact htail.symm
      have hexponent := exponent_eq (he.append hu) (stops_dropWhile isDecimalDigit u)
      have htext : e ++ [] ++ u = e ++ u.takeWhile isDecimalDigit ++ u.dropWhile isDecimalDigit := by
        simp
      refine ⟨u.takeWhile isDecimalDigit, u.dropWhile isDecimalDigit, float?_eq_some_iff.mpr
        ⟨whole, fraction, e ++ [] ++ u, hwhole, ⟨hne, hdigits⟩, ?_, by simp, ?_, ?_⟩⟩
      · simpa using he.stops u
      · rw [htext, hexponent]
        simp
      · rw [htext, hexponent]

/-- Every terminal takes the longest piece that it fits. -/
theorem Terminal.greedy_match? (t : Terminal) : Greedy t.match? := by
  cases t
  case variableName => exact greedy_angled?
  case float => exact greedy_float?
  case integer => exact greedy_integer?
  case symbol => exact greedy_word? isLetter isSymbolChar
  case quoted => exact greedy_enclosed? (by decide)
  case documentation => exact greedy_enclosed? (by decide)
  case flag => exact greedy_flag?
  all_goals exact greedy_sign? _

/-! ### The characters of a token -/

/-- The quote around the tokens of a terminal. -/
def Terminal.quote? : Terminal → Option Char
  | .quoted => some '|'
  | .documentation => some '"'
  | _ => none

/-- A token between quotes ends with the first quote behind its opening one. -/
theorem Terminal.match?_eq_some_iff_of_quote? {quote : Char} (ht : t.quote? = some quote) :
    t.match? s = some (x, z) ↔ ∃ y, x = quote :: (y ++ [quote]) ∧ quote ∉ y ∧ s = x ++ z := by
  have hmatch : t.match? s = enclosed? quote quote (· != quote) s := by
    cases t <;> cases ht <;> rfl
  have hinner (y : List Char) : (∀ c ∈ y, (c != quote) = true) ↔ quote ∉ y := by
    simp only [bne_iff_ne, ne_eq]
    exact ⟨fun h hmem => h quote hmem rfl, fun h c hc heq => h (heq ▸ hc)⟩
  rw [hmatch, enclosed?_eq_some_iff (by simp)]
  simp only [hinner]

/-- A character of a token that is not between quotes and is no fixed sign. -/
def isTokenChar (c : Char) : Bool := isSymbolChar c || isDecimalDigit c || ['<', '>', '.', '+'].contains c

/-- A digit stands in a token. -/
theorem isTokenChar_of_isDecimalDigit (h : isDecimalDigit c = true) : isTokenChar c = true := by
  simp [isTokenChar, h]

/-- A letter stands in a token. -/
theorem isTokenChar_of_isAlpha (h : c.isAlpha = true) : isTokenChar c = true := by
  simp [isTokenChar, isSymbolChar, isVariableChar, Char.isAlphanum, h]

/-- An integer has the characters of a token. -/
theorem IsInteger.isTokenChar (h : IsInteger x) (hc : c ∈ x) : isTokenChar c = true := by
  obtain ⟨minus, digits, rfl, hminus, -, hdigits⟩ := h
  rcases List.mem_append.mp hc with hc | hc
  · rcases hminus with rfl | rfl
    · cases hc
    · rw [List.mem_singleton.mp hc]
      decide
  · exact isTokenChar_of_isDecimalDigit (hdigits c hc)

/-- An exponent has the characters of a token. -/
theorem isTokenChar_exponent (hc : c ∈ (exponent s).1) : isTokenChar c = true := by
  obtain hnone | ⟨e, z, ⟨d, sign, digits, rfl, hd, hsign, -, hdigits⟩, -, -, heq⟩ := exponent_cases s
  · rw [hnone] at hc
    cases hc
  · rw [heq] at hc
    simp only [List.mem_cons, List.mem_append] at hc
    rcases hc with rfl | hc | hc
    · rcases hd with rfl | rfl <;> decide
    · rcases hsign with rfl | rfl | rfl
      · cases hc
      · rw [List.mem_singleton.mp hc]; decide
      · rw [List.mem_singleton.mp hc]; decide
    · exact isTokenChar_of_isDecimalDigit (hdigits c hc)

/-- A token that is not between quotes consists of the characters of tokens and of its sign. -/
theorem Terminal.isTokenChar_of_match? (h : t.match? s = some (x, z)) (ht : t.quote? = none)
    (hc : c ∈ x) : isTokenChar c = true ∨ c ∈ t.sign := by
  -- By the kind of terminal: what it is made of says which characters may stand in it.
  cases t
  case variableName =>
    obtain ⟨y, rfl, -, hy, -⟩ := angled?_eq_some_iff.mp h
    simp only [List.mem_cons, List.mem_append, List.not_mem_nil, or_false] at hc
    rcases hc with rfl | hc | rfl
    · exact .inl (by decide)
    · exact .inl (by simp [isTokenChar, isSymbolChar, hy c hc])
    · exact .inl (by decide)
  case float =>
    obtain ⟨whole, fraction, tail, hwhole, ⟨-, hdigits⟩, -, -, rfl, -⟩ := float?_eq_some_iff.mp h
    simp only [List.mem_cons, List.mem_append] at hc
    rcases hc with hc | rfl | hc | hc
    · exact .inl (hwhole.isTokenChar hc)
    · exact .inl (by decide)
    · exact .inl (isTokenChar_of_isDecimalDigit (hdigits c hc))
    · exact .inl (isTokenChar_exponent hc)
  case integer => exact .inl ((integer?_eq_some_iff.mp h).1.isTokenChar hc)
  case symbol =>
    obtain ⟨d, y, rfl, hd, hy, -⟩ := word?_eq_some_iff.mp h
    rcases List.mem_cons.mp hc with rfl | hc
    · exact .inl (isTokenChar_of_isAlpha hd)
    · exact .inl (by simp [isTokenChar, hy c hc])
  case quoted => cases ht
  case documentation => cases ht
  case flag =>
    obtain ⟨w, rfl, -, hw⟩ := flag?_eq_some_iff.mp h
    obtain ⟨d, y, rfl, hd, hy, -⟩ := word?_eq_some_iff.mp hw
    simp only [List.mem_cons] at hc
    rcases hc with rfl | rfl | hc
    · exact .inl (by decide)
    · exact .inl (isTokenChar_of_isAlpha hd)
    · rcases Bool.or_eq_true_iff.mp (hy c hc) with hletter | hminus
      · exact .inl (isTokenChar_of_isAlpha hletter)
      · rw [beq_iff_eq.mp hminus]
        exact .inl (by decide)
  all_goals
    obtain ⟨rfl, -⟩ := sign?_eq_some_iff.mp h
    exact .inr hc

/-- Only one terminal has tokens that begin with a certain quote. -/
theorem Terminal.eq_of_quote? {u : Terminal} {quote : Char} (hu : u.quote? = some quote)
    (h : t.match? s = some (quote :: x, z)) : t = u := by
  cases ht : t.quote? with
  | none =>
    have hforeign : isTokenChar quote = false ∧ quote ∉ t.sign := by
      cases u <;> cases hu <;> exact ⟨by decide, by cases t <;> decide⟩
    rcases isTokenChar_of_match? h ht List.mem_cons_self with hchar | hsign
    · exact absurd hchar (by rw [hforeign.1]; decide)
    · exact absurd hsign hforeign.2
  | some other =>
    obtain ⟨y, heq, -, -⟩ := (match?_eq_some_iff_of_quote? ht).mp h
    cases heq
    cases t <;> cases ht <;> cases u <;> first | rfl | exact absurd hu (by decide)

/-! ### Separators -/

variable {r : List Char} {welcome : List Terminal}

/-- A character that may stand behind every token: layout, or the sign of a comment. -/
def isSeparator (c : Char) : Bool := isLayout c || c == '#'

/-- A text that is empty or begins with a separator. -/
def Separated (s : List Char) : Prop := ∀ c ∈ s.head?, isSeparator c = true

/-- A token that is not between quotes holds no separator. -/
theorem Terminal.isSeparator_of_match? (h : t.match? s = some (x, z)) (ht : t.quote? = none)
    (hc : c ∈ x) : isSeparator c = false := by
  rw [← Bool.not_eq_true]
  intro hseparator
  have hforeign : isTokenChar c = false ∧ c ∉ t.sign := by
    simp only [isSeparator, isLayout, Bool.or_eq_true, beq_iff_eq] at hseparator
    rcases hseparator with ((((rfl | rfl) | rfl) | rfl) | rfl) | rfl <;>
      exact ⟨by decide, by cases t <;> decide⟩
  rcases isTokenChar_of_match? h ht hc with hchar | hsign
  · exact absurd hchar (by rw [hforeign.1]; decide)
  · exact hforeign.2 hsign

/-- A token does not begin with a separator. -/
theorem Terminal.exists_cons_of_match? (h : t.match? s = some (x, z)) :
    ∃ c y, x = c :: y ∧ isSeparator c = false := by
  obtain ⟨c, y, rfl⟩ := List.exists_cons_of_ne_nil (match?_splits h).1
  refine ⟨c, y, rfl, ?_⟩
  cases ht : t.quote? with
  | none => exact isSeparator_of_match? h ht List.mem_cons_self
  | some quote =>
    obtain ⟨y, heq, -, -⟩ := (match?_eq_some_iff_of_quote? ht).mp h
    cases heq
    cases t <;> cases ht <;> decide

/-- A token that is not between quotes ends in front of the next separator. -/
theorem Terminal.exists_append_of_match? (h : t.match? (s ++ r) = some (x, z)) (ht : t.quote? = none)
    (hr : Separated r) : ∃ y, s = x ++ y := by
  have hsplit : x ++ z = s ++ r := (match?_splits h).2
  rcases List.append_eq_append_iff.mp hsplit with ⟨y, hy, -⟩ | ⟨y, rfl, hy⟩
  · exact ⟨y, hy⟩
  · cases y with
    | nil => exact ⟨[], by simp⟩
    | cons c y =>
      have hseparator : isSeparator c = true := hr c (by rw [hy]; rfl)
      have hinner : isSeparator c = false := isSeparator_of_match? h ht (by simp)
      rw [hseparator] at hinner
      cases hinner

/-- A terminal that does not match does not match with another text behind a separator. -/
theorem Terminal.match?_eq_none_congr (h : t.match? (s ++ u) = none) (ht : t.quote? = none)
    (hr : Separated r) : t.match? (s ++ r) = none := by
  rw [← Option.not_isSome_iff_eq_none, Option.isSome_iff_exists]
  rintro ⟨⟨x, z⟩, hx⟩
  obtain ⟨y, rfl⟩ := exists_append_of_match? hx ht hr
  obtain ⟨_, _, hsome⟩ := t.greedy_match?.reaches (t.greedy_match?.fits hx) (y ++ u)
  rw [List.append_assoc, hsome] at h
  cases h

/-- A token stays as it is with another text behind a separator. -/
theorem Terminal.match?_congr (h : t.match? (x ++ (s ++ u)) = some (x, s ++ u)) (hr : Separated r) :
    t.match? (x ++ (s ++ r)) = some (x, s ++ r) := by
  cases ht : t.quote? with
  | some quote =>
    obtain ⟨y, hx, hy, -⟩ := (match?_eq_some_iff_of_quote? ht).mp h
    exact (match?_eq_some_iff_of_quote? ht).mpr ⟨y, hx, hy, rfl⟩
  | none =>
    -- The token cannot grow: what it would gain stands in front of the separator, and was there before.
    obtain ⟨y, z, hlonger⟩ := t.greedy_match?.reaches (t.greedy_match?.fits h) (s ++ r)
    rw [← List.append_assoc] at hlonger
    obtain ⟨w, hw⟩ := exists_append_of_match? hlonger ht hr
    obtain rfl : s = y ++ w := by simpa using hw
    obtain ⟨_, _, hsame⟩ := t.greedy_match?.reaches (t.greedy_match?.fits hlonger) (w ++ u)
    have htext : x ++ y ++ (w ++ u) = x ++ (y ++ w ++ u) := by simp
    rw [htext, h] at hsame
    obtain rfl : y = [] := by
      have hlength := congrArg List.length (Prod.mk.inj (Option.some.inj hsame)).1
      simp only [List.length_append] at hlength
      exact List.length_eq_zero_iff.mp (by omega)
    have hsplit : x ++ [] ++ z = x ++ ([] ++ w) ++ r := (match?_splits hlonger).2
    obtain rfl : z = w ++ r := by simpa using hsplit
    simpa using hlonger

/-- What is scanned is the first welcome terminal that matches. -/
theorem scan_eq_some_iff : scan welcome s = some (t, m) ↔
    ∃ before after, Terminal.all = before ++ t :: after ∧ t ∈ welcome ∧ t.match? s = some m ∧
      ∀ other ∈ before, other ∈ welcome → other.match? s = none := by
  unfold scan
  rw [List.findSome?_eq_some_iff]
  constructor
  · rintro ⟨before, found, after, hall, hfound, hbefore⟩
    split at hfound
    · next hwelcome =>
      obtain ⟨n, hn, heq⟩ := Option.map_eq_some_iff.mp hfound
      cases heq
      refine ⟨before, after, hall, hwelcome, hn, fun other hother hmem => ?_⟩
      -- An earlier terminal that is welcome has no match, or it would have been taken.
      simpa [hmem] using hbefore other hother
    · cases hfound
  · rintro ⟨before, after, hall, hwelcome, hmatch, hbefore⟩
    refine ⟨before, t, after, hall, by simp [hwelcome, hmatch], fun other hother => ?_⟩
    split
    · next hmem => rw [hbefore other hother hmem, Option.map_none]
    · rfl

/-- What stands behind a separator does not change which token is scanned in front of it. -/
theorem scan_congr (h : scan welcome (x ++ (s ++ u)) = some (t, x, s ++ u)) (hr : Separated r) :
    scan welcome (x ++ (s ++ r)) = some (t, x, s ++ r) := by
  obtain ⟨before, after, hall, hwelcome, hmatch, hbefore⟩ := scan_eq_some_iff.mp h
  refine scan_eq_some_iff.mpr
    ⟨before, after, hall, hwelcome, Terminal.match?_congr hmatch hr, fun other hother hmem => ?_⟩
  have hnone := hbefore other hother hmem
  cases hquote : other.quote? with
  | none =>
    rw [← List.append_assoc] at hnone ⊢
    exact Terminal.match?_eq_none_congr hnone hquote hr
  | some quote =>
    -- A token that begins with the quote would have been scanned with this terminal before.
    rw [← Option.not_isSome_iff_eq_none, Option.isSome_iff_exists]
    rintro ⟨⟨piece, z⟩, hpiece⟩
    obtain ⟨y, rfl, -, hsplit⟩ := (Terminal.match?_eq_some_iff_of_quote? hquote).mp hpiece
    obtain ⟨c, x, rfl⟩ := List.exists_cons_of_ne_nil (Terminal.match?_splits hmatch).1
    obtain ⟨rfl, -⟩ := List.cons.inj hsplit
    obtain rfl := Terminal.eq_of_quote? hquote hmatch
    rw [hmatch] at hnone
    cases hnone

end SoarProject.Rule
