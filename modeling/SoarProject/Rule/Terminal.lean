import SoarProject.Text.Blank
import SoarProject.Text.Digit

/-!
# Terminals of the rule language

The classes of tokens in the text of a production, and how each is matched at the front of a text.
`scan` tries the terminals that are welcome at a place, in a fixed order, and takes the first that
matches: variables before floating-point numbers, these before integers and words, and long signs
before short ones.

`scan_append` and `scan_ne_nil` say that a match is a non-empty piece of the text.
-/

namespace SoarProject.Rule

open SoarProject.Text

/-- A class of tokens. -/
inductive Terminal where
  | variableName
  | float
  | integer
  | symbol
  | quoted
  | documentation
  | flag
  | arrow
  | lessEqualGreater
  | doubleLess
  | doubleGreater
  | lessGreater
  | lessEqual
  | greaterEqual
  | minus
  | leftBrace
  | rightBrace
  | leftParen
  | rightParen
  | caret
  | dot
  | plus
  | equal
  | less
  | greater
  | star
  | slash
  | comma
  | bang
  | tilde
  | atSign
  | ampersand
  deriving DecidableEq

namespace Terminal

/-- All terminals, in the order in which they are tried. -/
def all : List Terminal := [
  .variableName, .float, .integer, .symbol, .quoted, .documentation, .flag, .arrow,
  .lessEqualGreater, .doubleLess, .doubleGreater, .lessGreater, .lessEqual, .greaterEqual, .minus,
  .leftBrace, .rightBrace, .leftParen, .rightParen, .caret, .dot, .plus, .equal, .less, .greater,
  .star, .slash, .comma, .bang, .tilde, .atSign, .ampersand]

/-- The name of a terminal in messages. -/
def name : Terminal → String
  | .variableName => "VARIABLE"
  | .float => "FLOAT"
  | .integer => "INT"
  | .symbol => "SYM_CONSTANT"
  | .quoted => "QUOTED"
  | .documentation => "DOC"
  | .flag => "FLAG"
  | .arrow => "__ANON_0"
  | .doubleLess => "__ANON_1"
  | .doubleGreater => "__ANON_2"
  | .lessGreater => "__ANON_3"
  | .lessEqual => "__ANON_4"
  | .greaterEqual => "__ANON_5"
  | .lessEqualGreater => "__ANON_6"
  | .minus => "MINUS"
  | .leftBrace => "LBRACE"
  | .rightBrace => "RBRACE"
  | .leftParen => "LPAR"
  | .rightParen => "RPAR"
  | .caret => "CIRCUMFLEX"
  | .dot => "DOT"
  | .plus => "PLUS"
  | .equal => "EQUAL"
  | .less => "LESSTHAN"
  | .greater => "MORETHAN"
  | .star => "STAR"
  | .slash => "SLASH"
  | .comma => "COMMA"
  | .bang => "BANG"
  | .tilde => "TILDE"
  | .atSign => "AT"
  | .ampersand => "AMPERSAND"

end Terminal

/-! ### Matching -/

/-- A letter of the basic alphabet. -/
def isLetter (c : Char) : Bool := c.isAlpha

/-- A character inside a variable. -/
def isVariableChar (c : Char) : Bool := c.isAlphanum || c == '_' || c == '-' || c == '*'

/-- A character of a symbol after the first. -/
def isSymbolChar (c : Char) : Bool :=
  isVariableChar c || c == '/' || c == '$' || c == '%' || c == ':' || c == '?' || c == '!'

/-- A character of a flag after the first. -/
def isFlagChar (c : Char) : Bool := c.isAlpha || c == '-'

/-- A piece at the front of a text, with the rest of the text. -/
abbrev Match := List Char × List Char

/-- Put a character in front of a matched piece. -/
def Match.cons (c : Char) (m : Match) : Match := (c :: m.1, m.2)

/-- The longest non-empty run of a class of characters. -/
def run? (p : Char → Bool) (s : List Char) : Option Match :=
  if (s.takeWhile p).isEmpty then none else some (s.takeWhile p, s.dropWhile p)

/-- A first character and a run of others. -/
def word? (first rest : Char → Bool) : List Char → Option Match
  | [] => none
  | c :: s => if first c then some (c :: s.takeWhile rest, s.dropWhile rest) else none

/-- A run of inner characters between an opening and a closing character. -/
def enclosed? (opening closing : Char) (inner : Char → Bool) : List Char → Option Match
  | [] => none
  | c :: s =>
    if c = opening then
      match s.dropWhile inner with
      | d :: rest => if d = closing then some (c :: (s.takeWhile inner ++ [d]), rest) else none
      | [] => none
    else none

/-- Digits with an optional minus sign. -/
def integer? : List Char → Option Match
  | '-' :: s => (run? isDecimalDigit s).map (Match.cons '-')
  | s => run? isDecimalDigit s

/-- An exponent, or nothing if none follows. -/
def exponent (s : List Char) : Match :=
  match s with
  | c :: rest =>
    if c == 'e' || c == 'E' then
      match rest with
      | d :: digits =>
        if d == '+' || d == '-' then
          match run? isDecimalDigit digits with
          | some m => (m.cons d).cons c
          | none => ([], s)
        else
          match run? isDecimalDigit rest with
          | some m => m.cons c
          | none => ([], s)
      | [] => ([], s)
    else ([], s)
  | [] => ([], s)

/-- An integer, a point, digits and an optional exponent. -/
def float? (s : List Char) : Option Match :=
  match integer? s with
  | some (whole, '.' :: rest) =>
    match run? isDecimalDigit rest with
    | some (fraction, rest) =>
      let (scale, rest) := exponent rest
      some (whole ++ '.' :: (fraction ++ scale), rest)
    | none => none
  | _ => none

/-- A fixed sign. -/
def sign? : List Char → List Char → Option Match
  | [], s => some ([], s)
  | _ :: _, [] => none
  | c :: sign, d :: s => if c = d then (sign? sign s).map (Match.cons c) else none

/-- A variable: a name between angle brackets. -/
def angled? (s : List Char) : Option Match :=
  match enclosed? '<' '>' isVariableChar s with
  | some m => if m.1.length ≤ 2 then none else some m
  | none => none

/-- A flag: a colon and a word. -/
def flag? : List Char → Option Match
  | ':' :: s => (word? isLetter isFlagChar s).map (Match.cons ':')
  | _ => none

namespace Terminal

/-- The piece that a terminal matches at the front of a text. -/
def match? : Terminal → List Char → Option Match
  | .variableName, s => angled? s
  | .float, s => float? s
  | .integer, s => integer? s
  | .symbol, s => word? isLetter isSymbolChar s
  | .quoted, s => enclosed? '|' '|' (· != '|') s
  | .documentation, s => enclosed? '"' '"' (· != '"') s
  | .flag, s => flag? s
  | .arrow, s => sign? ['-', '-', '>'] s
  | .lessEqualGreater, s => sign? ['<', '=', '>'] s
  | .doubleLess, s => sign? ['<', '<'] s
  | .doubleGreater, s => sign? ['>', '>'] s
  | .lessGreater, s => sign? ['<', '>'] s
  | .lessEqual, s => sign? ['<', '='] s
  | .greaterEqual, s => sign? ['>', '='] s
  | .minus, s => sign? ['-'] s
  | .leftBrace, s => sign? ['\x7b'] s
  | .rightBrace, s => sign? ['\x7d'] s
  | .leftParen, s => sign? ['('] s
  | .rightParen, s => sign? [')'] s
  | .caret, s => sign? ['^'] s
  | .dot, s => sign? ['.'] s
  | .plus, s => sign? ['+'] s
  | .equal, s => sign? ['='] s
  | .less, s => sign? ['<'] s
  | .greater, s => sign? ['>'] s
  | .star, s => sign? ['*'] s
  | .slash, s => sign? ['/'] s
  | .comma, s => sign? [','] s
  | .bang, s => sign? ['!'] s
  | .tilde, s => sign? ['~'] s
  | .atSign, s => sign? ['@'] s
  | .ampersand, s => sign? ['&'] s

end Terminal

/-- The first welcome terminal that matches, with its piece and the rest of the text. -/
def scan (welcome : List Terminal) (s : List Char) : Option (Terminal × Match) :=
  Terminal.all.findSome? fun t =>
    if t ∈ welcome then (t.match? s).map (t, ·) else none

/-! ### Matches are pieces of the text -/

/-- A match is a non-empty piece at the front of a text. -/
def Match.Splits (m : Match) (s : List Char) : Prop := m.1 ≠ [] ∧ m.1 ++ m.2 = s

theorem run?_splits {p : Char → Bool} {s : List Char} {m : Match} (h : run? p s = some m) :
    m.Splits s := by
  unfold run? at h
  split at h
  · simp at h
  · rename_i hne
    simp only [Option.some.injEq] at h
    subst h
    exact ⟨by simpa using hne, List.takeWhile_append_dropWhile⟩

theorem Match.Splits.cons {m : Match} {s : List Char} (h : m.Splits s) (c : Char) :
    (m.cons c).Splits (c :: s) :=
  ⟨by simp [Match.cons], by simp [Match.cons, h.2]⟩

theorem word?_splits {first rest : Char → Bool} {s : List Char} {m : Match}
    (h : word? first rest s = some m) : m.Splits s := by
  cases s with
  | nil => simp [word?] at h
  | cons c s =>
    simp only [word?] at h
    split at h
    · simp only [Option.some.injEq] at h
      subst h
      exact ⟨by simp, by simp [List.takeWhile_append_dropWhile]⟩
    · simp at h

theorem enclosed?_splits {opening closing : Char} {inner : Char → Bool} {s : List Char} {m : Match}
    (h : enclosed? opening closing inner s = some m) : m.Splits s := by
  cases s with
  | nil => simp [enclosed?] at h
  | cons c s =>
    simp only [enclosed?] at h
    split at h
    · split at h
      · rename_i d rest hd
        split at h
        · simp only [Option.some.injEq] at h
          subst h
          refine ⟨by simp, ?_⟩
          have := List.takeWhile_append_dropWhile (p := inner) (l := s)
          rw [hd] at this
          simp [this]
        · simp at h
      · simp at h
    · simp at h

theorem integer?_splits {s : List Char} {m : Match} (h : integer? s = some m) : m.Splits s := by
  unfold integer? at h
  split at h
  · obtain ⟨n, hn, rfl⟩ := Option.map_eq_some_iff.1 h
    exact (run?_splits hn).cons '-'
  · exact run?_splits h

theorem exponent_append (s : List Char) : (exponent s).1 ++ (exponent s).2 = s := by
  unfold exponent
  split
  · rename_i c rest
    split
    · split
      · rename_i d digits
        split
        · split
          · rename_i m hm
            exact (((run?_splits hm).cons d).cons c).2
          · rfl
        · split
          · rename_i m hm
            exact ((run?_splits hm).cons c).2
          · rfl
      · rfl
    · rfl
  · rfl

theorem float?_splits {s : List Char} {m : Match} (h : float? s = some m) : m.Splits s := by
  unfold float? at h
  split at h
  · rename_i whole rest hw
    split at h
    · rename_i fraction rest' hf
      simp only [Option.some.injEq] at h
      subst h
      refine ⟨by simp, ?_⟩
      have h1 := (integer?_splits hw).2
      have h2 := (run?_splits hf).2
      have h3 := exponent_append rest'
      simp only at h1 h2
      rw [← h1, ← h2]
      simp [h3]
    · simp at h
  · simp at h

theorem sign?_append {sign s : List Char} {m : Match} (h : sign? sign s = some m) :
    m.1 = sign ∧ m.1 ++ m.2 = s := by
  induction sign generalizing s m with
  | nil => simp only [sign?, Option.some.injEq] at h; subst h; simp
  | cons c sign ih =>
    cases s with
    | nil => simp [sign?] at h
    | cons d s =>
      simp only [sign?] at h
      split at h
      · rename_i hcd
        obtain ⟨n, hn, rfl⟩ := Option.map_eq_some_iff.1 h
        obtain ⟨h1, h2⟩ := ih hn
        simp [Match.cons, h1, hcd]
        rw [← h1, h2]
      · simp at h

theorem sign?_splits {c : Char} {sign s : List Char} {m : Match}
    (h : sign? (c :: sign) s = some m) : m.Splits s := by
  obtain ⟨h1, h2⟩ := sign?_append h
  exact ⟨by simp [h1], h2⟩

theorem angled?_splits {s : List Char} {m : Match} (h : angled? s = some m) : m.Splits s := by
  unfold angled? at h
  split at h
  · rename_i n hn
    split at h
    · simp at h
    · simp only [Option.some.injEq] at h
      subst h
      exact enclosed?_splits hn
  · simp at h

theorem flag?_splits {s : List Char} {m : Match} (h : flag? s = some m) : m.Splits s := by
  unfold flag? at h
  split at h
  · obtain ⟨n, hn, rfl⟩ := Option.map_eq_some_iff.1 h
    exact (word?_splits hn).cons ':'
  · simp at h

/-- What a terminal matches is a non-empty piece at the front of the text. -/
theorem Terminal.match?_splits {t : Terminal} {s : List Char} {m : Match}
    (h : t.match? s = some m) : m.Splits s := by
  cases t <;> simp only [Terminal.match?] at h
  case variableName => exact angled?_splits h
  case float => exact float?_splits h
  case integer => exact integer?_splits h
  case symbol => exact word?_splits h
  case quoted => exact enclosed?_splits h
  case documentation => exact enclosed?_splits h
  case flag => exact flag?_splits h
  all_goals exact sign?_splits h

/-- What is scanned is a non-empty piece at the front of the text. -/
theorem scan_splits {welcome : List Terminal} {s : List Char} {t : Terminal} {m : Match}
    (h : scan welcome s = some (t, m)) : m.Splits s := by
  unfold scan at h
  obtain ⟨u, _, hu⟩ := List.exists_of_findSome?_eq_some h
  split at hu
  · obtain ⟨n, hn, heq⟩ := Option.map_eq_some_iff.1 hu
    simp only [Prod.mk.injEq] at heq
    obtain ⟨rfl, rfl⟩ := heq
    exact Terminal.match?_splits hn
  · simp at hu

/-- After a scan the rest is shorter. -/
theorem length_lt_of_scan {welcome : List Terminal} {s : List Char} {t : Terminal} {m : Match}
    (h : scan welcome s = some (t, m)) : m.2.length < s.length := by
  obtain ⟨hne, happ⟩ := scan_splits h
  have := List.length_pos_iff.2 hne
  rw [← happ, List.length_append]
  omega

end SoarProject.Rule
