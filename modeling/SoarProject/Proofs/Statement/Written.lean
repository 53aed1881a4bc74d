import SoarProject.Proofs.Number.Literal
import SoarProject.Proofs.Statement.Token
import SoarProject.Statement.Basic

/-!
# What written names and values are cut into

A statement of a dump is put together from words, names, values and lists. Each of these is cut into its
own tokens, and none has a semicolon outside of quotes.

* `Statement.Yields`: a text that is cut into some tokens if a delimiter follows.
* `Statement.Cuts`: a text that is cut into some tokens, whatever follows.
* `Statement.yields_written`: a name as a statement writes it.
* `Term.IsLiteral.yields`: a value as a statement writes it.
-/

namespace SoarProject

namespace Statement

open SoarProject.Text

variable {c d : Char} {s t : List Char} {ts ts' : List Token} {name : String}

/-- A text that is cut into some tokens if a delimiter follows. -/
structure Yields (s : List Char) (ts : List Token) : Prop where
  closed : Closed s
  tokenize_append : ∀ u, Ends u → tokenize true 0 (s ++ u) = ts ++ tokenize true 0 u

/-- A text that is cut into some tokens, whatever follows. -/
structure Cuts (s : List Char) (ts : List Token) : Prop where
  closed : Closed s
  tokenize_append : ∀ u, tokenize true 0 (s ++ u) = ts ++ tokenize true 0 u

/-- What follows does not matter. -/
theorem Cuts.yields (h : Cuts s ts) : Yields s ts := ⟨h.closed, fun u _ => h.tokenize_append u⟩

theorem Cuts.append (h : Cuts s ts) (h' : Cuts t ts') : Cuts (s ++ t) (ts ++ ts') where
  closed := h.closed.append h'.closed
  tokenize_append u := by
    rw [List.append_assoc, h.tokenize_append, h'.tokenize_append, List.append_assoc]

/-- Only the last text has to be followed by a delimiter. -/
theorem Cuts.append_yields (h : Cuts s ts) (h' : Yields t ts') : Yields (s ++ t) (ts ++ ts') where
  closed := h.closed.append h'.closed
  tokenize_append u hu := by
    rw [List.append_assoc, h.tokenize_append, h'.tokenize_append u hu, List.append_assoc]

/-- A text that begins with a delimiter ends the token before it. -/
theorem Yields.append (h : Yields s ts) (h' : Cuts t ts') (hd : ∃ d ∈ delimiters, t.head? = some d) :
    Cuts (s ++ t) (ts ++ ts') where
  closed := h.closed.append h'.closed
  tokenize_append u := by
    obtain ⟨d, hd, hhead⟩ := hd
    have hends : Ends (t ++ u) := by
      intro c hc
      rw [List.head?_append, hhead] at hc
      cases hc
      exact hd
    rw [List.append_assoc, h.tokenize_append _ hends, h'.tokenize_append, List.append_assoc]

/-! ### Blanks and signs -/

/-- Blanks are no tokens. -/
theorem cuts_gap (hc : isGap c = true) : Cuts [c] [] where
  closed := by
    refine closed_of_all (List.forall_mem_singleton.mpr ?_)
    simp only [isPlainText, Bool.and_eq_true, bne_iff_ne]
    refine ⟨⟨?_, ?_⟩, ?_⟩ <;> rintro rfl <;> exact absurd hc (by decide)
  tokenize_append u := by
    rw [List.singleton_append, tokenize]
    simp [hc]

/-- The signs of lists. -/
theorem cuts_sign (hc : c ∈ [',', '(', ')']) : Cuts [c] [.sign (String.ofList [c])] where
  closed := by
    refine closed_of_all (List.forall_mem_singleton.mpr ?_)
    simp only [List.mem_cons, List.not_mem_nil, or_false] at hc
    rcases hc with rfl | rfl | rfl <;> rfl
  tokenize_append u := by
    have htoken : tokenAt 0 c u = (.sign (String.ofList [c]), 0) := by
      simp only [List.mem_cons, List.not_mem_nil, or_false] at hc
      rcases hc with rfl | rfl | rfl <;> rfl
    simp only [List.mem_cons, List.not_mem_nil, or_false] at hc
    rw [List.singleton_append, tokenize_cons ?_ ?_ ?_ (behindComment?_eq_none ?_ ?_) htoken nofun]
    · rfl
    all_goals rcases hc with rfl | rfl | rfl <;> decide

/-! ### Lists -/

/-- The tokens of items with commas between them. -/
def commas (items : List (List Token)) : List Token := [Token.sign ","].intercalate items

/-- Items with a separator between them. -/
theorem yields_intercalate {α : Type} {separator : String} (hcuts : Cuts separator.toList [.sign ","])
    (hhead : separator.toList.head? = some ',') {xs : List α} (hne : xs ≠ []) {text : α → String}
    {tokens : α → List Token} (h : ∀ x ∈ xs, Yields (text x).toList (tokens x)) :
    Yields (separator.intercalate (xs.map text)).toList (commas (xs.map tokens)) := by
  rw [String.toList_intercalate, List.map_map]
  induction xs with
  | nil => exact absurd rfl hne
  | cons x rest ih =>
    obtain ⟨hx, hrest⟩ := List.forall_mem_cons.mp h
    cases rest with
    | nil => simpa [commas, List.intercalate] using hx
    | cons y rest =>
      -- The separator begins with a comma, at which every token of `x` ends.
      have hseparated := hx.append hcuts ⟨',', by decide, hhead⟩
      simpa [commas, List.intercalate_cons_cons] using
        hseparated.append_yields (ih (List.cons_ne_nil _ _) hrest)

/-- A list in parentheses. -/
theorem cuts_parenthesized {α : Type} {xs : List α} (hne : xs ≠ []) {text : α → String}
    {tokens : α → List Token} (h : ∀ x ∈ xs, Yields (text x).toList (tokens x)) :
    Cuts (parenthesized (xs.map text)).toList (.sign "(" :: (commas (xs.map tokens) ++ [.sign ")"])) := by
  have hcomma : Cuts ", ".toList [.sign ","] := (cuts_sign (by decide)).append (cuts_gap rfl)
  have hitems := yields_intercalate hcomma rfl hne h
  have hlist := ((cuts_sign (c := '(') (by decide)).append_yields hitems).append
    (cuts_sign (c := ')') (by decide)) ⟨')', by decide, rfl⟩
  simpa [parenthesized, commaList] using hlist

/-! ### Words -/

/-- A character of a word is no quote and no semicolon. -/
theorem isPlainText_of_isWordPart (h : isWordPart c = true) : isPlainText c = true := by
  simp only [isPlainText, Bool.and_eq_true, bne_iff_ne]
  refine ⟨⟨?_, ?_⟩, ?_⟩ <;> rintro rfl <;> exact absurd h (by decide)

/-- A word. -/
def isWord (s : List Char) : Bool :=
  s.head?.any (fun c => isWordStart c && c != orderMark) && s.all isWordPart

/-- A word is one token. -/
theorem yields_word (h : isWord s = true) : Yields s [.word (String.ofList s)] := by
  rw [isWord, Bool.and_eq_true, List.all_eq_true] at h
  refine ⟨closed_of_all fun c hc => isPlainText_of_isWordPart (h.2 c hc), fun u hu => ?_⟩
  cases s with
  | nil => exact absurd h.1 (by simp)
  | cons c w =>
    obtain ⟨hstart, hmark⟩ : isWordStart c = true ∧ c ≠ orderMark := by simpa using h.1
    exact tokenize_word hstart hmark (fun d hd => h.2 d (List.mem_cons_of_mem _ hd)) hu

/-- Words with a blank behind each. -/
theorem cuts_words (words : List String) (h : ∀ w ∈ words, isWord w.toList = true) :
    Cuts (words.flatMap fun w => w.toList ++ [' ']) (words.map .word) := by
  induction words with
  | nil => exact ⟨closed_of_all (List.forall_mem_nil _), fun _ => rfl⟩
  | cons w rest ih =>
    obtain ⟨hw, hrest⟩ := List.forall_mem_cons.mp h
    have hword := (yields_word hw).append (cuts_gap (c := ' ') rfl) ⟨' ', by decide, rfl⟩
    rw [String.ofList_toList, List.append_nil] at hword
    exact hword.append (ih hrest)

/-- A word with a blank on either side. -/
theorem cuts_spaced (w : String) (h : isWord w.toList = true) :
    Cuts (' ' :: (w.toList ++ [' '])) [.word w] := by
  simpa using (cuts_gap (c := ' ') rfl).append (cuts_words [w] (List.forall_mem_singleton.mpr h))

/-- Words with a blank between them. -/
theorem yields_words (words : List String) (last : String) (h : ∀ w ∈ words, isWord w.toList = true)
    (hlast : isWord last.toList = true) :
    Yields ((words.flatMap fun w => w.toList ++ [' ']) ++ last.toList)
      (words.map .word ++ [.word last]) := by
  simpa using (cuts_words words h).append_yields (yields_word hlast)

/-! ### Names -/

/-- The token that a name is written as. -/
def nameToken (name : String) : Token :=
  if Identifier.isPlain name then .word (Identifier.unbroken name) else .quoted name

/-- A small letter may begin a word. -/
theorem isWordStart_of_isLower (h : c.isLower = true) : isWordStart c = true := by
  have halpha : c.isAlpha = true := Bool.or_eq_true_iff.mpr (.inr h)
  rw [isWordStart, halpha, Bool.true_or, Bool.true_or]

/-- A character of a name without quotes may stand in a word. -/
theorem isWordPart_of_isPlainChar (h : Identifier.isPlainChar c = true) : isWordPart c = true := by
  simp only [Identifier.isPlainChar, Bool.or_eq_true, beq_iff_eq] at h
  rcases h with ((((h | h) | rfl) | rfl) | rfl) | rfl
  · rw [isWordPart, isWordStart_of_isLower h, Bool.true_or, Bool.true_or]
  · simp [isWordPart, h]
  all_goals decide

/-- A character that begins a name without quotes may begin a word. -/
theorem isWordStart_of_isPlainChar (h : Identifier.isPlainChar c = true) (hdigit : c.isDigit = false)
    (hdollar : c ≠ '$') : isWordStart c = true ∧ c ≠ orderMark := by
  simp only [Identifier.isPlainChar, Bool.or_eq_true, beq_iff_eq] at h
  refine ⟨?_, ?_⟩
  · rcases h with ((((h | h) | rfl) | h) | rfl) | rfl
    · exact isWordStart_of_isLower h
    · rw [h] at hdigit
      cases hdigit
    · decide
    · exact absurd h hdollar
    all_goals decide
  · rintro rfl
    revert h
    decide

/-- A name without quotes is a word. -/
theorem isWord_of_isPlainWord (hne : name.toList ≠ []) (h : Identifier.isPlainWord name = true) :
    isWord name.toList = true := by
  rw [Identifier.isPlainWord, Bool.and_eq_true, List.all_eq_true] at h
  obtain ⟨hall, hhead⟩ := h
  rw [isWord, Bool.and_eq_true, List.all_eq_true]
  refine ⟨?_, fun c hc => isWordPart_of_isPlainChar (hall c hc)⟩
  cases hchars : name.toList with
  | nil => exact absurd hchars hne
  | cons c rest =>
    rw [hchars] at hhead hall
    obtain ⟨hdigit, hdollar⟩ : c.isDigit = false ∧ c ≠ '$' := by simpa using hhead
    simpa using isWordStart_of_isPlainChar (hall c List.mem_cons_self) hdigit hdollar

theorem toList_unbroken_ne_nil (hname : name ≠ "") : (Identifier.unbroken name).toList ≠ [] := by
  unfold Identifier.unbroken
  split
  · simp
  · exact fun hnil => hname (String.toList_eq_nil_iff.mp hnil)

/-- A name is one token. -/
theorem yields_written (hname : name ≠ "") :
    Yields (Identifier.written name).toList [nameToken name] := by
  refine ⟨closed_written name, fun u hu => ?_⟩
  rw [Identifier.written, nameToken]
  split
  · next hplain =>
    have hplainword := ((Bool.and_eq_true _ _).mp hplain).1
    have hword := yields_word (isWord_of_isPlainWord (toList_unbroken_ne_nil hname) hplainword)
    rw [String.ofList_toList] at hword
    rcases unbroken_eq name with hbroken | hwhole
    · -- The line break behind the word is a blank.
      rw [hbroken]
      exact (hword.append (cuts_gap rfl) ⟨'\n', by decide, rfl⟩).tokenize_append u
    · rw [← hwhole] at hword ⊢
      exact hword.tokenize_append u hu
  · rw [Identifier.quoted, String.toList_ofList, escaped_eq]
    simp only [List.cons_append, List.append_assoc, List.nil_append]
    rw [tokenize_enclosed (.inr rfl) hu, String.ofList_toList]
    rfl

/-! ### Values -/

/-- A literal is one token. -/
theorem yields_sqlQuoted (text : String) : Yields (sqlQuoted text).toList [.text text] := by
  refine ⟨closed_sqlQuoted text, fun u hu => ?_⟩
  rw [sqlQuoted, String.toList_ofList, doubleQuotes_eq]
  simp only [List.cons_append, List.append_assoc, List.nil_append]
  rw [tokenize_enclosed (.inl rfl) hu, String.ofList_toList]
  rfl

/-- A character of a numeral is no quote and no semicolon. -/
theorem isPlainText_of_mem_numeral (hs : Number.IsNumeral s) (hc : c ∈ s) : isPlainText c = true := by
  rcases hs.isDigit_or_mark hc with hdigit | hmark
  · simp only [isPlainText, Bool.and_eq_true, bne_iff_ne]
    refine ⟨⟨?_, ?_⟩, ?_⟩ <;> rintro rfl <;> exact absurd hdigit (by decide)
  · simp only [List.mem_cons, List.not_mem_nil, or_false] at hmark
    rcases hmark with rfl | rfl | rfl | rfl <;> decide

/-- A numeral is one token. -/
theorem yields_numeral (hs : Number.IsNumeral s) : Yields s [.number (String.ofList s)] :=
  ⟨closed_of_all fun _ hc => isPlainText_of_mem_numeral hs hc, fun _ hu => tokenize_numeral hs hu⟩

/-- A minus sign in front of a numeral is a token. -/
theorem yields_minus (hs : Number.IsNumeral s) :
    Yields ('-' :: s) [.sign "-", .number (String.ofList s)] := by
  have hnumeral := yields_numeral hs
  have hminus : Closed ['-'] := closed_of_all (List.forall_mem_singleton.mpr rfl)
  refine ⟨hminus.append hnumeral.closed, fun u hu => ?_⟩
  obtain ⟨c, t, rfl, hc⟩ := hs.exists_eq_cons
  -- A minus and a digit make neither a comment nor an arrow.
  have hne : c ≠ '-' ∧ c ≠ '>' := by
    constructor <;> rintro rfl <;> exact absurd hc (by decide)
  have hcomment : behindComment? ('-' :: (c :: t ++ u)) = none := by
    unfold behindComment?
    split
    · next heq => cases heq; exact absurd rfl hne.1
    · next heq => cases heq
    · rfl
  have htoken : tokenAt 0 '-' (c :: t ++ u) = (.sign "-", 0) := by
    have harrow : ('>' == c) = false := beq_false_of_ne hne.2.symm
    have hfound : signs.find? (fun sign => sign.toList.isPrefixOf ('-' :: (c :: t ++ u))) = some "-" := by
      simp [signs, List.find?, List.isPrefixOf, harrow]
    unfold tokenAt
    dsimp only
    rw [hfound]
    rfl
  rw [List.cons_append, tokenize_cons (by decide) (by decide) (by decide) hcomment htoken nofun,
    List.drop_zero, hnumeral.tokenize_append u hu]
  rfl

/-- The tokens of a number, whose sign is a token of its own. -/
def signed (text : String) : List Token :=
  match text.toList with
  | '-' :: digits => [.sign "-", .number (String.ofList digits)]
  | _ => [.number text]

/-- A number is cut into its sign and a numeral. -/
theorem signed_eq {negative : Bool} {text : String} (hs : Number.IsNumeral s)
    (htext : text = (if negative then "-" else "") ++ String.ofList s) :
    signed text = (if negative then [.sign "-"] else []) ++ [.number (String.ofList s)] := by
  have hchars : text.toList = (if negative then ['-'] else []) ++ s := by
    rw [htext]
    cases negative <;> simp
  unfold signed
  cases negative with
  | true => rw [hchars]; rfl
  | false =>
    simp only [Bool.false_eq_true, if_false, List.nil_append] at hchars ⊢
    rw [hchars]
    split
    · -- A numeral does not begin with a sign, so the branch of the minus is not taken.
      obtain ⟨c, t, hcons, hc⟩ := hs.exists_eq_cons
      cases hcons
      exact absurd hc (by decide)
    · rw [← hchars, String.ofList_toList]

/-- A number with its sign is cut into both. -/
theorem yields_signed {negative : Bool} {text : String} (hs : Number.IsNumeral s)
    (htext : text = (if negative then "-" else "") ++ String.ofList s) :
    Yields text.toList (signed text) := by
  rw [signed_eq hs htext, htext]
  cases negative with
  | true => simpa using yields_minus hs
  | false => simpa using yields_numeral hs

/-- An integer is written as its digits behind its sign. -/
theorem toString_eq (n : Int) :
    toString n = (if decide (n < 0) then "-" else "") ++ String.ofList (Nat.toDigits 10 n.natAbs) := by
  cases n with
  | ofNat m =>
    have hsign : ¬ Int.ofNat m < 0 := Int.not_lt.mpr (Int.natCast_nonneg m)
    simp only [decide_eq_true_eq, if_neg hsign]
    rfl
  | negSucc m =>
    simp only [decide_eq_true_eq, if_pos (Int.negSucc_lt_zero m)]
    rfl

end Statement

namespace Term

open Statement

/-- A value that a statement reads back as it is: null, an integer that fits, a finite number that the
store reads back, or a text. -/
def IsLiteral : Term → Prop
  | .null | .text _ => True
  | .integer n => fitsInteger n = true
  | .number x => x.isFinite = true ∧ Number.ReadsBack x
  | .parameter _ | .word _ => False

/-- The tokens of a value. -/
def tokens : Term → List Token
  | .null => [.word "NULL"]
  | .integer n => signed (toString n)
  | .number x => signed (Number.floatText x)
  | .text s => [.text s]
  | .parameter _ | .word _ => []

/-- A value is cut into its tokens. -/
theorem IsLiteral.yields {v : Term} (h : v.IsLiteral) : Yields v.written.toList v.tokens := by
  cases v with
  | null => exact yields_word (s := "NULL".toList) (by decide)
  | integer n => exact yields_signed (Number.areDigits_toDigits _).isNumeral (toString_eq n)
  | number x =>
    obtain ⟨negative, s, l, hs, htext, -⟩ := h.2.exists_literal h.1
    exact yields_signed hs htext
  | text s => exact yields_sqlQuoted s
  | parameter | word => exact h.elim

end Term

end SoarProject
