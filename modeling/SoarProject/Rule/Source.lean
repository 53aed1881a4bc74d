import SoarProject.Rule.ParseError

/-!
# Source files of rules

A source file holds productions between comments and other commands. `splitProductions` cuts out
the productions without reading them: a production begins with `sp` at the start of a word, followed
by a brace, and ends with the brace that closes it. Braces in comments and in texts between bars or
double quotes do not count.
-/

namespace SoarProject.Rule

open SoarProject.Text

/-- Where a scan for braces is: in code, in a text up to its quote, or in a comment. -/
inductive ScanMode where
  | code
  | literal (quote : Char)
  | comment

/-- The characters up to the brace that closes the outermost of `depth` open braces, and the rest
of the text. -/
def balanced? (mode : ScanMode) (depth : Nat) : List Char → Option Match
  | [] => none
  | c :: rest =>
    match mode with
    | .literal quote =>
      (balanced? (if c = quote then .code else mode) depth rest).map (Match.cons c)
    | .comment => (balanced? (if c = '\n' then .code else mode) depth rest).map (Match.cons c)
    | .code =>
      if c = '|' || c = '"' then (balanced? (.literal c) depth rest).map (Match.cons c)
      else if c = '#' then (balanced? .comment depth rest).map (Match.cons c)
      else if c = '\x7b' then (balanced? .code (depth + 1) rest).map (Match.cons c)
      else if c = '\x7d' then
        if depth ≤ 1 then some ([c], rest)
        else (balanced? .code (depth - 1) rest).map (Match.cons c)
      else (balanced? .code depth rest).map (Match.cons c)

/-- What is cut out is a non-empty piece at the front of the text. -/
theorem balanced?_splits {mode : ScanMode} {depth : Nat} {s : List Char} {m : Match}
    (h : balanced? mode depth s = some m) : m.Splits s := by
  induction s generalizing mode depth m with
  | nil => simp [balanced?] at h
  | cons c rest ih =>
    have step {mode : ScanMode} {depth : Nat}
        (hm : (balanced? mode depth rest).map (Match.cons c) = some m) : m.Splits (c :: rest) := by
      obtain ⟨n, hn, rfl⟩ := Option.map_eq_some_iff.1 hm
      exact (ih hn).cons c
    unfold balanced? at h
    repeat' split at h
    all_goals first
      | exact step h
      | (simp only [Option.some.injEq] at h; subst h; exact ⟨by simp, rfl⟩)

/-- The start of a production, up to its brace. -/
def opening? : List Char → Option Match
  | 's' :: 'p' :: rest =>
    match rest.dropWhile isBlank with
    | '\x7b' :: body => some ('s' :: 'p' :: (rest.takeWhile isBlank ++ ['\x7b']), body)
    | _ => none
  | _ => none

/-- The start of a production is a non-empty piece at the front of the text. -/
theorem opening?_splits {s : List Char} {m : Match} (h : opening? s = some m) : m.Splits s := by
  unfold opening? at h
  split at h
  · rename_i rest
    split at h
    · rename_i body hb
      simp only [Option.some.injEq] at h
      subst h
      refine ⟨by simp, ?_⟩
      have := List.takeWhile_append_dropWhile (p := isBlank) (l := rest)
      rw [hb] at this
      simp [this]
    · simp at h
  · simp at h

/-- A piece and what it leaves are no longer than the text. -/
theorem Match.Splits.length_lt {m : Match} {s : List Char} (h : m.Splits s) :
    m.2.length < s.length := by
  have := List.length_pos_iff.2 h.1
  rw [← h.2, List.length_append]
  omega

/-- The text after a comment. -/
def afterComment (s : List Char) : List Char := (s.dropWhile (· != '\n')).drop 1

/-- Skipping a comment only drops characters. -/
theorem length_afterComment_le (s : List Char) : (afterComment s).length ≤ s.length := by
  have := (List.dropWhile_sublist (· != '\n') (l := s)).length_le
  simp only [afterComment, List.length_drop]
  omega

/-- The number of line breaks in a text. -/
def lineBreaks (s : List Char) : Nat := s.count '\n'

/-- Cut the productions out of a text. A production may begin here if a word does; `line` is the
line of the text's first character. -/
def splitFrom (wordStart : Bool) (line : Nat) (s : List Char) : Except ParseError (List String) :=
  match _hs : s with
  | [] => .ok []
  | c :: rest =>
    if c = '#' then splitFrom true (line + 1) (afterComment rest)
    else
      match _ho : if wordStart then opening? s else none with
      | none =>
        splitFrom (isBlank c || c == ';') (line + if c = '\n' then 1 else 0) rest
      | some (opening, body) =>
        match _hb : balanced? .code 1 body with
        | none => .error (.unbalanced (line + lineBreaks opening))
        | some (block, more) => do
          let blocks ← splitFrom false (line + lineBreaks (opening ++ block)) more
          return String.ofList (opening ++ block) :: blocks
termination_by s.length
decreasing_by
  · have := length_afterComment_le rest
    simp only [List.length_cons]
    omega
  · simp
  · have h1 : Match.Splits (opening, body) s := by
      split at _ho
      · subst _hs
        exact opening?_splits _ho
      · simp at _ho
    have h2 := (balanced?_splits _hb).length_lt
    have h3 := h1.length_lt
    simp only [_hs] at h2 h3 ⊢
    omega

/-- The productions of a source file, in their order. -/
def splitProductions (source : String) : Except ParseError (List String) :=
  splitFrom true 1 source.toList

/-- Whether a character may stand in the name of a production. -/
def isNameChar (c : Char) : Bool :=
  !(isBlank c || c == '\x7b' || c == '\x7d' || c == '(' || c == ')')

/-- The name of a framed production, read without its body. -/
def productionName? (text : String) : Option String :=
  match trimLeft text.toList with
  | 's' :: 'p' :: rest =>
    match trimLeft rest with
    | '\x7b' :: rest =>
      match (trimLeft rest).takeWhile isNameChar with
      | [] => none
      | name => some (String.ofList name)
    | _ => none
  | _ => none

end SoarProject.Rule
