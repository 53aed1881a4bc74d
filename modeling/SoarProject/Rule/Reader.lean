import SoarProject.Rule.Step

/-!
# Reading the body of a production

A reader takes one token after the other. At each place it tries the terminals that may come next; a
token that is tried but does not fit is refused by the step. A text at which none of them matches is
looked at once more with all terminals, to tell an unexpected token from a character that begins
none.

An integer of too many digits is reported once a token that may follow a constant has been seen.
-/

namespace SoarProject.Rule

open SoarProject.Text

/-- The production, if the text may end here. -/
def State.production? : State → Option Production
  | .actions side =>
    some { name := side.heading.name, conditions := side.conditions, actions := side.actions
           documentation := side.heading.documentation, flags := side.heading.flags }
  | _ => none

/-- Skip layout and comments. A comment begins with a number sign and ends with its line. -/
def skipLayout (inComment : Bool) (p : Position) : List Char → Position × List Char
  | [] => (p, [])
  | c :: rest =>
    if inComment then skipLayout (c != '\n') (p.next c) rest
    else if isLayout c then skipLayout false (p.next c) rest
    else if c = '#' then skipLayout true (p.next c) rest
    else (p, c :: rest)

/-- Skipping layout only drops characters. -/
theorem length_skipLayout_le (inComment : Bool) (p : Position) (s : List Char) :
    (skipLayout inComment p s).2.length ≤ s.length := by
  induction s generalizing inComment p with
  | nil => simp [skipLayout]
  | cons c rest ih =>
    unfold skipLayout
    repeat' split
    all_goals first | exact Nat.le_trans (ih _ _) (by simp) | simp

/-- A reader between two tokens. -/
structure Reader where
  /-- What it is in the middle of. -/
  state : State := .start
  /-- What was read last. -/
  place : Place := .start
  /-- Where the last token begins. -/
  last : Position := .start
  /-- The number of digits of the last token, if it is an integer of too many. -/
  excess : Option Nat := none

/-- The end of the text. -/
def Reader.finish (r : Reader) : Except ReadFailure Production :=
  match r.state.production? with
  | some production => .ok production
  | none => .error (.parse (.unexpected none "" r.last))

/-- A token of a terminal that was welcome. -/
def Reader.accept (r : Reader) (t : Token) : Except ReadFailure Reader :=
  match r.excess with
  | some digits => .error (.integerTooLong digits)
  | none =>
    match r.state.step? t with
    | some (state, place) => .ok { state, place, last := t.position, excess := t.excess? }
    | none => .error (.parse (.unexpected (some t.terminal) t.string t.position))

/-- No welcome terminal matches: the error tells whether another one does. -/
def unwelcome (p : Position) (c : Char) (rest : List Char) : ParseError :=
  match scan Terminal.all (c :: rest) with
  | some (terminal, piece, _) => .unexpected (some terminal) (String.ofList piece) p
  | none => .noTerminal c p

/-- Read a text to its end. -/
def Reader.run (r : Reader) (p : Position) (s : List Char) : Except ReadFailure Production :=
  match _hl : skipLayout false p s with
  | (_, []) => r.finish
  | (p', c :: rest) =>
    match _hs : scan r.place.expected (c :: rest) with
    | none => .error (.parse (unwelcome p' c rest))
    | some (terminal, piece, rest') =>
      match r.accept ⟨terminal, piece, p'⟩ with
      | .error e => .error e
      | .ok r' => r'.run (p'.after piece) rest'
termination_by s.length
decreasing_by
  have h1 := length_skipLayout_le false p s
  have h2 := length_lt_of_scan _hs
  rw [_hl] at h1
  simp only at h1 h2
  omega

/-- Read the body of a production, the text between its braces. -/
def parseBody (body : String) : Except ReadFailure Production :=
  Reader.run {} .start body.toList

end SoarProject.Rule
