import SoarProject.Rule.Terminal
import SoarProject.Text.Quoted

/-!
# Errors of rule texts

Why a text is no production, with the place in the text where that shows. Lines and columns count
from one; columns count characters.
-/

namespace SoarProject.Rule

/-- A place in a text. -/
structure Position where
  /-- The line, from one. -/
  line : Nat
  /-- The column, from one. -/
  column : Nat
  deriving DecidableEq

namespace Position

/-- The start of a text. -/
def start : Position := ⟨1, 1⟩

/-- The place after one character. -/
def next (p : Position) (c : Char) : Position :=
  if c = '\n' then ⟨p.line + 1, 1⟩ else ⟨p.line, p.column + 1⟩

/-- The place after a piece of text. -/
def after (p : Position) (s : List Char) : Position := s.foldl next p

end Position

/-- Why a text is no production. -/
inductive ParseError where
  /-- No token begins with this character. -/
  | noTerminal (c : Char) (position : Position)
  /-- A token, or the end of the text, stands where it does not belong. -/
  | unexpected (terminal : Option Terminal) (text : String) (position : Position)
  /-- The text does not begin like a production. -/
  | missingOpening
  /-- The text does not end like a production. -/
  | missingClosing
  /-- The braces of a production that begins in this line are not balanced. -/
  | unbalanced (line : Nat)
  deriving DecidableEq

namespace ParseError

/-- The line where the error shows, if it is known. -/
def line? : ParseError → Option Nat
  | .noTerminal _ p | .unexpected _ _ p => some p.line
  | .unbalanced line => some line
  | .missingOpening | .missingClosing => none

/-- The column where the error shows, if it is known. -/
def column? : ParseError → Option Nat
  | .noTerminal _ p | .unexpected _ _ p => some p.column
  | .unbalanced _ | .missingOpening | .missingClosing => none

/-- The wording of an error. -/
def message : ParseError → String
  | .noTerminal c p =>
    "No terminal matches '" ++ c.toString ++ "' in the current parser context, at line " ++
      toString p.line ++ " col " ++ toString p.column
  | .unexpected terminal text p =>
    "Unexpected token Token('" ++ (terminal.elim "$END" Terminal.name) ++ "', " ++
      Text.quoted text ++ ") at line " ++ toString p.line ++ ", column " ++ toString p.column ++ "."
  | .missingOpening => "Production does not begin with \"sp \x7b\""
  | .missingClosing => "Production does not end with \"\x7d\""
  | .unbalanced _ => "Unbalanced braces in production"

end ParseError

/-- Why reading a text failed: it is no production, or it holds an integer of too many digits. -/
inductive ReadFailure where
  | parse (error : ParseError)
  | integerTooLong (digits : Nat)
  deriving DecidableEq

end SoarProject.Rule
