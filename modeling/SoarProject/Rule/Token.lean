import SoarProject.Number.Literal
import SoarProject.Rule.ParseError
import SoarProject.Rule.Production

/-!
# Tokens of a production

A token is a piece of the text with its terminal and its place. This module says what tokens stand
for: constants, and the codes of relations and preferences.
-/

namespace SoarProject.Rule

open SoarProject.Text

/-- A token: its class, its text and its place. -/
structure Token where
  /-- The class. -/
  terminal : Terminal
  /-- The characters. -/
  text : List Char
  /-- Where it begins. -/
  position : Position

/-! ### Constants -/

/-- The text of a quoted token without its quotes. -/
def Token.inner (t : Token) : String := String.ofList (t.text.drop 1).dropLast

/-- The text of a token. -/
def Token.string (t : Token) : String := String.ofList t.text

/-- The constant that a token writes, if it writes one. -/
def Token.constant? (t : Token) : Option Constant :=
  match t.terminal with
  | .symbol => some (.symbolic t.string)
  | .quoted => some (.symbolic t.inner)
  | .integer => (Number.Literal.ofChars? isDecimalDigit t.text).map fun l => .integer l.toInt
  | .float => (Number.Literal.ofChars? isDecimalDigit t.text).map fun l => .floating l.toFloat
  | _ => none

/-- The number of digits of an integer token that has too many of them. -/
def Token.excess? (t : Token) : Option Nat :=
  let digits := t.text.countP isDecimalDigit
  if t.terminal = .integer ∧ Number.maxIntegerDigits < digits then some digits else none

/-- The code of a relational sign. -/
def relationCode? : Terminal → Option Int
  | .equal => some 0
  | .lessGreater => some 1
  | .less => some 2
  | .lessEqual => some 3
  | .greaterEqual => some 4
  | .greater => some 5
  | .lessEqualGreater => some 6
  | _ => none

/-- The code of a preference that never has a referent. -/
def unaryPreferenceCode? : Terminal → Option Int
  | .plus => some 0
  | .minus => some 1
  | .bang => some 2
  | .tilde => some 3
  | .atSign => some 4
  | _ => none

/-- The code of a preference that may have a referent. -/
def binaryPreferenceCode? : Terminal → Option Int
  | .greater => some 5
  | .equal => some 6
  | .less => some 7
  | .ampersand => some 8
  | _ => none

/-- Whether a token names a function. -/
def isFunctionName : Terminal → Bool
  | .symbol | .plus | .minus | .star | .slash => true
  | _ => false

end SoarProject.Rule
