import SoarProject.Text.Blank
import SoarProject.Text.Digit

/-!
# Number literals

Reading integers and floating-point numbers from text. A literal is a sign, digits with an optional
point, and an optional exponent; `Literal.toFloat` rounds its exact decimal value once.

Two kinds of readers use it. `readInt` and `readFloat?` read what a user types: blanks around the
number, underscores between digits, digits of every script, and the names of the special values.
`readStored?` reads a text put into a number column: ASCII digits only, and no special values.
-/

namespace SoarProject.Number

open SoarProject.Text

/-- A decimal literal. -/
structure Literal where
  /-- Whether a minus sign stands in front. -/
  negative : Bool
  /-- The digits before the point. -/
  whole : List Char
  /-- The digits after the point, if there is a point. -/
  fraction : Option (List Char)
  /-- The exponent, if one is written. -/
  exponent : Option Int

/-- Whether the literal is written as an integer. -/
def Literal.isInteger (l : Literal) : Bool := l.fraction.isNone && l.exponent.isNone

/-- The integer written before the point. -/
def Literal.toInt (l : Literal) : Int :=
  let n : Int := digitsValue l.whole
  if l.negative then -n else n

/-- `± digits · 10 ^ exponent`, rounded to nearest. Numbers out of the range of floating point
become infinite or zero before any power of ten is computed. -/
def ofDecimal (negative : Bool) (digits : Nat) (exponent : Int) : Float :=
  let lead : Int := (Nat.toDigits 10 digits).length + exponent
  let magnitude : Float :=
    if digits = 0 || lead < -330 then 0.0
    else if 310 < lead then Float.ofBits 0x7ff0000000000000
    else if exponent < 0 then Float.ofScientific digits true exponent.natAbs
    else Float.ofScientific digits false exponent.natAbs
  if negative then -magnitude else magnitude

/-- The floating-point number nearest to the literal. -/
def Literal.toFloat (l : Literal) : Float :=
  let fraction := l.fraction.getD []
  ofDecimal l.negative (digitsValue (l.whole ++ fraction)) (l.exponent.getD 0 - fraction.length)

/-- Take a sign from the front; whether it is a minus, and the rest. -/
def takeSign : List Char → Bool × List Char
  | '-' :: rest => (true, rest)
  | '+' :: rest => (false, rest)
  | rest => (false, rest)

/-- Read an exponent, the mark `e` included. The rest is empty if there is none. -/
def takeExponent (isDigit : Char → Bool) : List Char → Option (Option Int)
  | [] => some none
  | c :: rest =>
    if c == 'e' || c == 'E' then
      let (negative, digits) := takeSign rest
      if digits.isEmpty || !digits.all isDigit then none
      else
        let n : Int := digitsValue digits
        some (some (if negative then -n else n))
    else none

/-- Read a whole text as a literal over a class of digits. -/
def Literal.ofChars? (isDigit : Char → Bool) (s : List Char) : Option Literal := do
  let (negative, s) := takeSign s
  let whole := s.takeWhile isDigit
  let (fraction, s) : Option (List Char) × List Char := match s.dropWhile isDigit with
    | '.' :: rest => (some (rest.takeWhile isDigit), rest.dropWhile isDigit)
    | rest => (none, rest)
  guard (!(whole ++ fraction.getD []).isEmpty)
  let exponent ← takeExponent isDigit s
  pure { negative, whole, fraction, exponent }

/-- Remove each underscore that stands between two digits. -/
def dropSeparators (afterDigit : Bool) : List Char → List Char
  | [] => []
  | c :: rest =>
    if c == '_' && afterDigit && rest.head?.any isDecimalDigit then dropSeparators false rest
    else c :: dropSeparators (isDecimalDigit c) rest

/-- The blanks of ASCII that may surround a number. -/
def isPlainBlank (c : Char) : Bool := c == ' ' || (0x9 ≤ c.toNat && c.toNat ≤ 0xd)

/-- The blanks that may surround a number that a user types. The separator controls do not count. -/
def isNumberBlank (c : Char) : Bool := isPlainBlank c || (0x80 ≤ c.toNat && isBlank c)

/-- A text without the blanks of a class at both ends. -/
def trimBlanks (isBlank : Char → Bool) (s : String) : List Char :=
  ((s.toList.dropWhile isBlank).reverse.dropWhile isBlank).reverse

/-- The most digits that an integer may have. -/
def maxIntegerDigits : Nat := 4300

/-- Why a text is no integer. -/
inductive IntegerFault where
  /-- It is not written like one. -/
  | malformed
  /-- It begins with too many digits. -/
  | tooLong (digits : Nat)
  deriving DecidableEq

/-- Read an integer. The digits are counted before what follows them is looked at. -/
def readInt (s : String) : Except IntegerFault Int :=
  let (negative, s) := takeSign (trimBlanks isNumberBlank s)
  let isPart (c : Char) : Bool := isDecimalDigit c || c == '_'
  let digits := dropSeparators false (s.takeWhile isPart)
  if !digits.all isDecimalDigit then .error .malformed
  else if maxIntegerDigits < digits.length then .error (.tooLong digits.length)
  else if digits.isEmpty || !(s.dropWhile isPart).isEmpty then .error .malformed
  else
    let n : Int := digitsValue digits
    .ok (if negative then -n else n)

/-- An integer, if a text is one. -/
def readInt? (s : String) : Option Int := (readInt s).toOption

/-- The special values, by their names in lower case. -/
def specialValue? : List Char → Option Float
  | ['i', 'n', 'f'] | ['i', 'n', 'f', 'i', 'n', 'i', 't', 'y'] =>
    some (Float.ofBits 0x7ff0000000000000)
  | ['n', 'a', 'n'] => some (Float.ofBits 0x7ff8000000000000)
  | _ => none

/-- Read a floating-point number. -/
def readFloat? (s : String) : Option Float :=
  let chars := trimBlanks isNumberBlank s
  match Literal.ofChars? isDecimalDigit (dropSeparators false chars) with
  | some l => some l.toFloat
  | none =>
    let (negative, name) := takeSign chars
    (specialValue? (name.map Char.toLower)).map fun x => if negative then -x else x

/-- Read a text that is put into a number column. -/
def readStored? (s : String) : Option Literal :=
  Literal.ofChars? Char.isDigit (trimBlanks isPlainBlank s)

end SoarProject.Number
