import SoarProject.Failure
import SoarProject.Number.Stored

/-!
# Cells of a column

What a column does to the values put into it. Every column has a stored type that converts a value
where that loses nothing: a column of integers keeps integers, and a number with an integral value
or a text that reads as a number as that number; a column of numbers keeps floating-point numbers;
a column of text keeps texts. A value that cannot be converted is kept as it is.

`Cell.same` is how a condition of a statement compares a cell with a value. `Cell.identifies` is how
records and pairs are found by a key: a key may be any cell, of which only an integer is the id of a
record.
-/

namespace SoarProject

/-- The type of a column in a store. -/
inductive StoredType where
  /-- Integers. -/
  | integer
  /-- Floating-point numbers. -/
  | float
  /-- Names of records, texts of limited length. -/
  | name
  /-- Texts. -/
  | text
  deriving DecidableEq

/-- The stored type for a column type. -/
def StoredType.ofColumnType : ColumnType → StoredType
  | .integer => .integer
  | .float => .float
  | .string => .text

/-- The type of a column as a statement writes it. -/
def StoredType.written : StoredType → String
  | .integer => "INTEGER"
  | .float => "FLOAT"
  | .name => "VARCHAR(500)"
  | .text => "TEXT"

/-- The smallest stored integer. -/
def minInteger : Int := -0x8000000000000000

/-- The largest stored integer. -/
def maxInteger : Int := 0x7fffffffffffffff

/-- Whether an integer can be stored. -/
def fitsInteger (n : Int) : Bool := minInteger ≤ n && n ≤ maxInteger

/-- A value as a cell, before a column converts it; `place` is its place among the parameters of a
statement. -/
def Value.toCell (place : Nat) : Value → Except Failure Cell
  | .null => .ok .null
  | .bool b => .ok (.int (if b then 1 else 0))
  | .int n => if fitsInteger n then .ok (.int n) else .error .integerOutOfRange
  | .float x => .ok (if x.isNaN then .null else .real x)
  | .text s => .ok (.text s)
  | v => .error (.storage (.unsupportedValue place v.kindName))

/-- The cells for the parameters of a statement, in order. -/
def Value.toCells (values : List Value) : Except Failure (List Cell) :=
  values.zipIdx.mapM fun (v, i) => v.toCell (i + 1)

/-- The integer that a floating-point number stands for, if it is one and fits. -/
def integralValue? (x : Float) : Option Int :=
  match Number.decode x with
  | .finite negative mantissa exponent =>
    let num := mantissa <<< exponent.toNat
    let den := 1 <<< (-exponent).toNat
    let n := num / den
    if num % den = 0 && n < 0x8000000000000000 then some (if negative then -n else n) else none
  | _ => none

/-- The cell for a number read from a text: an integer where possible. -/
def cellOfLiteral (l : Number.Literal) : Cell :=
  if l.isInteger && fitsInteger l.toInt then .int l.toInt
  else match integralValue? l.toStored with
    | some n => .int n
    | none => .real l.toStored

/-- A floating-point number without the sign of a zero. -/
def unsignedZero (x : Float) : Float := if x == 0.0 then 0.0 else x

/-- A cell of a column of numbers: integers where possible. -/
def Cell.toNumber : Cell → Cell
  | .real x => ((integralValue? x).map Cell.int).getD (.real x)
  | .text s => ((Number.readStored? s).map cellOfLiteral).getD (.text s)
  | c => c

/-- A cell of a column of floating-point numbers. -/
def Cell.toReal (c : Cell) : Cell :=
  match c.toNumber with
  | .int n => .real (Float.ofInt n)
  | .real x => .real (unsignedZero x)
  | c => c

/-- A cell of a column of text. -/
def Cell.toText : Cell → Cell
  | .int n => .text (toString n)
  | .real x => .text (Number.storedText x)
  | c => c

/-- What a column keeps of a cell. -/
def StoredType.store : StoredType → Cell → Cell
  | .integer, c => c.toNumber
  | .float, c => c.toReal
  | .name, c | .text, c => c.toText

/-- The value that a column is compared with: texts become numbers for a column of numbers, and
numbers become texts for a column of text. -/
def StoredType.comparable : StoredType → Cell → Cell
  | .integer, c | .float, c => c.toNumber
  | .name, c | .text, c => c.toText

/-- A number as a fraction with a positive denominator. Infinite numbers become larger than all
finite ones. -/
def fraction (x : Float) : Int × Int :=
  let signed (negative : Bool) (n : Int) : Int := if negative then -n else n
  match Number.decode x with
  | .finite negative mantissa exponent =>
    (signed negative ↑(mantissa <<< exponent.toNat), ↑(1 <<< (-exponent).toNat))
  | .infinite negative => (signed negative ↑(1 <<< 1024), 1)
  | .nan => (0, 1)

/-- Whether a condition takes two cells as equal. Null equals nothing. -/
def Cell.same : Cell → Cell → Bool
  | .int a, .int b => a == b
  | .real a, .real b => a == b
  | .int a, .real b | .real b, .int a => !b.isNaN && (fraction b).1 == a * (fraction b).2
  | .text a, .text b => a == b
  | _, _ => false

/-- Whether two cells agree: they are the same, or numbers of one value. -/
def Cell.agrees (a b : Cell) : Bool := a == b || a.same b

/-- Whether a column of integers holds what a key asks for. The null key asks for no value. -/
def Cell.identifies (key c : Cell) : Bool :=
  match key with
  | .null => c == .null
  | key => c.same (StoredType.integer.comparable key)

/-- Whether a cell comes before another one: null comes first, then numbers, then texts. -/
def Cell.before : Cell → Cell → Bool
  | .null, c => c != .null
  | _, .null => false
  | .text a, .text b => a < b
  | .text _, _ => false
  | _, .text _ => true
  | .int a, .int b => a < b
  | .real a, .real b => a < b
  | .int a, .real b => a * (fraction b).2 < (fraction b).1
  | .real a, .int b => (fraction a).1 < b * (fraction a).2

/-- A value for a column of floating-point numbers is turned into one before it is bound. -/
def Value.toFloatValue : Value → Except Failure Value
  | .null => .ok .null
  | .bool b => .ok (.float (if b then 1.0 else 0.0))
  | .int n =>
    let x := Float.ofInt n
    if x.isInf then .error (.storage .notANumber) else .ok (.float x)
  | .float x => .ok (.float x)
  | .text s =>
    match Number.readFloat? s with
    | some x => .ok (.float x)
    | none => .error (.storage .notANumber)
  | .list _ | .dictionary _ | .part .. => .error (.storage .notANumber)

/-- A value as it is bound for a column of the schema. -/
def StoredType.prepare : StoredType → Value → Except Failure Value
  | .float, v => v.toFloatValue
  | _, v => .ok v

end SoarProject
