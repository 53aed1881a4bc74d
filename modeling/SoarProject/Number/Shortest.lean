/-!
# Shortest decimal digits of a floating-point number

`decode` reads a binary64 number as a sign, a mantissa and a power of two. `shortest` finds the
fewest decimal digits that lie in the interval of reals rounding to that number, and among those
the nearest to it. All of it is exact arithmetic on natural numbers.

`Layout` holds the decisions of a written form: where positional notation ends and how the special
values are spelled.
-/

namespace SoarProject.Number

/-- A binary64 number: not a number, an infinity, or `± mantissa · 2 ^ exponent`. -/
inductive Decoded where
  | nan
  | infinite (negative : Bool)
  | finite (negative : Bool) (mantissa : Nat) (exponent : Int)
  deriving DecidableEq

/-- Read the sign, the mantissa and the exponent from the bits of a number. -/
def decode (x : Float) : Decoded :=
  let bits : Nat := x.toBits.toNat
  let negative := decide (1 <<< 63 ≤ bits)
  let biased : Nat := (bits >>> 52) % (1 <<< 11)
  let fraction : Nat := bits % (1 <<< 52)
  if biased = 0x7ff then
    if fraction = 0 then .infinite negative else .nan
  else if biased = 0 then .finite negative fraction (-1074)
  else .finite negative ((1 <<< 52) + fraction) ((biased : Int) - 1075)

/-- `⌊log₁₀ (num / den)⌋`, for positive arguments: of the two candidates that the number of digits
leaves, the right one. -/
def log10Floor (num den : Nat) : Int :=
  let guess : Int := (Nat.toDigits 10 num).length - (Nat.toDigits 10 den).length
  let reached := if 0 ≤ guess then den * Nat.pow 10 guess.toNat ≤ num
    else den ≤ num * Nat.pow 10 (-guess).toNat
  if reached then guess else guess - 1

/-- A decimal number `digits · 10 ^ exponent`. -/
structure Decimal where
  /-- The digits, as one number. -/
  digits : Nat
  /-- The power of ten that scales them. -/
  exponent : Int
  deriving DecidableEq

/-- The reals that round to a number, as multiples of `1 / den`: the number itself and the ends of
the interval, which belong to it if `closed`. -/
structure Interval where
  /-- The lower end. -/
  low : Nat
  /-- The number. -/
  value : Nat
  /-- The upper end. -/
  high : Nat
  /-- The common denominator. -/
  den : Nat
  /-- Whether the ends round to the number. -/
  closed : Bool

/-- The interval of `mantissa · 2 ^ exponent`. Below a power of two the neighbour is nearer, so the
lower half-width is half as large there. -/
def Interval.of (mantissa : Nat) (exponent : Int) : Interval :=
  let lowStep := if mantissa = 1 <<< 52 && -1074 < exponent then 1 else 2
  let scale := 1 <<< exponent.toNat
  { low := (4 * mantissa - lowStep) * scale
    value := 4 * mantissa * scale
    high := (4 * mantissa + 2) * scale
    den := 4 <<< (-exponent).toNat
    closed := mantissa % 2 == 0 }

/-- Whether `n / scale` lies in the interval. -/
def Interval.contains (i : Interval) (n scale : Nat) : Bool :=
  let p := n * i.den
  if i.closed then i.low * scale ≤ p && p ≤ i.high * scale
  else i.low * scale < p && p < i.high * scale

/-- Of the two neighbours of the number on the grid of multiples of `10 ^ exponent`, the one that
lies in the interval; of two the nearer, and at equal distance the even one. -/
def Interval.onGrid? (i : Interval) (exponent : Int) : Option Nat :=
  let up := Nat.pow 10 exponent.toNat
  let down := Nat.pow 10 (-exponent).toNat
  let num := i.value * down
  let den := i.den * up
  let floor := num / den
  let hits (n : Nat) := i.contains (n * up) down
  match hits floor, hits (floor + 1) with
  | false, false => none
  | true, false => some floor
  | false, true => some (floor + 1)
  | true, true =>
    let twice := 2 * (num % den)
    if twice < den || (twice = den && floor % 2 = 0) then some floor else some (floor + 1)

/-- Try grids of ever more digits. The first with a hit has the fewest digits. -/
def Interval.search (i : Interval) (exponent : Int) : Nat → Decimal
  | 0 => ⟨0, 0⟩
  | more + 1 =>
    match i.onGrid? exponent with
    | some digits => ⟨digits, exponent⟩
    | none => i.search (exponent - 1) more

/-- The fewest digits that read back as `mantissa · 2 ^ exponent`, a positive number. Seventeen
digits always suffice. -/
def shortest (mantissa : Nat) (exponent : Int) : Decimal :=
  let i := Interval.of mantissa exponent
  i.search (log10Floor i.value i.den) 18

/-- How floating-point numbers are written. -/
structure Layout where
  /-- The least decimal exponent written in positional notation. -/
  leastPositional : Int
  /-- The first decimal exponent that is too large for positional notation. -/
  firstScientific : Int
  /-- Whether a mantissa of one digit keeps a fraction in scientific notation. -/
  scientificFraction : Bool
  /-- The spelling of infinity. -/
  infinity : String
  /-- The spelling of a value that is no number. -/
  notANumber : String
  /-- Whether a negative zero keeps its sign. -/
  signedZero : Bool

/-- Digits with a decimal point: positional if the exponent of the first digit allows, otherwise one
digit before the point and an exponent of at least two digits with its sign. -/
def Layout.render (layout : Layout) (digits : List Char) (exponent : Int) : List Char :=
  let lead : Int := exponent + digits.length - 1
  if layout.leastPositional ≤ lead && lead < layout.firstScientific then
    if lead < 0 then '0' :: '.' :: List.replicate (-lead - 1).toNat '0' ++ digits
    else
      let whole := (lead + 1).toNat
      if digits.length ≤ whole then
        digits ++ List.replicate (whole - digits.length) '0' ++ ['.', '0']
      else digits.take whole ++ '.' :: digits.drop whole
  else
    let fraction := digits.drop 1
    let point := if fraction.isEmpty then (if layout.scientificFraction then ['.', '0'] else [])
      else '.' :: fraction
    let size := Nat.toDigits 10 lead.natAbs
    digits.take 1 ++ point ++ ['e', if lead < 0 then '-' else '+'] ++
      (if size.length < 2 then '0' :: size else size)

/-- Remove the zeros at the end of the digits; the exponent grows with each. -/
def stripZeros : List Char → Int → List Char × Int
  | digits, exponent =>
    let kept := (digits.reverse.dropWhile (· == '0')).reverse
    (kept, exponent + (digits.length - kept.length))

/-- Write a number in a layout, given a choice of digits for a positive number. -/
def Layout.write (layout : Layout) (choose : Nat → Int → Decimal) (x : Float) : String :=
  match decode x with
  | .nan => layout.notANumber
  | .infinite negative => (if negative then "-" else "") ++ layout.infinity
  | .finite negative mantissa exponent =>
    if mantissa = 0 then (if negative && layout.signedZero then "-0.0" else "0.0")
    else
      let d := choose mantissa exponent
      let (digits, scale) := stripZeros (Nat.toDigits 10 d.digits) d.exponent
      (if negative then "-" else "") ++ String.ofList (layout.render digits scale)

/-- Numbers in messages and dumps: positional from `0.0001` to below `10 ^ 16`, no fraction for a
single digit in scientific notation. -/
def plain : Layout := ⟨-4, 16, false, "inf", "nan", true⟩

/-- The text of a number in messages and dumps: its shortest digits in the plain layout. -/
def floatText (x : Float) : String := plain.write shortest x

/-- Numbers stored in a text column: positional from `0.0001` to below `10 ^ 15`, always with a
fraction. -/
def stored : Layout := ⟨-4, 15, true, "Inf", "NaN", false⟩

end SoarProject.Number
