import SoarProject.Number.Shortest

/-!
# Extended floating point

Positive numbers with a mantissa of 64 bits, eleven more than a `Float` keeps. Every operation rounds
its exact result to the nearest such number, and a tie to the one with an even mantissa. Exponents
are not bounded. `Extended.toFloat` rounds once more, so that two roundings may end beside the
nearest `Float`.
-/

namespace SoarProject.Number

/-- The quotient of two numbers, rounded to nearest, a tie to even. -/
def roundedQuotient (num den : Nat) : Nat :=
  let floor := num / den
  let twice := 2 * (num % den)
  if twice < den || (twice = den && floor % 2 = 0) then floor else floor + 1

/-- The number `mantissa · 2 ^ exponent`. -/
structure Extended where
  /-- The mantissa: zero, or a number of 64 bits. -/
  mantissa : Nat
  /-- The power of two that scales it. -/
  exponent : Int
  deriving DecidableEq

namespace Extended

/-- The number nearest to `num / den · 2 ^ exponent`. -/
def ofRatio (num den : Nat) (exponent : Int) : Extended :=
  if num = 0 then ⟨0, 0⟩
  else
    let quotient (shift : Int) : Nat × Nat :=
      (num <<< shift.toNat, den <<< (-shift).toNat)
    let most : Int := 64 - ((num.log2 : Int) - den.log2)
    let (n, d) := quotient most
    let shift := if n / d < 1 <<< 64 then most else most - 1
    let (n, d) := quotient shift
    let mantissa := roundedQuotient n d
    if mantissa = 1 <<< 64 then ⟨1 <<< 63, exponent - shift + 1⟩ else ⟨mantissa, exponent - shift⟩

/-- The number nearest to a natural number. -/
def ofNat (n : Nat) : Extended := ofRatio n 1 0

/-- The absolute value of a floating-point number; zero if it is not finite. -/
def ofFloat (x : Float) : Extended :=
  match decode x with
  | .finite _ mantissa exponent => ofRatio mantissa 1 exponent
  | _ => ⟨0, 0⟩

/-- The product. -/
def mul (a b : Extended) : Extended :=
  ofRatio (a.mantissa * b.mantissa) 1 (a.exponent + b.exponent)

/-- The quotient. -/
def div (a b : Extended) : Extended := ofRatio a.mantissa b.mantissa (a.exponent - b.exponent)

/-- Both mantissas at the smaller of the two exponents. -/
def aligned (a b : Extended) : Nat × Nat × Int :=
  let exponent := min a.exponent b.exponent
  (a.mantissa <<< (a.exponent - exponent).toNat, b.mantissa <<< (b.exponent - exponent).toNat,
    exponent)

/-- The sum. -/
def add (a b : Extended) : Extended :=
  let (m, n, exponent) := aligned a b
  ofRatio (m + n) 1 exponent

/-- The difference, or zero if it is negative. -/
def sub (a b : Extended) : Extended :=
  let (m, n, exponent) := aligned a b
  ofRatio (m - n) 1 exponent

/-- Whether a number is smaller than another one. -/
def lt (a b : Extended) : Bool :=
  let (m, n, _) := aligned a b
  m < n

/-- The integral part. -/
def floor (a : Extended) : Nat := a.mantissa <<< a.exponent.toNat >>> (-a.exponent).toNat

/-- `front · base ^ n`, by squaring the base again and again. -/
def mulPower (front base : Extended) (n : Nat) : Extended :=
  if _h : n = 0 then front
  else mulPower (if n % 2 = 1 then front.mul base else front) (base.mul base) (n / 2)
termination_by n

/-- The `Float` nearest to the number; infinite if the number is too large. -/
def toFloat (a : Extended) : Float :=
  if a.mantissa = 0 then 0.0
  else
    let last : Int := max (a.exponent + a.mantissa.log2 - 52) (-1074)
    let shift := last - a.exponent
    let n := roundedQuotient (a.mantissa <<< (-shift).toNat) (1 <<< shift.toNat)
    let bits := ((last + 1074).toNat <<< 52) + n
    Float.ofBits (min bits 0x7ff0000000000000).toUInt64

end Extended

end SoarProject.Number
