import SoarProject.Number.Extended
import SoarProject.Number.Literal

/-!
# Numbers in a store

How a store converts between texts and floating-point numbers. Both conversions run in extended
arithmetic and round at every step. So the number read from a text may lie beside the nearest one,
and the fifteen digits written for a number may be those of a neighbour.
-/

namespace SoarProject.Number

open SoarProject.Text

/-! ### Reading -/

/-- Digits are kept until their number reaches this bound. -/
def significandBound : Nat := (0x8000000000000000 - 10) / 10

/-- Append digits before the point to a number. Gives the number, and how many digits were dropped
after it had reached the bound. -/
def takeWhole (n : Nat) : List Char → Nat × Nat
  | [] => (n, 0)
  | c :: rest =>
    let n := 10 * n + (digitValue? c).getD 0
    if n < significandBound then takeWhole n rest else (n, rest.length)

/-- Append digits after the point to a number. Gives the number, and how many digits were kept. -/
def takeFraction (n : Nat) : List Char → Nat × Nat
  | [] => (n, 0)
  | c :: rest =>
    if n < significandBound then
      let (n, kept) := takeFraction (10 * n + (digitValue? c).getD 0) rest
      (n, kept + 1)
    else (n, 0)

/-- Move powers of ten into the digits, up to 63 bits; `count` bounds how many. -/
def raiseDigits : Nat → Nat → Nat → Nat × Nat
  | 0, n, exponent => (n, exponent)
  | count + 1, n, exponent =>
    if exponent = 0 || 0x7fffffffffffffff / 10 ≤ n then (n, exponent)
    else raiseDigits count (10 * n) (exponent - 1)

/-- Cancel zeros at the end of the digits against negative powers of ten. -/
def lowerDigits : Nat → Nat → Nat → Nat × Nat
  | 0, n, exponent => (n, exponent)
  | count + 1, n, exponent =>
    if exponent = 0 || n % 10 ≠ 0 then (n, exponent) else lowerDigits count (n / 10) (exponent - 1)

/-- A power of ten. -/
def powerOfTen (n : Nat) : Extended := (Extended.ofNat 1).mulPower (.ofNat 10) n

/-- `digits · 10 ^ exponent`. Powers beyond `10 ^ 307` are applied in two steps. -/
def scaledUp (digits exponent : Nat) : Float :=
  let (n, e) := raiseDigits 20 digits exponent
  let scaled (e : Nat) := ((Extended.ofNat n).mul (powerOfTen e)).toFloat
  if e = 0 then (Extended.ofNat n).toFloat
  else if e ≤ 307 then scaled e
  else if e < 342 then scaled (e - 308) * 1e308
  else Float.ofBits 0x7ff0000000000000

/-- `digits / 10 ^ exponent`. Powers beyond `10 ^ 307` are applied in two steps. -/
def scaledDown (digits exponent : Nat) : Float :=
  let (n, e) := lowerDigits 20 digits exponent
  let scaled (e : Nat) := ((Extended.ofNat n).div (powerOfTen e)).toFloat
  if e = 0 then (Extended.ofNat n).toFloat
  else if e ≤ 307 then scaled e
  else if e < 342 then scaled (e - 308) / 1e308
  else 0.0

/-- The floating-point number that a store reads from a literal. -/
def Literal.toStored (l : Literal) : Float :=
  let (whole, dropped) := takeWhole 0 l.whole
  let (digits, kept) := takeFraction whole (l.fraction.getD [])
  let exponent : Int := l.exponent.getD 0 + dropped - kept
  let magnitude :=
    if digits = 0 then 0.0
    else if exponent < 0 then scaledDown digits exponent.natAbs
    else scaledUp digits exponent.natAbs
  if l.negative then -magnitude else magnitude

/-! ### Writing -/

/-- Multiply a scale by `step` as long as the number reaches it. -/
def growScale (x step : Extended) (digits : Nat) : Nat → Extended → Nat → Extended × Nat
  | 0, scale, exponent => (scale, exponent)
  | count + 1, scale, exponent =>
    let next := step.mul scale
    if x.lt next then (scale, exponent) else growScale x step digits count next (exponent + digits)

/-- Multiply a number by `step` as long as it is below a bound. -/
def growNumber (bound step : Extended) (digits : Nat) : Nat → Extended → Int → Extended × Int
  | 0, x, exponent => (x, exponent)
  | count + 1, x, exponent =>
    if x.lt bound then growNumber bound step digits count (x.mul step) (exponent - digits)
    else (x, exponent)

/-- A number from one to below ten and a power of ten whose product is the given positive number. -/
def normalized (x : Extended) : Extended × Int :=
  let (scale, up) := growScale x (.ofFloat 1e100) 100 4 (.ofNat 1) 0
  let (scale, up) := growScale x (.ofFloat 1e10) 10 10 scale up
  let (scale, up) := growScale x (.ofNat 10) 1 10 scale up
  let (x, exponent) := growNumber (.ofFloat 1e-8) (.ofFloat 1e8) 8 45 (x.div scale) up
  growNumber (.ofNat 1) (.ofNat 10) 1 10 x exponent

/-- Half a unit of the fifteenth digit. -/
def halfUnit : Extended := .ofFloat (5e-5 * 1e-10)

/-- The leading digits of a number below ten, cut off after `count` of them. -/
def leadingDigits : Nat → Extended → Nat → Nat
  | 0, _, front => front
  | count + 1, x, front =>
    let digit := x.floor
    leadingDigits count ((x.sub (.ofNat digit)).mul (.ofNat 10)) (10 * front + digit)

/-- Fifteen digits of a positive number `mantissa · 2 ^ exponent`: half a unit is added, and the rest
is cut off. -/
def fifteenDigits (mantissa : Nat) (exponent : Int) : Decimal :=
  let (x, lead) := normalized (.ofRatio mantissa 1 exponent)
  let x := x.add halfUnit
  let (x, lead) := if x.lt (.ofNat 10) then (x, lead) else (x.mul (.ofFloat 0.1), lead + 1)
  ⟨leadingDigits 15 x 0, lead - 14⟩

/-- The text of a number stored in a text column: fifteen digits. -/
def storedText (x : Float) : String := stored.write fifteenDigits x

end SoarProject.Number
