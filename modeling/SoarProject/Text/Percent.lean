import SoarProject.Text.Quoted

/-!
# Percent codes

In an address, a percent sign and two hexadecimal digits stand for a byte; the bytes of a character
are those of its UTF-8 form. `percentDecode` reads such codes and `percentEncode` writes them.
-/

namespace SoarProject.Text

/-- The value of a hexadecimal digit. -/
def hexValue? (c : Char) : Option Nat :=
  if c.isDigit then some (c.toNat - '0'.toNat)
  else if 'a' ≤ c ∧ c ≤ 'f' then some (c.toNat - 'a'.toNat + 10)
  else if 'A' ≤ c ∧ c ≤ 'F' then some (c.toNat - 'A'.toNat + 10)
  else none

/-- The byte of a code whose two digits follow a percent sign. -/
def codedByte? (high low : Char) : Option Nat := do
  return 16 * (← hexValue? high) + (← hexValue? low)

/-- The ranges in which the bytes after the first byte of a character lie. -/
def continuation (first : Nat) : Option (List (Nat × Nat)) :=
  let rest := (0x80, 0xbf)
  if first < 0x80 then some []
  else if 0xc2 ≤ first ∧ first < 0xe0 then some [rest]
  else if first = 0xe0 then some [(0xa0, 0xbf), rest]
  else if first = 0xed then some [(0x80, 0x9f), rest]
  else if 0xe0 < first ∧ first < 0xf0 then some [rest, rest]
  else if first = 0xf0 then some [(0x90, 0xbf), rest, rest]
  else if 0xf0 < first ∧ first < 0xf4 then some [rest, rest, rest]
  else if first = 0xf4 then some [(0x80, 0x8f), rest, rest]
  else none

/-- The bytes from the front that lie in the ranges, one in each. -/
def takeWithin : List (Nat × Nat) → List Nat → List Nat
  | (low, high) :: ranges, b :: bytes =>
    if low ≤ b ∧ b ≤ high then b :: takeWithin ranges bytes else []
  | _, _ => []

/-- The character that stands for bytes that are none. -/
def replacementChar : Char := '\ufffd'

/-- The character with these bytes, the first of which is followed by `rest`. -/
def charOfBytes (first : Nat) (rest : List Nat) : Char :=
  let lead := if first < 0x80 then first else first % (1 <<< (6 - rest.length))
  Char.ofNat (rest.foldl (fun n b => 64 * n + b % 64) lead)

/-- The characters with some bytes. Bytes that are no character become one replacement for the
longest beginning of a character. -/
def ofBytes (bytes : List Nat) : List Char :=
  match bytes with
  | [] => []
  | first :: more =>
    match continuation first with
    | none => replacementChar :: ofBytes more
    | some ranges =>
      let rest := takeWithin ranges more
      let c := if rest.length = ranges.length then charOfBytes first rest else replacementChar
      c :: ofBytes (more.drop rest.length)
termination_by bytes.length
decreasing_by
  all_goals simp only [List.length_cons, List.length_drop]; omega

/-- Read percent codes; `bytes` are those that were read since the last character beyond ASCII, the
last one first. -/
def decodeFrom (bytes : List Nat) : List Char → List Char
  | '%' :: high :: low :: rest =>
    match codedByte? high low with
    | some b => decodeFrom (b :: bytes) rest
    | none => decodeFrom ('%'.toNat :: bytes) (high :: low :: rest)
  | c :: rest =>
    if c.toNat < 0x80 then decodeFrom (c.toNat :: bytes) rest
    else ofBytes bytes.reverse ++ c :: decodeFrom [] rest
  | [] => ofBytes bytes.reverse

/-- A text with percent codes, as it is meant. -/
def percentDecode (s : List Char) : String := String.ofList (decodeFrom [] s)

/-- The code of a byte. -/
def percentCode (b : UInt8) : List Char := '%' :: (hexDigits b.toNat 2).map Char.toUpper

/-- A text in which every character is coded but letters, digits and a few signs. -/
def percentEncode (signs : List Char) (s : String) : String :=
  String.ofList (s.toList.flatMap fun c =>
    if c.isAlphanum || ['_', '.', '-', '~'].contains c || signs.contains c then [c]
    else (String.utf8EncodeChar c).flatMap percentCode)

end SoarProject.Text
