import SoarProject.Text.Printable

/-!
# Quoted texts

Two ways to write a text between quotes. `quoted` is the form used in messages: it picks the quote
that the text does not hold and escapes what cannot be shown. `sqlQuoted` is the form of a literal
in a statement: single quotes, with each single quote of the text written twice.
-/

namespace SoarProject.Text

/-- The last `width` hexadecimal digits of a number, most significant first. -/
def hexDigits (n : Nat) : Nat → List Char
  | 0 => []
  | width + 1 => hexDigits (n / 16) width ++ [Nat.digitChar (n % 16)]

/-- One character of a quoted text: the quote and the backslash are escaped, and what is not
printable is written as a short escape or by its code point. -/
def quotedChar (quote : Char) (c : Char) : List Char :=
  if c == quote || c == '\\' then ['\\', c]
  else if c == '\t' then ['\\', 't']
  else if c == '\n' then ['\\', 'n']
  else if c == '\r' then ['\\', 'r']
  else if isPrintable c then [c]
  else if c.toNat < 0x100 then '\\' :: 'x' :: hexDigits c.toNat 2
  else if c.toNat < 0x10000 then '\\' :: 'u' :: hexDigits c.toNat 4
  else '\\' :: 'U' :: hexDigits c.toNat 8

/-- The quote for a text: a double quote if the text holds a single quote and no double quote. -/
def quoteFor (s : List Char) : Char := if s.contains '\'' && !s.contains '"' then '"' else '\''

/-- A text as messages show it. -/
def quoted (s : String) : String :=
  let q := quoteFor s.toList
  String.ofList (q :: s.toList.flatMap (quotedChar q) ++ [q])

/-- The first characters of a text as messages show it. What is left out may be the closing quote. -/
def quotedStart (count : Nat) (s : String) : String := String.ofList ((quoted s).toList.take count)

/-- The characters of a literal in a statement, without the quotes around it. -/
def doubleQuotes : List Char → List Char
  | [] => []
  | c :: rest => if c = '\'' then '\'' :: '\'' :: doubleQuotes rest else c :: doubleQuotes rest

/-- A text as a literal of a statement. -/
def sqlQuoted (s : String) : String := String.ofList ('\'' :: doubleQuotes s.toList ++ ['\''])

end SoarProject.Text
