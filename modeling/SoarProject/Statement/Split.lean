import SoarProject.Text.Blank

/-!
# Texts of statements

Two scans over the text of statements that leave quoted literals alone. `splitStatements` cuts a
text at the semicolons outside literals; `numberParameters` gives each question mark outside
literals a number. A quote that is doubled inside a literal closes the literal and opens it again,
which makes no difference to either.
-/

namespace SoarProject.Statement

open SoarProject.Text

/-- The quote of the literal that a scan is in, after one more character. -/
def quoteAfter (quote : Option Char) (c : Char) : Option Char :=
  match quote with
  | some q => if c = q then none else some q
  | none => if c = '\'' ∨ c = '"' then some c else none

/-- A statement without the blanks around it; nothing if nothing is left. -/
def piece (chars : List Char) : List String :=
  match trim chars with
  | [] => []
  | s => [String.ofList s]

/-- Cut a text into statements. `front` is the part of the current statement that was scanned, the
last character first. -/
def splitFrom (quote : Option Char) (front : List Char) : List Char → List String
  | [] => piece front.reverse
  | c :: rest =>
    if quote = none ∧ c = ';' then piece front.reverse ++ splitFrom none [] rest
    else splitFrom (quoteAfter quote c) (c :: front) rest

/-- The statements of a text, without the semicolons and blanks between them. -/
def splitStatements (text : String) : List String := splitFrom none [] text.toList

/-- Number the question marks in a text, after `count` of them. -/
def numberFrom (quote : Option Char) (count : Nat) : List Char → List Char × Nat
  | [] => ([], count)
  | c :: rest =>
    if quote = none ∧ c = '?' then
      let (text, total) := numberFrom none (count + 1) rest
      (':' :: 'p' :: (toString (count + 1)).toList ++ text, total)
    else
      let (text, total) := numberFrom (quoteAfter quote c) count rest
      (c :: text, total)

/-- A statement with its question marks numbered, and how many there are. -/
def numberParameters (text : String) : String × Nat :=
  let (chars, count) := numberFrom none 0 text.toList
  (String.ofList chars, count)

end SoarProject.Statement
