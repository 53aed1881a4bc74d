import SoarProject.Number.Literal
import SoarProject.Statement.Basic
import SoarProject.Text.Percent

/-!
# Tokens of statements

A statement is a row of words, quoted names, texts, numbers, parameters and signs; blanks and comments
between them do not count. Parameters are numbered from zero. A semicolon behind a token ends the
statement; what follows it is not looked at. What is no token becomes one that fits nowhere, so that a fault before it
is found first.
-/

namespace SoarProject.Statement

/-- A token of a statement. -/
inductive Token where
  | word (s : String)
  /-- A name in brackets or backquotes, and how it is written. -/
  | name (written s : String)
  /-- A name between double quotes, which may stand for a text. -/
  | quoted (s : String)
  | text (s : String)
  /-- Bytes, as they are written. -/
  | bytes (written : String)
  | number (s : String)
  | parameter (written : String) (index : Nat)
  | sign (s : String)
  /-- Something that is no token. -/
  | illegal (s : String)
  /-- The end of the statement, and whether anything but blanks and comments follows it. -/
  | finish (more : Bool)
  deriving DecidableEq

/-- A token as it is written. -/
def Token.written : Token → String
  | .word s | .number s | .sign s | .illegal s => s
  | .name written _ | .bytes written | .parameter written _ => written
  | .quoted s => Identifier.quoted s
  | .text s => Text.sqlQuoted s
  | .finish _ => ";"

/-! ### Blanks and comments -/

/-- Whether a character stands between tokens. -/
def isGap (c : Char) : Bool :=
  c == ' ' || c == '\t' || c == '\n' || c == '\r' || c == '\x0c'

/-- The mark that may begin a text. It counts as a blank wherever a token could begin. -/
def orderMark : Char := '\ufeff'

/-- What follows the end of a comment. -/
def behindStar : List Char → List Char
  | '*' :: '/' :: rest => rest
  | _ :: rest => behindStar rest
  | [] => []

/-- What follows a comment, if a text begins with one. -/
def behindComment? : List Char → Option (List Char)
  | '-' :: '-' :: rest => some (rest.dropWhile (· != '\n'))
  | '/' :: '*' :: c :: rest => some (behindStar (c :: rest))
  | _ => none

/-- The end of a comment takes nothing from what comes before the comment. -/
theorem length_behindStar_le (s : List Char) : (behindStar s).length ≤ s.length := by
  fun_induction behindStar s with
  | case1 => grind
  | case2 _ _ _ ih => exact Nat.le_succ_of_le ih
  | case3 => exact Nat.le_refl _

/-- A comment takes something away from the text. -/
theorem length_behindComment?_lt {s r : List Char} (h : behindComment? s = some r) :
    r.length < s.length := by
  unfold behindComment? at h
  split at h
  · rename_i rest
    have := (List.dropWhile_sublist (· != '\n') (l := rest)).length_le
    grind
  · rename_i c rest
    have := length_behindStar_le (c :: rest)
    grind
  · simp at h

/-- Whether a text holds nothing but blanks and comments. -/
def isIdle (s : List Char) : Bool :=
  match _hs : s with
  | [] => true
  | c :: rest =>
    if isGap c then isIdle rest
    else
      match _hc : behindComment? (c :: rest) with
      | some more => isIdle more
      | none => false
termination_by s.length
decreasing_by
  · simp
  · have := length_behindComment?_lt _hc
    grind

/-! ### Single tokens -/

/-- Whether a word may begin with a character. -/
def isWordStart (c : Char) : Bool := c.isAlpha || c == '_' || 0x80 ≤ c.toNat

/-- Whether a word may go on with a character. -/
def isWordPart (c : Char) : Bool := isWordStart c || c.isDigit || c == '$'

/-- The end of a literal: what it holds, where a doubled quote stands for one, and the rest. -/
def literal? (quote : Char) : List Char → Option (List Char × List Char)
  | [] => none
  | [c] => if c = quote then some ([], []) else none
  | c :: d :: rest =>
    if c ≠ quote then (literal? quote (d :: rest)).map fun (s, r) => (c :: s, r)
    else if d = quote then (literal? quote rest).map fun (s, r) => (quote :: s, r)
    else some ([], d :: rest)

/-- The number of digits that a text begins with. -/
def digitRun (s : List Char) : Nat := (s.takeWhile Char.isDigit).length

/-- The length of the exponent that a text begins with. -/
def exponentLength : List Char → Nat
  | e :: s :: rest =>
    if e ≠ 'e' ∧ e ≠ 'E' then 0
    else if s.isDigit then 1 + digitRun (s :: rest)
    else if (s == '+' || s == '-') && rest.head?.any Char.isDigit then 2 + digitRun rest
    else 0
  | _ => 0

/-- The length of the number that a text begins with: digits, a point, digits and an exponent, or
hexadecimal digits behind `0x`. -/
def numberLength (s : List Char) : Nat :=
  match s with
  | '0' :: x :: h :: rest =>
    if (x == 'x' || x == 'X') && (Text.hexValue? h).isSome then
      3 + (rest.takeWhile fun c => (Text.hexValue? c).isSome).length
    else decimalLength s
  | _ => decimalLength s
where
  /-- The length of a number with decimal digits. -/
  decimalLength (s : List Char) : Nat :=
    let whole := digitRun s
    let fraction :=
      match s.drop whole with
      | '.' :: rest => 1 + digitRun rest
      | _ => 0
    whole + fraction + exponentLength (s.drop (whole + fraction))

/-- The signs, longer ones first. -/
def signs : List String := [
  "->>", "->", "||", "==", "<>", "<=", "<<", ">=", ">>", "!=", "+", "-", "*", "/", "%", "&", "|", "~",
  "=", "<", ">", "(", ")", ",", "."]

/-- The token that begins with a character, and how many characters of the rest belong to it, where
`parameters` parameters came before. -/
def tokenAt (parameters : Nat) (c : Char) (rest : List Char) : Token × Nat :=
  let taking (n : Nat) : String := String.ofList (c :: rest.take n)
  if c = '?' then
    let n := digitRun rest
    (.parameter (taking n) parameters, n)
  else if ['@', '#', ':', '$'].contains c then
    let n := (rest.takeWhile isWordPart).length
    (if n = 0 then .illegal (taking 0) else .parameter (taking n) parameters, n)
  else if ['\'', '"', '`'].contains c then
    match literal? c rest with
    | none => (.illegal (taking rest.length), rest.length)
    | some (body, more) =>
      let n := rest.length - more.length
      let s := String.ofList body
      (if c = '\'' then .text s else if c = '"' then .quoted s else .name (taking n) s, n)
  else if c = '[' then
    let body := rest.takeWhile (· != ']')
    if body.length = rest.length then (.illegal (taking rest.length), rest.length)
    else (.name (taking (body.length + 1)) (String.ofList body), body.length + 1)
  else if (c = 'x' ∨ c = 'X') ∧ rest.head? = some '\'' then
    let body := (rest.drop 1).takeWhile (· != '\'')
    let n := min (body.length + 2) rest.length
    let isWhole := n = body.length + 2 && body.length % 2 = 0 &&
      body.all fun d => (Text.hexValue? d).isSome
    (if isWhole then .bytes (taking n) else .illegal (taking n), n)
  else if isWordStart c then
    let n := (rest.takeWhile isWordPart).length
    (.word (taking n), n)
  else if c.isDigit || (c == '.' && rest.head?.any Char.isDigit) then
    let n := numberLength (c :: rest) - 1
    let more := ((rest.drop n).takeWhile isWordPart).length
    (if more = 0 then .number (taking n) else .illegal (taking (n + more)), n + more)
  else
    match signs.find? fun sign => sign.toList.isPrefixOf (c :: rest) with
    | some sign => (.sign sign, sign.length - 1)
    | none => (.illegal (taking 0), 0)

/-- Cut a text into tokens. `begun` tells whether tokens came before, and `parameters` how many of
them were parameters. -/
def tokenize (begun : Bool) (parameters : Nat) (s : List Char) : List Token :=
  match _hs : s with
  | [] => []
  | c :: rest =>
    if isGap c || c == orderMark || (c == ';' && !begun) then tokenize begun parameters rest
    else if c = ';' then [.finish (!isIdle rest)]
    else
      match _hc : behindComment? (c :: rest) with
      | some more => tokenize begun parameters more
      | none =>
        let (token, n) := tokenAt parameters c rest
        let parameters :=
          match token with
          | .parameter .. => parameters + 1
          | _ => parameters
        token :: tokenize true parameters (rest.drop n)
termination_by s.length
decreasing_by
  · simp
  · have := length_behindComment?_lt _hc
    grind
  · simp only [List.length_cons, List.length_drop]
    omega

end SoarProject.Statement
