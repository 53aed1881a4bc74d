import SoarProject.Rule.Token

/-!
# The words of a production

The text of a production as a list of words: its names, variables and constants between fixed signs.
The canonical text writes each word apart, symbolic constants between bars, and a comma after each
preference.

* `Rule.Production.words`: the words of a production, in their order.
* `Rule.Word.Spelled`: what the pattern of its terminal asks of a word.
* `Rule.Production.canonicalText`: the words with single spaces between them, in the frame of a
  production.
-/

namespace SoarProject.Rule

open SoarProject.Text

/-- How a production is written where there is a choice. -/
structure Style where
  /-- Whether the sign of an equality is written. -/
  writesEquality : Bool
  /-- The text of a floating-point number. -/
  floatText : Float → String

/-! ### Words -/

/-- A word in the text of a production. -/
inductive Word where
  /-- A fixed sign, by its terminal. -/
  | sign (t : Terminal)
  /-- The name of the production, or the word that asks for a state. -/
  | symbol (s : String)
  /-- A variable. -/
  | variableName (s : String)
  /-- The name of a function. -/
  | functionName (s : String)
  /-- A constant. -/
  | constant (c : Constant)
  /-- The documentation. -/
  | documentation (s : String)
  /-- A flag. -/
  | flag (s : String)

/-- The characters of a fixed sign. -/
def Terminal.sign : Terminal → List Char
  | .arrow => ['-', '-', '>']
  | .lessEqualGreater => ['<', '=', '>']
  | .doubleLess => ['<', '<']
  | .doubleGreater => ['>', '>']
  | .lessGreater => ['<', '>']
  | .lessEqual => ['<', '=']
  | .greaterEqual => ['>', '=']
  | .minus => ['-']
  | .leftBrace => ['\x7b']
  | .rightBrace => ['\x7d']
  | .leftParen => ['(']
  | .rightParen => [')']
  | .caret => ['^']
  | .dot => ['.']
  | .plus => ['+']
  | .equal => ['=']
  | .less => ['<']
  | .greater => ['>']
  | .star => ['*']
  | .slash => ['/']
  | .comma => [',']
  | .bang => ['!']
  | .tilde => ['~']
  | .atSign => ['@']
  | .ampersand => ['&']
  | _ => []

/-- The terminals of relations, in the order of their codes. -/
def relationTerminals : List Terminal :=
  [.equal, .lessGreater, .less, .lessEqual, .greaterEqual, .greater, .lessEqualGreater]

/-- The terminals of preferences, in the order of their codes. -/
def preferenceTerminals : List Terminal :=
  [.plus, .minus, .bang, .tilde, .atSign, .greater, .equal, .less, .ampersand]

/-- The terminal at the place of a code. -/
def terminalOf (terminals : List Terminal) (code : Int) : Terminal :=
  terminals[code.toNat]?.getD .equal

/-- The terminal of the name of a function. -/
def functionTerminal (s : String) : Terminal :=
  if s = "+" then .plus
  else if s = "-" then .minus
  else if s = "*" then .star
  else if s = "/" then .slash
  else .symbol

namespace Word

/-- The terminal of a word. -/
def terminal : Word → Terminal
  | .sign t => t
  | .symbol _ => .symbol
  | .variableName _ => .variableName
  | .functionName s => functionTerminal s
  | .constant c => match c.value with
    | .int _ => .integer
    | .float _ => .float
    | _ => .quoted
  | .documentation _ => .documentation
  | .flag _ => .flag

/-- The digits of an integer, behind a minus sign if it is negative. -/
def integerChars (n : Int) : List Char :=
  (if n < 0 then ['-'] else []) ++ Nat.toDigits 10 n.natAbs

/-- The characters of a word. -/
def chars (style : Style) : Word → List Char
  | .sign t => t.sign
  | .symbol s | .variableName s | .functionName s => s.toList
  | .constant c => match c.value with
    | .int n => integerChars n
    | .float x => (style.floatText x).toList
    | .text s => '|' :: (s.toList ++ ['|'])
    | _ => []
  | .documentation s => '"' :: (s.toList ++ ['"'])
  | .flag s => ':' :: s.toList

end Word

/-- A terminal matches all of a text. -/
def Terminal.Matches (t : Terminal) (s : List Char) : Prop := t.match? s = some (s, [])

instance (t : Terminal) (s : List Char) : Decidable (t.Matches s) := by
  unfold Terminal.Matches
  infer_instance

/-- A symbolic constant holds no bar, and an integer has not too many digits. -/
def Constant.Spelled (c : Constant) : Prop :=
  match c.value with
  | .int n => (Nat.toDigits 10 n.natAbs).length ≤ Number.maxIntegerDigits
  | .text s => '|' ∉ s.toList
  | _ => True

instance (c : Constant) : Decidable c.Spelled := by
  unfold Constant.Spelled
  split <;> infer_instance

/-- A word is spelled right: it matches the pattern of its terminal, and no text ends before its
closing sign. -/
def Word.Spelled : Word → Prop
  | .sign _ => True
  | .symbol s => Terminal.symbol.Matches s.toList
  | .variableName s => Terminal.variableName.Matches s.toList
  | .functionName s => Terminal.symbol.Matches s.toList ∨ s ∈ ["+", "-", "*", "/"]
  | .constant c => c.Spelled
  | .documentation s => '"' ∉ s.toList
  | .flag s => Terminal.flag.Matches (':' :: s.toList)

instance (w : Word) : Decidable w.Spelled := by
  unfold Word.Spelled
  split <;> infer_instance

/-- The text of a floating-point number is one, and reads as the number. -/
def Style.Inverts (style : Style) (x : Float) : Prop :=
  Terminal.float.Matches (style.floatText x).toList ∧
    (Number.Literal.ofChars? isDecimalDigit (style.floatText x).toList).map (·.toFloat) = some x

/-! ### Left side -/

section

variable (style : Style)

/-- Words with a dot between each two. -/
def dotted : List (List Word) → List Word
  | [] => []
  | first :: rest => first ++ rest.flatMap (.sign .dot :: ·)

/-- A variable or a constant. -/
def SingleTest.words (t : SingleTest) : List Word :=
  t.variableName.toList.map .variableName ++ t.constant.toList.map .constant

/-- A comparison. -/
def RelationalTest.words (t : RelationalTest) : List Word :=
  (if t.relation = 0 ∧ style.writesEquality = false then []
    else [.sign (terminalOf relationTerminals t.relation)]) ++ t.single.words

/-- A choice between constants. -/
def DisjunctionTest.words (t : DisjunctionTest) : List Word :=
  .sign .doubleLess :: (t.constants.map .constant ++ [.sign .doubleGreater])

/-- A choice or a comparison. -/
def SimpleTest.words (t : SimpleTest) : List Word :=
  t.disjunction.toList.flatMap DisjunctionTest.words ++
    t.relational.toList.flatMap (RelationalTest.words style)

/-- Several tests in braces. -/
def ConjunctiveTest.words (t : ConjunctiveTest) : List Word :=
  .sign .leftBrace :: (t.simpleTests.flatMap (SimpleTest.words style) ++ [.sign .rightBrace])

/-- Several tests or a single one. -/
def Test.words (t : Test) : List Word :=
  t.conjunctive.toList.flatMap (ConjunctiveTest.words style) ++
    t.simple.toList.flatMap (SimpleTest.words style)

/-- The test of a value, with the mark for an acceptable preference. -/
def ValueTest.words (t : ValueTest) : List Word :=
  t.test.words style ++ if t.acceptable then [.sign .plus] else []

/-- The tests of a path and its values. -/
def AttributeValueTest.words (t : AttributeValueTest) : List Word :=
  (if t.negated then [.sign .minus] else []) ++
    .sign .caret :: (dotted (t.attributes.map fun a => a.test.words style) ++
      t.values.flatMap (ValueTest.words style))

/-- The tests of one identifier. -/
def IdentifierCondition.words (c : IdentifierCondition) : List Word :=
  .sign .leftParen :: ((if c.hasState then [.symbol "state"] else []) ++
    .variableName c.variableName :: (c.tests.flatMap (AttributeValueTest.words style) ++
      [.sign .rightParen]))

mutual

/-- The tests of one identifier, or several conditions in braces. -/
def PositiveCondition.words : PositiveCondition → List Word
  | ⟨some i, _⟩ => i.words style
  | ⟨none, some conditions⟩ =>
    .sign .leftBrace :: (Condition.allWords conditions ++ [.sign .rightBrace])
  | ⟨none, none⟩ => []

/-- A condition that may be negated. -/
def Condition.words : Condition → List Word
  | ⟨positive, negated⟩ => (if negated then [.sign .minus] else []) ++ positive.words

/-- Several conditions. -/
def Condition.allWords : List Condition → List Word
  | [] => []
  | c :: rest => c.words ++ Condition.allWords rest

end

/-! ### Right side -/

mutual

/-- A constant, a function call or a variable. -/
def RhsValue.words : RhsValue → List Word
  | ⟨some c, _, _⟩ => [.constant c]
  | ⟨none, some call, _⟩ => call.words
  | ⟨none, none, v⟩ => v.toList.map .variableName

/-- A function call. -/
def FunctionCall.words : FunctionCall → List Word
  | ⟨functionName, arguments⟩ => .sign .leftParen :: .functionName functionName ::
    (RhsValue.allWords arguments ++ [.sign .rightParen])

/-- Several values. -/
def RhsValue.allWords : List RhsValue → List Word
  | [] => []
  | v :: rest => v.words ++ RhsValue.allWords rest

end

/-- A preference with its comma. -/
def PreferenceSpecifier.words (p : PreferenceSpecifier) : List Word :=
  .sign (terminalOf preferenceTerminals p.kind) ::
    (p.binary.toList.flatMap (fun b => b.referent.words) ++ [.sign .comma])

/-- A value with its preferences. -/
def ValueMake.words (m : ValueMake) : List Word :=
  m.value.words ++ m.preferences.flatMap PreferenceSpecifier.words

/-- An attribute path with its values. -/
def AttributeMake.words (m : AttributeMake) : List Word :=
  .sign .caret :: (dotted (m.path.map RhsValue.words) ++ m.values.flatMap ValueMake.words)

/-- New attribute values. -/
def VariableMake.words (m : VariableMake) : List Word :=
  .sign .leftParen :: .variableName m.variableName ::
    (m.makes.flatMap AttributeMake.words ++ [.sign .rightParen])

/-- New attribute values, or a function call. -/
def Action.words (a : Action) : List Word :=
  a.make.toList.flatMap VariableMake.words ++ a.call.toList.flatMap FunctionCall.words

/-! ### Productions -/

/-- The words of a production. -/
def Production.words (p : Production) : List Word :=
  .symbol p.name :: (p.documentation.toList.map .documentation ++ p.flags.map .flag ++
    Condition.allWords style p.conditions ++ .sign .arrow :: p.actions.flatMap Action.words)

/-- The words of a production with single spaces between them, in its frame. -/
def Production.canonicalText (p : Production) : String :=
  String.ofList (['s', 'p', ' ', '\x7b'] ++ (p.words style).flatMap (fun w => ' ' :: w.chars style) ++
    [' ', '\x7d'])

end

end SoarProject.Rule
