import SoarProject.Rule.Terminal

/-!
# What may come next

Which terminals are tried at a place depends on what was read last. A sign that is not tried is not
seen there: `-1` is the integer after an attribute, and the function `-` with the argument `1` after
the parenthesis of a call. `Place.expected` lists the terminals; they are those that some production
can continue with after such a token, whatever is open around it.
-/

namespace SoarProject.Rule

/-- What was read last. -/
inductive Place where
  | start
  | name
  | heading
  | conditionStart
  | conditionClass
  | identifier
  | negation
  | conjunctionStart
  | conditionEnd
  | testNegation
  | pathStep
  | conjunctiveStart
  | relation
  | disjunctionStart
  | testedVariable
  | constant
  | conjunctiveEnd
  | disjunctionEnd
  | acceptable
  | arrow
  | actionStart
  | makeVariable
  | callStart
  | functionName
  | makePathStep
  | valueVariable
  | callEnd
  | preference
  | preferenceComma
  | actionEnd

namespace Place

/-- The terminals of constants. -/
def constants : List Terminal := [.float, .integer, .quoted, .symbol]

/-- The terminals of constants and variables. -/
def singles : List Terminal := .variableName :: constants

/-- The terminals at which a simple test may begin. -/
def simpleTests : List Terminal :=
  [.less, .doubleLess, .lessEqual, .lessEqualGreater, .lessGreater, .equal, .greater,
    .greaterEqual] ++ singles

/-- The terminals that may follow a test. -/
def testFollow : List Terminal :=
  [.rightParen, .minus, .caret, .plus, .dot, .leftBrace] ++ simpleTests

/-- The terminals at which a value on the right side may begin. -/
def values : List Terminal := .leftParen :: singles

/-- The terminals of preferences. -/
def preferences : List Terminal :=
  [.plus, .minus, .bang, .tilde, .atSign, .greater, .equal, .less, .ampersand]

/-- The terminals that may follow a preference. -/
def valueFollow : List Terminal := [.rightParen, .caret] ++ preferences ++ values

/-- The terminals tried after what was read last. -/
def expected : Place → List Terminal
  | .start => [.symbol]
  | .name => [.leftParen, .minus, .documentation, .flag, .leftBrace]
  | .heading => [.leftParen, .minus, .flag, .leftBrace]
  | .conditionStart => [.symbol, .variableName]
  | .conditionClass => [.variableName]
  | .identifier => [.rightParen, .minus, .caret]
  | .negation => [.leftParen, .leftBrace]
  | .conjunctionStart => [.leftParen, .minus, .leftBrace]
  | .conditionEnd => [.leftParen, .minus, .arrow, .leftBrace, .rightBrace]
  | .testNegation => [.caret]
  | .pathStep => .leftBrace :: simpleTests
  | .conjunctiveStart => simpleTests
  | .relation => singles
  | .disjunctionStart => constants
  | .testedVariable => .rightBrace :: testFollow
  | .constant =>
    [.rightBrace, .comma, .doubleGreater, .leftParen] ++ preferences ++ testFollow
  | .conjunctiveEnd => testFollow
  | .disjunctionEnd => .rightBrace :: testFollow
  | .acceptable => [.rightParen, .minus, .caret, .leftBrace] ++ simpleTests
  | .arrow => [.leftParen]
  | .actionStart => [.star, .plus, .minus, .slash, .symbol, .variableName]
  | .makeVariable => [.caret]
  | .callStart => [.star, .plus, .minus, .slash, .symbol]
  | .functionName => .rightParen :: values
  | .makePathStep => values
  | .valueVariable => [.comma, .dot] ++ valueFollow
  | .callEnd => [.comma, .dot] ++ valueFollow
  | .preference => .comma :: valueFollow
  | .preferenceComma => valueFollow
  | .actionEnd => [.leftParen]

end Place

end SoarProject.Rule
