/-!
# Words for truth values

The words that stand for true and for false where a text sets a flag. Capitals of ASCII count as small
letters.
-/

namespace SoarProject.Text

/-- The words for true. -/
def trueWords : List String := ["1", "on", "t", "true", "y", "yes"]

/-- The words for false. -/
def falseWords : List String := ["0", "off", "f", "false", "n", "no"]

/-- The truth value that a text stands for. -/
def truthOf? (s : String) : Option Bool :=
  let word := s.map Char.toLower
  if trueWords.contains word then some true
  else if falseWords.contains word then some false
  else none

end SoarProject.Text
