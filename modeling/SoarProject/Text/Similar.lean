/-!
# Similar words

How alike two words are. The longest block that both have in common is taken out, then the longest
ones of what stands before it and of what stands behind it, and so on. The more characters these
blocks make up, the more alike are the words.
-/

namespace SoarProject.Text

/-- The length of the longest common beginning. -/
def commonStart : List Char → List Char → Nat
  | a :: as, b :: bs => if a = b then commonStart as bs + 1 else 0
  | _, _ => 0

/-- A block that occurs in two words. -/
structure CommonBlock where
  /-- Where it begins in the first word. -/
  first : Nat
  /-- Where it begins in the second word. -/
  second : Nat
  /-- Its length. -/
  length : Nat

/-- The longest block that two words have in common; of several the one that begins first in the
first word, and then in the second. -/
def longestBlock (a b : List Char) : CommonBlock :=
  let starts := (List.range a.length).flatMap fun i => (List.range b.length).map (i, ·)
  starts.foldl (fun best (i, j) =>
    let length := commonStart (a.drop i) (b.drop j)
    if best.length < length then ⟨i, j, length⟩ else best) ⟨0, 0, 0⟩

/-- The number of characters in common blocks; each step takes at least one from the first word, so
`fuel` need not be more than its length. -/
def commonWithin : Nat → List Char → List Char → Nat
  | 0, _, _ => 0
  | fuel + 1, a, b =>
    let block := longestBlock a b
    if block.length = 0 then 0
    else
      commonWithin fuel (a.take block.first) (b.take block.second) + block.length +
        commonWithin fuel (a.drop (block.first + block.length))
          (b.drop (block.second + block.length))

/-- The number of characters that two words have in common. -/
def commonChars (a b : String) : Nat := commonWithin a.length a.toList b.toList

/-- Whether common characters make up at least three fifths of two words. -/
def areSimilar (a b : String) : Bool := 3 * (a.length + b.length) ≤ 10 * commonChars a b

end SoarProject.Text
