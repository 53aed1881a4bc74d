/-!
# Search patterns

A pattern of a search: a percent sign stands for any text, an underscore for any one character, and
every other character for itself, where the letters of ASCII match in either case.
-/

namespace SoarProject.Text

/-- Whether one character of a pattern stands for a character. -/
def likeChar (c d : Char) : Bool := c == '_' || c.toLower == d.toLower

/-- At each place of a list, whether something from there on is true. -/
def anyFrom (bs : List Bool) : List Bool :=
  bs.foldr (fun b later => (b || later.head?.getD false) :: later) []

/-- Whether a pattern fits each of the suffixes of a text, the longest one first. The table for a
pattern is made from the table for its rest, so the work is bounded by the product of the lengths. -/
def likeSuffixes : List Char → List Char → List Bool
  | [], s => s.map (fun _ => false) ++ [true]
  | c :: pattern, s =>
    let later := likeSuffixes pattern s
    if c = '%' then anyFrom later
    else (s.zip later.tail).map (fun (d, fits) => likeChar c d && fits) ++ [false]

/-- Whether a text fits a pattern. -/
def like (pattern s : List Char) : Bool := (likeSuffixes pattern s).head?.getD false

end SoarProject.Text
