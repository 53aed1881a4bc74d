import SoarProject.Number.Shortest
import SoarProject.Rule.PartKind
import SoarProject.Text.Quoted

/-!
# Values

`Value` is what a caller hands over: the value of a constant, a new value for a column, a parameter
of a statement, a part of a production. `Cell` is what a table keeps: null, a 64-bit integer, a number
or a text.
-/

namespace SoarProject

/-- A value of any kind. -/
inductive Value where
  | null
  | bool (b : Bool)
  | int (n : Int)
  | float (x : Float)
  | text (s : String)
  | list (items : List Value)
  /-- Values under names. -/
  | dictionary (entries : List (String × Value))
  /-- A part of a production. Its fields may hold anything. -/
  | part (kind : Rule.PartKind) (fields : List (String × Value))

/-- A stored value. -/
inductive Cell where
  | null
  | int (n : Int)
  | real (x : Float)
  | text (s : String)
  deriving DecidableEq, Inhabited

/-- The value of a cell. -/
def Cell.toValue : Cell → Value
  | .null => .null
  | .int n => .int n
  | .real x => .float x
  | .text s => .text s

mutual

/-- The value as an expression: texts are quoted. -/
def Value.quoted : Value → String
  | .null => "None"
  | .bool b => if b then "True" else "False"
  | .int n => toString n
  | .float x => Number.floatText x
  | .text s => Text.quoted s
  | .list items => "[" ++ Value.quotedItems items ++ "]"
  | .dictionary entries => "\x7b" ++ Value.quotedEntries entries ++ "\x7d"
  | .part kind fields => kind.name ++ "(" ++ Value.quotedFields fields ++ ")"

/-- The items of a list, separated by commas. -/
def Value.quotedItems : List Value → String
  | [] => ""
  | [item] => item.quoted
  | item :: rest => item.quoted ++ ", " ++ Value.quotedItems rest

/-- The entries of a dictionary, separated by commas. -/
def Value.quotedEntries : List (String × Value) → String
  | [] => ""
  | [(name, v)] => Text.quoted name ++ ": " ++ v.quoted
  | (name, v) :: rest => Text.quoted name ++ ": " ++ v.quoted ++ ", " ++ Value.quotedEntries rest

/-- The fields of a part, separated by commas. -/
def Value.quotedFields : List (String × Value) → String
  | [] => ""
  | [(name, v)] => name ++ "=" ++ v.quoted
  | (name, v) :: rest => name ++ "=" ++ v.quoted ++ ", " ++ Value.quotedFields rest

end

mutual

/-- The value inside a longer text: a text stands for itself, and a constant for its value. -/
def Value.shown : Value → String
  | .text s => s
  | .part .constant fields => Value.shownField "value" fields
  | v => v.quoted

/-- The value of one of some fields inside a longer text. -/
def Value.shownField (name : String) : List (String × Value) → String
  | [] => ""
  | (other, v) :: rest => if other = name then v.shown else Value.shownField name rest

end

/-- The cell inside a longer text. -/
def Cell.shown (c : Cell) : String := c.toValue.shown

/-- The name of the kind of a value. -/
def Value.kindName : Value → String
  | .null => "NoneType"
  | .bool _ => "bool"
  | .int _ => "int"
  | .float _ => "float"
  | .text _ => "str"
  | .list _ => "list"
  | .dictionary _ => "dict"
  | .part kind _ => kind.name

/-- Whether a value counts as true: null, zero and what is empty do not. -/
def Value.isTrue : Value → Bool
  | .null => false
  | .bool b => b
  | .int n => n != 0
  | .float x => !(x == 0.0)
  | .text s => s != ""
  | .list items => !items.isEmpty
  | .dictionary entries => !entries.isEmpty
  | .part .. => true

/-- Whether a value is there. -/
def Value.isPresent : Value → Bool
  | .null => false
  | _ => true

/-- Whether a value is a text. -/
def Value.isSomeText : Value → Bool
  | .text _ => true
  | _ => false

/-- Whether a value is this text. -/
def Value.isText (s : String) : Value → Bool
  | .text t => t == s
  | _ => false

/-- The index that a value stands for: an integer or a truth value. -/
def Value.toIndex? : Value → Option Int
  | .bool b => some (if b then 1 else 0)
  | .int n => some n
  | _ => none

/-- The code that a value stands for: a number with the value of a small integer. -/
def Value.toCode? : Value → Option Nat
  | .bool b => some (if b then 1 else 0)
  | .int n => if n < 0 then none else some n.toNat
  | .float x => [0, 1, 2].find? fun n => x == Float.ofNat n
  | _ => none

/-- Whether a value is made of other values. -/
def Value.isCompound : Value → Bool
  | .list _ | .dictionary _ | .part .. => true
  | _ => false

/-- A flag as the tables keep it. -/
def Value.flag (b : Bool) : Value := .int (if b then 1 else 0)

/-- An optional text. -/
def Value.ofText? (s : Option String) : Value := s.elim .null .text

/-- Whether a cell counts as true: null, zero and the empty text do not. -/
def Cell.isTrue : Cell → Bool
  | .null => false
  | .int n => n != 0
  | .real x => !(x == 0.0)
  | .text s => s != ""

end SoarProject
