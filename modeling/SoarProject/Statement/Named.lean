import SoarProject.Statement.Split
import SoarProject.Text.Word

/-!
# Named parameters

A text of a statement may name its parameters. `Named.ofText` puts a question mark in place of each
name and gives the names in their order. A name stands behind a colon that follows no word and no
other colon, or in `%(name)s`; a backslash takes its meaning from a colon. Quotes make no difference,
so that a literal may hold names, too.
-/

namespace SoarProject.Statement

namespace Named

/-- Whether a character may stand in the name of a parameter. -/
def isNameChar (c : Char) : Bool := Text.isWordChar c || c == '$'

/-- Whether a colon may begin a name after a character. -/
def allowsName (before : Char) : Bool := !isNameChar before && before != ':' && before != '\\'

/-- Whether a text begins with a name that no colon follows. -/
def beginsWithName (s : List Char) : Bool :=
  s.head?.any isNameChar && (s.dropWhile isNameChar).head? != some ':'

/-- Write each `:name` as `%(name)s`. Here `before` is the character before the text, and `inName`
says whether the text begins inside a name. -/
def mark (before : Char) (inName : Bool) : List Char → List Char
  | [] => if inName then [')', 's'] else []
  | c :: rest =>
    if inName && isNameChar c then c :: mark c true rest
    else
      let close := if inName then [')', 's'] else []
      if c = ':' && allowsName before && beginsWithName rest then
        close ++ '%' :: '(' :: mark c true rest
      else close ++ c :: mark c false rest

/-- Drop each backslash before a colon, unless another colon follows the name behind it. -/
def unescape : List Char → List Char
  | '\\' :: ':' :: rest =>
    if (rest.dropWhile isNameChar).head? = some ':' then '\\' :: unescape (':' :: rest)
    else ':' :: unescape rest
  | c :: rest => c :: unescape rest
  | [] => []

/-- The name behind `%(` and the text behind it. -/
def markedName? (s : List Char) : Option (List Char × List Char) :=
  match s.takeWhile (· != ')'), s.dropWhile (· != ')') with
  | c :: name, ')' :: 's' :: rest => some (c :: name, rest)
  | _, _ => none

/-- What follows a name is shorter than the text. -/
theorem length_markedName?_lt {s name rest : List Char}
    (h : markedName? s = some (name, rest)) : rest.length < s.length := by
  have hle := (List.dropWhile_sublist (· != ')') (l := s)).length_le
  unfold markedName? at h
  split at h
  · rename_i heq
    rw [heq] at hle
    simp only [List.length_cons, Option.some.injEq, Prod.mk.injEq] at hle h
    obtain ⟨-, rfl⟩ := h
    omega
  · simp at h

/-- Put a question mark in place of each `%(name)s`, and give the names. -/
def number (s : List Char) : List Char × List String :=
  match _hs : s with
  | [] => ([], [])
  | c :: rest =>
    match _hn : if c = '%' ∧ rest.head? = some '(' then markedName? (rest.drop 1) else none with
    | some (name, more) =>
      let (text, names) := number more
      ('?' :: text, String.ofList name :: names)
    | none =>
      let (text, names) := number rest
      (c :: text, names)
termination_by s.length
decreasing_by
  · split at _hn
    · have := length_markedName?_lt _hn
      simp only [List.length_drop] at this
      simp only [List.length_cons]
      omega
    · simp at _hn
  · simp

/-- A text with question marks in place of its parameters, and their names in order. -/
def ofText (s : String) : String × List String :=
  let (text, names) := number (unescape (mark '\n' false s.toList))
  (String.ofList text, names)

end Named

end SoarProject.Statement
