/-!
# Identifiers

Names of relations, columns and indexes. A store takes two names as the same if they differ only in
the case of ASCII letters. A statement writes a name between double quotes, unless it is made of
small letters, digits, underscores and dollar signs, begins with a letter or an underscore, and is no
reserved word. One line break may end a name that is written without quotes; since a line break
separates words, the store then knows it by the rest (`Identifier.denoted`).
-/

namespace SoarProject.Identifier

/-- Whether two names stand for the same thing. -/
def same (a b : String) : Bool := a == b || a.map Char.toLower == b.map Char.toLower

/-- The first of some names that repeats an earlier one. -/
def firstRepeated? (seen : List String) : List String → Option String
  | [] => none
  | name :: rest => if seen.any (same name) then some name else firstRepeated? (name :: seen) rest

/-- The words that have a meaning of their own in statements. -/
def reservedWords : List String := [
  "add", "after", "all", "alter", "analyze", "and", "as", "asc", "attach", "autoincrement", "before",
  "begin", "between", "by", "cascade", "case", "cast", "check", "collate", "column", "commit",
  "conflict", "constraint", "create", "cross", "current_date", "current_time", "current_timestamp",
  "database", "default", "deferrable", "deferred", "delete", "desc", "detach", "distinct", "drop",
  "each", "else", "end", "escape", "except", "exclusive", "exists", "explain", "fail", "false", "for",
  "foreign", "from", "full", "glob", "group", "having", "if", "ignore", "immediate", "in", "index",
  "indexed", "initially", "inner", "insert", "instead", "intersect", "into", "is", "isnull", "join",
  "key", "left", "like", "limit", "match", "natural", "not", "notnull", "null", "of", "offset", "on",
  "or", "order", "outer", "plan", "pragma", "primary", "query", "raise", "references", "reindex",
  "rename", "replace", "restrict", "right", "rollback", "row", "select", "set", "table", "temp",
  "temporary", "then", "to", "transaction", "trigger", "true", "union", "unique", "update", "using",
  "vacuum", "values", "view", "virtual", "when", "where"]

/-- Whether a character may stand in a name without quotes. Beside those of ASCII these are the two
letters whose capitals are ASCII letters. -/
def isPlainChar (c : Char) : Bool :=
  c.isLower || c.isDigit || c == '_' || c == '$' || c == 'ı' || c == 'ſ'

/-- Whether a name can be written without quotes, reserved words apart. -/
def isPlainWord (name : String) : Bool :=
  name.toList.all isPlainChar && !name.toList.head?.any fun c => c.isDigit || c == '$'

/-- The name without the line break at its end, if there is one. -/
def unbroken (name : String) : String :=
  match name.toList.reverse with
  | '\n' :: c :: front => String.ofList (c :: front).reverse
  | _ => name

/-- Whether a name is written without quotes. -/
def isPlain (name : String) : Bool := isPlainWord (unbroken name) && !reservedWords.contains name

/-- The name by which a store knows what a statement writes under a name. -/
def denoted (name : String) : String := if isPlain name then unbroken name else name

/-- The words that a statement never takes for names, unless they are quoted. -/
def keywords : List String := [
  "add", "all", "alter", "and", "as", "autoincrement", "between", "case", "check", "collate",
  "commit", "constraint", "create", "default", "deferrable", "delete", "distinct", "drop", "else",
  "escape", "except", "exists", "foreign", "from", "group", "having", "in", "index", "insert",
  "intersect", "into", "is", "isnull", "join", "limit", "not", "nothing", "notnull", "null", "on",
  "or", "order", "primary", "references", "returning", "select", "set", "table", "then", "to",
  "transaction", "union", "unique", "update", "using", "values", "when", "where"]

/-- Whether a word is never taken for a name. -/
def isKeyword (word : String) : Bool := keywords.contains (word.map Char.toLower)

/-- The characters of a name between quotes: a quote is written twice. -/
def escaped : List Char → List Char
  | [] => []
  | c :: rest => if c = '"' then '"' :: '"' :: escaped rest else c :: escaped rest

/-- A name between quotes. -/
def quoted (name : String) : String := String.ofList ('"' :: escaped name.toList ++ ['"'])

/-- A name as a statement writes it. -/
def written (name : String) : String := if isPlain name then name else quoted name

end SoarProject.Identifier
