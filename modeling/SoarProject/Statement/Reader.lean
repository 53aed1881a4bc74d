import SoarProject.Statement.Token

/-!
# Reading statements

The statements that a project uses: looking at records, changing, adding and removing them, and
creating relations that are missing. A statement that does not read is refused at the first token
that does not belong.
-/

namespace SoarProject.Statement

/-- The error at the first of some tokens. -/
def refused (ts : List Token) : StorageError :=
  match ts with
  | [] => .incomplete
  | .illegal s :: _ => .unrecognized s
  | t :: _ => .malformed t.written

/-- Whether a token is a word, in whatever case it is written. -/
def Token.isKeyword (t : Token) (keyword : String) : Bool :=
  match t with
  | .word s => s.map Char.toLower == keyword
  | _ => false

/-- Take words from the front. -/
def takeKeywords : List String → List Token → Except StorageError (List Token)
  | [], ts => .ok ts
  | k :: ks, t :: ts => if t.isKeyword k then takeKeywords ks ts else .error (refused (t :: ts))
  | _ :: _, [] => .error .incomplete

/-- Take words from the front, if they stand there, and tell whether they did. -/
def skipKeywords (keywords : List String) (ts : List Token) : Bool × List Token :=
  match takeKeywords keywords ts with
  | .ok rest => (true, rest)
  | .error _ => (false, ts)

/-- Take a name from the front. A quoted text counts as a name too. -/
def takeName : List Token → Except StorageError (String × List Token)
  | .word s :: ts => if Identifier.isKeyword s then .error (refused (.word s :: ts)) else .ok (s, ts)
  | .name _ s :: ts | .quoted s :: ts | .text s :: ts => .ok (s, ts)
  | ts => .error (refused ts)

/-- Take the name of a table from the front. -/
def takeTable (ts : List Token) : Except StorageError (TableName × List Token) := do
  match ← takeName ts with
  | (schema, .sign "." :: rest) =>
    let (name, rest) ← takeName rest
    return (⟨some schema, name⟩, rest)
  | (name, rest) => return (⟨none, name⟩, rest)

/-- Take a sign from the front. -/
def takeSign (sign : String) : List Token → Except StorageError (List Token)
  | t :: ts => if t = .sign sign then .ok ts else .error (refused (t :: ts))
  | [] => .error .incomplete

/-- Take an equality sign from the front, in either of its forms. -/
def takeEquals : List Token → Except StorageError (List Token)
  | .sign "==" :: ts => .ok ts
  | ts => takeSign "=" ts

/-- Nothing may follow but the end of the statement. -/
def finished {α : Type} (a : α) : List Token → Except StorageError α
  | [] | [.finish _] => .ok a
  | ts => .error (refused ts)

/-- The items of a list, up to the parenthesis that closes it; `depth` parentheses are open inside
the current item, whose tokens so far are `front`. -/
def takeItems (depth : Nat) (front : List Token) : List Token →
    Except StorageError (List (List Token) × List Token)
  | [] => .error .incomplete
  | t :: ts =>
    if depth = 0 ∧ (t = .sign "," ∨ t = .sign ")") then
      if front.isEmpty then .error (refused (t :: ts))
      else if t = .sign ")" then .ok ([front], ts)
      else do
        let (items, rest) ← takeItems 0 [] ts
        return (front :: items, rest)
    else
      let depth := if t = .sign "(" then depth + 1 else if t = .sign ")" then depth - 1 else depth
      takeItems depth (front ++ [t]) ts

/-- Take a list in parentheses. -/
def takeList (ts : List Token) : Except StorageError (List (List Token) × List Token) := do
  takeItems 0 [] (← takeSign "(" ts)

/-- The names in a list. -/
def namesOf (items : List (List Token)) : Except StorageError (List String) :=
  items.mapM fun item => do
    let (name, rest) ← takeName item
    finished name rest

/-- The value that a number stands for. -/
def numberTerm (negative : Bool) (s : String) : Term :=
  match Number.Literal.ofChars? Char.isDigit s.toList with
  | none => .word s
  | some l =>
    match cellOfLiteral { l with negative } with
    | .int n => if l.isInteger then .integer n else .number { l with negative }.toStored
    | _ => .number { l with negative }.toStored

/-- Take a value from the front. -/
def takeTerm : List Token → Except StorageError (Term × List Token)
  | .parameter _ index :: ts => .ok (.parameter index, ts)
  | .text s :: ts | .quoted s :: ts => .ok (.text s, ts)
  | .number s :: ts | .sign "+" :: .number s :: ts => .ok (numberTerm false s, ts)
  | .sign "-" :: .number s :: ts => .ok (numberTerm true s, ts)
  | .word s :: ts => .ok (if s.map Char.toLower = "null" then .null else .word s, ts)
  | .sign "-" :: .word s :: ts | .sign "+" :: .word s :: ts | .name _ s :: ts => .ok (.word s, ts)
  | .sign "-" :: ts | .sign "+" :: ts | ts => .error (refused ts)

/-- The values in a list. -/
def termsOf (items : List (List Token)) : Except StorageError (List Term) :=
  items.mapM fun item => do
    let (value, rest) ← takeTerm item
    finished value rest

/-- Take the name of a column from the front of an expression. -/
def takeColumn : List Token → Except StorageError (String × List Token)
  | .word s :: ts => if Identifier.isKeyword s then .error (.malformed s) else .ok (s, ts)
  | .name _ s :: ts | .quoted s :: ts => .ok (s, ts)
  | ts => .error (refused ts)

/-- Read a comparison. -/
def takeComparison (ts : List Token) : Except StorageError (Comparison × List Token) := do
  let (column, rest) ← takeColumn ts
  let (value, rest) ← takeTerm (← takeEquals rest)
  return (⟨column, value⟩, rest)

/-- Read comparisons; `front` are those of the current list, and `fuel` bounds their number. -/
def takeComparisons : Nat → List Comparison → List Token →
    Except StorageError (Selection × List Token)
  | 0, _, ts => .error (refused ts)
  | fuel + 1, front, ts => do
    let (c, rest) ← takeComparison ts
    let front := front ++ [c]
    match rest with
    | [] => return ([front], [])
    | k :: more =>
      if k.isKeyword "and" then takeComparisons fuel front more
      else if k.isKeyword "or" then do
        let (lists, rest) ← takeComparisons fuel [] more
        return (front :: lists, rest)
      else return ([front], k :: more)

/-- Read a selection; without one all records are selected. -/
def takeSelection : List Token → Except StorageError (Selection × List Token)
  | t :: ts =>
    if t.isKeyword "where" then takeComparisons (ts.length + 1) [] ts else .ok (.always, t :: ts)
  | [] => .ok (.always, [])

/-- Take the name of the id from the front, if the records are to be in its order. -/
def takeOrder (ts : List Token) : Except StorageError (Option String × List Token) := do
  if ts.head?.any (·.isKeyword "order") then
    let named ← takeKeywords ["order", "by"] ts
    let (column, rest) ← takeColumn named
    if !Identifier.same column "id" then throw (refused named)
    return (some column, rest)
  return (none, ts)

/-- Take the name under which a column is shown from the front, if one is given. -/
def takeShown (ts : List Token) : Except StorageError (Option String × List Token) := do
  let (explicit, rest) := skipKeywords ["as"] ts
  match takeName rest with
  | .ok (shown, rest) => return (some shown, rest)
  | .error e => if explicit then throw e else return (none, ts)

/-- Take a column of a result from the front. -/
def takeResultColumn : List Token → Except StorageError (ResultColumn × List Token)
  | .sign "*" :: ts => .ok (.all, ts)
  | .text s :: ts => do
    let (shown, rest) ← takeShown ts
    return (.text s (shown.getD (Text.sqlQuoted s)), rest)
  | .quoted s :: ts => do
    let (shown, rest) ← takeShown ts
    return (.quoted s shown, rest)
  | ts => do
    let (column, rest) ← takeColumn ts
    let (shown, rest) ← takeShown rest
    return (.column column shown, rest)

/-- Take the columns of a result from the front; `fuel` bounds their number. -/
def takeResultColumns : Nat → List Token → Except StorageError (List ResultColumn × List Token)
  | 0, ts => .error (refused ts)
  | fuel + 1, ts => do
    let (column, rest) ← takeResultColumn ts
    match rest with
    | .sign "," :: more =>
      let (columns, rest) ← takeResultColumns fuel more
      return (column :: columns, rest)
    | _ => return ([column], rest)

/-- Read what follows `select`. -/
def selectOf (ts : List Token) : Except StorageError Statement := do
  let (columns, rest) ← takeResultColumns (ts.length + 1) ts
  let (table, rest) ← takeTable (← takeKeywords ["from"] rest)
  let (selection, rest) ← takeSelection rest
  let (order, rest) ← takeOrder rest
  finished (.select columns table selection order) rest

/-- Read what follows `update`. -/
def updateOf (ts : List Token) : Except StorageError Statement := do
  let (table, rest) ← takeTable ts
  let (column, rest) ← takeName (← takeKeywords ["set"] rest)
  let (value, rest) ← takeTerm (← takeSign "=" rest)
  let (selection, rest) ← takeSelection rest
  finished (.update table column value selection) rest

/-- Read what follows `insert into`. -/
def insertOf (ts : List Token) : Except StorageError Statement := do
  let (table, rest) ← takeTable ts
  let (columns, rest) ← takeList rest
  let columns ← namesOf columns
  let (values, rest) ← takeList (← takeKeywords ["values"] rest)
  finished (.insert table columns (← termsOf values)) rest

/-- Read what follows `delete from`. -/
def deleteOf (ts : List Token) : Except StorageError Statement := do
  let (table, rest) ← takeTable ts
  let (selection, rest) ← takeSelection rest
  finished (.delete table selection) rest

/-- The type of a column, by the word for it. -/
def typeOf (s : String) : StoredType :=
  match s.map Char.toUpper with
  | "INTEGER" => .integer
  | "FLOAT" => .float
  | "VARCHAR" => .name
  | _ => .text

/-- Read the shape of a relation from the lines of its definition. -/
def shapeOf (items : List (List Token)) : Except StorageError Shape := do
  let lines := items.filter fun item =>
    !(item.head?.any fun t => t.isKeyword "primary" || t.isKeyword "unique")
  let columns ← lines.mapM fun item => do
    match ← takeName item with
    | (name, .word type :: _) => return (⟨name, typeOf type⟩ : Column)
    | (_, rest) => throw (refused rest)
  let hasKey := items.any fun item => item.head?.any (·.isKeyword "primary")
  match columns with
  | [a, b] => return if hasKey then .records [b] else .pairs a.name b.name
  | _ :: rest => return .records rest
  | [] => throw .incomplete

/-- Read what follows `create table`. -/
def createTableOf (ts : List Token) : Except StorageError Statement := do
  let (tolerant, rest) := skipKeywords ["if", "not", "exists"] ts
  let (table, rest) ← takeName rest
  let (items, rest) ← takeList rest
  finished (.createTable table (← shapeOf items) tolerant) rest

/-- Read what follows `create index`. -/
def createIndexOf (ts : List Token) : Except StorageError Statement := do
  let (tolerant, rest) := skipKeywords ["if", "not", "exists"] ts
  let (name, rest) ← takeName rest
  let (table, rest) ← takeName (← takeKeywords ["on"] rest)
  let (columns, rest) ← takeList rest
  finished (.createIndex name table (← namesOf columns) tolerant) rest

/-- Read what follows `drop table`. -/
def dropTableOf (ts : List Token) : Except StorageError Statement := do
  let tolerant := ts.head?.any (·.isKeyword "if")
  let (table, rest) ← takeTable (← takeKeywords (if tolerant then ["if", "exists"] else []) ts)
  finished (.dropTable table tolerant) rest

/-- Read a statement from its tokens. -/
def ofTokens (ts : List Token) : Except StorageError Statement := do
  match ts with
  | [] => return .nothing
  | t :: rest =>
    if t.isKeyword "select" then selectOf rest
    else if t.isKeyword "update" then updateOf rest
    else if t.isKeyword "insert" then insertOf (← takeKeywords ["into"] rest)
    else if t.isKeyword "delete" then deleteOf (← takeKeywords ["from"] rest)
    else if t.isKeyword "drop" then
      dropTableOf (← takeKeywords ["table"] rest)
    else if t.isKeyword "create" then
      match rest with
      | k :: more =>
        if k.isKeyword "table" then createTableOf more
        else if k.isKeyword "index" then createIndexOf more
        else throw (refused rest)
      | [] => throw .incomplete
    else throw (refused ts)

/-- Read a statement, and tell whether another one follows it. -/
def ofText (s : String) : Except StorageError (Statement × Bool) := do
  let ts := tokenize false 0 s.toList
  return (← ofTokens ts, ts.getLast? = some (.finish true))

end SoarProject.Statement
