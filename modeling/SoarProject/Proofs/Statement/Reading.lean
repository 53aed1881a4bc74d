import SoarProject.Proofs.Statement.Written
import SoarProject.Proofs.Store.Identifier
import SoarProject.Statement.Reader

/-!
# Reading the statements of a dump

The statements that a dump is made of read as what they were written from, with each name as a store
knows it.

* `Statement.ReadsAs`: a text that is one whole statement.
* `Statement.readsAs_createTableText`, `Statement.readsAs_createIndexText`,
  `Statement.readsAs_insertText`: what the three kinds of statements read as.
-/

namespace SoarProject

/-- A shape as a store knows it. -/
def Shape.denoted : Shape → Shape
  | .records columns => .records (columns.map Column.denoted)
  | .pairs first second => .pairs (Identifier.denoted first) (Identifier.denoted second)

theorem ok_bind {ε α β : Type} (a : α) (f : α → Except ε β) : (Except.ok a >>= f) = f a := rfl

/-- Steps that all succeed. -/
theorem forM_eq_ok {ε α : Type} {f : α → Except ε Unit} {xs : List α} (h : ∀ x ∈ xs, f x = .ok ()) :
    xs.forM f = .ok () := by
  induction xs with
  | nil => rfl
  | cons x xs ih =>
    change (f x >>= fun _ => xs.forM f) = _
    rw [h x List.mem_cons_self, ok_bind, ih fun y hy => h y (List.mem_cons_of_mem _ hy)]

/-- A list of results that all succeed. -/
theorem mapM_eq_ok {ε α β : Type} {f : α → Except ε β} {g : α → β} {xs : List α}
    (h : ∀ x ∈ xs, f x = .ok (g x)) : xs.mapM f = .ok (xs.map g) := by
  induction xs with
  | nil => rfl
  | cons x rest ih =>
    obtain ⟨hx, hrest⟩ := List.forall_mem_cons.mp h
    rw [List.mapM_cons, hx, ih hrest]
    rfl

namespace Statement

open SoarProject.Text

variable {name : String} {item ts rest : List Token} {items : List (List Token)} {v : Term}

/-! ### Items -/

/-- Tokens that a list takes into one item. -/
def IsItem (item : List Token) : Prop :=
  ∀ front ts, takeItems 0 front (item ++ ts) = takeItems 0 (front ++ item) ts

/-- The signs that have a meaning in lists. -/
def listSigns : List Token := [.sign ",", .sign "(", .sign ")"]

/-- Tokens without commas and parentheses are one item. -/
theorem isItem_of_forall (h : ∀ t ∈ item, t ∉ listSigns) : IsItem item := by
  induction item with
  | nil => simp [IsItem]
  | cons t rest ih =>
    intro front ts
    obtain ⟨ht, hrest⟩ := List.forall_mem_cons.mp h
    simp only [listSigns, List.mem_cons, List.not_mem_nil, or_false, not_or] at ht
    rw [List.cons_append, takeItems, if_neg (by simp [ht])]
    simp only [if_neg ht.2.1, if_neg ht.2.2]
    rw [ih hrest, List.append_assoc, List.singleton_append]

theorem IsItem.append {item' : List Token} (h : IsItem item) (h' : IsItem item') :
    IsItem (item ++ item') := by
  intro front ts
  rw [List.append_assoc, h, h', List.append_assoc]

/-- Tokens in parentheses are one item, commas included. -/
theorem isItem_parenthesized (h : ∀ t ∈ item, t ≠ .sign "(" ∧ t ≠ .sign ")") :
    IsItem (.sign "(" :: (item ++ [.sign ")"])) := by
  -- Inside the parentheses the depth is one, and no sign changes it before the last.
  have hinside : ∀ front ts, takeItems 1 front (item ++ .sign ")" :: ts) =
      takeItems 0 (front ++ (item ++ [.sign ")"])) ts := by
    induction item with
    | nil =>
      intro front ts
      rw [List.nil_append, takeItems, if_neg (by simp)]
      simp
    | cons t rest ih =>
      intro front ts
      obtain ⟨ht, hrest⟩ := List.forall_mem_cons.mp h
      rw [List.cons_append, takeItems, if_neg (by simp)]
      simp only [if_neg ht.1, if_neg ht.2]
      rw [ih hrest]
      simp
  intro front ts
  rw [List.cons_append, takeItems, if_neg (by simp)]
  simp only [if_true, Nat.zero_add, List.append_assoc, List.singleton_append]
  rw [hinside, List.append_assoc, List.singleton_append]

/-- The items between commas are taken apart. -/
theorem takeItems_commas (hne : items ≠ []) (h : ∀ item ∈ items, IsItem item ∧ item ≠ []) :
    takeItems 0 [] (commas items ++ .sign ")" :: rest) = .ok (items, rest) := by
  induction items with
  | nil => exact absurd rfl hne
  | cons item more ih =>
    obtain ⟨⟨hitem, hnonempty⟩, hmore⟩ := List.forall_mem_cons.mp h
    have hfront : item.isEmpty = false := by simpa using hnonempty
    cases more with
    | nil =>
      have hcommas : commas [item] = item := by simp [commas, List.intercalate]
      rw [hcommas, hitem, List.nil_append, takeItems]
      simp [hfront]
    | cons item' more =>
      have hcommas : commas (item :: item' :: more) =
          item ++ .sign "," :: commas (item' :: more) := by
        simp [commas, List.intercalate_cons_cons]
      -- Each item is taken up to the comma behind it.
      rw [hcommas, List.append_assoc, hitem, List.nil_append, List.cons_append, takeItems]
      simp only [true_or, and_self, if_true, hfront, Bool.false_eq_true, if_false]
      rw [if_neg (by decide), ih (List.cons_ne_nil _ _) hmore]
      rfl

/-- A list in parentheses is taken apart. -/
theorem takeList_commas (hne : items ≠ []) (h : ∀ item ∈ items, IsItem item ∧ item ≠ []) :
    takeList (.sign "(" :: (commas items ++ .sign ")" :: rest)) = .ok (items, rest) := by
  change takeItems 0 [] _ = _
  exact takeItems_commas hne h

/-! ### Names -/

/-- A name is no sign of a list. -/
theorem nameToken_notMem_listSigns (name : String) : nameToken name ∉ listSigns := by
  unfold nameToken
  split <;> simp [listSigns]

/-- A name is read as the store knows it. -/
theorem takeName_nameToken (h : Identifier.Readable name) :
    takeName (nameToken name :: ts) = .ok (Identifier.denoted name, ts) := by
  rw [nameToken, Identifier.denoted]
  split
  · next hplain =>
    have hkeyword : Identifier.isKeyword (Identifier.unbroken name) = false := by
      rw [← Bool.not_eq_true]
      intro hword
      refine h.not_keyword ⟨hplain, ?_⟩
      rwa [Identifier.denoted, if_pos hplain]
    rw [takeName, hkeyword, if_neg Bool.false_ne_true]
  · rfl

/-- A name is not taken for a keyword. -/
theorem isKeyword_nameToken (h : Identifier.Readable name) {keyword : String}
    (hkeyword : keyword ∈ Identifier.keywords) : (nameToken name).isKeyword keyword = false := by
  rw [← Bool.not_eq_true]
  intro hword
  unfold nameToken at hword
  split at hword
  · next hplain =>
    refine h.not_keyword ⟨hplain, ?_⟩
    rw [Identifier.denoted, if_pos hplain, Identifier.isKeyword, List.contains_eq_mem, decide_eq_true_eq]
    rwa [eq_of_beq hword]
  · cases hword

/-- The names in a list. -/
theorem namesOf_nameTokens {names : List String} (h : ∀ name ∈ names, Identifier.Readable name) :
    namesOf (names.map fun name => [nameToken name]) = .ok (names.map Identifier.denoted) := by
  rw [namesOf, List.mapM_map]
  refine mapM_eq_ok fun name hname => ?_
  rw [Function.comp_apply, takeName_nameToken (h name hname)]
  rfl

/-! ### Values -/

/-- The literal of a number without a sign. -/
theorem numberTerm_eq {s : List Char} {l : Number.Literal} {negative : Bool}
    (hl : Number.Literal.ofChars? Char.isDigit s = some l) :
    numberTerm negative (String.ofList s) =
      match cellOfLiteral { l with negative } with
      | .int n => if l.isInteger then .integer n else .number { l with negative : Number.Literal }.toStored
      | _ => .number { l with negative : Number.Literal }.toStored := by
  rewrite [numberTerm, String.toList_ofList, hl]
  rfl

/-- A number is read from its sign and its numeral. -/
theorem takeTerm_signed {s : List Char} {text : String} {negative : Bool} (hs : Number.IsNumeral s)
    (htext : text = (if negative then "-" else "") ++ String.ofList s) :
    takeTerm (signed text ++ ts) = .ok (numberTerm negative (String.ofList s), ts) := by
  rw [signed_eq hs htext]
  cases negative <;> rfl

/-- A row of digits reads as an integer. -/
theorem numberTerm_toDigits {n : Int} (hn : fitsInteger n = true) :
    numberTerm (decide (n < 0)) (String.ofList (Nat.toDigits 10 n.natAbs)) = .integer n := by
  have hdigits := Number.areDigits_toDigits n.natAbs
  have hliteral := Number.Literal.ofChars?_of_takeSign hdigits.isNumeral.takeSign_eq hdigits.1 hdigits.2
  rw [numberTerm_eq hliteral, cellOfLiteral, Number.Literal.toInt_toDigits, hn]
  rfl

/-- A number that a store reads back is read as it is. -/
theorem numberTerm_eq_number {s : List Char} {l : Number.Literal} {negative : Bool} {x : Float}
    (hl : Number.Literal.ofChars? Char.isDigit s = some l) (hinteger : l.isInteger = false)
    (hx : { l with negative : Number.Literal }.toStored = x) :
    numberTerm negative (String.ofList s) = .number x := by
  rw [numberTerm_eq hl, hinteger, hx]
  split <;> rfl

end Statement

namespace Term

open Statement

variable {v : Term} {ts : List Token}

/-- A value is read back from its tokens. -/
theorem IsLiteral.takeTerm_tokens (h : v.IsLiteral) : takeTerm (v.tokens ++ ts) = .ok (v, ts) := by
  cases v with
  | null =>
    -- The keyword is compared without its case.
    have hnull : "NULL".map Char.toLower = "null" := by
      rw [← String.toList_inj, String.toList_map]
      decide
    rw [tokens, List.singleton_append, takeTerm, if_pos hnull]
  | integer n =>
    rw [tokens, takeTerm_signed (Number.areDigits_toDigits _).isNumeral (toString_eq n),
      numberTerm_toDigits h]
  | number x =>
    obtain ⟨negative, s, l, hs, htext, hl, hinteger, hx⟩ := h.2.exists_literal h.1
    rw [tokens, takeTerm_signed hs htext, numberTerm_eq_number hl hinteger hx]
  | text s => rfl
  | parameter | word => exact h.elim

/-- A value is one item of a list. -/
theorem IsLiteral.isItem (h : v.IsLiteral) : IsItem v.tokens ∧ v.tokens ≠ [] := by
  have hsigned : ∀ text, IsItem (signed text) ∧ signed text ≠ [] := by
    intro text
    unfold signed
    split <;> exact ⟨isItem_of_forall (by simp [listSigns]), by simp⟩
  cases v with
  | null => exact ⟨isItem_of_forall (by simp [tokens, listSigns]), by simp [tokens]⟩
  | integer | number => exact hsigned _
  | text => exact ⟨isItem_of_forall (by simp [tokens, listSigns]), by simp [tokens]⟩
  | parameter | word => exact h.elim

end Term

namespace Statement

open SoarProject.Text

variable {name : String} {rest : List Token}

/-- The values in a list. -/
theorem termsOf_tokens {values : List Term} (h : ∀ v ∈ values, v.IsLiteral) :
    termsOf (values.map Term.tokens) = .ok values := by
  have hread : ∀ v ∈ values, (takeTerm v.tokens >>= fun p => finished p.1 p.2) = .ok (id v) := by
    intro v hv
    have htake : takeTerm (v.tokens ++ []) = .ok (v, []) := (h v hv).takeTerm_tokens
    rw [List.append_nil] at htake
    rw [htake]
    rfl
  rw [termsOf, List.mapM_map]
  exact (mapM_eq_ok hread).trans (by rw [List.map_id])

/-! ### Statements -/

/-- A text that is cut off as one statement, and reads as this statement with nothing behind it. -/
structure ReadsAs (text : String) (st : Statement) : Prop where
  whole : Whole text
  ofText_eq : ofText text = .ok (st, false)

/-- Words that begin a statement. -/
def begins (words : List String) : Bool :=
  words.all (fun w => isWord w.toList) && words.head?.any fun w => w.toList.head?.any (!isBlank ·)

/-- A text of words and a list reads as its tokens do. -/
theorem readsAs_of_cuts {text : String} {words : List String} {s : List Char} {ts : List Token}
    {st : Statement} (hwords : begins words = true)
    (htext : text.toList = (words.flatMap fun w => w.toList ++ [' ']) ++ s) (h : Cuts s ts)
    (hend : [')'] <:+ s) (hst : ofTokens (words.map .word ++ ts) = .ok st)
    (hlast : ts.getLast? = some (.sign ")")) : ReadsAs text st := by
  rw [begins, Bool.and_eq_true, List.all_eq_true] at hwords
  obtain ⟨hall, hfirst⟩ := hwords
  obtain ⟨front, rfl⟩ := hend
  -- The text begins with a word and ends with the closing sign.
  obtain ⟨c, rest, hchars, hc, hmark, hblank⟩ : ∃ c rest, text.toList = c :: (rest ++ [')']) ∧
      isWordStart c = true ∧ c ≠ orderMark ∧ isBlank c = false := by
    rcases words with _ | ⟨w, words⟩
    · cases hfirst
    · have hw := hall w List.mem_cons_self
      rw [isWord, Bool.and_eq_true] at hw
      cases hchars : w.toList with
      | nil =>
        rw [hchars] at hw
        exact absurd hw.1 (by simp)
      | cons c rest =>
        rw [hchars] at hw
        obtain ⟨hc, hmark⟩ : isWordStart c = true ∧ c ≠ orderMark := by simpa using hw.1
        refine ⟨c, rest ++ [' '] ++ (words.flatMap fun w => w.toList ++ [' ']) ++ front, ?_, hc, hmark,
          ?_⟩
        · rw [htext, List.flatMap_cons, hchars]
          simp
        · simpa [hchars] using hfirst
  -- It is cut into the words and the tokens of the rest.
  have hcuts := (cuts_words _ hall).append h
  rw [← htext] at hcuts
  refine ⟨⟨hcuts.closed, c, rest, ')', hchars, hblank, by decide⟩, ?_⟩
  have htokens : tokenize false 0 text.toList = words.map .word ++ ts := by
    rw [hchars, tokenize_begun hc hmark, ← hchars]
    simpa [tokenize] using hcuts.tokenize_append []
  rw [ofText, htokens, hst, List.getLast?_append, hlast]
  rfl

/-- Whether a word is a keyword is told by its characters. -/
theorem isKeyword_word (w keyword : String) :
    (Token.word w).isKeyword keyword = decide (w.toList.map Char.toLower = keyword.toList) := by
  refine Bool.eq_iff_iff.mpr ?_
  rw [decide_eq_true_eq, ← String.toList_map, String.toList_inj, Token.isKeyword, beq_iff_eq]

/-- The word for the type of a column. -/
def typeWord : StoredType → String
  | .name => "VARCHAR"
  | type => type.written

/-- The tokens behind the word for the type of a column. -/
def widthTokens : StoredType → List Token
  | .name => [.sign "(", .number "500", .sign ")"]
  | _ => []

/-- A type is read from its word. -/
theorem typeOf_typeWord (type : StoredType) : typeOf (typeWord type) = type := by
  have hupper : (typeWord type).map Char.toUpper = typeWord type := by
    rw [← String.toList_inj, String.toList_map]
    cases type <;> decide
  rw [typeOf, hupper]
  cases type <;> rfl

/-- The word for the type of a column and its width are cut apart. -/
theorem yields_type (type : StoredType) :
    Yields type.written.toList (.word (typeWord type) :: widthTokens type) := by
  have hwidth : Yields "VARCHAR(500)".toList
      [.word "VARCHAR", .sign "(", .number "500", .sign ")"] :=
    (((yields_word (s := "VARCHAR".toList) (by decide)).append (cuts_sign (c := '(') (by decide))
      ⟨'(', by decide, rfl⟩).append_yields
        (yields_numeral (s := "500".toList) (Number.areDigits_toDigits 500).isNumeral)).append
          (cuts_sign (c := ')') (by decide)) ⟨')', by decide, rfl⟩ |>.yields
  cases type with
  | name => exact hwidth
  | integer => exact yields_word (s := "INTEGER".toList) (by decide)
  | float => exact yields_word (s := "FLOAT".toList) (by decide)
  | text => exact yields_word (s := "TEXT".toList) (by decide)

/-- A list of names is cut into the names. -/
theorem cuts_nameList {names : List String} (hne : names ≠ []) (h : ∀ name ∈ names, name ≠ "") :
    Cuts (nameList names).toList
      (.sign "(" :: (commas (names.map fun name => [nameToken name]) ++ [.sign ")"])) :=
  cuts_parenthesized hne fun name hname => yields_written (h name hname)

/-- A column with its type is cut into both. -/
theorem yields_line {c : Column} (h : c.name ≠ "") :
    Yields c.line.toList (nameToken c.name :: .word (typeWord c.type) :: widthTokens c.type) := by
  have hname := (yields_written h).append (cuts_gap (c := ' ') rfl) ⟨' ', by decide, rfl⟩
  simpa [Column.line] using hname.append_yields (yields_type c.type)

/-- The lines of the definition of a relation, with their tokens. -/
def shapeLines : Shape → List (String × List Token)
  | .records columns =>
    ("id INTEGER NOT NULL", [.word "id", .word "INTEGER", .word "NOT", .word "NULL"]) ::
      columns.map (fun c => (c.line, nameToken c.name :: .word (typeWord c.type) :: widthTokens c.type)) ++
      [("PRIMARY KEY (id)", [.word "PRIMARY", .word "KEY", .sign "(", .word "id", .sign ")"])]
  | .pairs first second =>
    [first, second].map (fun name => ((Column.mk name .integer).line ++ " NOT NULL",
      [nameToken name, .word "INTEGER", .word "NOT", .word "NULL"])) ++
      [("UNIQUE " ++ nameList [first, second],
        .word "UNIQUE" :: .sign "(" :: (commas [[nameToken first], [nameToken second]] ++ [.sign ")"]))]

theorem lines_eq (shape : Shape) : shape.lines = (shapeLines shape).map (·.1) := by
  cases shape <;> simp [Shape.lines, shapeLines]

/-- Each line of a definition is cut into its tokens. -/
theorem yields_shapeLines {shape : Shape} (h : ∀ c ∈ shape.toRelation.columnNames, c ≠ "") :
    ∀ e ∈ shapeLines shape, Yields e.1.toList e.2 := by
  cases shape with
  | records columns =>
    -- A line for the id, one for each column, and one for the primary key.
    have hcolumns : ∀ c ∈ columns, c.name ≠ "" := fun c hc =>
      h _ (List.mem_cons_of_mem _ (List.mem_map_of_mem hc))
    have hid : ∀ name ∈ ["id"], Yields name.toList [.word name] :=
      List.forall_mem_singleton.mpr (yields_word (s := "id".toList) (by decide))
    have hlist : Cuts (parenthesized (["id"].map id)).toList _ :=
      cuts_parenthesized (List.cons_ne_nil _ _) hid
    have hkey := (cuts_words ["PRIMARY", "KEY"] (by decide)).append hlist
    simp only [shapeLines, List.cons_append, List.forall_mem_cons, List.forall_mem_append,
      List.forall_mem_map]
    exact ⟨yields_words ["id", "INTEGER", "NOT"] "NULL" (by decide) (by decide),
      fun c hc => yields_line (hcolumns c hc), hkey.yields, List.forall_mem_nil _⟩
  | pairs first second =>
    -- Two lines for the keys, and one that says that the pair is unique.
    have hnames : ∀ name ∈ [first, second], name ≠ "" := h
    simp only [shapeLines, List.forall_mem_append, List.forall_mem_map, List.forall_mem_singleton]
    refine ⟨fun name hname => ?_, ?_⟩
    · have hline := (yields_line (c := ⟨name, .integer⟩) (hnames name hname)).append
        (cuts_gap (c := ' ') rfl) ⟨' ', by decide, rfl⟩
      simpa [widthTokens, typeWord, StoredType.written] using
        hline.append_yields (yields_words ["NOT"] "NULL" (by decide) (by decide))
    · have hunique := (cuts_words ["UNIQUE"] (by decide)).append
        (cuts_nameList (List.cons_ne_nil _ _) hnames)
      simpa using hunique.yields

/-- Each line of a definition is one item of the list. -/
theorem isItem_shapeLines (shape : Shape) : ∀ e ∈ shapeLines shape, IsItem e.2 ∧ e.2 ≠ [] := by
  have hwords : ∀ words : List String, IsItem (words.map .word) := fun words =>
    isItem_of_forall (by simp [listSigns])
  have hname : ∀ name, IsItem [nameToken name] := fun name =>
    isItem_of_forall (List.forall_mem_singleton.mpr (nameToken_notMem_listSigns name))
  cases shape with
  | records columns =>
    -- A width in parentheses is part of its item.
    have hwidth : ∀ type, IsItem (widthTokens type) := by
      intro type
      cases type with
      | name => exact @isItem_parenthesized [.number "500"] (by decide)
      | integer | float | text => exact isItem_of_forall (List.forall_mem_nil _)
    simp only [shapeLines, List.cons_append, List.forall_mem_cons, List.forall_mem_append,
      List.forall_mem_map]
    refine ⟨⟨hwords ["id", "INTEGER", "NOT", "NULL"], List.cons_ne_nil _ _⟩, fun c _ => ⟨?_, List.cons_ne_nil _ _⟩,
      ⟨?_, List.cons_ne_nil _ _⟩, List.forall_mem_nil _⟩
    · exact (hname c.name).append ((hwords [typeWord c.type]).append (hwidth c.type))
    · exact (hwords ["PRIMARY", "KEY"]).append (@isItem_parenthesized [.word "id"] (by decide))
  | pairs first second =>
    simp only [shapeLines, List.forall_mem_append, List.forall_mem_map, List.forall_mem_singleton]
    refine ⟨fun name _ => ⟨(hname name).append (hwords ["INTEGER", "NOT", "NULL"]), List.cons_ne_nil _ _⟩,
      ?_, List.cons_ne_nil _ _⟩
    refine (hwords ["UNIQUE"]).append (isItem_parenthesized fun t ht => ?_)
    -- A name in quotes is no sign, even if it looks like one.
    have hsigns : ∀ name, nameToken name ≠ .sign "(" ∧ nameToken name ≠ .sign ")" := by
      intro name
      unfold nameToken
      split <;> simp
    simp only [commas, List.intercalate_cons_cons, List.intercalate_singleton, List.mem_append,
      List.mem_singleton] at ht
    rcases ht with (rfl | rfl) | rfl
    · exact hsigns first
    · decide
    · exact hsigns second

/-- The tokens of a line that defines a column: its name, the word for its type, and the rest. -/
def columnLine (e : Column × List Token) : List Token :=
  nameToken e.1.name :: .word (typeWord e.1.type) :: e.2

/-- A line is read as the column that it defines. -/
theorem takeName_columnLine {e : Column × List Token} (h : Identifier.Readable e.1.name) :
    (do
      match ← takeName (columnLine e) with
      | (name, .word type :: _) => return (⟨name, typeOf type⟩ : Column)
      | (_, rest) => throw (refused rest)) = Except.ok e.1.denoted := by
  rw [columnLine, takeName_nameToken h]
  change Except.ok (Column.mk _ (typeOf (typeWord e.1.type))) = _
  rw [typeOf_typeWord]
  rfl

/-- Lines that define columns, and a last one with a condition, read as the shape with these columns. -/
theorem shapeOf_append {entries : List (Column × List Token)} {last : List Token}
    (h : ∀ e ∈ entries, Identifier.Readable e.1.name)
    (hlast : (last.head?.any fun t => t.isKeyword "primary" || t.isKeyword "unique") = true) :
    shapeOf (entries.map columnLine ++ [last]) =
      match entries.map (·.1.denoted) with
      | [a, b] =>
        .ok (if last.head?.any (·.isKeyword "primary") then .records [b] else .pairs a.name b.name)
      | _ :: rest => .ok (.records rest)
      | [] => .error .incomplete := by
  -- A name is no keyword as a token, since it is quoted if it is one.
  have hcolumn : ∀ e ∈ entries, (nameToken e.1.name).isKeyword "primary" = false ∧
      (nameToken e.1.name).isKeyword "unique" = false := fun e he =>
    ⟨isKeyword_nameToken (h e he) (by decide), isKeyword_nameToken (h e he) (by decide)⟩
  have hfilter : (entries.map columnLine ++ [last]).filter (fun item =>
      !(item.head?.any fun t => t.isKeyword "primary" || t.isKeyword "unique")) =
        entries.map columnLine := by
    have hfront : (entries.map columnLine).filter (fun item =>
        !(item.head?.any fun t => t.isKeyword "primary" || t.isKeyword "unique")) =
          entries.map columnLine := by
      rw [List.filter_eq_self, List.forall_mem_map]
      intro e he
      simp [columnLine, hcolumn e he]
    rw [List.filter_append, hfront]
    simp [hlast]
  -- Only the last line may begin with the keyword, so it decides what kind of table it is.
  have hkey : (entries.map columnLine ++ [last]).any (fun item => item.head?.any (·.isKeyword "primary")) =
      last.head?.any (·.isKeyword "primary") := by
    have hfront : (entries.map columnLine).any (fun item => item.head?.any (·.isKeyword "primary")) =
        false := by
      rw [List.any_eq_false, List.forall_mem_map]
      intro e he
      simp [columnLine, hcolumn e he]
    rw [List.any_append, hfront]
    simp
  unfold shapeOf
  dsimp only
  rw [hfilter, hkey, List.mapM_map, mapM_eq_ok (g := fun e => e.1.denoted) ?_]
  · cases entries.map (·.1.denoted) with
    | nil => rfl
    | cons a rest => rcases rest with _ | ⟨b, _ | ⟨c, rest⟩⟩ <;> rfl
  · exact fun e he => takeName_columnLine (h e he)

/-- The lines of a definition read as the shape that they define. -/
theorem shapeOf_shapeLines {shape : Shape}
    (h : ∀ c ∈ shape.toRelation.columnNames, Identifier.Readable c) :
    shapeOf ((shapeLines shape).map (·.2)) = .ok shape.denoted := by
  have hprimary : (Token.word "PRIMARY").isKeyword "primary" = true := by
    rw [isKeyword_word]
    decide
  have hunique : (Token.word "UNIQUE").isKeyword "primary" = false ∧
      (Token.word "UNIQUE").isKeyword "unique" = true := by
    rw [isKeyword_word, isKeyword_word]
    decide
  cases shape with
  | records columns =>
    have hid : nameToken "id" = .word "id" := by decide
    have hlines : (shapeLines (.records columns)).map (·.2) =
        ((Column.mk "id" .integer, [Token.word "NOT", .word "NULL"]) ::
          columns.map fun c => (c, widthTokens c.type)).map columnLine ++
            [[.word "PRIMARY", .word "KEY", .sign "(", .word "id", .sign ")"]] := by
      simp [shapeLines, columnLine, hid, typeWord, StoredType.written]
    rw [hlines, shapeOf_append ?_ (by simp [hprimary])]
    · -- With the id and one other column there is a key, so that these are no pairs.
      rcases columns with _ | ⟨a, _ | ⟨b, rest⟩⟩ <;> simp [hprimary, Shape.denoted]
    · simp only [List.forall_mem_cons, List.forall_mem_map]
      exact ⟨h _ List.mem_cons_self, fun c hc => h _ (List.mem_cons_of_mem _ (List.mem_map_of_mem hc))⟩
  | pairs first second =>
    have hlines : (shapeLines (.pairs first second)).map (·.2) =
        [(Column.mk first .integer, [Token.word "NOT", .word "NULL"]),
          (Column.mk second .integer, [Token.word "NOT", .word "NULL"])].map columnLine ++
            [.word "UNIQUE" :: .sign "(" :: (commas [[nameToken first], [nameToken second]] ++ [.sign ")"])] := by
      simp [shapeLines, columnLine, typeWord, StoredType.written]
    rw [hlines, shapeOf_append ?_ (by simp [hunique])]
    · simp [hunique, Shape.denoted, Column.denoted]
    · simpa using ⟨h first (by simp [Shape.toRelation, Relation.columnNames]),
        h second (by simp [Shape.toRelation, Relation.columnNames])⟩

/-- A word is taken for the keyword that it is written for. -/
theorem takeKeywords_word (w keyword : String) (h : w.toList.map Char.toLower = keyword.toList)
    (ts : List Token) : takeKeywords [keyword] (.word w :: ts) = .ok ts := by
  have hword : (Token.word w).isKeyword keyword = true := by rw [isKeyword_word, decide_eq_true h]
  rw [takeKeywords, if_pos hword, takeKeywords]

/-- What creates a relation or an index is read behind its first words. -/
theorem ofTokens_create (ts : List Token) :
    ofTokens (.word "CREATE" :: .word "TABLE" :: ts) = createTableOf ts ∧
      ofTokens (.word "CREATE" :: .word "INDEX" :: ts) = createIndexOf ts := by
  have hcreate : ∀ k ∈ ["select", "update", "insert", "delete", "drop"],
      (Token.word "CREATE").isKeyword k = false := by
    simp only [isKeyword_word]
    decide
  have hwords : (Token.word "CREATE").isKeyword "create" = true ∧
      (Token.word "TABLE").isKeyword "table" = true ∧ (Token.word "INDEX").isKeyword "table" = false ∧
        (Token.word "INDEX").isKeyword "index" = true := by
    simp only [isKeyword_word]
    decide
  simp only [List.forall_mem_cons] at hcreate
  simp [ofTokens, hcreate, hwords]

/-- What adds a record is read behind its first words. -/
theorem ofTokens_insert (ts : List Token) :
    ofTokens (.word "INSERT" :: .word "INTO" :: ts) = insertOf ts := by
  have hinsert : ∀ k ∈ ["select", "update"], (Token.word "INSERT").isKeyword k = false := by
    simp only [isKeyword_word]
    decide
  have hwords : (Token.word "INSERT").isKeyword "insert" = true ∧
      (Token.word "INTO").isKeyword "into" = true := by
    simp only [isKeyword_word]
    decide
  simp only [List.forall_mem_cons] at hinsert
  simp only [ofTokens, hinsert, hwords, takeKeywords, Bool.false_eq_true, if_false, if_true]
  rfl

/-- The condition that nothing is created twice is read as such. -/
theorem skipKeywords_tolerant (ts : List Token) :
    skipKeywords ["if", "not", "exists"] (.word "IF" :: .word "NOT" :: .word "EXISTS" :: ts) = (true, ts) := by
  have hwords : (Token.word "IF").isKeyword "if" = true ∧ (Token.word "NOT").isKeyword "not" = true ∧
      (Token.word "EXISTS").isKeyword "exists" = true := by
    simp only [isKeyword_word]
    decide
  simp [skipKeywords, takeKeywords, hwords]

/-- A list ends with its parenthesis. -/
theorem isSuffix_parenthesized (items : List String) : [')'] <:+ (parenthesized items).toList := by
  rw [parenthesized, String.toList_append]
  exact List.suffix_append _ _

/-- The statement that creates a relation reads as it was written. -/
theorem readsAs_createTableText {table : String} {shape : Shape} (htable : Identifier.Readable table)
    (h : ∀ c ∈ shape.toRelation.columnNames, Identifier.Readable c) :
    ReadsAs (createTableText table shape)
      (.createTable (Identifier.denoted table) shape.denoted true) := by
  have hlines : shapeLines shape ≠ [] := by cases shape <;> simp [shapeLines]
  have hcomma : Cuts ", \n\t".toList [.sign ","] :=
    (cuts_sign (by decide)).append ((cuts_gap rfl).append ((cuts_gap rfl).append (cuts_gap rfl)))
  have hopen : Cuts " (\n\t".toList [.sign "("] :=
    (cuts_gap rfl).append ((cuts_sign (by decide)).append ((cuts_gap rfl).append (cuts_gap rfl)))
  have hclose : Cuts "\n)".toList [.sign ")"] := (cuts_gap rfl).append (cuts_sign (by decide))
  -- The text is cut piece by piece: the words, the name, the lines, and the closing sign.
  have hitems := yields_intercalate hcomma rfl hlines
    (yields_shapeLines fun c hc => (h c hc).ne_empty)
  rw [← lines_eq] at hitems
  have hcuts := (((yields_written htable.ne_empty).append hopen ⟨' ', by decide, rfl⟩).append_yields
    hitems).append hclose ⟨'\n', by decide, rfl⟩
  have hwords : begins ["CREATE", "TABLE", "IF", "NOT", "EXISTS"] = true := by decide
  have hfirst : "CREATE TABLE IF NOT EXISTS ".toList =
      ["CREATE", "TABLE", "IF", "NOT", "EXISTS"].flatMap fun w => w.toList ++ [' '] := by decide
  have hend : [')'] <:+ "\n)".toList := ⟨['\n'], rfl⟩
  refine readsAs_of_cuts hwords ?_ hcuts (hend.trans (List.suffix_append _ _)) ?_
    (by simp [List.getLast?_cons])
  · unfold createTableText definitionText
    simp only [String.toList_append, List.append_assoc, hfirst]
  · simp only [List.map_cons, List.map_nil, List.cons_append, List.nil_append]
    -- The tokens are read in the same order.
    rw [(ofTokens_create _).1, createTableOf, skipKeywords_tolerant]
    dsimp only
    rw [takeName_nameToken htable]
    change (takeList _ >>= fun p => _) = _
    rw [takeList_commas (by simpa using hlines) (List.forall_mem_map.mpr (isItem_shapeLines shape))]
    change (shapeOf _ >>= fun shape => finished _ []) = _
    rw [shapeOf_shapeLines h]
    rfl

/-- The names in a list are items of it. -/
theorem isItem_nameToken (name : String) : IsItem [nameToken name] ∧ [nameToken name] ≠ [] :=
  ⟨isItem_of_forall (List.forall_mem_singleton.mpr (nameToken_notMem_listSigns name)), List.cons_ne_nil _ _⟩

/-- The statement that creates an index reads as it was written. -/
theorem readsAs_createIndexText {name table column : String} (hname : Identifier.Readable name)
    (htable : Identifier.Readable table) (hcolumn : Identifier.Readable column) :
    ReadsAs (createIndexText name table column)
      (.createIndex (Identifier.denoted name) (Identifier.denoted table)
        [Identifier.denoted column] true) := by
  have hon : Cuts " ON ".toList [.word "ON"] := cuts_spaced "ON" (by decide)
  have hgap : Cuts " ".toList [] := cuts_gap rfl
  have hcolumns : ∀ c ∈ [column], Identifier.Readable c := List.forall_mem_singleton.mpr hcolumn
  have hlist := cuts_nameList (List.cons_ne_nil _ _) fun c hc => (hcolumns c hc).ne_empty
  -- The text is cut piece by piece, each piece ending where the next one begins.
  have hcuts := ((((yields_written hname.ne_empty).append hon ⟨' ', by decide, rfl⟩).append_yields
    (yields_written htable.ne_empty)).append hgap ⟨' ', by decide, rfl⟩).append hlist
  have hwords : begins ["CREATE", "INDEX", "IF", "NOT", "EXISTS"] = true := by decide
  have hfirst : "CREATE INDEX IF NOT EXISTS ".toList =
      ["CREATE", "INDEX", "IF", "NOT", "EXISTS"].flatMap fun w => w.toList ++ [' '] := by decide
  refine readsAs_of_cuts hwords ?_ hcuts ((isSuffix_parenthesized _).trans (List.suffix_append _ _)) ?_
    (by simp [List.getLast?_cons])
  · unfold createIndexText
    simp only [String.toList_append, List.append_assoc, hfirst]
  · simp only [List.map_cons, List.map_nil, List.cons_append, List.nil_append]
    rw [(ofTokens_create _).2, createIndexOf, skipKeywords_tolerant]
    dsimp only
    rw [takeName_nameToken hname]
    change (takeKeywords ["on"] (.word "ON" :: nameToken table :: _) >>= fun p => _) = _
    rw [takeKeywords_word "ON" "on" (by decide)]
    change (takeName _ >>= fun p => _) = _
    rw [takeName_nameToken htable]
    change (takeList (.sign "(" :: (commas [[nameToken column]] ++ [Token.sign ")"])) >>= fun p => _) = _
    rw [takeList_commas (List.cons_ne_nil _ _)
      (List.forall_mem_singleton.mpr (isItem_nameToken column))]
    change (namesOf ([column].map fun name => [nameToken name]) >>= fun p => finished _ []) = _
    rw [namesOf_nameTokens hcolumns]
    rfl

/-- The statement that adds a record reads as it was written. -/
theorem readsAs_insertText {table : String} {columns : List String} {values : List Term}
    (htable : Identifier.Readable table) (hcolumns : ∀ c ∈ columns, Identifier.Readable c)
    (hvalues : ∀ v ∈ values, v.IsLiteral) (hcolumn : columns ≠ []) (hvalue : values ≠ []) :
    ReadsAs (insertText table columns values)
      (.insert ⟨none, Identifier.denoted table⟩ (columns.map Identifier.denoted) values) := by
  have hspaced : Cuts " VALUES ".toList [.word "VALUES"] := cuts_spaced "VALUES" (by decide)
  have hgap : Cuts " ".toList [] := cuts_gap rfl
  have hnames := cuts_nameList hcolumn fun c hc => (hcolumns c hc).ne_empty
  have hterms := cuts_parenthesized hvalue fun v hv => (hvalues v hv).yields
  -- The text is cut piece by piece: the table, its columns, and the values.
  have hcuts := ((((yields_written htable.ne_empty).append hgap ⟨' ', by decide, rfl⟩).append hnames).append
    hspaced).append hterms
  have hwords : begins ["INSERT", "INTO"] = true := by decide
  have hfirst : "INSERT INTO ".toList = ["INSERT", "INTO"].flatMap fun w => w.toList ++ [' '] := by decide
  refine readsAs_of_cuts hwords ?_ hcuts ((isSuffix_parenthesized _).trans (List.suffix_append _ _)) ?_
    (by simp [List.getLast?_cons])
  · unfold insertText
    simp only [String.toList_append, List.append_assoc, hfirst]
  · simp only [List.map_cons, List.map_nil, List.cons_append, List.nil_append, List.append_assoc]
    rw [ofTokens_insert, insertOf, takeTable, takeName_nameToken htable]
    change (takeList _ >>= fun p => _) = _
    rw [takeList_commas (by simpa using hcolumn) (List.forall_mem_map.mpr fun c _ => isItem_nameToken c)]
    change (namesOf _ >>= fun p => _) = _
    rw [namesOf_nameTokens hcolumns]
    change (takeKeywords ["values"] (.word "VALUES" :: _) >>= fun p => _) = _
    rw [takeKeywords_word "VALUES" "values" (by decide)]
    change (takeList _ >>= fun p => _) = _
    rw [takeList_commas (by simpa using hvalue) (List.forall_mem_map.mpr fun v hv => (hvalues v hv).isItem)]
    change (termsOf _ >>= fun p => finished _ []) = _
    rw [termsOf_tokens hvalues]
    rfl

end Statement

end SoarProject
