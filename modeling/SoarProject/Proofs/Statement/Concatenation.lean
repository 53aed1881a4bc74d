import SoarProject.Proofs.Statement.Split

/-!
# Statements one after another

Balanced statements that are written one after another are cut apart again, however they are laid out:
with any blanks around the semicolons, with empty statements between them, and with or without a
semicolon behind the last one.

* `Statement.Quoted`: the texts whose quotes are closed and whose semicolons stand in literals, as a
  grammar that knows nothing of a scan.
* `Statement.Balanced`, `Statement.Writes`: what a statement is, and how statements are laid out.
* `Statement.splitStatements_of_writes`: cutting gives back the statements that were written.
-/

namespace SoarProject.Statement

open SoarProject.Text

variable {s : List Char} {statement : String} {statements : List String}

/-! ### Balanced statements -/

/-- A text of literals and of characters that are neither quotes nor semicolons. In a literal its own
quote is doubled, and anything else stands as it is. -/
inductive Quoted : List Char → Prop
  | nil : Quoted []
  /-- A character outside literals. -/
  | plain {c : Char} {s : List Char} : c ≠ ';' → c ≠ '\'' → c ≠ '"' → Quoted s → Quoted (c :: s)
  /-- The literal of a text. -/
  | literal {quote : Char} (body : List Char) {s : List Char} : quote = '\'' ∨ quote = '"' →
    Quoted s → Quoted (quote :: (doubled quote body ++ quote :: s))

/-- A scan stays outside of literals over such a text, and cuts nothing. -/
theorem Quoted.closed (h : Quoted s) : Closed s := by
  induction h with
  | nil => exact fun _ _ => rfl
  | @plain c s hcut hsingle hdouble _ ih =>
    have hc : Closed [c] := closed_of_all (List.forall_mem_singleton.mpr (by
      simp [isPlainText, hcut, hsingle, hdouble]))
    exact hc.append ih
  | @literal quote body s hquote _ ih =>
    -- A doubled quote closes the literal and opens it again, and so the scan ends outside.
    have hliteral : Closed (quote :: (doubled quote body ++ [quote])) := closed_enclosed hquote
    simpa using hliteral.append ih

/-- A statement whose semicolons all stand in literals, whose literals are closed, and which neither
begins nor ends with a blank. -/
structure Balanced (statement : String) : Prop where
  quoted : Quoted statement.toList
  ne_empty : statement ≠ ""
  begins : ∀ c ∈ statement.toList.head?, isBlank c = false
  ends : ∀ c ∈ statement.toList.getLast?, isBlank c = false

/-- Statements one after another, with a semicolon and any blanks behind each. -/
inductive Writes : List String → List Char → Prop
  /-- Nothing but blanks is left. -/
  | nil (blanks : List Char) : (∀ c ∈ blanks, isBlank c = true) → Writes [] blanks
  /-- The last statement needs no semicolon. -/
  | last (front back : List Char) {statement : String} : (∀ c ∈ front, isBlank c = true) →
    (∀ c ∈ back, isBlank c = true) → Writes [statement] (front ++ statement.toList ++ back)
  /-- An empty statement writes nothing. -/
  | empty (blanks : List Char) {text : List Char} {statements : List String} :
    (∀ c ∈ blanks, isBlank c = true) → Writes statements text → Writes statements (blanks ++ ';' :: text)
  /-- A statement with its semicolon. -/
  | cons (front back : List Char) {text : List Char} {statement : String} {statements : List String} :
    (∀ c ∈ front, isBlank c = true) → (∀ c ∈ back, isBlank c = true) → Writes statements text →
    Writes (statement :: statements) (front ++ statement.toList ++ back ++ ';' :: text)

/-! ### Pieces -/

/-- A balanced statement is the piece that is left of it and the blanks around it. -/
theorem Balanced.piece_eq (h : Balanced statement) {front back : List Char}
    (hfront : ∀ c ∈ front, isBlank c = true) (hback : ∀ c ∈ back, isBlank c = true) :
    piece (front ++ statement.toList ++ back) = [statement] := by
  have hne : statement.toList ≠ [] := fun hnil => h.ne_empty (String.toList_eq_nil_iff.mp hnil)
  rw [piece_append hfront hback hne h.begins h.ends, String.ofList_toList]

/-- A scan passes over a balanced statement and the blanks around it. -/
theorem Balanced.closed (h : Balanced statement) {front back : List Char}
    (hfront : ∀ c ∈ front, isBlank c = true) (hback : ∀ c ∈ back, isBlank c = true) :
    Closed (front ++ statement.toList ++ back) :=
  ((closed_of_blanks hfront).append h.quoted.closed).append (closed_of_blanks hback)

/-! ### Cutting -/

/-- Balanced statements that are written one after another are cut apart. -/
theorem splitStatements_of_writes {text : String} (hbalanced : ∀ s ∈ statements, Balanced s)
    (h : Writes statements text.toList) : splitStatements text = statements := by
  rw [splitStatements]
  generalize text.toList = chars at h
  -- Each case is one way of writing; what stands before the first semicolon is closed in all of them.
  induction h with
  | nil _ hblanks => rw [(closed_of_blanks hblanks).splitFrom_end, piece_of_blanks hblanks]
  | last _ _ hfront hback =>
    have hs := hbalanced _ List.mem_cons_self
    rw [(hs.closed hfront hback).splitFrom_end, hs.piece_eq hfront hback]
  | empty _ hblanks _ ih =>
    rw [(closed_of_blanks hblanks).splitFrom_semicolon, piece_of_blanks hblanks,
      List.nil_append, ih hbalanced]
  | cons _ _ hfront hback _ ih =>
    obtain ⟨hs, hrest⟩ := List.forall_mem_cons.mp hbalanced
    rw [(hs.closed hfront hback).splitFrom_semicolon, hs.piece_eq hfront hback, ih hrest,
      List.singleton_append]

/-- Two statements with semicolons and doubled quotes in their literals, behind an empty statement and with
another one between them; the last semicolon is missing. -/
theorem splitStatements_of_writes_quotes :
    (∀ s ∈ ["v 'it''s; \"'", "\"a;'\"\"\""], Balanced s) ∧
      Writes ["v 'it''s; \"'", "\"a;'\"\"\""] " ;v 'it''s; \"'\n ;;\t\"a;'\"\"\" ".toList ∧
      splitStatements " ;v 'it''s; \"'\n ;;\t\"a;'\"\"\" " = ["v 'it''s; \"'", "\"a;'\"\"\""] := by
  have hfirst : Balanced "v 'it''s; \"'" := by
    have hquoted : Quoted "v 'it''s; \"'".toList := by
      -- A doubled quote stands for one inside the literal, and a semicolon there ends nothing.
      refine .plain ?_ ?_ ?_ (.plain ?_ ?_ ?_ (.literal "it's; \"".toList (.inl rfl) .nil)) <;> decide
    refine ⟨hquoted, ?_, ?_, ?_⟩ <;> simp [isBlank]
  have hsecond : Balanced "\"a;'\"\"\"" := by
    refine ⟨.literal "a;'\"".toList (.inr rfl) .nil, ?_, ?_, ?_⟩ <;> simp [isBlank]
  have hbalanced : ∀ s ∈ ["v 'it''s; \"'", "\"a;'\"\"\""], Balanced s :=
    List.forall_mem_cons.mpr ⟨hfirst, List.forall_mem_singleton.mpr hsecond⟩
  have hwrites : Writes ["v 'it''s; \"'", "\"a;'\"\"\""]
      " ;v 'it''s; \"'\n ;;\t\"a;'\"\"\" ".toList := by
    refine .empty [' '] ?_ (.cons [] ['\n', ' '] ?_ ?_ (.empty [] ?_ (.last ['\t'] [' '] ?_ ?_)))
      <;> simp [isBlank]
  exact ⟨hbalanced, hwrites, splitStatements_of_writes hbalanced hwrites⟩

end SoarProject.Statement
