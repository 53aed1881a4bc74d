import SoarProject.Proofs.Schema.Project
import SoarProject.Store.Layout

/-!
# The names of relations

Every relation that a registry calls for has a name of its own, made of small letters and underscores,
that a statement writes without quotes. The same holds for the indexes on its columns.

* `Identifier.IsBare`: a name that a statement writes as it is.
* `RelationName.isBare_text`, `RelationName.eq_of_text_eq`: relations are told apart by bare names.
-/

namespace SoarProject

namespace Identifier

variable {name : String}

/-- A name of small letters and underscores. -/
def IsSnake (name : String) : Prop := name.toList.all fun c => c.isLower || c == '_'

instance (name : String) : Decidable (IsSnake name) := by
  unfold IsSnake
  infer_instance

/-- The characters of such a name. -/
theorem isSnake_iff : IsSnake name ↔ ∀ c ∈ name.toList, c.isLower = true ∨ c = '_' := by
  simp [IsSnake]

theorem IsSnake.append {a b : String} (ha : IsSnake a) (hb : IsSnake b) : IsSnake (a ++ b) := by
  rw [isSnake_iff] at *
  rw [String.toList_append, List.forall_mem_append]
  exact ⟨ha, hb⟩

/-- A character of such a name needs no quotes. -/
theorem IsSnake.isPlainChar (h : IsSnake name) : ∀ c ∈ name.toList, isPlainChar c = true := by
  intro c hc
  rcases isSnake_iff.mp h c hc with hlower | rfl
  · simp [Identifier.isPlainChar, hlower]
  · decide

/-- Such a name has no capitals. -/
theorem IsSnake.isSmall (h : IsSnake name) : IsSmall name :=
  isSmall_iff.mpr fun c hc => not_isUpper_of_isPlainChar (h.isPlainChar c hc)

/-- Words that have a meaning of their own. -/
def words : List String := reservedWords ++ keywords

/-- A name of small letters and underscores that has no meaning of its own. -/
structure IsBare (name : String) : Prop where
  isSnake : IsSnake name
  ne_empty : name ≠ ""
  notMem_words : name ∉ words

namespace IsBare

variable (h : IsBare name)

include h

/-- There is no line break to be taken away. -/
theorem unbroken_eq : unbroken name = name := by
  unfold unbroken
  split
  · next hbroken =>
    have hbreak : '\n' ∈ name.toList := by
      rw [← List.mem_reverse, hbroken]
      exact List.mem_cons_self
    exact absurd (isSnake_iff.mp h.isSnake _ hbreak) (by decide)
  · rfl

theorem denoted_eq : denoted name = name := by rw [denoted, h.unbroken_eq, ite_self]

/-- The name is read back from a statement. -/
theorem readable : Readable name := by
  refine ⟨h.ne_empty, fun hkeyword => h.notMem_words (List.mem_append_right _ ?_)⟩
  have hword := hkeyword.2
  rwa [h.denoted_eq, isKeyword, h.isSnake.isSmall.map_toLower, List.contains_eq_mem,
    decide_eq_true_eq] at hword

end IsBare

end Identifier

namespace Table

open Identifier

/-- The name of a table is bare. -/
theorem isBare_tableName (t : Table) : IsBare t.tableName := by
  have hall : ∀ t ∈ all, IsSnake t.tableName ∧ t.tableName ≠ "" ∧ t.tableName ∉ Identifier.words := by
    decide +kernel
  obtain ⟨hsnake, hne, hwords⟩ := hall t (mem_all t)
  exact ⟨hsnake, hne, hwords⟩

/-- No name of a table goes on with an underscore behind the name of a table. -/
theorem not_prefix_tableName (a b : Table) : ¬ a.tableName.toList ++ ['_'] <+: b.tableName.toList := by
  have hall : ∀ a ∈ all, ∀ b ∈ all, ¬ a.tableName.toList ++ ['_'] <+: b.tableName.toList := by
    decide +kernel
  exact hall a (mem_all a) b (mem_all b)

theorem tableName_injective : Function.Injective tableName := by
  have hall : ∀ a ∈ all, ∀ b ∈ all, a.tableName = b.tableName → a = b := by decide +kernel
  exact fun a b => hall a (mem_all a) b (mem_all b)

/-- Two names with an underscore between them tell both tables. -/
theorem eq_of_tableNames_eq {a b c d : Table}
    (h : a.tableName ++ "_" ++ b.tableName = c.tableName ++ "_" ++ d.tableName) : a = c ∧ b = d := by
  have hchars : a.tableName.toList ++ '_' :: b.tableName.toList =
      c.tableName.toList ++ '_' :: d.tableName.toList := by
    simpa using congrArg String.toList h
  -- If one of the first names is longer, it goes on with the underscore behind the other one.
  have hfirst : a.tableName.toList = c.tableName.toList := by
    rcases List.append_eq_append_iff.mp hchars with ⟨_ | ⟨u, x⟩, hc, hb⟩ | ⟨_ | ⟨u, x⟩, ha, hd⟩
    · simpa using hc.symm
    · obtain rfl : '_' = u := (List.cons.inj hb).1
      exact absurd ⟨x, by simp [hc]⟩ (not_prefix_tableName a c)
    · simpa using ha
    · obtain rfl : '_' = u := (List.cons.inj hd).1
      exact absurd ⟨x, by simp [ha]⟩ (not_prefix_tableName c a)
  have hsecond : b.tableName.toList = d.tableName.toList := by
    rw [hfirst] at hchars
    exact List.cons.inj (List.append_cancel_left hchars) |>.2
  exact ⟨tableName_injective (String.toList_inj.mp hfirst),
    tableName_injective (String.toList_inj.mp hsecond)⟩

end Table

namespace RelationName

open Identifier

/-- A relation that a registry may call for. -/
def IsDeclarable : RelationName → Prop
  | .other _ => False
  | _ => True

/-- What begins as no word of the language does is bare. -/
theorem isBare_append {p rest : String} (hp : IsSnake p ∧ p ≠ "")
    (hwords : words.all fun w => !p.toList.isPrefixOf w.toList) (hrest : IsSnake rest) :
    IsBare (p ++ rest) := by
  have hprefix : p.toList <+: (p ++ rest).toList := by
    rw [String.toList_append]
    exact List.prefix_append _ _
  refine ⟨hp.1.append hrest, ?_, fun hmem => ?_⟩
  · intro hempty
    rw [hempty] at hprefix
    exact hp.2 (String.toList_eq_nil_iff.mp (List.prefix_nil.mp hprefix))
  · have hnot : p.toList.isPrefixOf (p ++ rest).toList = false := by
      simpa using List.all_eq_true.mp hwords _ hmem
    rw [List.isPrefixOf_iff_prefix.mpr hprefix] at hnot
    cases hnot

/-- The names of two tables with an underscore between them. -/
theorem isSnake_tableNames (a b : Table) : IsSnake (a.tableName ++ "_" ++ b.tableName) :=
  (a.isBare_tableName.isSnake.append (by decide)).append b.isBare_tableName.isSnake

/-- The names of joins. -/
theorem text_join (a b : Table) :
    (RelationName.join a b).text = "join_" ++ (a.tableName ++ "_" ++ b.tableName) ∧
      (RelationName.directed a b).text = "directed_join_" ++ (a.tableName ++ "_" ++ b.tableName) := by
  simp [text, Registry.joinName, Registry.directedJoinName, String.append_assoc]

/-- The name of a relation is bare. -/
theorem isBare_text {n : RelationName} (h : n.IsDeclarable) : IsBare n.text := by
  cases n with
  | entity t => exact t.isBare_tableName
  | join a b =>
    rw [(text_join a b).1]
    exact isBare_append (by decide) (by decide) (isSnake_tableNames a b)
  | directed a b =>
    rw [(text_join a b).2]
    exact isBare_append (by decide) (by decide) (isSnake_tableNames a b)
  | other => exact h.elim

/-- The name of an index is bare, if that of its column is made of small letters and underscores. -/
theorem isBare_indexName {n : RelationName} (h : n.IsDeclarable) {column : String}
    (hcolumn : IsSnake column) : IsBare (n.indexName column) := by
  have hname : n.indexName column = "ix_" ++ (n.text ++ "_" ++ column) := by
    simp [indexName, String.append_assoc]
  rw [hname]
  exact isBare_append (by decide) (by decide)
    (((isBare_text h).isSnake.append (by decide)).append hcolumn)

/-- No table is named like a join. -/
theorem tableName_ne_text (t : Table) {p : String} (hp : p ∈ ["join_", "directed_join_"]) (rest : String) :
    t.tableName ≠ p ++ rest := by
  intro heq
  have hall : ∀ t ∈ Table.all, ∀ p ∈ ["join_", "directed_join_"], ¬ p.toList <+: t.tableName.toList := by
    decide
  refine hall t (Table.mem_all t) p hp ?_
  rw [heq, String.toList_append]
  exact List.prefix_append _ _

/-- Relations are told apart by their names. -/
theorem eq_of_text_eq {n m : RelationName} (hn : n.IsDeclarable) (hm : m.IsDeclarable)
    (h : n.text = m.text) : n = m := by
  -- The two prefixes differ in their first letter.
  have hbegins : ∀ rest rest' : String, "join_" ++ rest ≠ "directed_join_" ++ rest' := by
    intro rest rest' heq
    have hchars := congrArg (fun name : String => name.toList.head?) heq
    simp [String.toList_append] at hchars
  have hjoined : ∀ {p : String} {a b c d : Table}, p ++ (a.tableName ++ "_" ++ b.tableName) =
      p ++ (c.tableName ++ "_" ++ d.tableName) → a = c ∧ b = d := fun heq =>
    Table.eq_of_tableNames_eq (String.append_right_inj _ |>.mp heq)
  cases n with
  -- Texts of one kind name the same tables, and those of different kinds differ.
  | other => exact hn.elim
  | entity t =>
    cases m with
    | other => exact hm.elim
    | entity u => rw [Table.tableName_injective h]
    | join a b => exact absurd (h.trans (text_join a b).1) (tableName_ne_text t (by decide) _)
    | directed a b => exact absurd (h.trans (text_join a b).2) (tableName_ne_text t (by decide) _)
  | join a b =>
    cases m with
    | other => exact hm.elim
    | entity u => exact absurd (h.symm.trans (text_join a b).1) (tableName_ne_text u (by decide) _)
    | join c d =>
      rw [(text_join a b).1, (text_join c d).1] at h
      rw [(hjoined h).1, (hjoined h).2]
    | directed c d =>
      rw [(text_join a b).1, (text_join c d).2] at h
      exact absurd h (hbegins _ _)
  | directed a b =>
    cases m with
    | other => exact hm.elim
    | entity u => exact absurd (h.symm.trans (text_join a b).2) (tableName_ne_text u (by decide) _)
    | join c d =>
      rw [(text_join a b).2, (text_join c d).1] at h
      exact absurd h.symm (hbegins _ _)
    | directed c d =>
      rw [(text_join a b).2, (text_join c d).2] at h
      rw [(hjoined h).1, (hjoined h).2]

/-- No relation of a registry has the name of a catalogue. -/
theorem catalogue?_text {n : RelationName} (h : n.IsDeclarable) :
    (TableName.mk none n.text).catalogue? = none := by
  have hother : ∀ name ∈ ["sqlite_master", "sqlite_schema", "sqlite_temp_master", "sqlite_temp_schema"],
      same n.text name = false := by
    intro name hname
    have hsmall : ∀ name ∈ ["sqlite_master", "sqlite_schema", "sqlite_temp_master", "sqlite_temp_schema"],
        IsSmall name ∧ "sqlite".toList <+: name.toList := by decide
    rw [← Bool.not_eq_true]
    -- No name of the project begins like those of the catalogue.
    intro hsame
    have heq := (isBare_text h).isSnake.isSmall.eq_of_same (hsmall name hname).1 hsame
    have hprefix : "sqlite".toList <+: n.text.toList := heq ▸ (hsmall name hname).2
    cases n with
    | entity t =>
      have hall : ∀ t ∈ Table.all, ¬ "sqlite".toList <+: t.tableName.toList := by decide
      exact hall t (Table.mem_all t) hprefix
    | join a b => simp [(text_join a b).1] at hprefix
    | directed a b => simp [(text_join a b).2] at hprefix
    | other => exact h.elim
  simp only [List.forall_mem_cons] at hother
  simp [TableName.catalogue?, hother]

end RelationName

namespace Store

variable {s : Store} {n : RelationName}

/-- A relation is found by its name. -/
theorem locate_text (hnames : ∀ m ∈ s.relations.map (·.1), m.IsDeclarable)
    (hn : n ∈ s.relations.map (·.1)) : s.locate n.text = n := by
  obtain ⟨e, he, rfl⟩ := List.mem_map.mp hn
  obtain ⟨found, hfound⟩ : ∃ found, (s.relations.find? fun r => Identifier.same r.1.text e.1.text) =
      some found := by
    rw [← Option.isSome_iff_exists, List.find?_isSome]
    exact ⟨e, he, Identifier.same_self _⟩
  have hmem := hnames _ (List.mem_map_of_mem (List.mem_of_find?_eq_some hfound))
  have hsame : Identifier.same found.1.text e.1.text = true := by simpa using List.find?_some hfound
  have hsnake {m : RelationName} (hm : m.IsDeclarable) := (RelationName.isBare_text hm).isSnake.isSmall
  rw [locate, hfound]
  exact RelationName.eq_of_text_eq hmem (hnames _ hn)
    ((hsnake hmem).eq_of_same (hsnake (hnames _ hn)) hsame)

end Store

end SoarProject
