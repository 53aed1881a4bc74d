import SoarProject.Proofs.Schema.Registry
import SoarProject.Proofs.Store.Identifier
import SoarProject.Schema.Project
import SoarProject.Store.Layout

/-!
# The registry of a project

What the registry of a Soar project says about its tables, in the form in which proofs about rows use
it: child tables and parent tables name the same keys, and the declared joins are those that are found
from either side.
-/

namespace SoarProject

namespace Registry

/-! ### Keys -/

/-- What is declared for a project fits together. -/
theorem coherent_project : project.Coherent := coherent_ofDeclarations _

/-- A table is a child table of those that its keys refer to. -/
theorem mem_childrenOf_iff {p c : Table} :
    c ∈ project.childrenOf p ↔ p ∈ project.parentsOf c :=
  coherent_project.children_iff p c

/-- The parts of a rule are kept as children of the parts that they were declared for. -/
theorem mem_childrenOf_of_mem_ofRules {p c : Table} (h : .parent c p ∈ Declaration.ofRules) :
    c ∈ project.childrenOf p :=
  mem_childrenOf_ofDeclarations_iff.mpr (List.mem_append_left _ (List.mem_append_right _ h))

/-- The name of a key column ends as no attribute does. -/
theorem isSuffix_idName (t : Table) : ['_', 'i', 'd'] <:+ t.idName.toList := by
  rw [Table.idName, String.toList_append]
  exact List.suffix_append _ _

/-- The names of attributes do not end like those of keys, nor in a line break. -/
theorem ends_of_mem_columns {t : Table} {c : String × ColumnType} (h : c ∈ t.columns) :
    ¬ ['_', 'i', 'd'] <:+ c.1.toList ∧ c.1.toList.getLast? ≠ some '\n' := by
  have hall : ∀ t ∈ Table.all, ∀ c ∈ t.columns,
      ¬ ['_', 'i', 'd'] <:+ c.1.toList ∧ c.1.toList.getLast? ≠ some '\n' := by decide
  exact hall t (Table.mem_all t) c h

/-- The column of names is no key column. -/
theorem name_ne_idName (p : Table) : "name" ≠ p.idName := by
  intro heq
  have hname : ¬ ['_', 'i', 'd'] <:+ "name".toList := by decide
  exact hname (heq ▸ isSuffix_idName p)

/-- The id is no key column. -/
theorem id_ne_idName (p : Table) : "id" ≠ p.idName := by
  intro heq
  have hid : ¬ ['_', 'i', 'd'] <:+ "id".toList := by decide
  exact hid (heq ▸ isSuffix_idName p)

/-- A key column keeps integers, whatever is declared. -/
theorem columnType?_idName {r : Registry} {t p : Table} (h : p ∈ r.parentsOf t) :
    r.columnType? t p.idName = some .integer := by
  rw [columnType?, if_neg (id_ne_idName p).symm]
  have hfound : (r.keyColumns t).find? (·.name == p.idName) ≠ none := by
    simpa [keyColumns] using ⟨p, h, rfl⟩
  obtain ⟨c, hc⟩ := Option.ne_none_iff_exists'.mp hfound
  obtain ⟨q, -, rfl⟩ := List.mem_map.mp (List.mem_of_find?_eq_some hc)
  simp [columnsOf, List.find?_append, name_ne_idName, hc]

theorem idName_injective : Function.Injective Table.idName := by
  have h : ∀ t ∈ Table.all, ∀ u ∈ Table.all, t.idName = u.idName → t = u := by decide
  exact fun t u => h t (Table.mem_all t) u (Table.mem_all u)

end Registry

/-- A name that is neither that of the id nor that of a key. -/
def IsAttribute (name : String) : Prop := ¬ ['i', 'd'] <:+ name.toList

instance (name : String) : Decidable (IsAttribute name) := by
  unfold IsAttribute
  infer_instance

/-- The only column that is set to name a row is an attribute. -/
theorem isAttribute_of_mem_name {name : Value} : ∀ v ∈ [("name", name)], IsAttribute v.1 := by
  intro v hv
  rw [List.mem_singleton.mp hv]
  change IsAttribute "name"
  decide

/-- An attribute is not the id. -/
theorem IsAttribute.ne_id {name : String} (h : IsAttribute name) : name ≠ "id" := by
  rintro rfl
  exact h (List.suffix_refl _)

/-- An attribute is no key. -/
theorem IsAttribute.ne_idName {name : String} (h : IsAttribute name) (t : Table) :
    name ≠ t.idName := by
  rintro rfl
  exact h ((List.suffix_cons '_' _).trans (Registry.isSuffix_idName t))

namespace Registry

/-! ### Joins -/

/-- The declared joins are found from either side. -/
theorem joined_of_mem_joinedPairs {a b : Table} (h : (a, b) ∈ project.joinedPairs) :
    project.orderJoined? a b = some (a, b) ∧ project.orderJoined? b a = some (a, b) ∧
      b ∈ project.joinPartnersOf a ∧ a ∈ project.joinPartnersOf b := by
  have hab := coherent_project.joins.mem_pairs_iff.mp h
  obtain ⟨hforth, hback⟩ := coherent_project.orderJoined?_of_mem hab
  exact ⟨hforth, hback, coherent_project.mem_joinPartnersOf hab⟩

/-- What is found for two tables is a declared join of them. -/
theorem mem_joinedPairs_of_orderJoined? {a b : Table} {order : Table × Table}
    (h : project.orderJoined? a b = some order) :
    order ∈ project.joinedPairs ∧ (order = (a, b) ∨ order = (b, a)) := by
  obtain ⟨hmem, horder⟩ := Coherent.mem_of_orderJoined? h
  exact ⟨coherent_project.joins.mem_pairs_iff.mpr hmem, horder⟩

/-- Every partner of a table is joined to it. -/
theorem orderJoined?_of_mem_joinPartnersOf {t p : Table} (h : p ∈ project.joinPartnersOf t) :
    ∃ order, project.orderJoined? t p = some order := by
  rcases coherent_project.mem_joinPartnersOf_iff.mp h with htp | ⟨-, hpt⟩
  · exact ⟨_, (coherent_project.orderJoined?_of_mem htp).1⟩
  · exact ⟨_, (coherent_project.orderJoined?_of_mem hpt).2⟩

/-- The declared directed joins are those that are found from the parent. -/
theorem mem_directedPairs_iff {p c : Table} :
    (p, c) ∈ project.directedPairs ↔ c ∈ project.directedChildrenOf p :=
  coherent_project.directedJoins.mem_pairs_iff

/-- The directed joins that are found from the parent are found from the child. -/
theorem mem_directedParentsOf_iff {p c : Table} :
    p ∈ project.directedParentsOf c ↔ c ∈ project.directedChildrenOf p :=
  coherent_project.mem_directedParentsOf_iff

end Registry

namespace Identifier

/-- A name that does not end in a line break is kept as it is. -/
theorem denoted_eq_self {name : String} (h : name.toList.getLast? ≠ some '\n') :
    denoted name = name := by
  have hunbroken : unbroken name = name := by
    unfold unbroken
    split
    · next hreverse =>
      rw [← List.head?_reverse, hreverse] at h
      exact absurd rfl h
    · rfl
  rw [denoted, hunbroken, ite_self]

end Identifier

namespace Registry

/-- A key column is kept under its own name. -/
theorem denoted_idName (t : Table) : Identifier.denoted t.idName = t.idName := by
  refine Identifier.denoted_eq_self ?_
  obtain ⟨front, hfront⟩ := isSuffix_idName t
  rw [← hfront]
  simp

/-- The columns of a project are kept under their own names. -/
theorem denoted_of_mem_columnNamesOf {t : Table} {name : String}
    (h : name ∈ project.columnNamesOf t) : Identifier.denoted name = name := by
  have heditable : ∀ t ∈ Table.all, ∀ c ∈ project.editableColumnsOf t,
      c.name.toList.getLast? ≠ some '\n' := by decide
  simp only [columnNamesOf, columnsOf, keyColumns, List.map_append, List.map_cons, List.map_map,
    List.cons_append, List.mem_cons, List.mem_append, List.mem_map, Function.comp_apply] at h
  rcases h with rfl | rfl | (⟨p, -, rfl⟩ | ⟨c, hc, rfl⟩) | ⟨c, hc, rfl⟩
  · exact Identifier.denoted_eq_self (by decide)
  · exact Identifier.denoted_eq_self (by decide)
  · exact denoted_idName p
  · exact Identifier.denoted_eq_self (ends_of_mem_columns hc).2
  · exact Identifier.denoted_eq_self (heditable t (Table.mem_all t) c hc)

/-! ### Names of columns -/

/-- No table has two columns of one name. -/
theorem nodup_columnNamesOf (t : Table) : (project.columnNamesOf t).Nodup := by
  have h : ∀ t ∈ Table.all, (project.columnNamesOf t).Nodup := by decide
  exact h t (Table.mem_all t)

/-- A column of a table has its type. -/
theorem columnType?_of_mem {t : Table} {c : Column} (h : c ∈ project.columnsOf t) :
    project.columnType? t c.name = some c.type := by
  have hnodup := List.nodup_cons.mp (nodup_columnNamesOf t)
  have hid : c.name ≠ "id" := fun heq => hnodup.1 (heq ▸ List.mem_map_of_mem h)
  obtain ⟨found, hfound⟩ : ∃ found, (project.columnsOf t).find? (·.name == c.name) = some found :=
    Option.isSome_iff_exists.mp (List.find?_isSome.mpr ⟨c, h, by simp⟩)
  have hname : (found.name == c.name) = true :=
    List.find?_some (p := fun d : Column => d.name == c.name) hfound
  have heq := List.inj_on_of_nodup_map hnodup.2 (List.mem_of_find?_eq_some hfound) h (eq_of_beq hname)
  rw [columnType?, if_neg hid, hfound, heq]
  rfl

/-- The attributes of a table have the types that are fixed for them. -/
theorem columnType?_of_mem_columns {t : Table} {c : String × ColumnType} (h : c ∈ t.columns) :
    project.columnType? t c.1 = some (.ofColumnType c.2) := by
  refine columnType?_of_mem (c := ⟨c.1, .ofColumnType c.2⟩) ?_
  exact List.mem_append_left _ (List.mem_append_right _ (List.mem_map.mpr ⟨c, h, rfl⟩))

/-- Every table has a column of names, whatever is declared. -/
theorem columnType?_name {r : Registry} (t : Table) : r.columnType? t "name" = some .name := by
  simp [columnType?, columnsOf]

/-- The columns that are fixed for a table are attributes, and none is that of the name. -/
theorem isAttribute_of_mem_columns {t : Table} {c : String × ColumnType} (h : c ∈ t.columns) :
    IsAttribute c.1 ∧ c.1 ≠ "name" := by
  have hall : ∀ t ∈ Table.all, ∀ c ∈ t.columns, IsAttribute c.1 ∧ c.1 ≠ "name" := by decide
  exact hall t (Table.mem_all t) c h

/-- The name of a table is in small letters. -/
theorem isSmall_tableName (t : Table) : Identifier.IsSmall t.tableName := by
  have h : ∀ t ∈ Table.all, Identifier.IsSmall t.tableName := by decide
  exact h t (Table.mem_all t)

/-- The name of a key column is in small letters. -/
theorem isSmall_idName (t : Table) : Identifier.IsSmall t.idName := by
  refine Identifier.isSmall_iff.mpr fun c hc => ?_
  simp only [Table.idName, Table.shortName, String.toList_append, String.toList_ofList,
    List.mem_append] at hc
  rcases hc with hc | hc
  · exact Identifier.isSmall_iff.mp (isSmall_tableName t) c ((List.dropLast_sublist _).mem hc)
  · have h : Identifier.IsSmall "_id" := by decide
    exact Identifier.isSmall_iff.mp h c hc

/-- The columns of a project are named in small letters, and none has the name of a keyword that can be
written without quotes. -/
theorem spelling_of_mem_columnNamesOf {t : Table} {name : String}
    (h : name ∈ project.columnNamesOf t) :
    Identifier.IsSmall name ∧ name ∉ ["nothing", "returning"] := by
  -- Attributes and editable columns are listed, while key columns are told by their ending.
  have hattributes : ∀ t ∈ Table.all, ∀ c ∈ t.columns,
      Identifier.IsSmall c.1 ∧ c.1 ∉ ["nothing", "returning"] := by decide
  have heditable : ∀ t ∈ Table.all, ∀ c ∈ project.editableColumnsOf t,
      Identifier.IsSmall c.name ∧ c.name ∉ ["nothing", "returning"] := by decide
  have hkeys : ∀ word ∈ ["nothing", "returning"], ¬ ['_', 'i', 'd'] <:+ word.toList := by decide
  simp only [columnNamesOf, columnsOf, keyColumns, List.map_append, List.map_cons, List.map_map,
    List.cons_append, List.mem_cons, List.mem_append, List.mem_map, Function.comp_apply] at h
  rcases h with rfl | rfl | (⟨p, -, rfl⟩ | ⟨c, hc, rfl⟩) | ⟨c, hc, rfl⟩
  · decide
  · decide
  · exact ⟨isSmall_idName p, fun hmem => hkeys _ hmem (isSuffix_idName p)⟩
  · exact hattributes t (Table.mem_all t) c hc
  · exact heditable t (Table.mem_all t) c hc

end Registry

end SoarProject
