import SoarProject.Proofs.Store.Contents
import SoarProject.Proofs.Store.Layout

/-!
# The store of a new project

What a store holds right after its relations were created: every relation of the project, and in none
of them a record or a pair.
-/

namespace SoarProject

open Registry

namespace Store

variable {t : Table} {n : RelationName}

/-- A store with all relations of a project and nothing in them. -/
def blank : Store := (createAll {} project true).1

/-- A store knows the columns of a project under their own names. -/
theorem denoted_of_mem_layout {e : RelationName × Relation} (h : e ∈ project.layout) :
    e.2.denoted = e.2 := by
  simp only [layout, List.mem_append, List.mem_map] at h
  rcases h with (⟨t, -, rfl⟩ | ⟨p, -, rfl⟩) | ⟨p, -, rfl⟩
  · have hcolumns : (project.columnsOf t).map Column.denoted = (project.columnsOf t).map id :=
      List.map_congr_left fun c hc => by
        rw [Column.denoted, denoted_of_mem_columnNamesOf
          (List.mem_cons_of_mem _ (List.mem_map_of_mem hc)), id]
    rw [Relation.denoted, hcolumns, List.map_id]
  · rfl
  · rfl

/-- Every relation that a project calls for can be created. -/
theorem uncreatableColumn?_of_mem_layout {e : RelationName × Relation} (h : e ∈ project.layout) :
    uncreatableColumn? e.2 = none := by
  simp only [layout, List.mem_append, List.mem_map] at h
  rcases h with (⟨t, -, rfl⟩ | ⟨p, -, rfl⟩) | ⟨p, -, rfl⟩
  · -- Columns of a table are written as they are denoted, and their names are all different.
    have hname : ∀ c ∈ project.columnsOf t, c.name ∈ project.columnNamesOf t :=
      fun c hc => List.mem_cons_of_mem _ (List.mem_map_of_mem hc)
    have hdenoted : ∀ c ∈ project.columnsOf t, Identifier.denoted c.name = c.name :=
      fun c hc => denoted_of_mem_columnNamesOf (hname c hc)
    have hsame : ∀ {a b : String}, a ∈ project.columnNamesOf t → b ∈ project.columnNamesOf t →
        Identifier.same a b → a = b := fun ha hb =>
      (spelling_of_mem_columnNamesOf ha).1.eq_of_same (spelling_of_mem_columnNamesOf hb).1
    have hnodup := List.nodup_cons.mp (nodup_columnNamesOf t)
    refine uncreatable?_eq_none_iff.mpr ⟨fun c hc hword => ?_, fun c hc name hseen hword => ?_,
      (List.pairwise_map.mp hnodup.2).imp_of_mem fun {c d} hc hd hne hword => ?_⟩
    · -- A keyword would be denoted otherwise.
      have hunbroken : Identifier.unbroken c.name = c.name := by
        simpa [Identifier.denoted, hword.1] using hdenoted c hc
      rw [hdenoted c hc] at hword
      exact (spelling_of_mem_columnNamesOf (hname c hc)).2
        (by simpa using Identifier.eq_of_isKeyword hword.1 hunbroken hword.2)
    · obtain rfl := List.mem_singleton.mp hseen
      rw [hdenoted c hc] at hword
      exact hnodup.1 (hsame (hname c hc) List.mem_cons_self hword ▸ List.mem_map_of_mem hc)
    · rw [hdenoted c hc, hdenoted d hd] at hword
      exact hne (hsame (hname d hd) (hname c hc) hword).symm
  · rfl
  · rfl

theorem relations_blank : blank.relations = project.layout := by
  have hdone : (createAll {} project true).2 = none :=
    createAll_eq_none_of_layout fun e he => uncreatableColumn?_of_mem_layout he
  have hdenoted : (project.layout.map fun e => (e.1, e.2.denoted)) = project.layout.map id :=
    List.map_congr_left fun e he => by rw [denoted_of_mem_layout he, id]
  -- A store that was just created is taken as one, so that no creation is evaluated.
  exact (relations_created coherent_project hdone).trans (hdenoted.trans (List.map_id _))

/-- A store is made of its relations and its indexes. -/
theorem with_relations {s : Store} {relations : List (RelationName × Relation)}
    (h : s.relations = relations) : { s with relations } = s := by
  subst h
  rfl

theorem find?_blank {relation : Relation} (h : (n, relation) ∈ project.layout) :
    blank.find? n = some relation := by
  rw [find?, relations_blank]
  exact (lookup_eq_some_iff_mem coherent_project.nodup_layout).mpr h

/-- Each table has a relation without records. -/
theorem find?_blank_entity (t : Table) :
    blank.find? (.entity t) = some (.records (project.columnsOf t) []) :=
  find?_blank (by simp [layout, Table.mem_all])

/-- Each declared join has a relation without pairs. -/
theorem find?_blank_join (hn : n.IsJoin) :
    blank.find? n = some (.pairs n.joinColumns.1 n.joinColumns.2 []) := by
  cases n with
  | join a b => exact find?_blank (List.mem_append_left _ (List.mem_append_right _ (List.mem_map_of_mem hn)))
  | directed a b => exact find?_blank (List.mem_append_right _ (List.mem_map_of_mem hn))
  | entity => exact hn.elim
  | other => exact hn.elim

@[simp]
theorem rows_blank : blank.rows t = [] := by rw [rows, find?_blank_entity]

theorem pairsOf_blank (hn : n.IsJoin) : blank.pairsOf n = [] := by rw [pairsOf, find?_blank_join hn]

end Store

end SoarProject
