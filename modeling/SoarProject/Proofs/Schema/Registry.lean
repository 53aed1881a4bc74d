import Mathlib.Data.List.Induction
import Mathlib.Data.List.Nodup
import SoarProject.Schema.Registry

/-!
# What declarations establish

A registry is made by one declaration after the other. Whatever is declared, a table is a child table
of those that it refers to, no table has two groups in an index, and no pair of tables is joined in
both orders. So what is found from one side of a relation is found from the other.

* `Registry.Coherent.declare`: one declaration keeps this.
* `Registry.coherent_ofDeclarations`: every list of declarations establishes it.
* `Registry.childrenOf_ofDeclarations`: child tables stand in the order of their declarations.
-/

namespace SoarProject

/-! ### Looking up -/

/-- What is found under a key stands there. -/
theorem mem_of_lookup_eq_some {α β : Type} [BEq α] [LawfulBEq α] {l : List (α × β)} {a : α} {b : β}
    (h : l.lookup a = some b) : (a, b) ∈ l := by
  obtain ⟨front, back, hl, -⟩ := List.lookup_eq_some_iff.mp h
  rw [hl]
  simp

/-- Where no key occurs twice, what is found under a key is what stands there. -/
theorem lookup_eq_some_iff_mem {α β : Type} [BEq α] [LawfulBEq α] {l : List (α × β)}
    (h : (l.map (·.1)).Nodup) {a : α} {b : β} : l.lookup a = some b ↔ (a, b) ∈ l := by
  induction l with
  | nil => simp
  | cons e rest ih =>
    obtain ⟨key, old⟩ := e
    rw [List.map_cons, List.nodup_cons] at h
    by_cases ha : a = key
    · subst ha
      have hrest : (a, b) ∉ rest := fun hmem => h.1 (List.mem_map.mpr ⟨_, hmem, rfl⟩)
      simp [hrest, eq_comm]
    · have hne : ¬ (a, b) = (key, old) := fun heq => ha (Prod.mk.inj heq).1
      rw [List.lookup_cons, beq_false_of_ne ha, ih h.2, List.mem_cons, or_iff_right hne]

/-! ### Indexes -/

namespace Index

variable {α : Type} {index : Index α} {t u : Table} {v w : α}

/-- Every table has one group, and each value stands in it once. -/
structure Distinct (index : Index α) : Prop where
  tables : (index.groups.map (·.1)).Nodup
  values : ∀ g ∈ index.groups, g.2.Nodup

theorem distinct_empty : (empty : Index α).Distinct := ⟨List.nodup_nil, by simp [empty]⟩

/-- A value of a table stands in the group of the table. -/
theorem Distinct.mem_get_iff (h : index.Distinct) :
    v ∈ index.get t ↔ ∃ values, (t, values) ∈ index.groups ∧ v ∈ values := by
  rw [get]
  cases hfound : index.groups.lookup t with
  | none =>
    refine ⟨fun hv => absurd hv List.not_mem_nil, ?_⟩
    rintro ⟨values, hmem, -⟩
    rw [(lookup_eq_some_iff_mem h.tables).mpr hmem] at hfound
    cases hfound
  | some values =>
    -- There is one group for each table, so the values are those found.
    rw [lookup_eq_some_iff_mem h.tables] at hfound
    refine ⟨fun hv => ⟨values, hfound, hv⟩, ?_⟩
    rintro ⟨values', hmem, hv⟩
    have heq : some values = some values' :=
      ((lookup_eq_some_iff_mem h.tables).mpr hfound).symm.trans ((lookup_eq_some_iff_mem h.tables).mpr hmem)
    exact Option.some.inj heq ▸ hv

/-- The pairs are the tables with their values. -/
theorem Distinct.mem_pairs_iff (h : index.Distinct) : (t, v) ∈ index.pairs ↔ v ∈ index.get t := by
  rw [h.mem_get_iff]
  simp only [pairs, List.mem_flatMap, List.mem_map, Prod.exists, Prod.mk.injEq]
  grind

/-- No pair occurs twice. -/
theorem Distinct.nodup_pairs (h : index.Distinct) : index.pairs.Nodup := by
  refine List.nodup_flatMap.mpr ⟨fun g hg => ?_, ?_⟩
  · exact (h.values g hg).map fun _ _ heq => (Prod.mk.inj heq).2
  · refine (List.pairwise_map.mp h.tables).imp fun {g g'} hne => ?_
    simp only [List.disjoint_left, List.mem_map]
    rintro _ ⟨v, -, rfl⟩ ⟨v', -, heq⟩
    exact hne (Prod.mk.inj heq).1.symm

variable [DecidableEq α]

/-- A table that gets a value keeps its group or gets a new one at the end. -/
theorem map_fst_insertGroup (t : Table) (w : α) (groups : List (Table × List α)) :
    (insertGroup t w groups).map (·.1) =
      groups.map (·.1) ++ if t ∈ groups.map (·.1) then [] else [t] := by
  induction groups with
  | nil => rfl
  | cons g rest ih =>
    obtain ⟨key, values⟩ := g
    by_cases hkey : key = t
    · simp [insertGroup, hkey]
    · simp only [insertGroup, if_neg hkey, List.map_cons, ih, List.cons_append, List.mem_cons,
        Ne.symm hkey, false_or]

/-- The group that a value is added to. -/
theorem lookup_insertGroup_self (t : Table) (w : α) (groups : List (Table × List α)) :
    (insertGroup t w groups).lookup t = some (if w ∈ (groups.lookup t).getD [] then
      (groups.lookup t).getD [] else (groups.lookup t).getD [] ++ [w]) := by
  induction groups with
  | nil => simp [insertGroup]
  | cons g rest ih =>
    obtain ⟨key, values⟩ := g
    by_cases hkey : key = t
    · simp [insertGroup, hkey]
    · have hskip (rest : List (Table × List α)) :
          ((key, values) :: rest).lookup t = rest.lookup t := by
        rw [List.lookup_cons, beq_false_of_ne (Ne.symm hkey)]
      rw [insertGroup, if_neg hkey, hskip, hskip, ih]

/-- The other groups stay as they are. -/
theorem lookup_insertGroup_of_ne (hu : u ≠ t) (w : α) (groups : List (Table × List α)) :
    (insertGroup t w groups).lookup u = groups.lookup u := by
  induction groups with
  | nil => simp [insertGroup, List.lookup_cons, beq_false_of_ne hu]
  | cons g rest ih =>
    obtain ⟨key, values⟩ := g
    by_cases hkey : key = t
    · simp [insertGroup, hkey, List.lookup_cons, beq_false_of_ne hu]
    · rw [insertGroup, if_neg hkey, List.lookup_cons, List.lookup_cons, ih]

/-- A value that is added stands at the end of its group, unless it stands there already. -/
theorem get_add_self (index : Index α) (t : Table) (w : α) :
    (index.add t w).get t = if w ∈ index.get t then index.get t else index.get t ++ [w] := by
  rw [get, add, lookup_insertGroup_self]
  rfl

/-- A value that is added stands in no other group. -/
theorem get_add_of_ne (index : Index α) (hu : u ≠ t) (w : α) : (index.add t w).get u = index.get u := by
  rw [get, add, lookup_insertGroup_of_ne hu, get]

/-- After a value was added, it is found beside the others. -/
theorem mem_get_add : v ∈ (index.add t w).get u ↔ v ∈ index.get u ∨ u = t ∧ v = w := by
  by_cases hu : u = t
  · subst hu
    rw [get_add_self]
    split
    · next hw => simpa using fun heq : v = w => heq ▸ hw
    · simp
  · simp [get_add_of_ne index hu, hu]

/-- The groups stay distinct when a value is added. -/
theorem Distinct.add (h : index.Distinct) (t : Table) (w : α) : (index.add t w).Distinct where
  tables := by
    rw [Index.add, map_fst_insertGroup]
    split
    · -- A new table is not among the old ones.
      simpa using h.tables
    · next ht => simpa using List.Nodup.concat ht h.tables
  values := by
    obtain ⟨groups⟩ := index
    have hvalues : ∀ g ∈ groups, g.2.Nodup := h.values
    clear h
    simp only [Index.add]
    -- Only the group of the table gets the value, and only if it is new there.
    induction groups with
    | nil => simp [insertGroup]
    | cons g rest ih =>
      obtain ⟨key, values⟩ := g
      have hrest := fun g hg => hvalues g (List.mem_cons_of_mem _ hg)
      unfold insertGroup
      split
      · rintro g hg
        rcases List.mem_cons.mp hg with rfl | hg
        · dsimp only
          split
          · exact hvalues _ List.mem_cons_self
          · next hw => simpa using List.Nodup.concat hw (hvalues _ List.mem_cons_self)
        · exact hrest g hg
      · rintro g hg
        rcases List.mem_cons.mp hg with rfl | hg
        · exact hvalues _ List.mem_cons_self
        · exact ih hrest g hg

end Index

/-! ### Declarations -/

/-- The table that a declaration puts below another one. -/
def Declaration.childOf? (parent : Table) : Declaration → Option Table
  | .parent child p => if p = parent then some child else none
  | _ => none

theorem Declaration.childOf?_eq_some_iff {d : Declaration} {p c : Table} :
    d.childOf? p = some c ↔ d = .parent c p := by
  cases d <;> simp [childOf?]
  tauto

/-- Of the values of a list, one more is kept unless it occurs before. -/
theorem eraseDups_concat {α : Type} [DecidableEq α] (l : List α) (v : α) :
    (l ++ [v]).eraseDups = if v ∈ l.eraseDups then l.eraseDups else l.eraseDups ++ [v] := by
  simp only [List.eraseDups_append, List.mem_eraseDups]
  split <;> rename_i hv <;> simp [List.removeAll, hv, List.eraseDups_cons]

/-! ### Registries -/

namespace Registry

variable {r : Registry} {a b p c t : Table}

/-- The relations between tables are kept from both of their sides. -/
structure Coherent (r : Registry) : Prop where
  /-- Children and parents tell the same. -/
  children_iff : ∀ p c, c ∈ r.childrenOf p ↔ p ∈ r.parentsOf c
  joins : r.joins.Distinct
  /-- A join is declared in one order. -/
  joins_antisymm : ∀ a b, b ∈ r.joins.get a → a ∈ r.joins.get b → a = b
  directedJoins : r.directedJoins.Distinct

theorem coherent_empty : Coherent {} where
  children_iff _ _ := by simp [childrenOf, parentsOf, Index.get, Index.empty]
  joins := Index.distinct_empty
  joins_antisymm _ _ hb := absurd hb (by simp [Index.get, Index.empty])
  directedJoins := Index.distinct_empty

/-- A declaration adds to both sides of its relation. -/
theorem Coherent.declare (h : r.Coherent) (d : Declaration) : (r.declare d).Coherent := by
  cases d with
  | parent child parent =>
    refine ⟨fun p c => ?_, h.joins, h.joins_antisymm, h.directedJoins⟩
    have hold := h.children_iff p c
    simp only [childrenOf, parentsOf, Registry.declare, Index.mem_get_add] at hold ⊢
    rw [hold, and_comm]
  | join first second =>
    unfold Registry.declare
    dsimp only
    split
    · exact h
    · next hnew =>
      rw [not_or] at hnew
      refine ⟨h.children_iff, h.joins.add _ _, fun a b hab hba => ?_, h.directedJoins⟩
      simp only [Index.mem_get_add] at hab hba
      -- The new pair was declared in neither order, so only it can be its own converse.
      rcases hab with hab | ⟨rfl, rfl⟩ <;> rcases hba with hba | ⟨hba, hab'⟩
      · exact h.joins_antisymm a b hab hba
      · exact absurd (hba ▸ hab' ▸ hab) hnew.2
      · exact absurd hba hnew.2
      · exact hba.symm
  | directedJoin parent child =>
    exact ⟨h.children_iff, h.joins, h.joins_antisymm, h.directedJoins.add _ _⟩
  | automatic | editable | folders =>
    exact ⟨h.children_iff, h.joins, h.joins_antisymm, h.directedJoins⟩

theorem ofDeclarations_concat (ds : List Declaration) (d : Declaration) :
    ofDeclarations (ds ++ [d]) = (ofDeclarations ds).declare d := by
  rw [ofDeclarations, List.foldl_append]
  rfl

/-- Declarations make a coherent registry. -/
theorem coherent_ofDeclarations (ds : List Declaration) : (ofDeclarations ds).Coherent := by
  induction ds using List.reverseRecOn with
  | nil => exact coherent_empty
  | append_singleton ds d ih =>
    rw [ofDeclarations_concat]
    exact ih.declare d

/-! ### Structural children -/

/-- A declaration puts at most one more table below another one, behind those that are there. -/
theorem childrenOf_declare (r : Registry) (d : Declaration) (p : Table) :
    (r.declare d).childrenOf p = match d.childOf? p with
      | some c => if c ∈ r.childrenOf p then r.childrenOf p else r.childrenOf p ++ [c]
      | none => r.childrenOf p := by
  cases d with
  | parent child parent =>
    rw [Declaration.childOf?]
    split_ifs with hp
    · subst hp
      exact Index.get_add_self r.children parent child
    · exact Index.get_add_of_ne r.children (Ne.symm hp) child
  | join first second =>
    unfold declare
    dsimp only
    split <;> rfl
  | _ => rfl

/-- The tables below a table stand in the order in which they were first declared. -/
theorem childrenOf_ofDeclarations (ds : List Declaration) (p : Table) :
    (ofDeclarations ds).childrenOf p = (ds.filterMap (·.childOf? p)).eraseDups := by
  induction ds using List.reverseRecOn with
  | nil => rfl
  | append_singleton ds d ih =>
    rw [ofDeclarations_concat, childrenOf_declare, ih, List.filterMap_append, List.filterMap_cons]
    cases d.childOf? p with
    | none => simp
    | some c => exact (eraseDups_concat _ c).symm

/-- The tables below a table are those that were declared to refer to it. -/
theorem mem_childrenOf_ofDeclarations_iff {ds : List Declaration} :
    c ∈ (ofDeclarations ds).childrenOf p ↔ .parent c p ∈ ds := by
  rw [childrenOf_ofDeclarations, List.mem_eraseDups, List.mem_filterMap]
  simp [Declaration.childOf?_eq_some_iff]

namespace Coherent

/-! ### Undirected joins -/

/-- The values of a group that are appended to partners. -/
theorem mem_foldl_append {values partners : List Table} :
    p ∈ values.foldl (fun ps v => if v ∈ ps then ps else ps ++ [v]) partners ↔
      p ∈ partners ∨ p ∈ values := by
  induction values generalizing partners with
  | nil => simp
  | cons v rest ih =>
    rw [List.foldl_cons, ih]
    split
    · next hv => exact ⟨by grind, by grind⟩
    · simp [or_assoc]

/-- The partners of a table together with those that a group adds. -/
def addPartners (t : Table) (partners : List Table) (g : Table × List Table) : List Table :=
  if g.1 = t then g.2.foldl (fun ps v => if v ∈ ps then ps else ps ++ [v]) partners
  else if t ∈ g.2 ∧ g.1 ∉ partners then partners ++ [g.1] else partners

theorem joinPartnersOf_eq : r.joinPartnersOf t = r.joins.groups.foldl (addPartners t) [] := rfl

/-- The group of the table adds its values, and another group its table if it names this one. -/
theorem mem_addPartners_iff {partners : List Table} {g : Table × List Table} :
    p ∈ addPartners t partners g ↔
      p ∈ partners ∨ (g.1 = t ∧ p ∈ g.2) ∨ (g.1 ≠ t ∧ t ∈ g.2 ∧ p = g.1) := by
  unfold addPartners
  split
  · next hkey => simp [mem_foldl_append, hkey]
  · next hkey => grind

/-- The partners of a table are those of its own group and the tables whose groups name it. -/
theorem mem_joinPartnersOf_iff (h : r.Coherent) :
    p ∈ r.joinPartnersOf t ↔ p ∈ r.joins.get t ∨ p ≠ t ∧ t ∈ r.joins.get p := by
  -- Each group adds its own values for `t`, or its key where `t` is among them.
  have hrun : ∀ (groups : List (Table × List Table)) (partners : List Table),
      p ∈ groups.foldl (addPartners t) partners ↔
        p ∈ partners ∨ (∃ values, (t, values) ∈ groups ∧ p ∈ values) ∨
          p ≠ t ∧ ∃ values, (p, values) ∈ groups ∧ t ∈ values := by
    intro groups
    induction groups with
    | nil => simp
    | cons g rest ih =>
      intro partners
      obtain ⟨key, values⟩ := g
      rw [List.foldl_cons, ih, mem_addPartners_iff]
      grind
  rw [joinPartnersOf_eq, hrun, h.joins.mem_get_iff, h.joins.mem_get_iff]
  simp

/-- The order of two joined tables is that in which their join is declared. -/
theorem orderJoined?_of_mem (h : r.Coherent) (hab : b ∈ r.joins.get a) :
    r.orderJoined? a b = some (a, b) ∧ r.orderJoined? b a = some (a, b) := by
  refine ⟨if_pos hab, ?_⟩
  rw [orderJoined?, if_pos hab]
  split
  · next hba => rw [h.joins_antisymm a b hab hba]
  · rfl

/-- What is found for two tables is a declared join of them. -/
theorem mem_of_orderJoined? {order : Table × Table} (ho : r.orderJoined? a b = some order) :
    order.2 ∈ r.joins.get order.1 ∧ (order = (a, b) ∨ order = (b, a)) := by
  unfold orderJoined? at ho
  split at ho
  · next hab =>
    cases ho
    exact ⟨hab, .inl rfl⟩
  · split at ho
    · next hba =>
      cases ho
      exact ⟨hba, .inr rfl⟩
    · cases ho

/-- Joined tables are partners of each other. -/
theorem mem_joinPartnersOf (h : r.Coherent) (hab : b ∈ r.joins.get a) :
    b ∈ r.joinPartnersOf a ∧ a ∈ r.joinPartnersOf b := by
  rw [h.mem_joinPartnersOf_iff, h.mem_joinPartnersOf_iff]
  refine ⟨.inl hab, ?_⟩
  by_cases heq : a = b
  · exact .inl (heq ▸ hab)
  · exact .inr ⟨heq, hab⟩

/-! ### Directed joins -/

/-- The directed joins that are found from the parent are found from the child. -/
theorem mem_directedParentsOf_iff (h : r.Coherent) :
    p ∈ r.directedParentsOf c ↔ c ∈ r.directedChildrenOf p := by
  rw [directedChildrenOf, h.directedJoins.mem_get_iff]
  simp [directedParentsOf]

end Coherent

end Registry

end SoarProject
