import SoarProject.Proofs.Schema.Registry
import SoarProject.Proofs.Store.Identifier
import SoarProject.Store.Layout

/-!
# Creating the relations of a registry

What a registry calls for is created one relation after the other. If none of them fails, an empty
store ends up with just the layout of the registry, each relation as the store knows it.
-/

namespace SoarProject

variable {r : Registry}

namespace Registry

/-- A registry calls for no relation twice. -/
theorem Coherent.nodup_layout (h : r.Coherent) : (r.layout.map (·.1)).Nodup := by
  have hall : Table.all.Nodup := by decide
  have hentities : (Table.all.map RelationName.entity).Nodup :=
    hall.map fun _ _ heq => RelationName.entity.inj heq
  have hjoins : (r.joinedPairs.map fun p => RelationName.join p.1 p.2).Nodup :=
    h.joins.nodup_pairs.map fun _ _ heq => Prod.ext_iff.mpr (RelationName.join.inj heq)
  have hdirected : (r.directedPairs.map fun p => RelationName.directed p.1 p.2).Nodup :=
    h.directedJoins.nodup_pairs.map fun _ _ heq => Prod.ext_iff.mpr (RelationName.directed.inj heq)
  have hnames : r.layout.map (·.1) = Table.all.map RelationName.entity ++
      (r.joinedPairs.map fun p => RelationName.join p.1 p.2) ++
        r.directedPairs.map fun p => RelationName.directed p.1 p.2 := by
    simp [layout, Function.comp_def]
  -- The three sorts of names are told apart by their constructor.
  rw [hnames, List.nodup_append, List.nodup_append]
  refine ⟨⟨hentities, hjoins, ?_⟩, hdirected, ?_⟩
  · simp only [List.mem_map]
    rintro _ ⟨t, -, rfl⟩ _ ⟨p, -, rfl⟩
    nofun
  · simp only [List.mem_append, List.mem_map]
    rintro _ (⟨t, -, rfl⟩ | ⟨p, -, rfl⟩) _ ⟨q, -, rfl⟩ <;> nofun

end Registry

namespace Store

/-- Indexes are no relations. -/
theorem relations_createIndexed (s : Store) (n : RelationName) (relation : Relation)
    (indexed : List String) :
    (s.createIndexed n relation indexed).relations = (s.create n relation).relations := by
  unfold createIndexed
  generalize s.create n relation = s'
  induction indexed generalizing s' with
  | nil => rfl
  | cons column rest ih => exact ih _

/-- Nothing is found under a name that no relation has. -/
theorem find?_eq_none {s : Store} {n : RelationName} (hn : n ∉ s.relations.map (·.1)) :
    s.find? n = none := by
  refine List.lookup_eq_none_iff.mpr fun e he => ?_
  exact bne_iff_ne.mpr fun heq => hn (heq ▸ List.mem_map_of_mem he)

/-- A relation that is missing is created behind the others. -/
theorem relations_create {s : Store} {n : RelationName} (hn : n ∉ s.relations.map (·.1))
    (relation : Relation) : (s.create n relation).relations = s.relations ++ [(n, relation)] := by
  rw [create, find?_eq_none hn]
  rfl

/-- The first relation of a layout in which no name is repeated is created if it can be, and no name is
repeated afterwards. -/
theorem createMissing_cons {layout : List (RelationName × Relation)} {s : Store} {n : RelationName}
    {relation : Relation}
    (hnames : (s.relations.map (·.1) ++ ((n, relation) :: layout).map (·.1)).Nodup) :
    createMissing r true ((n, relation) :: layout) s =
        (match uncreatableColumn? relation with
        | some e => (s, some e)
        | none =>
          createMissing r true layout
            (s.createIndexed n relation.denoted (r.indexedColumns n relation))) ∧
      (s.createIndexed n relation.denoted (r.indexedColumns n relation)).relations =
        s.relations ++ [(n, relation.denoted)] ∧
      ((s.createIndexed n relation.denoted (r.indexedColumns n relation)).relations.map (·.1) ++
        layout.map (·.1)).Nodup := by
  -- The name is new, so the relation is created, unless a column cannot be.
  have hn : n ∉ s.relations.map (·.1) := by
    intro hmem
    exact (List.nodup_append.mp hnames).2.2 n hmem n (by simp) rfl
  have hrelations := relations_createIndexed s n relation.denoted (r.indexedColumns n relation)
  rw [relations_create hn] at hrelations
  refine ⟨?_, hrelations, ?_⟩
  · rw [createMissing, find?_eq_none hn]
    cases uncreatableColumn? relation <;> rfl
  · rw [hrelations]
    simpa using hnames

/-- If no creation fails, all relations are behind those that were there. -/
theorem relations_createMissing {layout : List (RelationName × Relation)} {s : Store}
    (hnames : (s.relations.map (·.1) ++ layout.map (·.1)).Nodup)
    (hdone : (createMissing r true layout s).2 = none) :
    (createMissing r true layout s).1.relations =
      s.relations ++ layout.map fun e => (e.1, e.2.denoted) := by
  induction layout generalizing s with
  | nil => simp [createMissing]
  | cons e rest ih =>
    obtain ⟨hcreate, hrelations, hrest⟩ := createMissing_cons (r := r) hnames
    rw [hcreate] at hdone ⊢
    split at hdone
    · cases hdone
    · rw [ih hrest hdone, hrelations]
      simp

/-- The store right after the relations of a registry were created. -/
def created (r : Registry) : Store := (createAll {} r true).1

/-- If no creation fails, an empty store gets the layout of the registry. -/
theorem relations_created (h : r.Coherent) (hdone : (createAll {} r true).2 = none) :
    (created r).relations = r.layout.map fun e => (e.1, e.2.denoted) := by
  have hnames : (({} : Store).relations.map (·.1) ++ r.layout.map (·.1)).Nodup := h.nodup_layout
  exact relations_createMissing hnames hdone

/-- No creation fails if every relation can be created. -/
theorem createMissing_eq_none {layout : List (RelationName × Relation)} {s : Store}
    (h : ∀ e ∈ layout, uncreatableColumn? e.2 = none) : (createMissing r true layout s).2 = none := by
  induction layout generalizing s with
  | nil => rfl
  | cons e rest ih =>
    have hrest := fun e he => h e (List.mem_cons_of_mem _ he)
    unfold createMissing
    split
    · exact ih hrest
    · rw [h e List.mem_cons_self]
      exact ih hrest

theorem createAll_eq_none_of_layout (h : ∀ e ∈ r.layout, uncreatableColumn? e.2 = none) :
    (createAll {} r true).2 = none :=
  createMissing_eq_none h

/-- If no creation fails, every relation that is missing can be created. -/
theorem uncreatableColumn?_eq_none {layout : List (RelationName × Relation)} {s : Store}
    (hnames : (s.relations.map (·.1) ++ layout.map (·.1)).Nodup)
    (hdone : (createMissing r true layout s).2 = none) :
    ∀ e ∈ layout, uncreatableColumn? e.2 = none := by
  induction layout generalizing s with
  | nil => exact List.forall_mem_nil _
  | cons e rest ih =>
    obtain ⟨hcreate, -, hrest⟩ := createMissing_cons (r := r) hnames
    rw [hcreate] at hdone
    split at hdone
    · cases hdone
    · next hcreatable => exact List.forall_mem_cons.mpr ⟨hcreatable, ih hrest hdone⟩

/-- Columns can be created if and only if none is written as a keyword and their names differ. -/
theorem uncreatable?_eq_none_iff {columns : List Column} {seen : List String} :
    uncreatable? seen columns = none ↔
      (∀ c ∈ columns,
        ¬ (Identifier.isPlain c.name ∧ Identifier.isKeyword (Identifier.denoted c.name))) ∧
      (∀ c ∈ columns, ∀ name ∈ seen, ¬ Identifier.same (Identifier.denoted c.name) name) ∧
      columns.Pairwise fun c d =>
        ¬ Identifier.same (Identifier.denoted d.name) (Identifier.denoted c.name) := by
  induction columns generalizing seen with
  | nil => simp [uncreatable?]
  | cons c rest ih =>
    have hword : (Identifier.isPlain c.name && Identifier.isKeyword (Identifier.denoted c.name)) = true ↔
        Identifier.isPlain c.name ∧ Identifier.isKeyword (Identifier.denoted c.name) := by simp
    have hold : (seen.any (Identifier.same (Identifier.denoted c.name))) = true ↔
        ¬ ∀ name ∈ seen, ¬ Identifier.same (Identifier.denoted c.name) name := by simp
    rw [uncreatable?, List.forall_mem_cons, List.forall_mem_cons, List.pairwise_cons, ← hword]
    -- A name is looked up among those before it, so each pair is compared from its later side.
    split
    · next hkeyword => simp [hkeyword]
    · next hplain =>
      split
      · next hseen =>
        refine iff_of_false nofun fun h => ?_
        exact hold.mp hseen h.2.1.1
      · next hseen =>
        rw [hold, not_not] at hseen
        simp only [ih, List.forall_mem_cons]
        exact ⟨fun ⟨hwords, hnames, hdistinct⟩ => ⟨⟨hplain, hwords⟩, ⟨hseen, fun d hd => (hnames d hd).2⟩,
            fun d hd => (hnames d hd).1, hdistinct⟩,
          fun ⟨⟨_, hwords⟩, ⟨_, hnames⟩, hnew, hdistinct⟩ =>
            ⟨hwords, fun d hd => ⟨hnew d hd, hnames d hd⟩, hdistinct⟩⟩

/-! ### Indexes -/

variable {s : Store} {n : RelationName} {name : String}

/-- Indexes stay, and those of a new relation are there. -/
theorem hasIndex_createIndexed (relation : Relation) (indexed : List String)
    (h : s.hasIndex name = true ∨ ∃ column ∈ indexed, n.indexName column = name) :
    (s.createIndexed n relation indexed).hasIndex name = true := by
  have hkept : (s.create n relation).hasIndex name = s.hasIndex name := by
    unfold create
    split <;> rfl
  rw [← hkept] at h
  unfold createIndexed
  generalize s.create n relation = s' at h
  -- Indexes are only added, so one that is there stays.
  induction indexed generalizing s' with
  | nil => simpa using h
  | cons column rest ih =>
    have hadd : ∀ index : RelationIndex, (s'.addIndex index).hasIndex name =
        (Identifier.same index.name name || s'.hasIndex name) := fun _ => rfl
    refine ih _ ?_
    rw [hadd, Bool.or_eq_true]
    rcases h with h | ⟨c, hc, rfl⟩
    · exact .inl (.inr h)
    · rcases List.mem_cons.mp hc with rfl | hc
      · exact .inl (.inl (Identifier.same_self _))
      · exact .inr ⟨c, hc, rfl⟩

/-- If no creation fails, every index of a relation that was missing is there. -/
theorem hasIndex_createMissing {layout : List (RelationName × Relation)}
    (hnames : (s.relations.map (·.1) ++ layout.map (·.1)).Nodup)
    (hdone : (createMissing r true layout s).2 = none)
    (h : s.hasIndex name = true ∨ ∃ e ∈ layout, ∃ column ∈ r.indexedColumns e.1 e.2,
      e.1.indexName column = name) :
    (createMissing r true layout s).1.hasIndex name = true := by
  induction layout generalizing s with
  | nil => simpa [createMissing] using h
  | cons e rest ih =>
    obtain ⟨hcreate, -, hrest⟩ := createMissing_cons (r := r) hnames
    rw [hcreate] at hdone ⊢
    split at hdone
    · cases hdone
    · refine ih hrest hdone ?_
      -- The index was there, belongs to this relation, or to one that is created later.
      rcases h with h | ⟨e, he, column, hcolumn, hname⟩
      · exact .inl (hasIndex_createIndexed _ _ (.inl h))
      · rcases List.mem_cons.mp he with rfl | he
        · exact .inl (hasIndex_createIndexed _ _ (.inr ⟨column, hcolumn, hname⟩))
        · exact .inr ⟨e, he, column, hcolumn, hname⟩

end Store

end SoarProject
