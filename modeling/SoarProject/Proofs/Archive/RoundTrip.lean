import SoarProject.Archive.Restore
import SoarProject.Proofs.Archive.Opening
import SoarProject.Proofs.Statement.Split

/-!
# Dump and restore

The dump of a store builds the same store again: every relation of the registry gets the records that it
had, with their ids, and the new store has the same dump.

* `Registry.dumpTexts`: the statements of a dump.
* `Store.Conforms.replays_dumpTexts`: what they do to a store that was just created.
* `Session.Follows.run_dump`, `Session.Follows.run_restore`: a session writes them and carries them out.
* `Query.dump_restore`: the round trip.
-/

namespace SoarProject

open Statement

variable {r : Registry} {s t : Store} {d : DumpTable} {w : Bool}

/-! ### Relations of a dump -/

/-- A relation of a store that can be written and read back. -/
structure DumpTable.Holds (d : DumpTable) (s : Store) (relation : Relation) : Prop where
  creatable : d.Creatable
  find?_eq : s.find? d.name = some relation
  cleared_eq : relation.cleared = d.shape.toRelation.denoted
  typed : relation.Typed
  readsBack : relation.ReadsBack

/-- The relations of a registry are without records. -/
theorem Registry.toRelation_ofRelation {e : RelationName × Relation} (he : e ∈ r.layout) :
    (Shape.ofRelation e.2).toRelation = e.2 := by
  simp only [layout, List.mem_append, List.mem_map] at he
  obtain (⟨_, -, rfl⟩ | ⟨_, -, rfl⟩) | ⟨_, -, rfl⟩ := he <;> rfl

/-- In a store that conforms to a registry, each relation of a dump can be written and read back. -/
theorem Store.Conforms.exists_holds (h : s.Conforms r) (hr : r.Creatable) (hback : s.ReadsBack)
    (hd : d ∈ r.dumpTables) : ∃ relation, d.Holds s relation := by
  obtain ⟨e, he, rfl⟩ := DumpTable.mem_dumpTables.mp hd
  obtain ⟨relation, hfind, hcleared, htyped⟩ := h e he
  refine ⟨relation, hr.dumpTable he, hfind, ?_, htyped, hback _ _ hfind⟩
  rw [hcleared, DumpTable.ofEntry, Registry.toRelation_ofRelation he]

/-! ### The statements of a dump -/

/-- The statements for the records of a relation. -/
def DumpTable.insertionTexts (d : DumpTable) (s : Store) : List String :=
  (((s.find? d.name).map Relation.fields).getD []).map d.insertionText

/-- The statements of a dump. -/
def Registry.dumpTexts (r : Registry) (s : Store) : List String :=
  r.dumpTables.flatMap DumpTable.creation ++ r.dumpTables.flatMap (·.insertionTexts s)

/-- Relations that are looked at in the same way are written in the same way. -/
theorem Registry.dumpTexts_congr
    (h : ∀ e ∈ r.layout, (t.find? e.1).map Relation.fields = (s.find? e.1).map Relation.fields) :
    r.dumpTexts t = r.dumpTexts s := by
  have htexts : ∀ d ∈ r.dumpTables, d.insertionTexts t = d.insertionTexts s := by
    intro d hd
    obtain ⟨e, he, rfl⟩ := DumpTable.mem_dumpTables.mp hd
    rw [DumpTable.insertionTexts, DumpTable.insertionTexts, DumpTable.ofEntry, h e he]
  rw [dumpTexts, dumpTexts, List.flatMap_congr htexts]

/-- The records of a relation are written. -/
theorem DumpTable.Holds.run_insertions {relation : Relation} (h : d.Holds s relation) {db : Session}
    (hs : db.Follows r w s) : (Query.insertions d).run db = .ok (d.insertionTexts s) := by
  have hrun : (Query.insertions d).run db =
      db.store >>= fun store => d.contents store >>= fun records => records.mapM d.insertion := rfl
  rw [hrun, hs.store_eq, ok_bind, h.creatable.contents_eq h.find?_eq h.cleared_eq, ok_bind, List.mapM_map,
    insertionTexts, h.find?_eq]
  refine mapM_eq_ok fun record hrecord => ?_
  have hmem : record ∈ relation.stored := Relation.mem_stored_ordered.mp (by
    cases relation <;> exact hrecord)
  exact (h.creatable.insertion_eq (h.creatable.aligned h.cleared_eq h.typed _ hmem) (h.readsBack _ hmem)).1

theorem Query.run_mapM_ok {α β : Type} {q : α → Query β} {g : α → β} {xs : List α} {db : Session}
    (h : ∀ x ∈ xs, (q x).run db = .ok (g x)) : (xs.mapM q).run db = .ok (xs.map g) :=
  run_mapM_eq_ok_iff.mpr (List.forall₂_map_right_iff.mpr (List.forall₂_same.mpr h))

/-- A session writes the statements of a dump. -/
theorem Session.Follows.run_dump {db : Session} (hs : db.Follows r w s) (hr : r.Creatable)
    (h : s.Conforms r) (hback : s.ReadsBack) :
    Query.dump.run db = .ok (String.join ((r.dumpTexts s).map (· ++ ";\n"))) := by
  have hinsertions : (r.dumpTables.mapM Query.insertions).run db =
      .ok (r.dumpTables.map (·.insertionTexts s)) := by
    refine Query.run_mapM_ok fun d hd => ?_
    obtain ⟨relation, hholds⟩ := h.exists_holds hr hback hd
    exact hholds.run_insertions hs
  have hstatements : Query.dumpStatements.run db = .ok (r.dumpTexts s) := by
    have hstore : Query.store.run db = .ok s := hs.store_eq
    rw [Query.dumpStatements, Query.run_bind_ok hstore, Query.run_bind_ok hs.run_registry,
      Query.run_bind_ok hinsertions, ← List.flatMap_def]
    rfl
  rw [Query.dump, Query.run_bind_ok hstatements]
  rfl

/-! ### Carrying them out -/

/-- A dump writes the relations that the registry calls for. -/
theorem Registry.mem_map_dumpTables {n : RelationName} :
    n ∈ r.dumpTables.map (·.name) ↔ n ∈ r.layout.map (·.1) := by
  simp only [List.mem_map, DumpTable.mem_dumpTables, exists_exists_and_eq_and]
  rfl

/-- The relations of a dump have different names. -/
theorem Registry.nodup_dumpTables (h : r.Coherent) : (r.dumpTables.map (·.name)).Nodup := by
  have hperm := (List.mergeSort_perm (r.layout.map (DumpTable.ofEntry r))
    (fun a b => a.name.text ≤ b.name.text)).map (·.name)
  refine hperm.nodup_iff.mpr ?_
  rw [List.map_map]
  exact h.nodup_layout

/-- The statements for the records of some relations fill these, if they are empty, and nothing else. -/
theorem Store.Prepared.replays_insertionTexts (ht : t.Prepared r) (hnodup : (r.layout.map (·.1)).Nodup)
    {ds : List DumpTable} (hds : (ds.map (·.name)).Nodup)
    (h : ∀ d ∈ ds, ∃ relation, d.Holds s relation ∧ t.find? d.name = some relation.cleared) :
    ∃ t', Replays (ds.flatMap (·.insertionTexts s)) t t' ∧
      ∀ n, t'.find? n = if n ∈ ds.map (·.name) then (s.find? n).map Relation.ordered else t.find? n := by
  induction ds generalizing t with
  | nil => exact ⟨t, .nil t, fun n => by simp⟩
  | cons d ds ih =>
    obtain ⟨⟨relation, hd, hempty⟩, hrest⟩ := List.forall_mem_cons.mp h
    obtain ⟨hnew, hds⟩ : d.name ∉ ds.map (·.name) ∧ (ds.map (·.name)).Nodup := List.nodup_cons.mp hds
    -- The first table is filled by its own texts; those behind it are still empty then, since the names differ.
    have hfill := hd.creatable.replays_insertions hnodup ht hempty hd.cleared_eq hd.typed hd.readsBack
    have hothers : ∀ d' ∈ ds, ∃ relation', d'.Holds s relation' ∧
        (t.put d.name relation.ordered).find? d'.name = some relation'.cleared := by
      intro d' hd'
      obtain ⟨relation', hholds, hempty'⟩ := hrest d' hd'
      refine ⟨relation', hholds, ?_⟩
      have hne : d'.name ≠ d.name := fun heq => hnew (heq ▸ List.mem_map_of_mem hd')
      rw [find?_put, if_neg hne, hempty']
    obtain ⟨t', hreplays, hfind⟩ := ih (ht.put d.name relation.ordered) hds hothers
    refine ⟨t', ?_, fun n => ?_⟩
    · rw [List.flatMap_cons, DumpTable.insertionTexts, hd.find?_eq]
      exact hfill.append hreplays
    · rw [hfind n, find?_put]
      by_cases hn : n = d.name
      · subst hn
        have hmem : d.name ∈ (d :: ds).map (·.name) := List.mem_cons_self
        rw [if_neg hnew, if_pos rfl, if_pos hmem, hempty, hd.find?_eq]
        rfl
      · simp [hn]

/-- The statements of a dump turn a store that was just created into one with the same records. -/
theorem Store.Conforms.replays_dumpTexts (h : s.Conforms r) (hr : r.Creatable) (hback : s.ReadsBack) :
    ∃ t, Replays (r.dumpTexts s) (created r) t ∧ t.Conforms r ∧ t.ReadsBack ∧
      ∀ e ∈ r.layout, (t.find? e.1).map Relation.fields = (s.find? e.1).map Relation.fields := by
  have hnodup := hr.coherent.nodup_layout
  have hprepared := hr.prepared_created
  -- Each table of the dump describes a relation of the store, and that relation is still empty in a fresh file.
  have hholds : ∀ d ∈ r.dumpTables, ∃ relation, d.Holds s relation ∧
      (created r).find? d.name = some relation.cleared := by
    intro d hd
    obtain ⟨relation, hholds⟩ := h.exists_holds hr hback hd
    refine ⟨relation, hholds, ?_⟩
    obtain ⟨e, he, rfl⟩ := DumpTable.mem_dumpTables.mp hd
    rw [hholds.cleared_eq, DumpTable.ofEntry, hr.find?_created he, Registry.toRelation_ofRelation he]
  -- The creation texts find everything there already, so they leave the fresh store as it is.
  have hcreation : Replays (r.dumpTables.flatMap DumpTable.creation) (created r) (created r) := by
    refine Replays.of_forall fun text htext => ?_
    obtain ⟨d, hd, htext⟩ := List.mem_flatMap.mp htext
    obtain ⟨relation, hholds, hempty⟩ := hholds d hd
    obtain ⟨e, he, rfl⟩ := DumpTable.mem_dumpTables.mp hd
    exact hholds.creatable.turns_creation hprepared hempty (hprepared.hasIndex e he) text htext
  -- Every relation comes back with its records in the order of their ids.
  obtain ⟨t, hreplays, hfind⟩ := hprepared.replays_insertionTexts hnodup (Registry.nodup_dumpTables hr.coherent)
    hholds
  have hordered : ∀ e ∈ r.layout, t.find? e.1 = (s.find? e.1).map Relation.ordered := by
    intro e he
    rw [hfind, if_pos (Registry.mem_map_dumpTables.mpr (List.mem_map_of_mem he))]
  refine ⟨t, hcreation.append hreplays, fun e he => ?_, ?_, fun e he => ?_⟩
  · obtain ⟨relation, hrelation, hcleared, htyped⟩ := h e he
    refine ⟨relation.ordered, ?_, (Relation.cleared_ordered relation).trans hcleared, htyped.ordered⟩
    rw [hordered e he, hrelation]
    rfl
  · intro n relation hrelation
    rw [hfind] at hrelation
    split at hrelation
    · obtain ⟨relation', hrelation', rfl⟩ := Option.map_eq_some_iff.mp hrelation
      exact (hback n relation' hrelation').ordered
    · next hn => exact absurd (Registry.mem_map_dumpTables.mpr (hprepared.mem_layout hrelation)) hn
  · obtain ⟨relation, hrelation, -, htyped⟩ := h e he
    rw [hordered e he, hrelation]
    exact congrArg some htyped.fields_ordered

/-- Statements that turn a store into another one do so in a session. -/
theorem Session.Follows.run_forM_execute {texts : List String} {s s' : Store} (h : Replays texts s s')
    {a : Session} (ha : a.Follows r true s) :
    ∃ b, (texts.forM Change.execute).run.run a = (.ok (), b) ∧ b.Follows r true s' := by
  induction h generalizing a with
  | nil s => exact ⟨a, rfl, ha⟩
  | @cons text texts s s₁ s₂ hturns _ ih =>
    obtain ⟨-, outcome, hexecute⟩ := hturns
    have hfirst : (Change.execute text).run.run a =
        (.ok (), (a.setStore s₁).announce .databaseChanged) := by
      rw [Change.execute, Change.run_bind (ha.run_alter hexecute _)]
      rfl
    -- The announcement that follows does not touch the store.
    obtain ⟨b, hb, hfollows⟩ := ih ((ha.setStore s₁).announce .databaseChanged)
    refine ⟨b, ?_, hfollows⟩
    change (Change.execute text >>= fun _ => texts.forM Change.execute).run.run a = _
    rw [Change.run_bind hfirst, hb]

/-- A session carries out the statements of a text. -/
theorem Session.Follows.run_restore {texts : List String} {s s' : Store} (h : Replays texts s s')
    {a : Session} (ha : a.Follows r true s) :
    ∃ b, (Change.restore (String.join (texts.map (· ++ ";\n")))).run.run a = (.ok texts.length, b) ∧
      b.Follows r true s' := by
  -- Inside the batch the events are held back; the statements do not see that.
  have hsilent : { a with suppressed := true }.Follows r true s :=
    ⟨ha.registry_eq, ha.isWritable_eq, ha.store_eq⟩
  obtain ⟨b, hb, hfollows⟩ := hsilent.run_forM_execute h
  have hbatch : (Change.batch .databasePathChanged (texts.forM Change.execute)).run.run a =
      (.ok (), { b with suppressed := a.suppressed }.announce .databasePathChanged) := by
    have hsuppressing : (Change.suppressing (texts.forM Change.execute)).run.run a =
        (.ok (), { b with suppressed := a.suppressed }) := by
      have hrun : (Change.suppressing (texts.forM Change.execute)).run.run a =
          let (result, after) := (texts.forM Change.execute).run.run { a with suppressed := true }
          (result, { after with suppressed := a.suppressed }) := rfl
      rw [hrun, hb]
    rw [Change.batch, Change.run_bind hsuppressing]
    rfl
  have hafter : { b with suppressed := a.suppressed }.Follows r true s' :=
    ⟨hfollows.registry_eq, hfollows.isWritable_eq, hfollows.store_eq⟩
  -- The joined text is cut into the same statements again, as none of them is split in the middle.
  refine ⟨_, ?_, hafter.announce .databasePathChanged⟩
  rw [Change.restore, splitStatements_join h.whole, Change.run_bind hbatch]
  rfl

/-! ### The round trip -/

/-- The dump of a database whose records have the types of their columns is restored in a database that was
just opened: this succeeds, every relation then has the same records, and the dump is the same text. -/
theorem Query.dump_restore {ds : List Declaration} {db fresh : Session}
    (hdb : db.Follows (.ofDeclarations ds) w s) (h : s.Conforms (.ofDeclarations ds))
    (hback : s.ReadsBack) (hfresh : fresh.IsFresh (.ofDeclarations ds)) :
    ∃ text count after t, Query.dump.run db = .ok text ∧
      (Change.restore text).run.run fresh = (.ok count, after) ∧ after.store = .ok t ∧
      (∀ e ∈ (Registry.ofDeclarations ds).layout,
        (t.find? e.1).map Relation.fields = (s.find? e.1).map Relation.fields) ∧
      Query.dump.run after = .ok text := by
  obtain ⟨hr, hfollows⟩ := hfresh.follows (Registry.coherent_ofDeclarations ds)
  obtain ⟨t, hreplays, hconforms, hreads, hfields⟩ := h.replays_dumpTexts hr hback
  obtain ⟨after, hrun, hafter⟩ := hfollows.run_restore hreplays
  refine ⟨_, _, after, t, hdb.run_dump hr h hback, hrun, hafter.store_eq, hfields, ?_⟩
  rw [hafter.run_dump hr hconforms hreads, Registry.dumpTexts_congr hfields]

/-- Agents, one of them with a name that needs care in a literal. -/
def Relation.namedAgents : Relation :=
  .records [⟨"name", .name⟩]
    [⟨1, [("name", .text "it's \"a\"; 100%?\n:b --")]⟩, ⟨4, [("name", .null)]⟩]

/-- A range of numbers that is open to one side. -/
def Relation.openRange : Relation :=
  .records [⟨"name", .name⟩, ⟨"min_value", .float⟩, ⟨"max_value", .float⟩]
    [⟨2, [("name", .text "x"), ("min_value", .real 1.5), ("max_value", .null)]⟩]

/-- Joins that were not made in their order. -/
def Relation.joinedNodes : Relation :=
  .pairs "first_id" "second_id" [(.int 2, .int 1), (.int 1, .int 2)]

/-- A project with these relations. -/
def Store.annotated : Store :=
  ((blank.put (.entity .agents) .namedAgents).put (.entity .datamapFloats) .openRange).put
    (.join .datamapIdentifiers .datamapIdentifiers) .joinedNodes

/-- The theorem for this project. -/
theorem Query.dump_restore_annotated :
    ∃ text count after t,
      Query.dump.run { registry := .project, connection := .memory .annotated } = .ok text ∧
        (Change.restore text).run.run
          { registry := .project, url := Address.defaultUrl, connection := .memory (.created .project) } =
            (.ok count, after) ∧
        after.store = .ok t ∧
        (∀ e ∈ Registry.project.layout,
          (t.find? e.1).map Relation.fields = (Store.annotated.find? e.1).map Relation.fields) ∧
        Query.dump.run after = .ok text := by
  have hr : Registry.project.Creatable := by
    refine ⟨Registry.coherent_project, ?_, ?_⟩
    · have husable : Registry.project.unusableColumn?.isNone = true := by decide +kernel
      exact Option.isNone_iff_eq_none.mp husable
    · exact Store.createAll_eq_none_of_layout fun e he => Store.uncreatableColumn?_of_mem_layout he
  -- The three relations that hold something, each with values that are awkward to write.
  have hagents : Relation.namedAgents.Typed ∧ Relation.namedAgents.ReadsBack := by
    refine ⟨⟨by decide, List.forall_mem_cons.mpr ⟨⟨rfl, rfl, ?_⟩, List.forall_mem_singleton.mpr
      ⟨rfl, rfl, List.forall_mem_singleton.mpr trivial⟩⟩⟩, ?_⟩
    · have hname : '\x00' ∉ "it's \"a\"; 100%?\n:b --".toList := by decide
      exact List.forall_mem_singleton.mpr hname
    · simp [Relation.ReadsBack, Relation.stored, Relation.namedAgents, Record.fields]
  have hrange : Relation.openRange.Typed ∧ Relation.openRange.ReadsBack := by
    have hfinite : (1.5 : Float).isFinite = true := by decide +kernel
    have hkept : StoredType.float.store (.real 1.5) = .real 1.5 := by decide +kernel
    have hread : Number.ReadsBack 1.5 := by
      unfold Number.ReadsBack
      decide +kernel
    refine ⟨⟨by decide, List.forall_mem_singleton.mpr ⟨rfl, rfl, ?_⟩⟩, ?_⟩
    · have hname : '\x00' ∉ "x".toList := by decide
      exact List.forall_mem_cons.mpr ⟨hname, List.forall_mem_cons.mpr
        ⟨⟨hfinite, hkept⟩, List.forall_mem_singleton.mpr trivial⟩⟩
    · simp [Relation.ReadsBack, Relation.stored, Relation.openRange, Record.fields, hread]
  have hnodes : Relation.joinedNodes.Typed ∧ Relation.joinedNodes.ReadsBack := by
    refine ⟨⟨by decide, List.forall_mem_cons.mpr ⟨⟨2, 1, rfl, rfl, rfl⟩,
      List.forall_mem_singleton.mpr ⟨1, 2, rfl, rfl, rfl⟩⟩⟩, ?_⟩
    simp [Relation.ReadsBack, Relation.stored, Relation.joinedNodes, CellPair.fields]
  -- Every put is of the columns that the registry gives to the relation.
  have hconforms : Store.annotated.Conforms .project := by
    have hfloats : (Store.blank.put (.entity .agents) .namedAgents).find? (.entity .datamapFloats) =
        some (.records (Registry.project.columnsOf .datamapFloats) []) := by
      rw [Store.find?_put, if_neg (by decide), Store.find?_blank_entity]
    have hjoins : ((Store.blank.put (.entity .agents) .namedAgents).put (.entity .datamapFloats)
        .openRange).find? (.join .datamapIdentifiers .datamapIdentifiers) =
          some (.pairs "first_id" "second_id" []) := by
      have hn : (RelationName.join .datamapIdentifiers .datamapIdentifiers).IsJoin := by
        have hmem : (Table.datamapIdentifiers, Table.datamapIdentifiers) ∈ Registry.project.joinedPairs := by
          decide
        exact hmem
      rw [Store.find?_put, if_neg (by decide), Store.find?_put, if_neg (by decide), Store.find?_blank_join hn]
      rfl
    refine ((hr.conforms_created.put (Store.find?_blank_entity .agents) ?_ hagents.1).put
      hfloats ?_ hrange.1).put hjoins rfl hnodes.1
    · have hcolumns : Registry.project.columnsOf .agents = [⟨"name", .name⟩] := by decide
      rw [hcolumns]
      rfl
    · have hcolumns : Registry.project.columnsOf .datamapFloats =
          [⟨"name", .name⟩, ⟨"min_value", .float⟩, ⟨"max_value", .float⟩] := by decide
      rw [hcolumns]
      rfl
  have hback : Store.annotated.ReadsBack := ((hr.readsBack_created.put hagents.2).put hrange.2).put hnodes.2
  exact dump_restore ⟨rfl, rfl, rfl⟩ hconforms hback (Session.isFresh_memory hr)

end SoarProject
