import Mathlib.Data.Set.Finite.Lemmas
import SoarProject.Proofs.Datamap.Correction
import SoarProject.Proofs.Project.Storing
import SoarProject.Proofs.Row.JoinSets

/-!
# What is found or put below a node

A correction looks for a node by its table and its name. Of several such nodes below a row it takes the one
with the smallest id, and it puts a new one there only if there is none. A value of an enumeration is looked
for in the same way. The new row is all that is added.

* `Store.Keyed`, `Store.IsFirst`: the rows below a row that have a table and a name, and the first of them.
* `Store.Puts`, `Store.Settles`: a new row below a row, and the row that is found or put.
* `Correction.ends_ensureNode_provides`: the node of a triple, and the value that it holds.
-/

namespace SoarProject

open Registry

variable {w : Bool} {st st' st'' : Store} {r p c d q : Row} {t : Table} {name : String} {n : Nat}
  {step : Triple}

/-! ### Keys -/

/-- How a row is directly below another one: as its child, or joined below it. -/
inductive Edge where
  | child
  | join

/-- What a row is looked for by. -/
structure NodeKey where
  /-- Its table. -/
  table : Table
  /-- Its name. -/
  name : String
  deriving DecidableEq

/-- Values are children of their enumeration; other nodes are joined below their parents. -/
def NodeKey.edge (k : NodeKey) : Edge := if k.table = .datamapEnumerationValues then .child else .join

namespace Triple

/-- What the node for a triple is looked for by. -/
def nodeKey (t : Triple) : NodeKey := ⟨t.kind.nodeTable, t.attributeName⟩

/-- What the value of a triple is looked for by, in an enumeration. -/
def valueKey (t : Triple) : NodeKey := ⟨.datamapEnumerationValues, t.value.shown⟩

end Triple

/-- The id of an existing row. -/
def Row.number (r : Row) : Int :=
  match r.id with
  | .int i => i
  | _ => 0

namespace Store

/-- A row is directly below another one. -/
def HasEdge (st : Store) : Edge → Row → Row → Prop
  | .child => st.IsParent
  | .join => st.IsAbove

/-- Below the row `p`, the row `c` has the table and the name of a key. -/
structure Keyed (st : Store) (p : Row) (k : NodeKey) (c : Row) : Prop where
  hasEdge : st.HasEdge k.edge p c
  table_eq : c.table = k.table
  named : st.Named c k.name

/-- Of the rows below the row `p` that have a key, the row `c` has the smallest id. -/
structure IsFirst (st : Store) (p : Row) (k : NodeKey) (c : Row) : Prop extends Keyed st p k c where
  le : ∀ d, st.Keyed p k d → c.number ≤ d.number

variable {k : NodeKey} {e : Edge}

/-- Both rows of an edge exist. -/
theorem Sound.has_of_hasEdge (h : st.Sound) (hpc : st.HasEdge e p c) : st.Has p ∧ st.Has c := by
  cases e with
  | child => exact ⟨h.has_of_isParent hpc, hpc.has⟩
  | join => exact h.has_of_isAbove hpc

/-- An edge is still there. -/
theorem Grows.hasEdge (h : st.Grows st') (hpc : st.HasEdge e p c) : st'.HasEdge e p c := by
  cases e with
  | child => exact h.isParent hpc
  | join => exact h.isAbove hpc

theorem Grows.keyed (h : st.Grows st') (hc : st.Keyed p k c) : st'.Keyed p k c :=
  ⟨h.hasEdge hc.hasEdge, hc.table_eq, h.named hc.named⟩

/-- Existing rows of one table are told apart by their ids. -/
theorem Has.eq_of_number_eq (hc : st.Has c) (hd : st.Has d) (htable : c.table = d.table)
    (hnumber : c.number = d.number) : c = d := by
  obtain ⟨i, hi⟩ := hc.exists_id
  obtain ⟨j, hj⟩ := hd.exists_id
  rw [hi, hj] at hnumber
  rw [hi, hj, htable]
  exact congrArg (Row.ofId d.table) hnumber

/-- There is one first row. -/
theorem IsFirst.unique (hc : st.IsFirst p k c) (hd : st.IsFirst p k d) : c = d := by
  apply hc.named.has.eq_of_number_eq hd.named.has (hc.table_eq.trans hd.table_eq.symm)
  have hcd := hc.le d hd.toKeyed
  have hdc := hd.le c hc.toKeyed
  omega

/-- Of the rows with a key one is the first. -/
theorem Keyed.exists_isFirst (h : st.Keyed p k c) : ∃ d, st.IsFirst p k d := by
  have hfinite : {d | st.Keyed p k d}.Finite :=
    st.rowSet_finite_and_le.1.subset fun d hd => hd.named.has
  obtain ⟨d, hd, hle⟩ := Set.exists_min_image _ Row.number hfinite ⟨c, h⟩
  exact ⟨d, hd, hle⟩

/-! ### New rows -/

/-- A row with a key is new below the row `p`; nothing else is. -/
structure Puts (st st' : Store) (p : Row) (k : NodeKey) (c : Row) : Prop where
  grows : st.Grows st'
  new : ¬ st.Has c
  has_iff : ∀ r, st'.Has r ↔ st.Has r ∨ r = c
  keyed : st'.Keyed p k c
  edge_iff : ∀ e q d, st'.HasEdge e q d ↔ st.HasEdge e q d ∨ e = k.edge ∧ q = p ∧ d = c
  joins_eq : ∀ a b, st'.pairsOf (.join a b) = st.pairsOf (.join a b)
  room : ∀ n, st.Room (n + 1) → st'.Room n

/-- The first row with a key is there, or it is put there because there is none. -/
def Settles (st st' : Store) (p : Row) (k : NodeKey) (c : Row) : Prop :=
  st' = st ∧ st.IsFirst p k c ∨ (∀ d, ¬ st.Keyed p k d) ∧ st.Puts st' p k c

namespace Settles

variable (h : st.Settles st' p k c)

include h

theorem grows (hst : st.Integral) : st.Grows st' := by
  rcases h with ⟨rfl, -⟩ | ⟨-, hputs⟩
  · exact .refl hst
  · exact hputs.grows

theorem keyed : st'.Keyed p k c := by
  rcases h with ⟨rfl, hfirst⟩ | ⟨-, hputs⟩
  · exact hfirst.toKeyed
  · exact hputs.keyed

theorem room (hroom : st.Room (n + 1)) : st'.Room n := by
  rcases h with ⟨rfl, -⟩ | ⟨-, hputs⟩
  · exact hroom.mono n.le_succ
  · exact hputs.room n hroom

end Settles

/-- The ids of joined rows are in order. -/
theorem Sound.pairwise_joinedChildrenIn (h : st.Sound) (hp : st.Has p) :
    (st.joinedChildrenIn p t).Pairwise fun c d => c.number ≤ d.number := by
  unfold joinedChildrenIn
  split
  · next hdeclared =>
    have hn : (RelationName.directed p.table t).IsJoin :=
      mem_directedPairs_iff.mpr (of_decide_eq_true hdeclared)
    have hids : ∀ pair ∈ st.pairsOf (.directed p.table t), pair.IsIds := fun _ => h.isIds hn
    rw [List.pairwise_map]
    refine ((CellPair.pairwise_sort hids).filter _).imp_of_mem fun {a b} ha hb hab => ?_
    -- Both pairs begin with the id of the row.
    have hbegins : ∀ pair ∈ (CellPair.sort (st.pairsOf (.directed p.table t))).filter
        (fun pair => p.id.identifies pair.1), ∃ j : Int, pair = (p.id, .int j) := by
      intro pair hpair
      obtain ⟨hmem, hkey⟩ := List.mem_filter.mp hpair
      rw [CellPair.mem_sort] at hmem
      obtain ⟨i, j, rfl⟩ := hids pair hmem
      obtain ⟨id, hid⟩ := hp.exists_id
      rw [hid] at hkey ⊢
      have hi := (h.pairs_exist _ hn _ hmem).1.identifies_iff.mp hkey
      exact ⟨j, Prod.ext hi rfl⟩
    obtain ⟨i, rfl⟩ := hbegins a ha
    obtain ⟨j, rfl⟩ := hbegins b hb
    obtain ⟨id, hid⟩ := hp.exists_id
    rw [hid] at hab
    have hle := (CellPair.precedes_ids id i id j).mp hab
    show i ≤ j
    omega
  · exact List.Pairwise.nil

end Store

open Store (Keyed IsFirst Puts Settles)

/-! ### Looking for a row -/

/-- Of the rows of a list that have a name, the first one is the first with a key if the list holds the
rows that are joined below a row. -/
theorem Row.finds_withName_isFirst (h : st.Integral) (hp : st.Has p) {k : NodeKey} (hk : k.edge = .join) :
    (Row.withName (st.joinedChildrenIn p k.table) k.name).Finds st st.Fits (fun found =>
      (∀ c rest, found = c :: rest → st.IsFirst p k c) ∧ (found = [] → ∀ d, ¬ st.Keyed p k d)) := by
  classical
  -- Candidates are the joined children of the table, and those of the name are the ones with the key.
  have hmem : ∀ c, c ∈ st.joinedChildrenIn p k.table ↔ c.table = k.table ∧ st.IsAbove p c := by
    intro c
    obtain ⟨id, hid⟩ := hp.exists_id
    rw [hid]
    exact h.mem_joinedChildrenIn_iff
  have hkeyed : ∀ c, c ∈ (st.joinedChildrenIn p k.table).filter (fun c => decide (st.Named c k.name)) ↔
      st.Keyed p k c := by
    intro c
    rw [List.mem_filter, hmem, decide_eq_true_iff]
    constructor
    · rintro ⟨⟨htable, habove⟩, hname⟩
      exact ⟨by rwa [hk], htable, hname⟩
    · intro hc
      have hedge := hc.hasEdge
      rw [hk] at hedge
      exact ⟨⟨hc.table_eq, hedge⟩, hc.named⟩
  refine (Query.Finds.filterM_eq (p := fun c => decide (st.Named c k.name)) fun c hc => ?_).mono
    fun found hfound => ⟨fun c rest hcons => ?_, fun hnil d hd => ?_⟩
  · have hhas := (h.has_of_isAbove ((hmem c).mp hc).2).2
    refine (finds_name h.toSound hhas).bind fun other hother => Query.Finds.pure ?_
    rw [Bool.eq_iff_iff, beq_iff_eq, decide_eq_true_iff]
    exact ⟨fun heq => heq ▸ hother, h.named_unique hother⟩
  · -- They are listed by their ids, so the first one found is the first of all.
    rw [hcons] at hfound
    have hsorted := (h.pairwise_joinedChildrenIn hp (t := k.table)).filter
      fun c => decide (st.Named c k.name)
    rw [← hfound, List.pairwise_cons] at hsorted
    refine ⟨(hkeyed c).mp (hfound ▸ List.mem_cons_self), fun d hd => ?_⟩
    have hd := (hkeyed d).mpr hd
    rw [← hfound] at hd
    rcases List.mem_cons.mp hd with rfl | hd
    · exact le_refl _
    · exact hsorted.1 d hd
  · have hd := (hkeyed d).mpr hd
    rw [← hfound, hnil] at hd
    exact List.not_mem_nil hd

/-! ### Putting a row -/

namespace Row

/-- Nodes have no automatic children. -/
theorem automaticChildrenOf_nodeTable (kind : TripleKind) :
    project.automaticChildrenOf kind.nodeTable = [] := by
  cases kind <;> decide

/-- Nodes of every kind can be joined below an identifier. -/
theorem directed_nodeTable (kind : TripleKind) :
    (Table.datamapIdentifiers, kind.nodeTable) ∈ project.directedPairs := by
  cases kind <;> decide

/-- A record with a name, and with nothing else than what is joined, is a new row. -/
theorem puts_of_joins {record : Record} {kind : TripleKind} (h : st.Integral)
    (hid : record.id = nextId (st.rows kind.nodeTable))
    (hmade : record.MadeFrom kind.nodeTable [("name", .text name)])
    (hjoins : (st.withRecord kind.nodeTable record).Joins st'
      (.directed p.table kind.nodeTable) (p.id, .int record.id))
    (hn : (RelationName.directed p.table kind.nodeTable).IsJoin)
    (hpair : (p.id, .int record.id) ∈ st'.pairsOf (.directed p.table kind.nodeTable)) :
    st.Puts st' p ⟨kind.nodeTable, name⟩ (.ofId kind.nodeTable record.id) := by
  obtain ⟨hgrows, hparents⟩ := h.withLoose hid hmade isAttribute_of_mem_name
  have hfresh := h.fresh_withRecord hid hgrows
  have hedge : NodeKey.edge ⟨kind.nodeTable, name⟩ = .join := by
    unfold NodeKey.edge
    cases kind <;> rfl
  have hnamed : st'.Named (.ofId kind.nodeTable record.id) name := by
    refine hjoins.grows.named (Store.named_of_madeFrom ?_ rfl hmade rfl)
    exact (h.mem_rows_withRecord hid).mpr (Or.inr ⟨rfl, rfl⟩)
  refine
    { grows := hgrows.trans hjoins.grows
      new := hfresh.new
      has_iff := fun r => hjoins.has_iff.trans (h.has_withRecord hid)
      keyed := ⟨hedge ▸ ⟨hn, hpair⟩, rfl, hnamed⟩
      edge_iff := fun e q d => ?_
      joins_eq := fun a b => ?_
      room := fun n hroom =>
        (hroom.withRecord h.toSound hid).of_has fun r hr => hjoins.has_iff.mp hr }
  · -- No key of the new record names a row, so that the new pair is the only new edge.
    rw [hedge]
    cases e with
    | child =>
      show st'.IsParent q d ↔ st.IsParent q d ∨ _
      rw [hjoins.isParent_iff]
      exact ⟨fun hqd => .inl (hparents q d hqd), fun hqd =>
        hqd.elim hgrows.isParent fun hnot => by cases hnot.1⟩
    | join =>
      show st'.IsAbove q d ↔ st.IsAbove q d ∨ _
      constructor
      · rintro ⟨hqd, hold⟩
        have hjoin : (RelationName.directed q.table d.table).IsJoin := hqd
        rcases hjoins.new _ hjoin _ hold with hold | hnew
        · rw [hfresh.pairs_eq _ hjoin] at hold
          exact .inl ⟨hqd, hold⟩
        · have hrows := (Store.directed_pair_eq_iff (x := q) (y := d) (u := p)
            (v := .ofId kind.nodeTable record.id)).mp hnew
          exact .inr ⟨rfl, hrows⟩
      · rintro (hold | ⟨-, rfl, rfl⟩)
        · exact (hgrows.trans hjoins.grows).isAbove hold
        · exact ⟨hn, hpair⟩
  · rw [Store.pairsOf, hjoins.other _ (by simp), ← Store.pairsOf, Store.withRecord,
      h.shaped.pairsOf_setRows]

/-- A node is put below another one. This succeeds below an identifier, where there is room. -/
theorem ends_createNode (h : st.Integral) (hp : st.Has p) (kind : TripleKind) :
    (p.createJoinedChild kind.nodeTable (.text name)).Ends w st
      (fun v st' => st.Puts st' p ⟨kind.nodeTable, name⟩ v.row)
      (fun st' => st.Grows st' ∧ ¬ (w = true ∧ st.Room 1 ∧ p.table = .datamapIdentifiers)) := by
  unfold createJoinedChild
  refine Change.Ends.registry ?_
  cases hdeclared : project.areDirectedJoined p.table kind.nodeTable with
  | false =>
    refine Change.Ends.bind (Change.Ends.throw ⟨.refl h, fun hsure => ?_⟩)
    rw [hsure.2.2, areDirectedJoined, decide_eq_false_iff_not] at hdeclared
    exact hdeclared (mem_directedPairs_iff.mp (directed_nodeTable kind))
  | true =>
    have hn : (RelationName.directed p.table kind.nodeTable).IsJoin :=
      mem_directedPairs_iff.mpr (of_decide_eq_true hdeclared)
    refine Change.Ends.bind ?_
    cases w with
    | false =>
      -- Where nothing may be written, the record is refused before any pair is added.
      refine Change.ends_insert_readOnly.mono (fun _ _ hfalse => hfalse.elim) ?_
      rintro _ rfl
      exact ⟨.refl h, fun hsure => absurd hsure.1 (by decide)⟩
    | true =>
      refine Change.Ends.insert h.shaped rfl (fun record hid hmade _ => ?_) fun hnot => ?_
      · obtain ⟨hgrows, -⟩ := h.withLoose hid hmade isAttribute_of_mem_name
        have hfresh := h.fresh_withRecord hid hgrows
        obtain ⟨key, hkey⟩ := hp.exists_id
        have hp₁ := hgrows.has hp
        rw [hkey] at hp₁
        have hjoin := ends_directedJoin (w := true) hgrows.integral hp₁ hfresh.has
        rw [← hkey] at hjoin
        refine Change.Ends.bind (hjoin.mono ?_ ?_)
        · rintro - st₂ ⟨hjoins, hpair⟩
          have hpid : Cell.int key = p.id := by rw [hkey]
          rw [hpid] at hjoins hpair
          unfold createAutomaticChildren
          refine Change.Ends.bind (Change.Ends.registry ?_)
          have hnone : project.automaticChildrenOf (Row.ofId kind.nodeTable record.id).table = [] :=
            automaticChildrenOf_nodeTable kind
          rw [hnone]
          exact Change.Ends.pure (Change.Ends.pure (puts_of_joins h hid hmade hjoins hn (hpair hn)))
        · rintro _ ⟨rfl, hnot⟩
          exact ⟨hgrows, fun hsure => hnot ⟨rfl, (hsure.2.1.withRecord h.toSound hid).fits⟩⟩
      · refine absurd ⟨rfl, fun v hv => ?_, fun record hrecord => ?_⟩ hnot
        · rw [List.mem_singleton.mp hv]
          have htype : project.columnType? kind.nodeTable "name" = some .name := by cases kind <;> decide
          exact ⟨.name, htype, StoredType.keeps_text.2.takes⟩
        · exact Int.ne_of_lt (h.lt_nextId hrecord)

/-- A value is put into an enumeration. This succeeds where there is room. -/
theorem ends_createValue (h : st.Integral) (hp : st.Has p) (htable : p.table = .datamapEnumerations) :
    (p.createChild .datamapEnumerationValues (.text name)).Ends w st
      (fun v st' => st.Puts st' p ⟨.datamapEnumerationValues, name⟩ v.row)
      (fun st' => st.Grows st' ∧ ¬ (w = true ∧ st.Room 1)) := by
  have hchild : Table.datamapEnumerationValues ∈ project.childrenOf p.table := by
    rw [htable]
    decide
  refine (ends_createLeaf h hp hchild (by decide)).mono ?_ ?_
  · -- The name that the record got is the one that is given, whichever key stands before it.
    rintro _ st' ⟨record, hrecord, rfl, hfresh, hparent, hparents, hmade, hid, rfl, -⟩
    have hname : ([("name", Value.text name)] ++ [(p.table.idName, p.id.toValue)]).reverse.lookup "name" =
        some (.text name) := by
      simp [List.lookup_cons, beq_eq_false_iff_ne.mpr (name_ne_idName p.table)]
    have hnamed := Store.named_of_madeFrom (r := .ofId .datamapEnumerationValues record.id)
      hrecord rfl hmade hname
    refine
      { grows := hfresh.grows
        new := hfresh.new
        has_iff := fun r => h.has_withRecord hid
        keyed := ⟨hparent, rfl, hnamed⟩
        edge_iff := fun e q d => ?_
        joins_eq := fun a b => h.shaped.pairsOf_setRows _
        room := fun n hroom => hroom.withRecord h.toSound hid }
    show _ ↔ _ ∨ e = .child ∧ _
    cases e with
    | child =>
      refine ⟨fun hqd => (hparents q d hqd).imp_right fun heq => ⟨rfl, heq⟩, ?_⟩
      rintro (hold | ⟨-, rfl, rfl⟩)
      · exact hfresh.grows.isParent hold
      · exact hparent
    | join =>
      -- A join between the nodes is not touched by a new value.
      refine ⟨fun hqd => .inl ⟨hqd.1, ?_⟩, fun hqd => hqd.elim hfresh.grows.isAbove fun hnot => by cases hnot.1⟩
      rw [← hfresh.pairs_eq (.directed q.table d.table) hqd.1]
      exact hqd.2
  · rintro _ ⟨rfl, hnot⟩
    exact ⟨.refl h, fun hsure => hnot ⟨hsure.1, hsure.2.fits.row hp⟩⟩

end Row

/-! ### One step -/

namespace Correction

/-- The first node with a name is found or put. -/
theorem ends_ensureJoinedChild_settles (h : st.Integral) (hp : st.Has p) (kind : TripleKind) :
    (ensureJoinedChild p kind.nodeTable name).Ends w st
      (fun c st' => st.Settles st' p ⟨kind.nodeTable, name⟩ c)
      (fun st' => st.Grows st' ∧ ¬ (w = true ∧ st.Room 1 ∧ p.table = .datamapIdentifiers)) := by
  have hunsure : ¬ st.Fits → st.Grows st ∧ ¬ (w = true ∧ st.Room 1 ∧ p.table = .datamapIdentifiers) :=
    fun hfits => ⟨.refl h, fun hsure => hfits hsure.2.1.fits⟩
  have hedge : NodeKey.edge ⟨kind.nodeTable, name⟩ = .join := by
    unfold NodeKey.edge
    cases kind <;> rfl
  unfold ensureJoinedChild
  refine Change.Ends.query ((Row.finds_directedChildrenOfType h.toSound).mono_sure
    fun hfits => hfits.row hp) ?_ hunsure
  rintro _ rfl
  rw [Row.filterM_name_eq]
  refine Change.Ends.query (Row.finds_withName_isFirst h hp hedge) (fun found hfound => ?_) hunsure
  split
  · next c rest => exact Change.Ends.pure (.inl ⟨rfl, hfound.1 c rest rfl⟩)
  · -- There is none, so one is created, the first of its name.
    refine Change.Ends.bind ((Row.ends_createNode h hp kind).mono (fun v st' hputs => ?_) fun _ hE => hE)
    exact Change.Ends.pure (.inr ⟨hfound.2 rfl, hputs⟩)

end Correction

/-- The node for a triple is found or put below the row `p`, and the value of a string in it. -/
def Store.Provides (st st' : Store) (p : Row) (step : Triple) (c : Row) : Prop :=
  ∃ st₁, st.Settles st₁ p step.nodeKey c ∧
    if step.kind = .string then ∃ v, st₁.Settles st' c step.valueKey v else st' = st₁

namespace Correction

/-- The node for a triple is found or put, and the value of a string in it. This succeeds below an
identifier, where there is room for both. -/
theorem ends_ensureNode_provides (h : st.Integral) (hp : st.Has p) (htext : step.IsText) :
    (ensureNode p step).Ends w st
      (fun c st' => st.Provides st' p step c)
      (fun st' => st.Grows st' ∧ ¬ (w = true ∧ st.Room 2 ∧ p.table = .datamapIdentifiers)) := by
  unfold ensureNode
  refine Change.Ends.bind ((ends_ensureJoinedChild_settles h hp step.kind).mono ?_ ?_)
  · intro c st₁ hsettles
    have hgrows := hsettles.grows h
    have hc := hsettles.keyed.named.has
    dsimp only
    split
    · next hkind =>
      refine Change.Ends.query (Row.finds_hasEnumerationValue hgrows.integral.toSound hc)
        (fun found hfound => ?_) fun hfits => ⟨hgrows, fun hsure => hfits (hsettles.room hsure.2.1).fits⟩
      obtain ⟨s, hs⟩ := htext
      have hkey : step.valueKey = ⟨.datamapEnumerationValues, s⟩ := by
        rw [Triple.valueKey, hs]
        rfl
      -- An enumeration holds a text just if a value below it has the text as its name.
      have hholds : st₁.Holds c (.text s) ↔ ∃ v, st₁.Keyed c ⟨.datamapEnumerationValues, s⟩ v := by
        constructor
        · rintro ⟨v, htable, hparent, other, hname, heq⟩
          exact ⟨v, hparent, htable, Cell.text.inj heq ▸ hname⟩
        · rintro ⟨v, hv⟩
          exact ⟨v, hv.table_eq, hv.hasEdge, s, hv.named, rfl⟩
      rw [hs, hholds] at hfound
      split
      · next hnone =>
        have htable : c.table = .datamapEnumerations := by
          rw [hsettles.keyed.table_eq, hkind]
          rfl
        rw [hs]
        refine Change.Ends.bind ((Row.ends_createValue hgrows.integral hc htable).mono
          (fun v st' hputs => ?_) fun st' hE => ?_)
        · refine Change.Ends.pure ⟨st₁, hsettles, ?_⟩
          rw [if_pos hkind, hkey]
          refine ⟨v.row, .inr ⟨fun d hd => ?_, hputs⟩⟩
          have := hfound.mpr ⟨d, hd⟩
          simp [this] at hnone
        · exact ⟨hgrows.trans hE.1, fun hsure => hE.2 ⟨hsure.1, hsettles.room hsure.2.1⟩⟩
      · next hthere =>
        refine Change.Ends.pure ⟨st₁, hsettles, ?_⟩
        rw [if_pos hkind, hkey]
        obtain ⟨v, hv⟩ := hfound.mp (by simpa using hthere)
        obtain ⟨first, hfirst⟩ := hv.exists_isFirst
        exact ⟨first, .inl ⟨rfl, hfirst⟩⟩
    · next hkind =>
      refine Change.Ends.pure ⟨st₁, hsettles, ?_⟩
      rw [if_neg hkind]
  · rintro st' ⟨hgrows, hnot⟩
    exact ⟨hgrows, fun hsure => hnot ⟨hsure.1, hsure.2.1.mono (by omega), hsure.2.2⟩⟩

end Correction

end SoarProject
