import SoarProject.Proofs.Store.Growth
import SoarProject.Row.Creation

/-!
# Creating rows

A row that is created did not exist before. It gets the parent or the directed join that it is created
with, no other join, and no children but its automatic ones. This does not depend on its id, which
may be that of a row that was deleted.

* `Change.Ends.insertLoose`, `Row.ends_insertChild`: one new record.
* `Row.ends_createChild`, `Row.ends_createJoinedChild`: a new row with its automatic children.
* `Row.ends_createLeaf`: a new row in a table without automatic children.
-/

namespace SoarProject

open Registry

variable {w : Bool} {st st' st₁ : Store} {r p c : Row} {t u : Table} {id : Int}
  {values : List (String × Value)} {name : Value} {fuel : Nat}

namespace Store

/-- A row is new in a store: nothing names it but its record. -/
structure Fresh (st st' : Store) (r : Row) : Prop where
  grows : st.Grows st'
  /-- The row did not exist. -/
  new : ¬ st.Has r
  has : st'.Has r
  /-- All pairs are those of before. -/
  pairs_eq : ∀ n : RelationName, n.IsJoin → st'.pairsOf n = st.pairsOf n

/-- No pair names a new row. -/
theorem Fresh.not_names (h : st.Fresh st' r) (hs : st.Sound) {n : RelationName} (hn : n.IsJoin)
    {pair : CellPair} (hpair : pair ∈ st'.pairsOf n) : ¬ Names n pair r := by
  rw [h.pairs_eq n hn] at hpair
  rintro (rfl | rfl)
  · exact h.new (hs.pairs_exist n hn pair hpair).1
  · exact h.new (hs.pairs_exist n hn pair hpair).2

/-- A new record is that of a new row. -/
theorem Integral.fresh_withRecord (h : st.Integral) {record : Record}
    (hid : record.id = nextId (st.rows t)) (hgrows : st.Grows (st.withRecord t record)) :
    st.Fresh (st.withRecord t record) (.ofId t record.id) where
  grows := hgrows
  new := h.not_has_new hid
  has := (h.has_withRecord hid).mpr (Or.inr rfl)
  pairs_eq _ _ := h.shaped.pairsOf_setRows _

end Store

open Store (Grows Fresh)

/-- A record without a parent is inserted. Its row is new, and no row has another parent than before. -/
theorem Change.Ends.insertLoose (h : st.Integral) (hplain : ∀ v ∈ values, IsAttribute v.1) :
    (Change.insert t values).Ends w st
      (fun id st' => st.Fresh st' (.ofId t id) ∧ (∀ p c, st'.IsParent p c → st.IsParent p c) ∧
        ∃ record ∈ st'.rows t, record.id = id ∧ record.MadeFrom t values)
      (fun st' => st' = st) := by
  refine Change.Ends.insert h.shaped ?_ (fun record hid hmade _ => ?_) fun _ => rfl
  · rw [List.lookup_eq_none_iff]
    intro v hv
    exact bne_iff_ne.mpr (hplain v (List.mem_reverse.mp hv)).ne_id.symm
  · obtain ⟨hgrows, hparent⟩ := h.withLoose hid hmade hplain
    exact ⟨h.fresh_withRecord hid hgrows, hparent, record,
      (h.mem_rows_withRecord hid).mpr (Or.inr ⟨rfl, rfl⟩), rfl, hmade⟩

namespace Row

/-- The child tables are those of the registry. -/
theorem ends_childTables {α : Type} {f : List Table → Change α} {Q : α → Store → Prop}
    {E : Store → Prop} (hf : (f (project.childrenOf p.table)).Ends w st Q E) :
    ((liftM p.childTables : Change (List Table)) >>= f).Ends w st Q E := by
  have hfound : p.childTables.Finds st True (· = project.childrenOf p.table) := finds_childTables
  refine Change.Ends.query hfound ?_ fun hsure => absurd trivial hsure
  rintro _ rfl
  exact hf

/-- A record below an existing row is inserted. Its row is new, and only it gets a parent. This succeeds
if the columns of a child table take the values. -/
theorem ends_insertChild (h : st.Integral) (hp : st.Has p)
    (hplain : ∀ v ∈ values, IsAttribute v.1) :
    (p.insertChild t values).Ends w st
      (fun id st' => st.Fresh st' (.ofId t id) ∧ st'.IsParent p (.ofId t id) ∧
        (∀ q c, st'.IsParent q c → st.IsParent q c ∨ q = p ∧ c = .ofId t id) ∧
        ∃ record ∈ st'.rows t, record.id = id ∧
          record.MadeFrom t (values ++ [(p.table.idName, p.id.toValue)]) ∧
          record.id = nextId (st.rows t) ∧ st' = st.withRecord t record ∧ record.Fills t)
      (fun st' => st' = st ∧ ¬ (w = true ∧ t ∈ project.childrenOf p.table ∧
        t.Takes (values ++ [(p.table.idName, p.id.toValue)]))) := by
  obtain ⟨key, hkey⟩ := hp.exists_id
  have hkeyvalue : p.id.toValue = .int key := by
    rw [hkey]
    rfl
  unfold insertChild
  refine ends_childTables ?_
  -- The insertion is tried for a child table only.
  by_cases ht : t ∈ project.childrenOf p.table
  · rw [if_neg (not_not.mpr ht), hkeyvalue]
    refine Change.Ends.insert h.shaped ?_ (fun record hid hmade hfills => ?_) fun hnot => ?_
    · rw [List.lookup_eq_none_iff]
      intro v hv
      rcases List.mem_append.mp (List.mem_reverse.mp hv) with hv | hv
      · exact bne_iff_ne.mpr (hplain v hv).ne_id.symm
      · rw [List.mem_singleton.mp hv]
        exact bne_iff_ne.mpr (id_ne_idName p.table)
    · -- The key names the parent, and no other record is changed.
      rw [hkey] at hp
      obtain ⟨hgrows, hparent, hparents⟩ :=
        h.withChild hid hmade (mem_childrenOf_iff.mp ht) hp hplain
      rw [← hkey] at hparent hparents
      exact ⟨h.fresh_withRecord hid hgrows, hparent, hparents, record,
        (h.mem_rows_withRecord hid).mpr (Or.inr ⟨rfl, rfl⟩), rfl, hmade, hid, rfl, hfills⟩
    · refine ⟨rfl, fun hsure => hnot ⟨hsure.1, hsure.2.2, fun record hrecord => ?_⟩⟩
      exact Int.ne_of_lt (h.lt_nextId hrecord)
  · rw [if_pos ht]
    exact Change.Ends.bind (Change.Ends.throw ⟨rfl, fun hsure => ht hsure.2.1⟩)

/-! ### Automatic children -/

/-- New rows are below the row `p`, in some tables, or below rows that are new too. -/
def GrowsBelow (st st' : Store) (p : Row) (tables : List Table) : Prop :=
  st.Grows st' ∧ (∀ n : RelationName, n.IsJoin → st'.pairsOf n = st.pairsOf n) ∧
    ∀ q c, st'.IsParent q c → st.IsParent q c ∨ ¬ st.Has q ∨ q = p ∧ c.table ∈ tables

/-- A child is new, and has no children but its automatic ones. -/
structure Bears (st st' : Store) (p c : Row) : Prop extends Fresh st st' c where
  isParent : st'.IsParent p c
  /-- Other new rows are below new rows. -/
  parents : ∀ q d, st'.IsParent q d → st.IsParent q d ∨ ¬ st.Has q ∨ q = p ∧ d = c
  /-- The children are automatic ones. -/
  children : ∀ d, st'.IsParent c d → d.table ∈ project.automaticChildrenOf c.table

/-- What is to be shown of the creation of a child for some fuel. -/
def Creates (w : Bool) (fuel : Nat) : Prop :=
  ∀ {st : Store} {p : Row} {t : Table} {name : Value}, st.Integral → st.Has p →
    (createWithin fuel p t name).Ends w st
      (fun c st' => c.table = t ∧ Bears st st' p c ∧ ∃ record ∈ st'.rows t, c.id = .int record.id ∧
        record.MadeFrom t ([("name", name)] ++ [(p.table.idName, p.id.toValue)]))
      (fun st' => st.Grows st')

/-- Automatic children are created one after the other. -/
theorem ends_forM_automatic (hcreates : Creates w fuel) (h : st.Integral) (hr : st.Has r)
    {tables : List Table} :
    (tables.forM fun a => do
      let _ ← createWithin fuel r a (automaticName a)).Ends w st
      (fun _ st' => GrowsBelow st st' r tables) (fun st' => st.Grows st') := by
  refine Change.Ends.forM_mem ?_ ⟨.refl h, fun _ _ => rfl, fun _ _ hqc => Or.inl hqc⟩
  rintro a ha st₁ ⟨hgrows, hpairs, hparents⟩
  refine Change.Ends.bind ((hcreates hgrows.integral (hgrows.has hr)).mono ?_ ?_)
  · rintro c st₂ ⟨rfl, hbears, -⟩
    refine Change.Ends.pure ⟨hgrows.trans hbears.grows,
      fun n hn => (hbears.pairs_eq n hn).trans (hpairs n hn), fun q d hqd => ?_⟩
    -- An edge is an old one, it leaves a row that is new by now, or it was made in this step.
    rcases hbears.parents q d hqd with hqd | hnew | ⟨rfl, rfl⟩
    · exact hparents q d hqd
    · exact Or.inr (Or.inl fun hq => hnew (hgrows.has hq))
    · exact Or.inr (Or.inr ⟨rfl, ha⟩)
  · exact fun st₂ hgrows' => hgrows.trans hgrows'

/-- A row that is new before its automatic children are created has no other children after. -/
theorem GrowsBelow.fresh (hbelow : GrowsBelow st₁ st' c (project.automaticChildrenOf c.table))
    (h : st.Fresh st₁ c) (hchildless : ∀ d, ¬ st₁.IsParent c d) :
    st.Fresh st' c ∧ ∀ d, st'.IsParent c d → d.table ∈ project.automaticChildrenOf c.table := by
  obtain ⟨hgrows, hpairs, hparents⟩ := hbelow
  refine ⟨⟨h.grows.trans hgrows, h.new, hgrows.has h.has,
    fun n hn => (hpairs n hn).trans (h.pairs_eq n hn)⟩, fun d hd => ?_⟩
  rcases hparents c d hd with hd | hnew | ⟨-, htable⟩
  · exact absurd hd (hchildless d)
  · exact absurd h.has hnew
  · exact htable

/-- A child is created with its automatic children. -/
theorem ends_createWithin (fuel : Nat) : Creates w fuel := by
  induction fuel with
  | zero => exact fun h _ => Change.Ends.throw (.refl h)
  | succ fuel ih =>
    intro st p t name h hp
    rw [createWithin]
    refine ends_childTables ?_
    split
    · exact Change.Ends.bind (Change.Ends.throw (.refl h))
    · refine Change.Ends.bind ((ends_insertChild h hp isAttribute_of_mem_name).mono ?_ ?_)
      · rintro id st₁ ⟨hfresh, hparent, hparents, record, hrecord, hrecordid, hmade, -, -⟩
        -- The new row has no child yet, so all that is below it later is automatic.
        have hchildless : ∀ d, ¬ st₁.IsParent (.ofId t id) d := by
          intro d hd
          rcases hparents _ d hd with hd | ⟨rfl, -⟩
          · exact hfresh.new (h.has_of_isParent hd)
          · exact hfresh.new hp
        refine Change.Ends.registry (Change.Ends.bind
          ((ends_forM_automatic ih hfresh.grows.integral hfresh.has).mono ?_ ?_))
        · rintro - st' hbelow
          obtain ⟨hfresh', hchildren⟩ := hbelow.fresh hfresh hchildless
          refine Change.Ends.pure ⟨rfl, ⟨hfresh', hbelow.1.isParent hparent, ?_, hchildren⟩, record,
            hbelow.1.rows_subset t hrecord, congrArg Cell.int hrecordid.symm, hmade⟩
          -- A child is old, or below a row that is new, the created one or one below it.
          intro q d hqd
          rcases hbelow.2.2 q d hqd with hqd | hnew | ⟨rfl, -⟩
          · exact (hparents q d hqd).imp_right Or.inr
          · exact Or.inr (Or.inl fun hq => hnew (hfresh.grows.has hq))
          · exact Or.inr (Or.inl hfresh.new)
        · exact fun st' hgrows => hfresh.grows.trans hgrows
      · rintro _ ⟨rfl, -⟩
        exact .refl h

/-- A child of an existing row is created with its automatic children. -/
theorem ends_createChild (h : st.Integral) (hp : st.Has p) :
    (p.createChild t name).Ends w st
      (fun v st' => v.row.table = t ∧ Bears st st' p v.row ∧
        ∃ record ∈ st'.rows t, v.row.id = .int record.id ∧
          record.MadeFrom t ([("name", name)] ++ [(p.table.idName, p.id.toValue)]))
      (fun st' => st.Grows st') := by
  unfold createChild
  exact Change.Ends.bind ((ends_createWithin _ h hp).mono (fun c _ hc => Change.Ends.pure hc)
    fun _ hE => hE)

/-- A child without automatic children is created with a name. -/
theorem ends_createLeaf (h : st.Integral) (hp : st.Has p) {name : String}
    (hchild : t ∈ project.childrenOf p.table) (hnone : project.automaticChildrenOf t = []) :
    (p.createChild t (.text name)).Ends w st
      (fun v st' => ∃ record ∈ st'.rows t, v = ⟨.ofId t record.id, some (.text name)⟩ ∧
        st.Fresh st' (.ofId t record.id) ∧ st'.IsParent p (.ofId t record.id) ∧
        (∀ q c, st'.IsParent q c → st.IsParent q c ∨ q = p ∧ c = .ofId t record.id) ∧
        record.MadeFrom t ([("name", .text name)] ++ [(p.table.idName, p.id.toValue)]) ∧
        record.id = nextId (st.rows t) ∧ st' = st.withRecord t record ∧ record.Fills t)
      (fun st' => st' = st ∧ ¬ (w = true ∧ p.Fits)) := by
  unfold createChild automaticDepth
  refine Change.Ends.bind ?_
  rw [createWithin]
  refine ends_childTables ?_
  -- The table is declared and has no automatic children, so one insertion is all.
  rw [if_neg (not_not.mpr hchild)]
  refine Change.Ends.bind ((ends_insertChild h hp isAttribute_of_mem_name).mono ?_ ?_)
  · rintro id st' ⟨hfresh, hparent, hparents, record, hrecord, rfl, hmade, hid, hst', hfills⟩
    refine Change.Ends.registry ?_
    rw [hnone]
    exact Change.Ends.bind (Change.Ends.pure (Change.Ends.pure (Change.Ends.pure
      ⟨record, hrecord, rfl, hfresh, hparent, hparents, hmade, hid, hst', hfills⟩)))
  · rintro _ ⟨rfl, hnot⟩
    refine ⟨rfl, fun hsure => hnot ⟨hsure.1, hchild, fun v hv => ?_⟩⟩
    -- Name and key are both taken when the id of the parent can be bound.
    obtain ⟨key, hkey⟩ := hp.exists_id
    rcases List.mem_append.mp hv with hv | hv
    · rw [List.mem_singleton.mp hv]
      exact ⟨.name, columnType?_name t, StoredType.keeps_text.2.takes⟩
    · rw [List.mem_singleton.mp hv]
      have hfits := hsure.2 key (by rw [hkey])
      refine ⟨_, columnType?_idName (mem_childrenOf_iff.mp hchild), ?_⟩
      rw [hkey]
      exact (StoredType.keeps_int hfits).takes

/-! ### Joined children -/

/-- A row is created below an existing one, and nothing else is joined to it. -/
structure BearsJoined (st st' : Store) (p c : Row) : Prop where
  grows : st.Grows st'
  new : ¬ st.Has c
  has : st'.Has c
  isAbove : st'.IsAbove p c
  /-- The new row has no parent. -/
  parentless : ∀ q, ¬ st'.IsParent q c
  /-- Only the new row is joined. -/
  pairs : ∀ n : RelationName, n.IsJoin → ∀ pair ∈ st'.pairsOf n, pair ∈ st.pairsOf n ∨
    n = .directed p.table c.table ∧ pair = (p.id, c.id)
  /-- The children are automatic ones. -/
  children : ∀ d, st'.IsParent c d → d.table ∈ project.automaticChildrenOf c.table

/-- A row that is joined below an existing one is created with its automatic children. -/
theorem ends_createJoinedChild (h : st.Integral) (hp : st.Has p) :
    (p.createJoinedChild t name).Ends w st
      (fun v st' => v.row.table = t ∧ BearsJoined st st' p v.row ∧
        ∃ record ∈ st'.rows t, v.row.id = .int record.id ∧ record.MadeFrom t [("name", name)])
      (fun st' => st.Grows st') := by
  obtain ⟨key, hkey⟩ := hp.exists_id
  unfold createJoinedChild
  refine Change.Ends.registry ?_
  cases hdeclared : project.areDirectedJoined p.table t with
  | false => exact Change.Ends.bind (Change.Ends.throw (.refl h))
  | true =>
    have hn : (RelationName.directed p.table t).IsJoin :=
      mem_directedPairs_iff.mpr (of_decide_eq_true hdeclared)
    refine Change.Ends.bind ((Change.Ends.insertLoose h isAttribute_of_mem_name).mono ?_ ?_)
    · -- The record is inserted without keys, joined to the parent, and given its automatic children.
      rintro id st₁ ⟨hfresh, hparents, record, hrecord, hrecordid, hmade⟩
      have hchildless : ∀ d, ¬ st₁.IsParent (.ofId t id) d :=
        fun d hd => hfresh.new (h.has_of_isParent (hparents _ d hd))
      have hp₁ := hfresh.grows.has hp
      rw [hkey] at hp₁ ⊢
      refine Change.Ends.bind ((ends_directedJoin hfresh.grows.integral hp₁ hfresh.has).mono ?_ ?_)
      · rintro - st₂ ⟨hjoins, hpair⟩
        unfold createAutomaticChildren
        refine Change.Ends.bind (Change.Ends.registry ((ends_forM_automatic
          (ends_createWithin automaticDepth) hjoins.integral
          (hjoins.has_iff.mpr hfresh.has)).mono ?_ ?_))
        · rintro - st' ⟨hgrows, hpairs, hbelow⟩
          refine Change.Ends.pure ⟨rfl, ⟨(hfresh.grows.trans hjoins.grows).trans hgrows, hfresh.new,
            hgrows.has (hjoins.has_iff.mpr hfresh.has), ⟨hn, ?_⟩, ?_, ?_, ?_⟩, record,
            hgrows.rows_subset t (by rwa [hjoins.rows_eq]), congrArg Cell.int hrecordid.symm, hmade⟩
          · exact hgrows.pairs_subset _ hn (hpair hn)
          · intro q hq
            have hold := (hgrows.isParent_iff (hjoins.has_iff.mpr hfresh.has)).mp hq
            exact hfresh.new (hparents q _ (hjoins.isParent_iff.mp hold)).has
          · intro n hn pair hpair
            rw [hpairs n hn] at hpair
            exact (hjoins.new n hn pair hpair).imp_left fun hold => by rwa [hfresh.pairs_eq n hn] at hold
          · -- What is below the row is automatic, since it had no child before.
            intro d hd
            rcases hbelow _ d hd with hd | hnew | ⟨-, htable⟩
            · exact absurd (hjoins.isParent_iff.mp hd) (hchildless d)
            · exact absurd (hjoins.has_iff.mpr hfresh.has) hnew
            · exact htable
        · exact fun st' hgrows => (hfresh.grows.trans hjoins.grows).trans hgrows
      · rintro _ ⟨rfl, -⟩
        exact hfresh.grows
    · rintro _ rfl
      exact .refl h

end Row

end SoarProject
