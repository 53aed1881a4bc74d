import SoarProject.Datamap.Generation
import SoarProject.Proofs.Datamap.Footprint
import SoarProject.Proofs.Row.Descendants

/-!
# What triples do not depend on

Which rules are related to a problem space, and what their triples are, is read off relations that belong to
no datamap. In two stores with integrity that differ in their datamaps only, the same is read
(`sameIn_relatedTriples`).
-/

namespace SoarProject

open Registry

variable {st st' : Store} {r : Row} {t : Table}

namespace Row

section Reading

variable (h : st.KeepsRules st')

include h

/-- The children in a table that belongs to no datamap. -/
theorem sameIn_childrenOfType (ht : t.isDatamap = false) :
    (r.childrenOfType t).SameIn st st' := by
  unfold childrenOfType childTables
  refine .bind_any (.registry .pure) fun tables => ?_
  split
  · exact .pure
  · exact .bind_any (.recordsWhere (h (.entity t) ht) _ _ _) fun _ => .pure

/-- The record of a row that belongs to no datamap. -/
theorem sameIn_record? (hr : r.table.isDatamap = false) (used : List String) :
    (r.record? used).SameIn st st' := .record? (h (.entity r.table) hr) used

/-- A column of a row that belongs to no datamap. -/
theorem sameIn_column (hr : r.table.isDatamap = false) (name : String) :
    (r.column name).SameIn st st' := by
  unfold column
  refine .registry ?_
  split
  · exact .bind_any .throw fun _ => .orDefault (.bind_any
      (.bind_any (sameIn_record? h hr _) fun _ => .pure) fun _ => .pure)
  · exact .orDefault (.bind_any (.bind_any (sameIn_record? h hr _) fun _ => .pure) fun _ => .pure)

/-- The name of a row that belongs to no datamap. -/
theorem sameIn_viewName {v : View} (hr : v.row.table.isDatamap = false) :
    v.name.SameIn st st' := by
  unfold View.name
  split
  · exact .pure
  · refine .bind_any (.orDefault (.bind_any (sameIn_record? h hr _) fun _ => .pure)) fun found => ?_
    rcases found with _ | _ | record
    · exact .pure
    · exact .pure
    · dsimp only
      split <;> exact .pure

/-- What is read off the children in a table that belongs to no datamap. -/
theorem sameIn_children {α : Type} {f : List Row → Query α} (ht : t.isDatamap = false)
    (hf : ∀ cs : List Row, (∀ c ∈ cs, c.table = t) → (f cs).SameIn st st') :
    (r.childrenOfType t >>= f).SameIn st st' :=
  (sameIn_childrenOfType h ht).bind finds_childrenOfType_table hf

/-- What is read off the first child in a table that belongs to no datamap. -/
theorem sameIn_firstChild {α : Type} {f : Option Row → Query α} (ht : t.isDatamap = false)
    (hnone : (f none).SameIn st st') (hsome : ∀ c : Row, c.table = t → (f (some c)).SameIn st st') :
    (r.firstChild? t >>= f).SameIn st st' := by
  unfold firstChild?
  refine .bind (R := fun found => ∀ c, found = some c → c.table = t)
    (sameIn_children h ht fun _ _ => .pure) ?_ fun found hfound => ?_
  · refine finds_childrenOfType_table.bind fun cs hcs => Query.Finds.pure fun c hc => ?_
    exact hcs c (List.mem_of_mem_head? hc)
  · cases found with
    | none => exact hnone
    | some c => exact hsome c (hfound c rfl)

/-- The variable that a record keeps. -/
theorem sameIn_storedVariable? (hr : r.table.isDatamap = false) :
    r.storedVariable?.SameIn st st' := by
  unfold storedVariable?
  exact .bind_any (sameIn_column h hr _) fun _ => .pure

/-- The value of a constant. -/
theorem sameIn_constantValue? (hr : r.table.isDatamap = false) :
    r.constantValue?.SameIn st st' := by
  unfold constantValue?
  refine .bind_any (sameIn_column h hr _) fun type => ?_
  split
  · exact .pure
  · refine .bind_any (sameIn_column h hr _) fun cell => ?_
    split <;> exact .pure

/-- The value of the first constant below a row. -/
theorem sameIn_firstConstantValue? : r.firstConstantValue?.SameIn st st' := by
  unfold firstConstantValue?
  exact sameIn_firstChild h rfl .pure fun c hc => sameIn_constantValue? h (hc ▸ rfl)

/-- The value of a test for one value. -/
theorem sameIn_singleTestValue? (hr : r.table.isDatamap = false) :
    r.singleTestValue?.SameIn st st' := by
  unfold singleTestValue?
  refine .bind_any (sameIn_column h hr _) fun flag => ?_
  split
  · exact sameIn_firstConstantValue? h
  · exact .bind_any (sameIn_storedVariable? h hr) fun _ => .pure

/-- The values of a simple test. -/
theorem sameIn_simpleTestValues (hr : r.table.isDatamap = false) :
    r.simpleTestValues.SameIn st st' := by
  unfold simpleTestValues
  refine .bind_any (sameIn_column h hr _) fun flag => ?_
  split
  · refine sameIn_firstChild h rfl .pure fun d _ => ?_
    unfold disjunctionValues
    refine sameIn_children h rfl fun cs hcs => .bind_any (.mapM fun c hc => ?_) fun _ => .pure
    exact sameIn_constantValue? h (hcs c hc ▸ rfl)
  · refine sameIn_firstChild h rfl .pure fun relational _ => ?_
    refine sameIn_firstChild h rfl .pure fun single hsingle => ?_
    exact .bind_any (sameIn_singleTestValue? h (hsingle ▸ rfl)) fun _ => .pure

/-- The values of a test. -/
theorem sameIn_firstTestValues : r.firstTestValues.SameIn st st' := by
  unfold firstTestValues
  refine sameIn_firstChild h rfl .pure fun test htest => ?_
  unfold testValues
  refine .bind_any (sameIn_column h (htest ▸ rfl) _) fun flag => ?_
  split
  · refine sameIn_firstChild h rfl .pure fun conjunctive _ => ?_
    refine sameIn_children h rfl fun cs hcs => .bind_any (.mapM fun c hc => ?_) fun _ => .pure
    exact sameIn_simpleTestValues h (hcs c hc ▸ rfl)
  · exact sameIn_firstChild h rfl .pure fun simple hsimple =>
      sameIn_simpleTestValues h (hsimple ▸ rfl)

/-- The attribute that a test names. -/
theorem sameIn_testedAttribute? : r.testedAttribute?.SameIn st st' := by
  unfold testedAttribute?
  refine .bind_any (sameIn_firstTestValues h) fun values => ?_
  split <;> exact .pure

/-- A value on the right side of a rule. -/
theorem sameIn_rhsValue? (hr : r.table.isDatamap = false) : r.rhsValue?.SameIn st st' := by
  unfold rhsValue?
  refine .bind_any (sameIn_column h hr _) fun variableFlag => ?_
  split
  · exact .bind_any (sameIn_storedVariable? h hr) fun _ => .pure
  · refine .bind_any (sameIn_column h hr _) fun constantFlag => ?_
    split
    · exact sameIn_firstConstantValue? h
    · exact .pure

/-- The attribute that a value on the right side names. -/
theorem sameIn_rhsAttribute? (hr : r.table.isDatamap = false) :
    r.rhsAttribute?.SameIn st st' := by
  unfold rhsAttribute?
  refine .bind_any (sameIn_rhsValue? h hr) fun value => ?_
  split <;> exact .pure

end Reading

end Row

/-! ### Triples -/

section Triples

variable (h : st.KeepsRules st')

/-- The triples of one test or one make. -/
theorem sameIn_attributeTriples {subject : String} {path : List Row}
    {attribute? : Row → Query (Option String)} {values : Query (List TypedValue)}
    (hpath : ∀ r ∈ path, (attribute? r).SameIn st st') (hvalues : values.SameIn st st') :
    (attributeTriples subject path attribute? values).SameIn st st' := by
  -- The names are asked for one after the other, until one has none.
  have hnames : (attributePath attribute? path).SameIn st st' := by
    induction path with
    | nil => exact .pure
    | cons r rest ih =>
      rw [attributePath]
      refine .bind_any (hpath r List.mem_cons_self) fun name => ?_
      split
      · exact .pure
      · exact .bind_any (ih fun q hq => hpath q (List.mem_cons_of_mem _ hq)) fun _ => .pure
  unfold attributeTriples
  refine .bind_any hnames fun names => ?_
  split
  · exact .pure
  · exact .pure
  · refine .bind_any hvalues fun found => ?_
    split <;> exact .pure

include h

/-- The triples of the tests of one attribute. -/
theorem sameIn_testTriples {subject : String} : (testTriples subject r).SameIn st st' := by
  unfold testTriples
  refine Row.sameIn_children h rfl fun tests _ => sameIn_attributeTriples
    (fun test _ => Row.sameIn_testedAttribute? h) ?_
  refine Row.sameIn_children h rfl fun values _ => .bind_any (.mapM fun value _ => ?_) fun _ => .pure
  exact Row.sameIn_firstTestValues h

/-- The triples of what is made of one attribute. -/
theorem sameIn_makeTriples {subject : String} : (makeTriples subject r).SameIn st st' := by
  unfold makeTriples
  refine Row.sameIn_children h rfl fun path hpath => sameIn_attributeTriples
    (fun value hvalue => Row.sameIn_rhsAttribute? h (hpath value hvalue ▸ rfl)) ?_
  refine Row.sameIn_children h rfl fun makes _ => .bind_any (.mapM fun make _ => ?_) fun _ => .pure
  exact Row.sameIn_firstChild h rfl .pure fun value hvalue =>
    Row.sameIn_rhsValue? h (hvalue ▸ rfl)

/-- The triples of all rows in a table below a rule. -/
theorem sameIn_triplesBelow {holders parts : Table} {triples : String → Row → Query (List Triple)}
    (hholders : holders.isDatamap = false) (hparts : parts.isDatamap = false)
    (hdescendants : (r.descendants holders).SameIn st st')
    (htable : (r.descendants holders).Finds st False fun found => ∀ c ∈ found, c.table = holders)
    (htriples : ∀ subject c, (triples subject c).SameIn st st') :
    (triplesBelow r holders parts triples).SameIn st st' := by
  unfold triplesBelow
  refine .bind hdescendants htable fun rows hrows => .bind_any (.mapM fun c hc => ?_) fun _ => .pure
  refine .bind_any (Row.sameIn_storedVariable? h (hrows c hc ▸ hholders)) fun subject => ?_
  split
  · exact .pure
  · exact Row.sameIn_children h hparts fun cs _ =>
      .bind_any (.mapM fun part _ => htriples _ part) fun _ => .pure

end Triples

/-! ### Descendants -/

/-- The parts of a rule belong to no datamap, nor does what is below them. -/
theorem isDatamap_of_mem_childrenOf {u : Table} (hu : u.isDatamap = false)
    (hspace : u ≠ .problemSpaces) (hagent : u ≠ .agents) (ht : t ∈ project.childrenOf u) :
    t.isDatamap = false ∧ t ≠ .problemSpaces ∧ t ≠ .agents := by
  have hall : ∀ u ∈ Table.all, u.isDatamap = false → u ≠ .problemSpaces → u ≠ .agents →
      ∀ t ∈ project.childrenOf u, t.isDatamap = false ∧ t ≠ .problemSpaces ∧ t ≠ .agents := by
    decide
  exact hall u (Table.mem_all u) hu hspace hagent t ht

namespace Store

theorem KeepsRules.children_eq (h : st.KeepsRules st') (hr : r.table.isDatamap = false)
    (hspace : r.table ≠ .problemSpaces) (hagent : r.table ≠ .agents) :
    st'.children r = st.children r := by
  refine List.flatMap_congr fun t ht => ?_
  have htable := (isDatamap_of_mem_childrenOf hr hspace hagent ht).1
  rw [childrenIn, childrenIn, rows, rows, h (.entity t) htable]

end Store

namespace Row

variable (h : st.KeepsRules st')

/-- What is below a rule belongs to no datamap. -/
theorem isDatamap_of_reflTransGen {q : Row} (hr : r.table = .rules)
    (hq : Relation.ReflTransGen st.IsParent r q) :
    q.table.isDatamap = false ∧ q.table ≠ .problemSpaces ∧ q.table ≠ .agents := by
  induction hq with
  | refl => rw [hr]; decide
  | tail _ hpc ih =>
    exact isDatamap_of_mem_childrenOf ih.1 ih.2.1 ih.2.2 (mem_childrenOf_iff.mpr hpc.1)

include h

/-- The descendants of a rule. -/
theorem sameIn_descendants (hst : st.Integral) (hgrows : st.Grows st') (hfits' : st'.Fits)
    (hr : r.table = .rules) (hhas : st.Has r) : (r.descendants t).SameIn st st' := by
  have hsame : ∀ q, Relation.ReflTransGen st.IsParent r q → st'.children q = st.children q := by
    intro q hq
    -- What is below a rule is neither of the datamap nor of a problem space, so its children stay.
    obtain ⟨hdatamap, hspace, hagent⟩ := isDatamap_of_reflTransGen hr hq
    exact h.children_eq hdatamap hspace hagent
  have hbelow : (st.belowSet r).ncard ≤ st'.size := by
    refine (Set.ncard_le_ncard (fun q hq => ?_) ?_).trans (st'.ncard_belowSet_le (r := r))
    · exact Relation.TransGen.mono (fun _ _ => hgrows.isParent) _ _ hq
    · exact st'.rowSet_finite_and_le.1.subset Store.belowSet_subset_rowSet
  -- Both stores allow enough fuel for the tree, which is the same in both.
  have hrows : st'.descendantsIn r t = st.descendantsIn r t := by
    have hle := st.ncard_belowSet_le (r := r)
    exact Store.treeRows_eq_treeRows hst hhas (by omega) (by omega) hsame
  have hfits : st.Fits := fun u record hrecord => hfits' u record (hgrows.rows_subset u hrecord)
  refine .of_finds (a := st.descendantsIn r t) ?_ ?_
  · exact (finds_descendants hst hhas).mono_sure fun _ => hfits
  · rw [← hrows]
    exact (finds_descendants hgrows.integral (hgrows.has hhas)).mono_sure fun _ => hfits'

omit h in
/-- The descendants in a table belong to it. -/
theorem finds_descendants_table (hst : st.Integral) (hhas : st.Has r) :
    (r.descendants t).Finds st False fun found => ∀ c ∈ found, c.table = t := by
  -- Each level of the walk keeps the children of the wanted table only.
  have htree : ∀ fuel (r : Row), ∀ c ∈ st.treeRows t fuel r, c.table = t := by
    intro fuel
    induction fuel with
    | zero => simp [Store.treeRows]
    | succ fuel ih =>
      intro r c hc
      obtain ⟨d, -, hc⟩ := List.mem_flatMap.mp hc
      rcases List.mem_append.mp hc with hc | hc
      · exact ih d c hc
      · split at hc
        · next hd => rwa [List.mem_singleton.mp hc]
        · cases hc
  refine ((finds_descendants hst hhas).mono_sure False.elim).mono ?_
  rintro _ rfl
  exact htree _ r

omit h in
/-- No rules and no operators are joined below a row. -/
theorem finds_directedChildrenOfType_nil {sure : Prop} (ht : t = .rules ∨ t = .operators) :
    (r.directedChildrenOfType t).Finds st sure (· = []) := by
  have hdirected : project.areDirectedJoined r.table t = false := by
    have hall : ∀ u ∈ Table.all, project.areDirectedJoined u .rules = false ∧
        project.areDirectedJoined u .operators = false := by
      decide
    rcases ht with rfl | rfl
    · exact (hall r.table (Table.mem_all _)).1
    · exact (hall r.table (Table.mem_all _)).2
  unfold directedChildrenOfType
  refine Query.Finds.registry ?_
  rw [hdirected]
  exact Query.Finds.pure rfl

/-- The rules or operators that are joined to a row. -/
theorem sameIn_joinedRows (ht : t = .rules ∨ t = .operators) : (r.joinedRows t).SameIn st st' := by
  have hbelow : (r.directedChildrenOfType t).SameIn st st' :=
    .of_finds (finds_directedChildrenOfType_nil ht) (finds_directedChildrenOfType_nil ht)
  unfold joinedRows
  refine .registry ?_
  split
  · exact hbelow.bind_any fun _ => .pure
  · next order horder =>
    -- No datamap node is joined to a rule or an operator, so this join is as before.
    have hjoin : (RelationName.join order.1 order.2).isDatamap = false := by
      have hall : ∀ pair ∈ project.joinedPairs,
          pair.1 ∈ [Table.rules, .operators] ∨ pair.2 ∈ [Table.rules, .operators] →
            (RelationName.join pair.1 pair.2).isDatamap = false := by
        decide
      obtain ⟨hmem, horder⟩ := mem_joinedPairs_of_orderJoined? horder
      refine hall order hmem ?_
      rcases horder with rfl | rfl <;> rcases ht with rfl | rfl <;> simp
    exact .bind_any (.pairsWhere (h _ hjoin) _ _) fun _ => hbelow.bind_any fun _ => .pure

end Row

/-! ### Rules -/

/-- No row is added where repetitions are left out. -/
theorem Row.mem_of_mem_distinct {rows : List Row} (hr : r ∈ Row.distinct rows) : r ∈ rows := by
  have hfold : ∀ (rows kept : List Row),
      r ∈ rows.foldl (fun kept r => if r ∈ kept then kept else kept ++ [r]) kept →
        r ∈ kept ∨ r ∈ rows := by
    intro rows
    induction rows with
    | nil => exact fun kept hmem => .inl hmem
    | cons q rows ih =>
      intro kept hmem
      rcases ih _ hmem with hmem | hmem
      · dsimp only at hmem
        -- A row that is kept already is skipped.
        split at hmem
        · exact .inl hmem
        · rcases List.mem_append.mp hmem with hmem | hmem
          · exact .inl hmem
          · exact .inr (List.mem_singleton.mp hmem ▸ List.mem_cons_self)
      · exact .inr (List.mem_cons_of_mem _ hmem)
  simpa using hfold rows [] hr

/-- The rules or operators that are joined to a row exist. -/
theorem Row.finds_joinedRows_has (h : st.Sound) (ht : t = .rules ∨ t = .operators) :
    (r.joinedRows t).Finds st False fun found => ∀ q ∈ found, q.table = t ∧ st.Has q := by
  -- Whichever side of the pair the row stands on, its partner is a record that exists.
  have hpartners : ∀ order, project.orderJoined? r.table t = some order →
      ∀ id ∈ partnerIds order r.table r.id (CellPair.sort (st.pairsOf (.join order.1 order.2))),
        st.Has ⟨t, id⟩ := by
    intro order horder id hid
    obtain ⟨hmem, htables⟩ := mem_joinedPairs_of_orderJoined? horder
    have hexist := h.pairs_exist (.join order.1 order.2) hmem
    unfold partnerIds at hid
    have hafter : order.2 = t → ∀ keep : CellPair → Bool, id ∈ ((CellPair.sort (st.pairsOf
        (.join order.1 order.2))).filter keep).map (·.2) → st.Has ⟨t, id⟩ := by
      rintro rfl keep hid
      obtain ⟨pair, hpair, rfl⟩ := List.mem_map.mp hid
      exact (hexist pair (CellPair.mem_sort.mp (List.mem_filter.mp hpair).1)).2
    have hbefore : order.1 = t → ∀ keep : CellPair → Bool, id ∈ ((CellPair.sort (st.pairsOf
        (.join order.1 order.2))).filter keep).map (·.1) → st.Has ⟨t, id⟩ := by
      rintro rfl keep hid
      obtain ⟨pair, hpair, rfl⟩ := List.mem_map.mp hid
      exact (hexist pair (CellPair.mem_sort.mp (List.mem_filter.mp hpair).1)).1
    split at hid
    · next heq =>
      rcases List.mem_append.mp hid with hid | hid
      · exact hafter (by rcases htables with rfl | rfl <;> simp_all) _ hid
      · exact hbefore (by rcases htables with rfl | rfl <;> simp_all) _ hid
    · split at hid
      · exact hafter (by rcases htables with rfl | rfl <;> simp_all) _ hid
      · exact hbefore (by rcases htables with rfl | rfl <;> simp_all) _ hid
  -- No directed child comes in for these tables, so the partners are all there is.
  have hmem : ∀ ids : List Cell, (∀ id ∈ ids, st.Has ⟨t, id⟩) →
      ∀ q ∈ distinct (ids.map (⟨t, ·⟩ : Cell → Row) ++ []), q.table = t ∧ st.Has q := by
    intro ids hids q hq
    rw [List.append_nil] at hq
    obtain ⟨id, hid, rfl⟩ := List.mem_map.mp (mem_of_mem_distinct hq)
    exact ⟨rfl, hids id hid⟩
  unfold joinedRows
  refine Query.Finds.registry ?_
  split
  · refine (finds_directedChildrenOfType_nil ht).bind ?_
    rintro _ rfl
    exact Query.Finds.pure (hmem [] (by simp))
  · next order horder =>
    have hjoin := (mem_joinedPairs_of_orderJoined? horder).1
    refine ((Query.finds_pairsOfRow h (n := .join order.1 order.2) hjoin _).mono_sure
      False.elim).bind ?_
    rintro _ rfl
    refine (finds_directedChildrenOfType_nil ht).bind ?_
    rintro _ rfl
    refine Query.Finds.pure (hmem _ ?_)
    simpa using hpartners order horder

/-- The related rules exist. -/
theorem finds_relatedRules_has (h : st.Sound) :
    (relatedRules r).Finds st False fun found => ∀ q ∈ found, q.table = .rules ∧ st.Has q := by
  unfold relatedRules
  refine (Row.finds_joinedRows_has h (.inl rfl)).bind fun own hown => ?_
  refine Query.finds_any.bind fun operators _ => ?_
  refine (Query.Finds.mapM_mem fun operator _ => Row.finds_joinedRows_has h (.inl rfl)).bind
    fun lists hlists => Query.Finds.pure fun q hq => ?_
  rcases List.mem_append.mp (Row.mem_of_mem_distinct hq) with hq | hq
  · exact hown q hq
  · obtain ⟨found, hfound, hq⟩ := List.mem_flatten.mp hq
    obtain ⟨-, -, hall⟩ := hlists.2 found hfound
    exact hall q hq

section Rules

variable (h : st.KeepsRules st')

include h

/-- The rules that belong to a problem space. -/
theorem sameIn_relatedRules : (relatedRules r).SameIn st st' := by
  unfold relatedRules
  refine .bind_any (Row.sameIn_joinedRows h (.inl rfl)) fun own => ?_
  refine .bind_any (Row.sameIn_joinedRows h (.inr rfl)) fun operators => ?_
  exact .bind_any (.mapM fun operator _ => Row.sameIn_joinedRows h (.inl rfl)) fun _ => .pure

/-- The triples of an existing rule. -/
theorem sameIn_extractTriples (hst : st.Integral) (hgrows : st.Grows st') (hfits' : st'.Fits)
    (hr : r.table = .rules) (hhas : st.Has r) : (extractTriples r.view).SameIn st st' := by
  have hdescendants : ∀ t, (r.descendants t).SameIn st st' := fun t =>
    Row.sameIn_descendants h hst hgrows hfits' hr hhas
  have htable : ∀ t, (r.descendants t).Finds st False fun found => ∀ c ∈ found, c.table = t :=
    fun t => Row.finds_descendants_table hst hhas
  unfold extractTriples stateVariables
  -- All that is read are descendants of the rule, and none is a datamap node.
  refine .bind_any (.bind (hdescendants _) (htable _) fun rows hrows =>
    .bind_any (.mapM fun c hc => ?_) fun _ => .pure) fun states => ?_
  · have hc' : c.table.isDatamap = false := hrows c hc ▸ rfl
    refine .bind_any (Row.sameIn_column h hc' _) fun flag => ?_
    split
    · exact Row.sameIn_storedVariable? h hc'
    · exact .pure
  refine .bind_any (sameIn_triplesBelow h rfl rfl (hdescendants _) (htable _)
    fun subject c => sameIn_testTriples h) fun tests => ?_
  refine .bind_any (sameIn_triplesBelow h rfl rfl (hdescendants _) (htable _)
    fun subject c => sameIn_makeTriples h) fun makes => ?_
  exact .bind_any (Row.sameIn_viewName h (by simp [Row.view, hr]; rfl)) fun _ => .pure

end Rules

end SoarProject
