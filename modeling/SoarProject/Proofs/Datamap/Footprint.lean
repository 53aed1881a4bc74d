import SoarProject.Proofs.Datamap.Correction
import SoarProject.Proofs.Session.Dependence

/-!
# What corrections leave alone

Corrections write to the relations of datamaps only: everything else is as it was, whichever corrections are
applied and whatever the store is like.

* `Store.KeepsRules`: two stores differ in their datamaps only.
* `Correction.sparesRules_applyAll`: so do the stores before and after corrections were applied.
-/

namespace SoarProject

open Registry

variable {α β : Type} {w : Bool} {st st' st'' : Store} {r : Row} {t : Table} {n : RelationName}

/-- Whether a relation belongs to datamaps. -/
def RelationName.isDatamap : RelationName → Bool
  | .entity t => t.isDatamap
  | .join a b => a.isDatamap || b.isDatamap
  | .directed _ c => c.isDatamap
  | .other _ => false

namespace Store

/-- Everything but the datamaps is as it was. -/
def KeepsRules (st st' : Store) : Prop := ∀ n, n.isDatamap = false → st'.find? n = st.find? n

namespace KeepsRules

theorem refl (st : Store) : st.KeepsRules st := fun _ _ => rfl

theorem trans (h : st.KeepsRules st') (h' : st'.KeepsRules st'') : st.KeepsRules st'' :=
  fun n hn => (h' n hn).trans (h n hn)

theorem put (hn : n.isDatamap = true) (relation : Relation) : st.KeepsRules (st.put n relation) := by
  intro m hm
  rw [find?_put, if_neg]
  rintro rfl
  simp [hn] at hm

end KeepsRules

/-- To insert a record or a pair replaces its relation. -/
theorem exists_put_of_insert {values : List (String × Value)} {id : Int}
    (h : st.insert n values = .ok (st', id)) : ∃ relation, st' = st.put n relation := by
  obtain ⟨relation, -, h⟩ := exceptBind_eq_ok.mp h
  dsimp only at h
  split at h
  · cases h
  obtain ⟨cells, -, h⟩ := exceptBind_eq_ok.mp h
  -- A relation of either kind is replaced as a whole.
  cases relation with
  | records columns rows =>
    obtain ⟨new, -, h⟩ := exceptBind_eq_ok.mp h
    split at h
    · cases h
    exact ⟨_, (Prod.mk.inj (Except.ok.inj h)).1.symm⟩
  | pairs first second rows =>
    obtain ⟨rows', -, h⟩ := exceptBind_eq_ok.mp h
    exact ⟨_, (Prod.mk.inj (Except.ok.inj h)).1.symm⟩

/-- To add a pair changes its relation at most. -/
theorem KeepsRules.addPair {pair : CellPair} (hn : n.isDatamap = true)
    (h : st.addPair n pair = .ok st') : st.KeepsRules st' := by
  obtain ⟨relation, -, h⟩ := exceptBind_eq_ok.mp h
  obtain ⟨-, -, h⟩ := exceptBind_eq_ok.mp h
  obtain ⟨-, -, h⟩ := exceptBind_eq_ok.mp h
  cases relation with
  | records columns rows =>
    obtain rfl := Except.ok.inj h
    exact .refl st
  | pairs first second rows =>
    obtain ⟨rows', -, h⟩ := exceptBind_eq_ok.mp h
    obtain rfl := Except.ok.inj h
    exact .put hn _

end Store

namespace Change

/-- Where it succeeds, a change writes to datamaps only, and gives something for which `R` holds. -/
def SparesRules (c : Change α) (R : α → Prop) : Prop :=
  ∀ w st, c.Ends w st (fun a st' => st.KeepsRules st' ∧ R a) fun _ => True

variable {c : Change α} {R : α → Prop} {T : β → Prop}

theorem SparesRules.pure {a : α} (h : R a) : (pure a : Change α).SparesRules R :=
  fun _ st => Ends.pure ⟨.refl st, h⟩

theorem SparesRules.throw {e : Failure} : (throw e : Change α).SparesRules R :=
  fun _ _ => Ends.throw trivial

theorem SparesRules.bind {f : α → Change β} (hc : c.SparesRules R)
    (hf : ∀ a, R a → (f a).SparesRules T) : (c >>= f).SparesRules T := by
  intro w st
  refine Ends.bind ((hc w st).mono ?_ fun _ hE => hE)
  rintro a st' ⟨hkeeps, ha⟩
  exact (hf a ha w st').mono (fun b st'' hb => ⟨hkeeps.trans hb.1, hb.2⟩) fun _ hE => hE

theorem SparesRules.query {q : Query α} {f : α → Change β} {sure : Prop}
    (hq : ∀ st, q.Finds st sure R)
    (hf : ∀ a, R a → (f a).SparesRules T) : ((liftM q : Change α) >>= f).SparesRules T :=
  fun w st => Ends.query (hq st) (fun a ha => hf a ha w st) fun _ => trivial

theorem SparesRules.registry {f : Registry → Change β} (hf : (f project).SparesRules T) :
    ((liftM Query.registry : Change Registry) >>= f).SparesRules T :=
  fun w st => Ends.registry (hf w st)

theorem SparesRules.forM {f : α → Change Unit} {xs : List α}
    (hf : ∀ x ∈ xs, (f x).SparesRules fun _ => True) : (xs.forM f).SparesRules fun _ => True := by
  intro w st
  refine (Ends.forM_mem (J := st.KeepsRules) (fun x hx st' hkeeps => ?_) (.refl st)).mono
    (fun _ _ hJ => ⟨hJ, trivial⟩) fun _ hE => hE
  exact (hf x hx w st').mono (fun _ _ hQ => hkeeps.trans hQ.1) fun _ hE => hE

/-- A change for each entry of a list in turn, with what came of the earlier ones. -/
theorem SparesRules.foldlM {f : β → α → Change β} {xs : List α} {b : β}
    (hf : ∀ b, ∀ x ∈ xs, (f b x).SparesRules fun _ => True) :
    (xs.foldlM f b).SparesRules fun _ => True := by
  induction xs generalizing b with
  | nil => exact .pure trivial
  | cons x xs ih =>
    rw [List.foldlM_cons]
    exact (hf b x List.mem_cons_self).bind fun b _ =>
      ih fun b' y hy => hf b' y (List.mem_cons_of_mem _ hy)

/-- To insert a record of a datamap. -/
theorem sparesRules_insert (ht : t.isDatamap = true) (values : List (String × Value)) :
    (Change.insert t values).SparesRules fun _ => True := by
  intro w st
  unfold Change.insert
  refine Ends.registry (Ends.mutate (fun st' id _ hinsert => ⟨?_, trivial⟩) fun _ => trivial)
  dsimp only at hinsert
  split at hinsert
  · cases hinsert
  obtain ⟨prepared, -, hinsert⟩ := exceptBind_eq_ok.mp hinsert
  obtain ⟨relation, rfl⟩ := Store.exists_put_of_insert hinsert
  exact .put (n := .entity t) ht relation

/-- To add a pair of a datamap. -/
theorem sparesRules_addPair {pair : CellPair} (hn : n.isDatamap = true) :
    (Change.mutate fun store => return (← store.addPair n pair, ())).SparesRules fun _ => True := by
  intro w st
  refine Ends.mutate (fun st' _ _ hrun => ⟨?_, trivial⟩) fun _ => trivial
  obtain ⟨st₁, hadd, heq⟩ := exceptBind_eq_ok.mp hrun
  obtain rfl := (Prod.mk.inj (Except.ok.inj heq)).1
  exact .addPair hn hadd

end Change

/-- The entries that a query selects are among those of the list. -/
theorem Query.finds_filterM_subset {f : α → Query Bool} {xs : List α} :
    (xs.filterM f).Finds st False (· ⊆ xs) := by
  -- The loop of `filterM` keeps what it has found in reverse.
  have haux : ∀ ys kept : List α, kept ⊆ xs → ys ⊆ xs →
      (List.filterAuxM f ys kept).Finds st False (· ⊆ xs) := by
    intro ys
    induction ys with
    | nil => exact fun kept hkept _ => Query.Finds.pure hkept
    | cons y ys ih =>
      intro kept hkept hys
      rw [List.filterAuxM]
      refine Query.finds_any.bind fun found _ => ih _ ?_ fun z hz => hys (List.mem_cons_of_mem _ hz)
      cases found with
      | true => exact List.cons_subset.mpr ⟨hys List.mem_cons_self, hkept⟩
      | false => exact hkept
  refine (haux xs [] (List.nil_subset _) (List.Subset.refl _)).bind fun ys hys => Query.Finds.pure ?_
  exact fun x hx => hys (List.mem_reverse.mp hx)

/-! ### New nodes -/

namespace Row

open Change (SparesRules)

theorem automaticChildrenOf_eq_nil (ht : t.isDatamap = true) : project.automaticChildrenOf t = [] := by
  have hall : ∀ t ∈ Table.all, t.isDatamap = true → project.automaticChildrenOf t = [] := by
    decide
  exact hall t (Table.mem_all t) ht

/-- A node is joined below a row. -/
theorem sparesRules_directedJoin {parent child : Row} (hc : child.table.isDatamap = true) :
    (directedJoin parent child).SparesRules fun _ => True := by
  unfold directedJoin
  refine .query (fun _ => Query.finds_any) fun registry _ => ?_
  split
  · exact .pure trivial
  · refine .query (fun _ => Query.finds_any) fun joined _ => ?_
    split
    · exact .pure trivial
    · exact Change.sparesRules_addPair hc

/-- A child that is a node is created. -/
theorem sparesRules_createChild {parent : Row} {name : Value} (ht : t.isDatamap = true) :
    (parent.createChild t name).SparesRules fun _ => True := by
  have hinsert : (parent.insertChild t [("name", name)]).SparesRules fun _ => True := by
    unfold insertChild
    refine .query (fun _ => Query.finds_any) fun tables _ => ?_
    split
    · exact .throw
    · exact Change.sparesRules_insert ht _
  have hcreate : (createWithin automaticDepth parent t name).SparesRules fun _ => True := by
    unfold automaticDepth createWithin
    refine .query (fun _ => Query.finds_any) fun tables _ => ?_
    split
    · exact .throw
    refine hinsert.bind fun id _ => ?_
    refine .registry ?_
    -- The tables of the datamap have no automatic children, so no other table is reached.
    rw [automaticChildrenOf_eq_nil ht]
    exact .pure trivial
  unfold createChild
  exact hcreate.bind fun _ _ => .pure trivial

/-- A node is created and joined below a row. -/
theorem sparesRules_createJoinedChild {parent : Row} {name : Value} (ht : t.isDatamap = true) :
    (parent.createJoinedChild t name).SparesRules fun v => v.row.table = t := by
  unfold createJoinedChild
  refine .query (fun _ => Query.finds_any) fun registry _ => ?_
  split
  · exact .throw
  refine (Change.sparesRules_insert ht _).bind fun id _ => ?_
  have hjoin : (directedJoin parent (.ofId t id)).SparesRules fun _ => True :=
    sparesRules_directedJoin ht
  refine hjoin.bind fun _ _ => ?_
  have hautomatic : (createAutomaticChildren (.ofId t id)).SparesRules fun _ => True := by
    unfold createAutomaticChildren
    refine .registry ?_
    rw [automaticChildrenOf_eq_nil ht]
    exact .pure trivial
  exact hautomatic.bind fun _ _ => .pure rfl

/-- What is joined below a row in a table belongs to this table. -/
theorem finds_directedChildren_table :
    (r.directedChildrenOfType t).Finds st False fun found => ∀ c ∈ found, c.table = t := by
  unfold directedChildrenOfType
  refine Query.finds_any.bind fun registry _ => ?_
  split
  · exact Query.Finds.pure (by simp)
  · refine Query.finds_any.bind fun pairs _ => Query.Finds.pure fun c hc => ?_
    obtain ⟨pair, -, rfl⟩ := List.mem_map.mp hc
    rfl

/-- The children of a row in a table belong to this table. -/
theorem finds_childrenOfType_table :
    (r.childrenOfType t).Finds st False fun found => ∀ c ∈ found, c.table = t := by
  unfold childrenOfType
  refine Query.finds_any.bind fun tables _ => ?_
  split
  · exact Query.Finds.pure (by simp)
  · refine Query.finds_any.bind fun records _ => Query.Finds.pure fun c hc => ?_
    obtain ⟨record, -, rfl⟩ := List.mem_map.mp hc
    rfl

/-- Looking at a name, a view stays one of its row. -/
theorem finds_name_row {v : View} : v.name.Finds st False fun found => found.2.row = v.row := by
  unfold View.name
  split
  · exact Query.Finds.pure rfl
  · refine Query.finds_any.bind fun found _ => ?_
    rcases found with _ | _ | record
    · exact Query.Finds.pure rfl
    · exact Query.Finds.pure rfl
    · dsimp only
      split
      · exact Query.Finds.pure rfl
      · exact Query.Finds.pure rfl

/-- What stands for a triple is a node. -/
theorem finds_matchingChildren_isDatamap {step : Triple} :
    (r.matchingChildren step).Finds st False fun found => ∀ v ∈ found, v.row.table.isDatamap = true := by
  -- Nodes come from directed children of one table, and so does the string node beside an identifier.
  have hcandidates : (r.candidateNodes step).Finds st False
      fun found => ∀ c ∈ found, c.table.isDatamap = true := by
    have hnode : step.kind.nodeTable.isDatamap = true := by cases step.kind <;> rfl
    unfold candidateNodes
    refine finds_directedChildren_table.bind fun nodes hnodes => ?_
    split
    · refine Query.finds_filterM_subset.bind fun holding hholding => ?_
      refine finds_directedChildren_table.bind fun strings hstrings => Query.Finds.pure ?_
      intro c hc
      rcases List.mem_append.mp hc with hc | hc
      · exact hnodes c (hholding hc) ▸ hnode
      · rw [hstrings c hc]
        rfl
    · exact Query.Finds.pure fun c hc => hnodes c hc ▸ hnode
  unfold matchingChildren
  refine hcandidates.bind fun nodes hnodes => ?_
  refine (Query.Finds.mapM_mem fun c _ => finds_name_row).bind fun named hnamed => ?_
  refine Query.Finds.pure fun v hv => ?_
  obtain ⟨found, hfound, rfl⟩ := List.mem_map.mp hv
  obtain ⟨c, hc, hrow⟩ := hnamed.2 found (List.mem_filter.mp hfound).1
  rw [hrow]
  exact hnodes c hc

end Row

/-- What a path leads to from nodes are nodes. -/
theorem finds_resolveFrom_isDatamap {path : List Triple} {nodes : List View}
    (hnodes : ∀ v ∈ nodes, v.row.table.isDatamap = true) :
    (resolveFrom nodes path).Finds st False fun found => ∀ v ∈ found, v.row.table.isDatamap = true := by
  induction path generalizing nodes with
  | nil => exact Query.Finds.pure hnodes
  | cons step rest ih =>
    rw [resolveFrom, matchingBelow]
    refine Query.Finds.bind (R := fun found => ∀ v ∈ found, v.row.table.isDatamap = true)
      ((Query.Finds.mapM_mem fun v _ => Row.finds_matchingChildren_isDatamap).bind fun lists hlists =>
        Query.Finds.pure fun v hv => ?_) fun found hfound => ?_
    · -- Whatever resolves one step is found among the children, which are datamap nodes.
      obtain ⟨found, hfound, hv⟩ := List.mem_flatten.mp hv
      obtain ⟨-, -, hall⟩ := hlists.2 found hfound
      exact hall v hv
    · split
      · exact Query.Finds.pure (by simp)
      · exact ih hfound

namespace Correction

open Change (SparesRules)

/-- The node that stands for a triple is found or created. -/
theorem sparesRules_ensureNode {parent : Row} {step : Triple} :
    (ensureNode parent step).SparesRules fun _ => True := by
  have hnode : step.kind.nodeTable.isDatamap = true := by cases step.kind <;> rfl
  -- A child that is there already costs nothing, and a created one is a row of the datamap.
  have hensure : ∀ t, t.isDatamap = true → ∀ name, (ensureJoinedChild parent t name).SparesRules
      fun _ => True := by
    intro t ht name
    unfold ensureJoinedChild
    refine .query (fun _ => Query.finds_any) fun nodes _ => ?_
    rw [Row.filterM_name_eq]
    refine .query (fun _ => Query.finds_any) fun named _ => ?_
    split
    · exact .pure trivial
    · exact (Row.sparesRules_createJoinedChild ht).bind fun v _ => .pure trivial
  unfold ensureNode
  refine (hensure _ hnode _).bind fun node _ => ?_
  dsimp only
  split
  · refine .query (fun _ => Query.finds_any) fun holds _ => ?_
    split
    · exact (Row.sparesRules_createChild rfl).bind fun _ _ => .pure trivial
    · exact .pure trivial
  · exact .pure trivial

/-- The last node of a correction is joined to another node. -/
theorem sparesRules_joinTail {tail node : Row} (hnode : node.table.isDatamap = true) :
    (joinTail tail node).SparesRules fun _ => True := by
  unfold joinTail
  split
  · exact .pure trivial
  refine .registry ?_
  split
  · exact .pure trivial
  unfold Row.join
  refine .query (fun _ => Row.finds_joinOrder) fun order horder => ?_
  refine .query (fun _ => Query.finds_any) fun joined _ => ?_
  split
  · exact .pure trivial
  · refine Change.sparesRules_addPair ?_
    -- One side of the join is the node, so the relation belongs to the datamap.
    rcases (mem_joinedPairs_of_orderJoined? horder).2 with rfl | rfl <;>
      simp [RelationName.isDatamap, hnode]

/-- The missing nodes are created. -/
theorem sparesRules_apply {c : Correction} : c.apply.SparesRules fun _ => True := by
  unfold apply
  exact (Change.SparesRules.foldlM fun parent step _ => sparesRules_ensureNode).bind
    fun _ _ => .pure trivial

/-- The last node of a correction is joined to the nodes of the linked paths. -/
theorem sparesRules_applyLinks {c : Correction} : c.applyLinks.SparesRules fun _ => True := by
  unfold applyLinks
  split
  · exact .pure trivial
  split
  · exact .pure trivial
  refine .query (fun _ => Query.finds_any) fun problemSpace? _ => ?_
  split
  · exact .pure trivial
  -- The root is a row of the datamap, and so is everything that the end of a link resolves to.
  refine .query (R := fun found => ∀ root, found = some root → root.table.isDatamap = true)
    (fun st => Query.Finds.mono_sure (?_ : Query.Finds _ st False _) id) fun root? hroot => ?_
  · unfold Row.datamapRoot?
    refine Row.finds_childrenOfType_table.bind fun found hfound => Query.Finds.pure ?_
    intro root hroot
    rw [hfound root (List.mem_of_mem_head? hroot)]
    rfl
  · split
    · exact .pure trivial
    · next root =>
      refine .forM fun path _ => ?_
      refine .query (R := fun nodes => ∀ q ∈ nodes, q.table.isDatamap = true)
        (fun st => Query.Finds.mono_sure (?_ : Query.Finds _ st False _) id)
        fun nodes hnodes => .forM fun node hnode => sparesRules_joinTail (hnodes node hnode)
      unfold Row.resolvePath
      have hview : ∀ v ∈ [root.view], v.row.table.isDatamap = true := by
        intro v hv
        rw [List.mem_singleton.mp hv]
        exact hroot root rfl
      refine (finds_resolveFrom_isDatamap hview).bind fun found hfound => Query.Finds.pure ?_
      simpa using hfound

/-- Corrections are applied in turn, and then their links. -/
theorem sparesRules_applyAll {cs : List Correction} : (applyAll cs).SparesRules fun _ => True := by
  -- One correction after the other, as long as none fails.
  have hturn : ∀ (cs : List Correction) w st, Session.Leads (applyInTurn cs) w st fun r st' =>
      r.2 = none → st.KeepsRules st' := by
    intro cs
    induction cs with
    | nil => exact fun w st => Session.Leads.pure fun _ => .refl st
    | cons c rest ih =>
      intro w st
      rw [applyInTurn]
      refine Session.Leads.bind (Session.Leads.mono (sparesRules_apply w st) ?_)
      rintro (e | applied) st₁ hr
      · exact Session.Leads.pure fun hnone => by cases hnone
      · refine Session.Leads.bind ((ih w st₁).mono ?_)
        rintro ⟨applied, failure⟩ st₂ hrest
        exact Session.Leads.pure fun hnone => hr.1.trans (hrest hnone)
  -- Then the links of all of them.
  have hattempt : ∀ w st, Session.Leads (attemptAll cs) w st fun r st' =>
      r.2 = none → st.KeepsRules st' := by
    intro w st
    unfold attemptAll
    refine Session.Leads.bind ((hturn cs w st).mono ?_)
    rintro ⟨applied, failure⟩ st₁ hdone
    dsimp only at hdone ⊢
    split
    · exact Session.Leads.pure fun hnone => by cases hnone
    · next heq =>
      obtain ⟨rfl, rfl⟩ := Prod.mk.inj heq
      have hlinks : (applied.forM applyLinks : Change Unit).SparesRules fun _ => True :=
        .forM fun c _ => sparesRules_applyLinks
      refine Session.Leads.bind (Session.Leads.mono (hlinks w st₁) ?_)
      rintro (e | _) st₂ hr
      · exact Session.Leads.pure fun hnone => by cases hnone
      · exact Session.Leads.pure fun _ => (hdone rfl).trans hr.1
  intro w st
  unfold applyAll
  refine Change.Ends.bind ((Change.Ends.step (hattempt w st)).mono ?_ fun _ hE => hE)
  rintro ⟨applied, failure⟩ st' hkeeps
  cases failure with
  | some e => exact Change.Ends.throw trivial
  | none => exact Change.Ends.pure ⟨hkeeps rfl, trivial⟩

end Correction

end SoarProject
