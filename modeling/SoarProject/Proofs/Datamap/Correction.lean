import SoarProject.Datamap.Correction
import SoarProject.Proofs.Datamap.Resolution
import SoarProject.Proofs.Row.Creation

/-!
# What corrections add

A path that leads to no node is one that some correction fills: the path leads to the node where the
correction begins, and goes on with what it adds. To apply corrections only adds rows and pairs, and
afterwards the added parts lead on to nodes, if their values are texts.

* `Correction.IsFor`: a correction fills a selected path and carries the links of the path.
* `Correction.finds_propose`: every path leads to a node or is filled by a proposed correction.
* `Store.Sprouts`, `Store.Paves`: one node is found or created, and the nodes along a path are.
* `Correction.ends_apply`: to apply a correction adds the nodes along its part.
* `Correction.leads_applyInTurn`: the corrections of a list are applied one after the other.
-/

namespace SoarProject

open Registry

variable {w : Bool} {st st' : Store} {r p c q root : Row} {t : Table} {name : String}
  {step : Triple} {path : List Triple}

/-- A name that is given as a text is the name of the row. -/
theorem Store.named_of_madeFrom {record : Record} {values : List (String × Value)}
    (hrecord : record ∈ st.rows r.table) (hid : r.id = .int record.id)
    (hmade : record.MadeFrom t values) (hname : values.reverse.lookup "name" = some (.text name)) :
    st.Named r name := by
  have htype : project.columnType? t "name" = some .name := by
    have h : ∀ t ∈ Table.all, project.columnType? t "name" = some .name := by decide
    exact h t (Table.mem_all t)
  obtain ⟨prepared, place, cell, hprepared, hcell, hget⟩ :=
    (hmade "name" .name (by decide) htype).2 _ hname
  obtain rfl : .text name = prepared := Except.ok.inj hprepared
  obtain rfl : .text name = cell := Except.ok.inj hcell
  refine ⟨record, hrecord, hid, ?_⟩
  rw [Record.label, hget]
  rfl

/-- The rows of a list that have a name. -/
def Row.withName (rows : List Row) (name : String) : Query (List Row) :=
  rows.filterM fun c => return (← c.name) == name

/-- To look at the names of rows changes nothing. -/
theorem Row.filterM_name_eq (rows : List Row) (name : String) :
    (rows.filterM fun c => do return (← c.name) == name : Change (List Row)) =
      liftM (Row.withName rows name) := by
  rw [Row.withName, Change.liftM_filterM]
  refine congrArg (rows.filterM ·) (funext fun c => ?_)
  rw [Change.liftM_bind]
  rfl

/-! ### New nodes -/

namespace Store

/-- A node is joined below another one. If it was not before, it is new and has no parent; nothing else is
joined below a row. -/
structure Sprouts (st st' : Store) (p c : Row) : Prop where
  grows : st.Grows st'
  isAbove : st'.IsAbove p c
  above : ∀ q d, st'.IsAbove q d → st.IsAbove q d ∨
    q = p ∧ d = c ∧ ¬ st.Has c ∧ ∀ r, ¬ st'.IsParent r c

theorem Sprouts.has (h : st.Sprouts st' p c) : st'.Has c :=
  (h.grows.integral.has_of_isAbove h.isAbove).2

/-- A new row that is joined to nothing makes no difference to what is joined below a row. -/
theorem Sprouts.fresh {st₁ : Store} (h : st.Sprouts st₁ p c) (hfresh : st₁.Fresh st' r) :
    st.Sprouts st' p c where
  grows := h.grows.trans hfresh.grows
  isAbove := hfresh.grows.isAbove h.isAbove
  above q d hqd := by
    have hqd₁ : st₁.IsAbove q d :=
      ⟨hqd.1, by rw [← hfresh.pairs_eq (.directed q.table d.table) hqd.1]; exact hqd.2⟩
    refine (h.above q d hqd₁).imp_right fun ⟨hq, hd, hnew, hparentless⟩ => ⟨hq, hd, hnew, fun r hr => ?_⟩
    exact hparentless r ((hfresh.grows.isParent_iff h.has).mp hr)

/-- A row that is created below a node is joined below it. -/
theorem Sprouts.of_bearsJoined (h : Row.BearsJoined st st' p c) : st.Sprouts st' p c where
  grows := h.grows
  isAbove := h.isAbove
  above q d hqd := by
    rcases h.pairs (.directed q.table d.table) hqd.1 _ hqd.2 with hold | ⟨hname, hpair⟩
    · exact .inl ⟨hqd.1, hold⟩
    · obtain ⟨hq, hd⟩ := RelationName.directed.inj hname
      obtain ⟨hqid, hdid⟩ := Prod.mk.inj hpair
      exact .inr ⟨Row.mk.injEq .. ▸ ⟨hq, hqid⟩, Row.mk.injEq .. ▸ ⟨hd, hdid⟩, h.new, h.parentless⟩

/-- The nodes along a path are found or created below a node, the last of them is the node `q`. -/
inductive Paves (st : Store) (p : Row) : List Triple → Store → Row → Prop
  | nil : st.Integral → st.Has p → Paves st p [] st p
  | snoc {path : List Triple} {step : Triple} {st₁ st' : Store} {c q : Row} :
    Paves st p path st₁ c → st₁.Sprouts st' c q → (step.IsText → st'.Stands c step q) →
    Paves st p (path ++ [step]) st' q

namespace Paves

theorem grows (h : st.Paves p path st' q) : st.Grows st' := by
  induction h with
  | nil h _ => exact .refl h
  | snoc _ hsprouts _ ih => exact ih.trans hsprouts.grows

theorem has (h : st.Paves p path st' q) : st'.Has q := by
  cases h with
  | nil _ hp => exact hp
  | snoc _ hsprouts _ => exact hsprouts.has

theorem leads (h : st.Paves p path st' q) (htexts : ∀ t ∈ path, t.IsText) : st'.Leads p path q := by
  induction h with
  | nil => exact .nil
  | snoc _ hsprouts hstands ih =>
    have hfront := ih fun t ht => htexts t (List.mem_append_left _ ht)
    exact (hsprouts.grows.leads hfront).append (.cons (hstands (htexts _ (by simp))) .nil)

end Paves

end Store

namespace Correction

/-! ### Proposing -/

/-- A path leads from a row to the node where a correction begins, and goes on with what it adds. -/
def Fills (st : Store) (correction : Correction) (r : Row) (path : List Triple) : Prop :=
  ∃ front, path = front ++ correction.addition ∧ st.Leads r front correction.anchor.row

/-- A correction fills a selected path of a network: it begins at an existing node, and knows where other
paths end in the same variable. -/
structure IsFor (st : Store) (root : Row) (n : Network) (p : TerminalPath) (c : Correction) : Prop where
  has : st.Has c.anchor.row
  fills : c.Fills st root (n.steps p.path)
  links_eq : c.links = p.links.map n.pathLink

/-- The rest of a path leads on to a node, or corrections are proposed that fill it. -/
theorem finds_proposeFrom (h : st.Sound) {links : List PathLink} {nodes : List View}
    (hnodes : ∀ v ∈ nodes, st.Has v.row) (hne : nodes ≠ []) :
    (proposeFrom links nodes path).Finds st st.Fits
      (fun cs => (∀ c ∈ cs, c.addition ≠ [] ∧ st.Has c.anchor.row ∧
          (∃ v ∈ nodes, c.Fills st v.row path) ∧ c.links = links) ∧
        ((∃ v ∈ nodes, ∃ q, st.Leads v.row path q) ∨ cs ≠ [])) := by
  induction path generalizing nodes with
  | nil =>
    obtain ⟨v, hv⟩ := List.exists_mem_of_ne_nil _ hne
    exact Query.Finds.pure ⟨by simp, Or.inl ⟨v, hv, v.row, .nil⟩⟩
  | cons step rest ih =>
    rw [proposeFrom]
    refine (finds_matchingBelow h hnodes).bind fun found hfound => ?_
    split
    · -- No node stands for the first triple, so that the corrections begin here.
      refine Query.Finds.pure ⟨fun c hc => ?_, Or.inr (by simpa using hne)⟩
      obtain ⟨v, hv, rfl⟩ := List.mem_map.mp hc
      exact ⟨List.cons_ne_nil step rest, hnodes v hv, ⟨v, hv, [], rfl, .nil⟩, rfl⟩
    · next hsome =>
      have hleads : ∀ v ∈ found, ∃ v' ∈ nodes, st.Stands v'.row step v.row :=
        fun v hv => (hfound v.row).mp ⟨v, hv, rfl⟩
      refine (ih (fun v hv => ?_) hsome).mono fun cs ⟨hfills, hcs⟩ =>
        ⟨fun c hc => ?_, hcs.imp_left fun ⟨v, hv, q, hpath⟩ => ?_⟩
      · obtain ⟨v', -, hstands⟩ := hleads v hv
        exact (h.has_of_isAbove hstands.1.1).2
      · obtain ⟨hne, hanchor, ⟨v, hv, front, hrest, hpath⟩, hlinks⟩ := hfills c hc
        obtain ⟨v', hv', hstands⟩ := hleads v hv
        exact ⟨hne, hanchor, ⟨v', hv', step :: front, by rw [hrest]; rfl, .cons hstands hpath⟩, hlinks⟩
      · obtain ⟨v', hv', hstands⟩ := hleads v hv
        exact ⟨v', hv', q, .cons hstands hpath⟩

/-- Every proposed correction adds something and fills a selected path, and every selected path leads to a
node or is filled by a proposed correction. -/
theorem finds_propose (h : st.Sound) {root : View} (hroot : st.Has root.row) {n : Network}
    {paths : List TerminalPath} :
    (propose root n paths).Finds st st.Fits
      (fun cs => (∀ c ∈ cs, c.addition ≠ [] ∧ ∃ p ∈ paths, c.IsFor st root.row n p) ∧
        ∀ p ∈ paths, (∃ q, st.Leads root.row (n.steps p.path) q) ∨
          ∃ c ∈ cs, c.IsFor st root.row n p) := by
  unfold propose
  have hnodes : ∀ v ∈ [root], st.Has v.row := by
    intro v hv
    rwa [List.mem_singleton.mp hv]
  -- One path at a time, followed from the root alone.
  have hpath : ∀ p, (proposeFrom (p.links.map n.pathLink) [root] (n.steps p.path)).Finds st st.Fits
      fun cs => (∀ c ∈ cs, c.addition ≠ [] ∧ c.IsFor st root.row n p) ∧
        ((∃ q, st.Leads root.row (n.steps p.path) q) ∨ cs ≠ []) := by
    refine fun p => (finds_proposeFrom h hnodes (List.cons_ne_nil _ _)).mono fun cs => ?_
    simp only [List.mem_singleton, exists_eq_left]
    rintro ⟨hfills, hleads⟩
    refine ⟨fun c hc => ?_, hleads⟩
    obtain ⟨hne, hanchor, hpath, hlinks⟩ := hfills c hc
    exact ⟨hne, hanchor, hpath, hlinks⟩
  refine (Query.Finds.mapM_mem fun p _ => hpath p).bind fun lists ⟨hleft, hright⟩ =>
    Query.Finds.pure ⟨fun c hc => ?_, fun p hp => ?_⟩
  · obtain ⟨cs, hcs, hc⟩ := List.mem_flatten.mp hc
    obtain ⟨p, hp, hfor, -⟩ := hright cs hcs
    exact ⟨(hfor c hc).1, p, hp, (hfor c hc).2⟩
  · obtain ⟨cs, hcs, hfor, hleads⟩ := hleft p hp
    refine hleads.imp_right fun hsome => ?_
    obtain ⟨c, hc⟩ := List.exists_mem_of_ne_nil _ hsome
    exact ⟨c, List.mem_flatten.mpr ⟨cs, hcs, hc⟩, (hfor c hc).2⟩

/-! ### Creating the missing nodes -/

/-- The joined child with a name is found or created. -/
theorem ends_ensureJoinedChild (h : st.Integral) (hp : st.Has p) :
    (ensureJoinedChild p t name).Ends w st
      (fun c st' => st.Sprouts st' p c ∧ c.table = t ∧ st'.Named c name)
      (fun st' => st.Grows st') := by
  unfold ensureJoinedChild
  refine Change.Ends.query (Row.finds_joinedBelow h.toSound hp) (fun nodes hnodes => ?_)
    fun _ => .refl h
  -- Of the nodes below the row, those with the name are kept.
  have hnamed : (Row.withName nodes name).Finds st st.Fits
      (fun found => ∀ c, c ∈ found ↔ c ∈ nodes ∧ st.Named c name) := by
    refine Query.Finds.filterM fun c hc => ?_
    refine (Row.finds_name h.toSound (h.has_of_isAbove ((hnodes c).mp hc).2).2).bind
      fun other hother => Query.Finds.pure ?_
    rw [beq_iff_eq]
    exact ⟨fun heq => heq ▸ hother, h.named_unique hother⟩
  rw [Row.filterM_name_eq]
  refine Change.Ends.query hnamed (fun found hfound => ?_) fun _ => .refl h
  split
  · next c rest =>
    -- There is such a node, and nothing is created.
    obtain ⟨hc, hname⟩ := (hfound c).mp List.mem_cons_self
    obtain ⟨htable, habove⟩ := (hnodes c).mp hc
    exact Change.Ends.pure ⟨⟨.refl h, habove, fun _ _ => .inl⟩, htable, hname⟩
  · -- There is none, and the one that is created has the name.
    refine Change.Ends.bind ((Row.ends_createJoinedChild h hp).mono ?_ fun _ hE => hE)
    rintro v st' ⟨htable, hbears, record, hrecord, hid, hmade⟩
    exact Change.Ends.pure ⟨.of_bearsJoined hbears, htable,
      Store.named_of_madeFrom (htable ▸ hrecord) hid hmade rfl⟩

/-- A new value of an enumeration is held by it. -/
theorem holds_of_bears {s : String} (hc : c.table = .datamapEnumerationValues)
    (hbears : Row.Bears st st' p c) {record : Record} (hrecord : record ∈ st'.rows c.table)
    (hid : c.id = .int record.id)
    (hmade : record.MadeFrom c.table ([("name", .text s)] ++ [(p.table.idName, p.id.toValue)])) :
    st'.Holds p (.text s) := by
  refine ⟨c, hc, hbears.isParent, s, Store.named_of_madeFrom hrecord hid hmade ?_, rfl⟩
  simp [List.lookup_cons, beq_eq_false_iff_ne.mpr (name_ne_idName p.table)]

/-- The node that stands for a triple with a text as its value is found or created. -/
theorem ends_ensureNode (h : st.Integral) (hp : st.Has p) :
    (ensureNode p step).Ends w st
      (fun c st' => st.Sprouts st' p c ∧ (step.IsText → st'.Stands p step c))
      (fun st' => st.Grows st') := by
  unfold ensureNode
  refine Change.Ends.bind ((ends_ensureJoinedChild h hp).mono ?_ fun _ hE => hE)
  rintro c st₁ ⟨hsprouts, htable, hname⟩
  have hintegral := hsprouts.grows.integral
  -- However the node came about, only the value of an enumeration may still be missing.
  have hdone : ∀ {st'}, st.Sprouts st' p c → st₁.Grows st' →
      (step.IsText → step.kind = .string → st'.Holds c step.value) →
      st.Sprouts st' p c ∧ (step.IsText → st'.Stands p step c) :=
    fun hsprouts' hgrows hholds => ⟨hsprouts', fun htext =>
      ⟨⟨hsprouts'.isAbove, Or.inl ⟨htable, hholds htext⟩⟩, hgrows.named hname⟩⟩
  dsimp only
  split
  · refine Change.Ends.query (Row.finds_hasEnumerationValue hintegral.toSound hsprouts.has)
      (fun found hfound => ?_) fun _ => hsprouts.grows
    split
    · -- The text becomes a new value of the enumeration.
      refine Change.Ends.bind ((Row.ends_createChild hintegral hsprouts.has).mono ?_
        fun _ hE => hsprouts.grows.trans hE)
      rintro v st' ⟨hvtable, hbears, record, hrecord, hid, hmade⟩
      refine Change.Ends.pure (hdone (hsprouts.fresh hbears.toFresh) hbears.grows fun ⟨s, hs⟩ _ => ?_)
      rw [hs] at hmade ⊢
      exact holds_of_bears hvtable hbears (hvtable ▸ hrecord) hid (hvtable ▸ hmade)
    · next hthere =>
      exact Change.Ends.pure (hdone hsprouts (.refl hintegral) fun _ _ =>
        hfound.mp (by simpa using hthere))
  · next hkind =>
    exact Change.Ends.pure (hdone hsprouts (.refl hintegral) fun _ hstring => absurd hstring hkind)

/-- A correction was applied: it leads to its last node, if its values are texts. -/
def IsApplied (st : Store) (c applied : Correction) : Prop :=
  ∃ tail, applied = { c with tail := some tail } ∧ st.Has tail ∧
    ((∀ t ∈ c.addition, t.IsText) → st.Leads c.anchor.row c.addition tail)

theorem IsApplied.grows {c applied : Correction} (h : c.IsApplied st applied)
    (hgrows : st.Grows st') : c.IsApplied st' applied := by
  obtain ⟨tail, happlied, hhas, hleads⟩ := h
  exact ⟨tail, happlied, hgrows.has hhas, fun htexts => hgrows.leads (hleads htexts)⟩

/-- The path that a correction fills leads to its last node once it was applied. -/
theorem IsFor.leads_of_isApplied {root : Row} {n : Network} {p : TerminalPath} {c applied : Correction}
    (h : c.IsFor st root n p) (hgrows : st.Grows st') (htexts : ∀ t ∈ n.steps p.path, t.IsText)
    (happlied : c.IsApplied st' applied) :
    ∃ tail, applied = { c with tail := some tail } ∧ st'.Has tail ∧
      st'.Leads root (n.steps p.path) tail := by
  obtain ⟨front, hsteps, hfront⟩ := h.fills
  obtain ⟨tail, heq, hhas, haddition⟩ := happlied
  refine ⟨tail, heq, hhas, ?_⟩
  rw [hsteps]
  exact (hgrows.leads hfront).append (haddition fun t ht => htexts t (by simp [hsteps, ht]))

/-- The missing nodes are created, one below the other. -/
theorem ends_apply (h : st.Integral) {c : Correction} (hanchor : st.Has c.anchor.row) :
    c.apply.Ends w st
      (fun applied st' => ∃ tail, applied = { c with tail := some tail } ∧
        st.Paves c.anchor.row c.addition st' tail)
      (fun st' => st.Grows st') := by
  -- While folding, the part of the addition that is done has been paved from the anchor.
  let I (node : Row) (rest : List Triple) (st' : Store) : Prop :=
    ∃ front, c.addition = front ++ rest ∧ st.Paves c.anchor.row front st' node
  unfold apply
  refine Change.Ends.bind ((Change.Ends.foldlM I ?_ ⟨[], rfl, .nil h hanchor⟩).mono ?_ fun _ hE => hE)
  · rintro node step rest st₁ ⟨front, hfront, hpaves⟩
    refine (ends_ensureNode hpaves.grows.integral hpaves.has).mono ?_ fun _ hE => hpaves.grows.trans hE
    rintro q st₂ ⟨hsprouts, hstands⟩
    exact ⟨front ++ [step], by simp [hfront], .snoc hpaves hsprouts hstands⟩
  · rintro q st' ⟨front, hfront, hpaves⟩
    rw [List.append_nil] at hfront
    exact Change.Ends.pure ⟨q, rfl, hfront ▸ hpaves⟩

/-- Corrections were applied one after the other. -/
inductive AppliedInTurn : Store → List Correction → Store → List Correction → Prop
  | nil {st : Store} : st.Integral → AppliedInTurn st [] st []
  | cons {st st₁ st' : Store} {c : Correction} {rest applied : List Correction} {tail : Row} :
    st.Paves c.anchor.row c.addition st₁ tail → AppliedInTurn st₁ rest st' applied →
    AppliedInTurn st (c :: rest) st' ({ c with tail := some tail } :: applied)

namespace AppliedInTurn

variable {cs applied : List Correction}

theorem grows (h : AppliedInTurn st cs st' applied) : st.Grows st' := by
  induction h with
  | nil h => exact .refl h
  | cons hpaves _ ih => exact hpaves.grows.trans ih

theorem isApplied (h : AppliedInTurn st cs st' applied) : List.Forall₂ (IsApplied st') cs applied := by
  induction h with
  | nil => exact .nil
  | cons hpaves hrest ih =>
    refine .cons ?_ ih
    exact IsApplied.grows ⟨_, rfl, hpaves.has, hpaves.leads⟩ hrest.grows

end AppliedInTurn

/-- Corrections are applied in turn. Without a failure, all of them are. -/
theorem leads_applyInTurn {cs : List Correction} :
    ∀ {st : Store}, st.Integral → (∀ c ∈ cs, st.Has c.anchor.row) →
      Session.Leads (applyInTurn cs) w st fun r st' => st.Grows st' ∧
        (r.2 = none → AppliedInTurn st cs st' r.1) := by
  induction cs with
  | nil =>
    intro st h _
    exact Session.Leads.pure ⟨.refl h, fun _ => .nil h⟩
  | cons c rest ih =>
    intro st h hanchors
    rw [applyInTurn]
    refine Session.Leads.bind (Session.Leads.mono (ends_apply h (hanchors c List.mem_cons_self)) ?_)
    -- A failure ends the turn, and what was added before it stays.
    rintro (e | applied) st₁ hr
    · exact Session.Leads.pure ⟨hr, fun hnone => by cases hnone⟩
    · obtain ⟨tail, rfl, hpaves⟩ := hr
      refine Session.Leads.bind ((ih hpaves.grows.integral fun c' hc' =>
        hpaves.grows.has (hanchors c' (List.mem_cons_of_mem _ hc'))).mono ?_)
      rintro ⟨others, failure⟩ st₂ ⟨hgrows, hrest⟩
      exact Session.Leads.pure ⟨hpaves.grows.trans hgrows, fun hnone => .cons hpaves (hrest hnone)⟩

end Correction

end SoarProject
