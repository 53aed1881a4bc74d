import SoarProject.Proofs.Datamap.Correction
import SoarProject.Proofs.Row.Climbing
import SoarProject.Proofs.Row.JoinQueries

/-!
# What the links of corrections add

Once all corrections were applied, the last node of each is joined to the nodes of the paths that end in the
same variable. These are looked up from the root of the problem space that the way up from the anchor leads
to. Links add undirected joins only, so that no link changes what another one finds.

* `Store.Links`, `Store.LinksBy`: undirected joins were added, and which ones.
* `Correction.LinksTo`: the rows that a correction joins to its last node.
* `Correction.IsLinked`: the last node of a correction is joined to all nodes of its links.
* `Correction.ends_applyAll`: all corrections of a list are applied and linked.
-/

namespace SoarProject

open Registry

variable {w : Bool} {st st' st'' : Store} {r p c q root : Row} {t : Table} {name : String}
  {step : Triple} {path : List Triple}

namespace Store

/-! ### More undirected joins -/

namespace SameNodes

variable (h : st.SameNodes st')

include h

theorem has_iff : st'.Has r ↔ st.Has r := by simp only [Has, h.rows_eq]

theorem named_iff : st'.Named r name ↔ st.Named r name := by simp only [Named, h.rows_eq]

theorem stands_iff : st'.Stands p step c ↔ st.Stands p step c := by
  simp only [Stands, IsCandidate, Holds, h.isAbove_iff, h.isParent_iff, h.named_iff]

theorem leads (hpath : st.Leads p path q) : st'.Leads p path q := by
  induction hpath with
  | nil => exact .nil
  | cons hstands _ ih => exact .cons (h.stands_iff.mpr hstands) ih

end SameNodes

/-- Undirected joins were added to a store. -/
structure Links (st st' : Store) : Prop where
  grows : st.Grows st'
  same : st.SameNodes st'

namespace Links

theorem refl (h : st.Integral) : st.Links st := ⟨.refl h, .refl st⟩

theorem trans (h : st.Links st') (h' : st'.Links st'') : st.Links st'' :=
  ⟨h.grows.trans h'.grows, h.same.trans h'.same⟩

end Links

/-- Undirected joins were added to a store: those of the pairs of rows for which `P` holds. -/
structure LinksBy (st st' : Store) (P : Row → Row → Prop) : Prop extends Links st st' where
  isJoined_iff : ∀ x y, st'.IsJoined project x y ↔ st.IsJoined project x y ∨ P x y ∨ P y x

namespace LinksBy

variable {P P' : Row → Row → Prop}

theorem refl (h : st.Integral) (hnone : ∀ x y, ¬ P x y) : st.LinksBy st P where
  toLinks := .refl h
  isJoined_iff x y := by simp [hnone]

theorem trans (h : st.LinksBy st' P) (h' : st'.LinksBy st'' P') :
    st.LinksBy st'' fun x y => P x y ∨ P' x y where
  toLinks := h.toLinks.trans h'.toLinks
  isJoined_iff x y := by
    rw [h'.isJoined_iff, h.isJoined_iff]
    tauto

theorem congr (h : st.LinksBy st' P) (hiff : ∀ x y, P x y ↔ P' x y) : st.LinksBy st' P' where
  toLinks := h.toLinks
  isJoined_iff x y := by rw [h.isJoined_iff, hiff, hiff]

end LinksBy

/-- The pair of two rows joins them, and nothing else. -/
theorem Joins.isJoined_iff {order : Table × Table} {a b x y : Row}
    (h : st.Joins st' (.join order.1 order.2) (Row.joinPair order a b))
    (horder : project.orderJoined? a.table b.table = some order) (hjoined : st'.IsJoined project a b) :
    st'.IsJoined project x y ↔ st.IsJoined project x y ∨ (x = a ∧ y = b) ∨ (y = a ∧ x = b) := by
  -- A pair of ids that is new stands for the two rows, in the order of their tables.
  have hnew : ∀ x y : Row, project.Declares (.join x.table y.table) →
      (x.id, y.id) ∈ st'.pairsOf (.join x.table y.table) →
      (x.id, y.id) ∈ st.pairsOf (.join x.table y.table) ∨ (x = a ∧ y = b) ∨ (y = a ∧ x = b) := by
    intro x y hn hpair
    have hjoin : (RelationName.join x.table y.table).IsJoin := hn
    refine (h.new _ hjoin _ hpair).imp_right fun heq => ?_
    rcases Row.joinPair_eq horder with ⟨rfl, hids⟩ | ⟨rfl, hids, -⟩
    · rw [hids] at heq
      exact .inl (join_pair_eq_iff.mp heq)
    · rw [hids] at heq
      exact .inr (join_pair_eq_iff.mp heq).symm
  constructor
  · rintro (⟨hn, hpair⟩ | ⟨hn, hpair⟩)
    · exact (hnew x y hn hpair).imp_left fun hold => .inl ⟨hn, hold⟩
    · exact (hnew y x hn hpair).imp (fun hold => .inr ⟨hn, hold⟩) Or.symm
  · rintro (hold | ⟨rfl, rfl⟩ | ⟨rfl, rfl⟩)
    · exact hold.imp (fun hpair => ⟨hpair.1, h.old _ hpair.1 _ hpair.2⟩)
        fun hpair => ⟨hpair.1, h.old _ hpair.1 _ hpair.2⟩
    · exact hjoined
    · exact isJoined_comm.mp hjoined

/-- The ids of the records still fit. -/
theorem SameNodes.fits_iff (h : st.SameNodes st') : st'.Fits ↔ st.Fits := by
  simp only [Fits, h.rows_eq]

/-- The joins of a project are there and hold pairs of ids. -/
theorem Integral.carries (h : st.Integral) : st.Carries project where
  find?_join n hn := h.shaped.find?_join n (by cases n <;> exact hn)
  ids n hn pair hpair := h.isIds (by cases n <;> exact hn) hpair
  nodup n hn := h.pairs_nodup n (by cases n <;> exact hn)

/-- Joined rows exist. -/
theorem Sound.has_of_isJoined (h : st.Sound) (hjoined : st.IsJoined project p c) :
    st.Has p ∧ st.Has c := by
  rcases hjoined with ⟨hn, hpair⟩ | ⟨hn, hpair⟩
  · exact h.pairs_exist (.join p.table c.table) hn _ hpair
  · exact (h.pairs_exist (.join c.table p.table) hn _ hpair).symm

/-- A row is joined to another one, unless it is the same or their tables are not joined. -/
def IsLink (st : Store) (q c : Row) : Prop :=
  c ≠ q → project.areJoined c.table q.table = true → st.IsJoined project q c

/-- A row is joined to all nodes that a path leads to from a root. -/
def IsLinkedAlong (st : Store) (root q : Row) (path : List Triple) : Prop :=
  ∀ c, st.Leads root path c → st.IsLink q c

end Store

/-- A join of two rows that the store records is found. -/
theorem Row.finds_joined_of_isJoined (h : st.Integral) (hfits : st.Fits) (hp : st.Has p) (hq : st.Has q)
    (hjoined : st.IsJoined project p q) : (p.joined q).Finds st True (· = true) := by
  intro w s hs
  obtain ⟨found, hrun, hfound⟩ := Row.tells_joined coherent_project
    ⟨hs.registry_eq, hs.isWritable_eq, hs.store_eq⟩ h.carries hfits hp hq
  rw [hrun]
  exact hfound.mpr hjoined

namespace Correction

/-! ### One correction -/

/-- The last node of a correction is joined to another one, unless it is the same or their tables are not
joined. -/
theorem ends_joinTail (h : st.Integral) (hp : st.Has p) (hq : st.Has q) :
    (joinTail p q).Ends w st
      (fun _ st' => st.LinksBy st' fun x y =>
        x = q ∧ y = p ∧ q ≠ p ∧ project.areJoined q.table p.table = true)
      (fun st' => st.Grows st' ∧ ¬ (w = true ∧ st.Fits)) := by
  unfold joinTail
  split
  · next heq => exact Change.Ends.pure (.refl h fun _ _ hjoin => hjoin.2.2.1 heq)
  next hne =>
  refine Change.Ends.registry ?_
  split
  · next hnot => exact Change.Ends.pure (.refl h fun _ _ hjoin => by simp [hjoin.2.2.2] at hnot)
  next hdeclared =>
  have hdeclared : project.areJoined q.table p.table = true := by simpa using hdeclared
  obtain ⟨id, hid⟩ := hp.exists_id
  obtain ⟨key, hkey⟩ := hq.exists_id
  have hjoin := Row.ends_join (w := w) h (hkey ▸ hq) (hid ▸ hp)
  rw [← hid, ← hkey] at hjoin
  refine hjoin.mono ?_ ?_
  · -- The pair is recorded now, and nothing else changed.
    rintro - st' ⟨order, horder, hjoins, hfound⟩
    have hjoined := (Row.exists_isJoinPair_iff coherent_project hjoins.integral.carries horder
      (hjoins.has_iff.mpr hq) (hjoins.has_iff.mpr hp)).mp hfound
    refine ⟨⟨hjoins.grows, hjoins.sameNodes⟩, fun x y => ?_⟩
    rw [hjoins.isJoined_iff horder hjoined]
    simp only [hne, hdeclared, ne_eq, not_false_eq_true, and_true]
  · rintro _ ⟨rfl, hnot⟩
    exact ⟨.refl h, fun hsure => hnot ⟨hsure.1, hsure.2, hdeclared⟩⟩

/-- The root of a datamap is the first of its children, which exists. -/
theorem finds_datamapRoot? (h : st.Sound) :
    r.datamapRoot?.Finds st r.Fits
      (fun found => found = (st.childrenIn r .datamapIdentifiers).head? ∧
        ∀ root, found = some root → st.Has root) := by
  unfold Row.datamapRoot?
  refine (Row.finds_childrenOfType h.shaped).bind ?_
  rintro _ rfl
  exact Query.Finds.pure ⟨rfl, fun root hroot => Store.has_of_mem_childrenIn (List.mem_of_mem_head? hroot)⟩

/-- Changes of which each adds joins add all of them. -/
theorem ends_forM_linksBy {α : Type} {f : α → Change Unit} {P : α → Row → Row → Prop} {xs : List α}
    {st₁ : Store} (hf : ∀ x ∈ xs, ∀ st', st.Links st' → (f x).Ends w st'
      (fun _ st'' => st'.LinksBy st'' (P x)) (fun st'' => st'.Grows st'' ∧ ¬ (w = true ∧ st'.Fits)))
    (h : st.Links st₁) :
    (xs.forM f).Ends w st₁ (fun _ st' => st₁.LinksBy st' fun a b => ∃ x ∈ xs, P x a b)
      (fun st' => st₁.Grows st' ∧ ¬ (w = true ∧ st₁.Fits)) := by
  induction xs generalizing st₁ with
  | nil => exact Change.Ends.pure (.refl h.grows.integral fun _ _ hnone => by simp at hnone)
  | cons x rest ih =>
    change (f x >>= fun _ => rest.forM f).Ends w st₁ _ _
    refine Change.Ends.bind ((hf x List.mem_cons_self st₁ h).mono ?_ fun _ hE => hE)
    rintro - st₂ hfirst
    -- The first action only adds joins, so the others still meet a store that grew by joins.
    refine (ih (fun y hy => hf y (List.mem_cons_of_mem x hy)) (h.trans hfirst.toLinks)).mono ?_ ?_
    · rintro - st' hrest
      exact (hfirst.trans hrest).congr fun a b => by simp
    · rintro st' ⟨hgrows, hnot⟩
      exact ⟨hfirst.grows.trans hgrows, fun hsure => hnot ⟨hsure.1, hfirst.same.fits_iff.mpr hsure.2⟩⟩

/-- A path links a row to the last node of a correction: it leads to the row, which is another one, and their
tables are joined. -/
def LinksAlong (st : Store) (root : Row) (path : List Triple) (x y : Row) : Prop :=
  st.Leads root path x ∧ x ≠ y ∧ project.areJoined x.table y.table = true

/-- Undirected joins do not matter for what a path links. -/
theorem linksAlong_iff {x y : Row} (h : st.SameNodes st') :
    LinksAlong st' root path x y ↔ LinksAlong st root path x y := by
  have hleads : st'.Leads root path x ↔ st.Leads root path x := ⟨h.symm.leads, h.leads⟩
  rw [LinksAlong, LinksAlong, hleads]

/-- The last node of a correction is joined to all nodes that a path leads to. -/
theorem ends_joinResolved (h : st.Integral) (hroot : st.Has root) (hq : st.Has q) :
    ((liftM (root.resolvePath path) : Change (List Row)) >>= (·.forM (joinTail q))).Ends w st
      (fun _ st' => st.LinksBy st' fun x y => y = q ∧ LinksAlong st root path x y)
      (fun st' => st.Grows st' ∧ ¬ (w = true ∧ st.Fits)) := by
  refine Change.Ends.query (Row.finds_resolvePath h.toSound hroot) (fun nodes hnodes => ?_)
    fun hnot => ⟨.refl h, fun hsure => hnot hsure.2⟩
  -- One resolved node is joined to the tail, if it is another one and the pair is declared.
  let P (c x y : Row) : Prop := x = c ∧ y = q ∧ c ≠ q ∧ project.areJoined c.table q.table = true
  refine (ends_forM_linksBy (P := P) (fun c hc st' hlinks => ?_) (.refl h)).mono ?_ fun _ hE => hE
  · exact ends_joinTail hlinks.grows.integral (hlinks.grows.has hq)
      (hlinks.grows.has (h.has_of_leads hroot ((hnodes c).mp hc)))
  · rintro - st' hlinks
    refine hlinks.congr fun x y => ?_
    constructor
    · rintro ⟨c, hc, rfl, rfl, hne, hdeclared⟩
      exact ⟨rfl, (hnodes x).mp hc, hne, hdeclared⟩
    · rintro ⟨rfl, hpath, hne, hdeclared⟩
      exact ⟨x, (hnodes x).mpr hpath, rfl, rfl, hne, hdeclared⟩

/-- The last node of a correction is joined to all nodes of its links, if the way up from the anchor leads
to a problem space with a datamap. -/
def IsLinked (st : Store) (correction : Correction) : Prop :=
  ∀ tail space root, correction.tail = some tail →
    st.Climbs .problemSpaces [] correction.anchor.row space →
    (st.childrenIn space .datamapIdentifiers).head? = some root →
    ∀ path ∈ correction.links.flatMap (·.paths), st.IsLinkedAlong root tail path

/-- A correction links a row to its last node, along a path from the root of the datamap that the way up from
the anchor leads to. -/
def LinksTo (st : Store) (correction : Correction) (x y : Row) : Prop :=
  correction.tail = some y ∧ ∃ space root, st.Climbs .problemSpaces [] correction.anchor.row space ∧
    (st.childrenIn space .datamapIdentifiers).head? = some root ∧
      ∃ path ∈ correction.links.flatMap (·.paths), LinksAlong st root path x y

/-- Undirected joins do not matter for what a correction links. -/
theorem linksTo_iff {correction : Correction} {x y : Row} (h : st.SameNodes st') :
    correction.LinksTo st' x y ↔ correction.LinksTo st x y := by
  have hclimbs : ∀ space, st'.Climbs .problemSpaces [] correction.anchor.row space ↔
      st.Climbs .problemSpaces [] correction.anchor.row space := fun _ => ⟨h.symm.climbs, h.climbs⟩
  simp only [LinksTo, linksAlong_iff h, hclimbs, h.childrenIn_eq]

/-- A correction whose joins were added is linked. -/
theorem isLinked_of_linksBy {correction : Correction} {P : Row → Row → Prop} (h : st.LinksBy st' P)
    (hlinks : ∀ x y, correction.LinksTo st x y → P x y) : correction.IsLinked st' := by
  intro tail space root htail hclimbs hroot path hpath c hleads hne hdeclared
  rw [h.same.childrenIn_eq] at hroot
  rw [h.isJoined_iff]
  exact .inr (.inr (hlinks c tail ⟨htail, space, root, h.same.symm.climbs hclimbs, hroot, path, hpath,
    h.same.symm.leads hleads, hne, hdeclared⟩))

/-- The links of a correction are applied. -/
theorem ends_applyLinks (h : st.Integral) {correction : Correction}
    (hanchor : st.Has correction.anchor.row)
    (htail : ∀ q, correction.tail = some q → st.Has q) :
    correction.applyLinks.Ends w st (fun _ st' => st.LinksBy st' (correction.LinksTo st))
      (fun st' => st.Grows st' ∧ ¬ (w = true ∧ st.Fits)) := by
  have hunsure : ¬ st.Fits → st.Grows st ∧ ¬ (w = true ∧ st.Fits) :=
    fun hnot => ⟨.refl h, fun hsure => hnot hsure.2⟩
  -- Where nothing is done there is nothing to link.
  have hskip : (∀ x y, ¬ correction.LinksTo st x y) →
      (pure () : Change Unit).Ends w st (fun _ st' => st.LinksBy st' (correction.LinksTo st))
        (fun st' => st.Grows st' ∧ ¬ (w = true ∧ st.Fits)) :=
    fun hnone => Change.Ends.pure (.refl h hnone)
  unfold applyLinks
  split
  · next hnone =>
    refine hskip fun x y hlinks => ?_
    cases hnone.symm.trans hlinks.1
  next tail hsome =>
  split
  · next hempty =>
    refine hskip ?_
    rintro x y ⟨-, -, -, -, -, path, hpath, -⟩
    simp [List.isEmpty_iff.mp hempty] at hpath
  refine Change.Ends.query (Row.finds_ancestorRow h hanchor) (fun found hspace => ?_) hunsure
  split
  · refine hskip ?_
    rintro x y ⟨-, space, -, hclimbs, -⟩
    cases (hspace space).mpr hclimbs
  next space =>
  have hunique : ∀ space', st.Climbs .problemSpaces [] correction.anchor.row space' → space' = space :=
    fun space' hclimbs => Option.some.inj ((hspace space').mpr hclimbs).symm
  -- The root is looked for below a row that exists, and so its id fits where all ids do.
  have hhas := h.has_of_climbs hanchor ((hspace space).mp rfl)
  refine Change.Ends.query (finds_datamapRoot? h.toSound) (fun found hfound => ?_)
    fun hnot => hunsure fun hfits => hnot (hfits.row hhas)
  split
  · refine hskip ?_
    rintro x y ⟨-, space', root, hclimbs, hroot, -⟩
    rw [hunique space' hclimbs, ← hfound.1] at hroot
    cases hroot
  next root =>
  let P (path : List Triple) (x y : Row) : Prop := y = tail ∧ LinksAlong st root path x y
  refine (ends_forM_linksBy (P := P) (fun path _ st' hlinks => ?_) (.refl h)).mono ?_ fun _ hE => hE
  · refine (ends_joinResolved hlinks.grows.integral (hlinks.grows.has (hfound.2 root rfl))
      (hlinks.grows.has (htail tail hsome))).mono (fun _ st'' hlinks' => hlinks'.congr fun x y => ?_)
      fun _ hE => hE
    rw [linksAlong_iff hlinks.same]
  · rintro - st' hlinks
    refine hlinks.congr fun x y => ?_
    constructor
    · rintro ⟨path, hpath, rfl, halong⟩
      exact ⟨hsome, space, root, (hspace space).mp rfl, hfound.1.symm, path, hpath, halong⟩
    · rintro ⟨htail', space', root', hclimbs, hroot, path, hpath, halong⟩
      obtain rfl := hunique space' hclimbs
      obtain rfl := Option.some.inj (hroot.symm.trans hfound.1.symm)
      exact ⟨path, hpath, Option.some.inj (htail'.symm.trans hsome), halong⟩

/-! ### All corrections -/

/-- If corrections that are applied in turn end so that `A` holds, and fail so that `E` holds, then they are
linked from there on. -/
theorem ends_applyAll_of {cs : List Correction} {A : List Correction → Store → Prop} {E : Store → Prop}
    (hturn : Session.Leads (applyInTurn cs) w st fun r st₁ =>
      (r.2 = none → A r.1 st₁) ∧ (r.2 ≠ none → E st₁))
    (hhas : ∀ applied st₁, A applied st₁ → st₁.Integral ∧
      ∀ c ∈ applied, st₁.Has c.anchor.row ∧ ∀ q, c.tail = some q → st₁.Has q)
    (hfails : ∀ applied st₁ st', A applied st₁ → st₁.Grows st' → ¬ (w = true ∧ st₁.Fits) → E st') :
    (applyAll cs).Ends w st
      (fun applied st' => ∃ st₁, A applied st₁ ∧
        st₁.LinksBy st' fun x y => ∃ c ∈ applied, c.LinksTo st₁ x y) E := by
  let Q (applied : List Correction) (st' : Store) : Prop :=
    ∃ st₁, A applied st₁ ∧ st₁.LinksBy st' fun x y => ∃ c ∈ applied, c.LinksTo st₁ x y
  have hattempt : Session.Leads (attemptAll cs) w st fun r st' =>
      (r.2 = none → Q r.1 st') ∧ (r.2 ≠ none → E st') := by
    unfold attemptAll
    refine Session.Leads.bind (hturn.mono ?_)
    rintro ⟨applied, failure⟩ st₁ ⟨hdone, hfailed⟩
    dsimp only at hdone hfailed ⊢
    split
    · next heq =>
      obtain ⟨-, rfl⟩ := Prod.mk.inj heq
      exact Session.Leads.pure ⟨fun hnone => absurd hnone (Option.some_ne_none _), hfailed⟩
    · next heq =>
      obtain ⟨rfl, rfl⟩ := Prod.mk.inj heq
      have happlied := hdone rfl
      obtain ⟨hintegral, hrows⟩ := hhas applied st₁ happlied
      have hlinked : (applied.forM applyLinks).Ends w st₁
          (fun _ st' => st₁.LinksBy st' fun x y => ∃ c ∈ applied, c.LinksTo st₁ x y)
          (fun st' => st₁.Grows st' ∧ ¬ (w = true ∧ st₁.Fits)) := by
        -- Earlier links do not change what a later one finds.
        refine ends_forM_linksBy (fun c hc st' hlinks => ?_) (.refl hintegral)
        refine (ends_applyLinks hlinks.grows.integral (hlinks.grows.has (hrows c hc).1) fun q hq =>
          hlinks.grows.has ((hrows c hc).2 q hq)).mono ?_ fun _ hE => hE
        exact fun _ _ hadds => hadds.congr fun x y => linksTo_iff hlinks.same
      refine Session.Leads.bind (Session.Leads.mono hlinked ?_)
      rintro (e | _) st' hr
      · exact Session.Leads.pure
          ⟨fun hnone => absurd hnone (Option.some_ne_none e), fun _ => hfails applied st₁ st' happlied hr.1 hr.2⟩
      · exact Session.Leads.pure ⟨fun _ => ⟨st₁, happlied, hr⟩, fun hsome => absurd rfl hsome⟩
  unfold applyAll
  refine Change.Ends.bind ((Change.Ends.step
    (Q := fun r st' => (r.2 = none → Q r.1 st') ∧ (r.2 ≠ none → E st')) hattempt).mono ?_ fun _ hE => hE)
  rintro ⟨applied, failure⟩ st' ⟨hdone, hfailed⟩
  cases failure with
  | some e => exact Change.Ends.throw (hfailed (Option.some_ne_none e))
  | none => exact Change.Ends.pure (hdone rfl)

/-- All corrections are applied in turn, and then their links. -/
theorem ends_applyAll {cs : List Correction} (h : st.Integral)
    (hanchors : ∀ c ∈ cs, st.Has c.anchor.row) :
    (applyAll cs).Ends w st
      (fun applied st' => ∃ st₁, AppliedInTurn st cs st₁ applied ∧ st₁.Links st' ∧
        ∀ c ∈ applied, c.IsLinked st')
      (fun st' => st.Grows st') := by
  refine (ends_applyAll_of (A := fun applied st₁ => AppliedInTurn st cs st₁ applied)
    ((leads_applyInTurn h hanchors).mono fun r st₁ hr => ⟨hr.2, fun _ => hr.1⟩) ?_ ?_).mono ?_
    fun _ hE => hE
  · -- Only applied corrections come to the links, and these have a tail.
    intro applied st₁ happlied
    refine ⟨happlied.grows.integral, fun c' hc' => ?_⟩
    obtain ⟨c, hc, tail, rfl, hhas, -⟩ := (mem_of_forall₂ happlied.isApplied).2 c' hc'
    exact ⟨happlied.grows.has (hanchors c hc), fun q hq => Option.some.inj hq ▸ hhas⟩
  · exact fun applied st₁ st' happlied hgrows _ => happlied.grows.trans hgrows
  · rintro applied st' ⟨st₁, happlied, hlinks⟩
    exact ⟨st₁, happlied, hlinks.toLinks, fun c hc =>
      isLinked_of_linksBy hlinks fun x y hxy => ⟨c, hc, hxy⟩⟩

end Correction

end SoarProject
