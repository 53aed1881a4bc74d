import SoarProject.Proofs.Datamap.Ascent
import SoarProject.Proofs.Project.Convergence
import SoarProject.Proofs.Session.Looking

/-!
# Problem spaces above nodes

The datamaps of a project may be drawn by hand: problem spaces are created with their roots, nodes are created
and joined below others, joins end and rows are deleted, in any order. Nodes may then be shared, below each other
in a circle, or below nothing. A problem space never gets a second root, so that the walk up from a node comes to
a problem space through the root of its datamap.

* `Store.Rooted`: no problem space has two roots; `Operation.keeps_rooted` says what one operation keeps.
* `Drawn.finds_problemSpace`: what the way up from a node finds, after any such history.
* `not_finds_problemSpace`: it does not find a problem space above a second parent, and the path attributes do
  not begin at a root that is joined below a node.
-/

namespace SoarProject

open Registry

variable {w own : Bool} {s : Session} {st st' : Store} {r p c q root : Row} {t : Table} {name : Value}
  {fuel : Nat} {values : List (String × Value)}

/-! ### Roots -/

namespace Store

/-- A store has integrity, and no row has two roots of datamaps below it. -/
structure Rooted (st : Store) : Prop extends Integral st where
  root_unique : ∀ {p c d}, st.IsParent p c → st.IsParent p d → c.table = .datamapIdentifiers →
    d.table = .datamapIdentifiers → c = d

/-- No row has a root below it, to which another one could be added. -/
def Rootless (st : Store) (p : Row) : Prop := ∀ c, st.IsParent p c → c.table ≠ .datamapIdentifiers

theorem rooted_blank : Store.blank.Rooted where
  toIntegral := integral_blank
  root_unique {p c d} hc := by
    obtain ⟨record, hrecord, -⟩ := integral_blank.has_of_isParent hc
    simp at hrecord

namespace Rooted

/-- Where no row gets a parent, no second root is added. -/
theorem of_isParent (h : st.Rooted) (hintegral : st'.Integral)
    (hparents : ∀ p c, st'.IsParent p c → st.IsParent p c) : st'.Rooted where
  toIntegral := hintegral
  root_unique hc hd := h.root_unique (hparents _ _ hc) (hparents _ _ hd)

/-- A child that is no second root leaves a problem space with one. -/
theorem of_child (h : st.Rooted) (hintegral : st'.Integral)
    (hparents : ∀ q d, st'.IsParent q d → st.IsParent q d ∨ q = p ∧ d = c)
    (hnone : c.table = .datamapIdentifiers → st.Rootless p) : st'.Rooted where
  toIntegral := hintegral
  root_unique {q a b} ha hb htable htable' := by
    rcases hparents q a ha with hold | ⟨rfl, rfl⟩ <;> rcases hparents q b hb with hold' | ⟨hq, rfl⟩
    · exact h.root_unique hold hold' htable htable'
    · exact absurd htable (hnone htable' a (hq ▸ hold))
    · exact absurd htable' (hnone htable b hold')
    · rfl

end Rooted

end Store

open Store (Rooted Rootless)

/-- The only automatic children are the roots of problem spaces. -/
theorem automaticChildrenOf_cases (t : Table) : project.automaticChildrenOf t = [] ∨
    t = .problemSpaces ∧ project.automaticChildrenOf t = [.datamapIdentifiers] := by
  have hall : ∀ t ∈ Table.all, project.automaticChildrenOf t = [] ∨
      t = .problemSpaces ∧ project.automaticChildrenOf t = [.datamapIdentifiers] := by decide
  exact hall t (Table.mem_all t)

namespace Row

/-- A child that is no second root is created with its automatic children. -/
theorem keeps_rooted_createWithin (h : st.Rooted) (hp : st.Has p)
    (hnone : t = .datamapIdentifiers → st.Rootless p) :
    (createWithin fuel p t name).Ends w st (fun _ => Rooted) Rooted := by
  induction fuel generalizing st p t name with
  | zero => exact Change.Ends.throw h
  | succ fuel ih =>
    rw [createWithin]
    refine ends_childTables ?_
    split
    · exact Change.Ends.bind (Change.Ends.throw h)
    · refine Change.Ends.bind ((ends_insertChild h.toIntegral hp isAttribute_of_mem_name).mono ?_ ?_)
      · rintro id st₁ ⟨hfresh, -, hparents, -⟩
        have hrooted : st₁.Rooted := h.of_child hfresh.grows.integral hparents hnone
        -- A new row has no child, in particular no root.
        have hchildless : st₁.Rootless (.ofId t id) := by
          intro d hd
          rcases hparents _ d hd with hold | ⟨rfl, -⟩
          · exact absurd (h.has_of_isParent hold) hfresh.new
          · exact absurd hp hfresh.new
        refine Change.Ends.registry (Change.Ends.bind ?_)
        -- Only the problem space of an agent and the root of a problem space come by themselves.
        rcases automaticChildrenOf_cases t with hlist | ⟨-, hlist⟩
        · rw [hlist]
          exact Change.Ends.pure (Change.Ends.pure hrooted)
        · rw [hlist]
          refine Change.Ends.bind (Change.Ends.bind ((ih hrooted hfresh.has fun _ => hchildless).mono ?_
            fun _ hE => hE))
          exact fun _ _ hroot => Change.Ends.pure (Change.Ends.pure (Change.Ends.pure hroot))
      · rintro _ ⟨rfl, -⟩
        exact h

/-- A row that is created below a node by a join is no root. -/
theorem keeps_rooted_createJoinedChild (h : st.Rooted) (hp : st.Has p) :
    (p.createJoinedChild t name).Ends w st (fun _ => Rooted) Rooted := by
  unfold createJoinedChild
  refine Change.Ends.registry ?_
  cases hdeclared : project.areDirectedJoined p.table t with
  | false => exact Change.Ends.bind (Change.Ends.throw h)
  | true =>
    have hpair : (p.table, t) ∈ project.directedPairs := mem_directedPairs_iff.mpr (of_decide_eq_true hdeclared)
    -- What is made below a directed join has no automatic children.
    have hall : ∀ pair ∈ project.directedPairs, project.automaticChildrenOf pair.2 = [] := by decide
    refine Change.Ends.bind ((Change.Ends.insertLoose h.toIntegral isAttribute_of_mem_name).mono ?_ ?_)
    · rintro id st₁ ⟨hfresh, hparents, -⟩
      have hrooted : st₁.Rooted := h.of_isParent hfresh.grows.integral hparents
      obtain ⟨key, hkey⟩ := hp.exists_id
      have hp₁ := hfresh.grows.has hp
      rw [hkey] at hp₁ ⊢
      refine Change.Ends.bind ((ends_directedJoin hrooted.toIntegral hp₁ hfresh.has).mono ?_ ?_)
      · rintro - st₂ ⟨hjoins, -⟩
        have hrooted₂ : st₂.Rooted :=
          hrooted.of_isParent hjoins.integral fun _ _ hqc => hjoins.isParent_iff.mp hqc
        unfold createAutomaticChildren
        refine Change.Ends.bind (Change.Ends.registry ?_)
        have hlist : project.automaticChildrenOf (Row.ofId t id).table = [] := hall _ hpair
        rw [hlist]
        exact Change.Ends.pure (Change.Ends.pure hrooted₂)
      · rintro _ ⟨rfl, -⟩
        exact hrooted
    · rintro _ rfl
      exact h

end Row

/-! ### Histories -/

namespace Operation

/-- The operations that draw datamaps by hand. No root is created but with its problem space. -/
def Draws : Operation → Prop
  | createAgent _ | createJoinedChild _ _ _ | directedJoin _ _ | directedUnjoin _ _ | deleteChildren _ _ => True
  | createChild _ t _ => t ≠ .datamapIdentifiers
  | _ => False

/-- An operation that draws datamaps adds no second root, also if it fails. -/
theorem keeps_rooted (op : Operation) (h : st.Rooted) (hdraws : op.Draws) (hrows : ∀ r ∈ op.rows, st.Has r) :
    op.perform.Ends w st (fun _ => Rooted) Rooted := by
  -- Whatever an operation returns is dropped.
  have hdiscard : ∀ {α : Type} {c : Change α}, c.Ends w st (fun _ => Rooted) Rooted →
      (c >>= fun _ => pure ()).Ends w st (fun _ => Rooted) Rooted := fun hc =>
    Change.Ends.bind (hc.mono (fun _ _ hrooted => Change.Ends.pure hrooted) fun _ hE => hE)
  cases op with
  | createAgent name =>
    refine hdiscard ((ends_createAgent h.toIntegral).mono ?_ ?_)
    · rintro _ _ ⟨hfresh, hparents⟩
      exact h.of_isParent hfresh.grows.integral hparents
    · rintro _ rfl
      exact h
  | createChild parent t name =>
    have hcreate : (Row.createWithin Row.automaticDepth parent t name).Ends w st (fun _ => Rooted) Rooted :=
      Row.keeps_rooted_createWithin h (hrows parent List.mem_cons_self) fun heq => absurd heq hdraws
    refine hdiscard ?_
    unfold Row.createChild
    exact Change.Ends.bind (hcreate.mono (fun _ _ hrooted => Change.Ends.pure hrooted) fun _ hE => hE)
  | createJoinedChild parent t name =>
    exact hdiscard (Row.keeps_rooted_createJoinedChild h (hrows parent List.mem_cons_self))
  | directedJoin parent child =>
    have hp := hrows parent (by simp [rows])
    have hc := hrows child (by simp [rows])
    obtain ⟨id, hid⟩ := hp.exists_id
    obtain ⟨key, hkey⟩ := hc.exists_id
    rw [hid] at hp ⊢
    rw [hkey] at hc ⊢
    refine (Row.ends_directedJoin h.toIntegral hp hc).mono ?_ ?_
    · rintro _ _ ⟨hjoins, -⟩
      exact h.of_isParent hjoins.integral fun _ _ hqc => hjoins.isParent_iff.mp hqc
    · rintro _ ⟨rfl, -⟩
      exact h
  | directedUnjoin parent child =>
    obtain ⟨id, hid⟩ := (hrows parent (by simp [rows])).exists_id
    obtain ⟨key, hkey⟩ := (hrows child (by simp [rows])).exists_id
    rw [hid, hkey]
    refine (Row.ends_directedUnjoin h.toSound).mono ?_ ?_
    · rintro _ _ ⟨hwithin, hs, -⟩
      exact h.of_isParent (h.of_within hwithin hs) fun _ _ => hwithin.isParent
    · rintro _ ⟨rfl, -⟩
      exact h
  | deleteChildren r own =>
    obtain ⟨id, hid⟩ := (hrows r List.mem_cons_self).exists_id
    rw [hid]
    have hspares : ∀ {st'}, st.Spares st' (.ofId r.table id) own → st'.Rooted := fun hE =>
      h.of_isParent (h.of_within hE.within hE.sound) fun _ _ => hE.within.isParent
    exact (Row.ends_deleteChildren h.toSound).mono (fun _ _ hQ => hspares hQ.1.toSpares) fun _ hE => hspares hE.1
  | _ => exact hdraws.elim

end Operation

/-- A session in which datamaps were drawn by hand, from a project with nothing in it. -/
inductive Drawn (w : Bool) : Session → Prop
  | start {s : Session} : s.Opens w .blank → Drawn w s
  | step {s : Session} {st : Store} (op : Operation) : Drawn w s → s.Opens w st → op.Draws →
    (∀ r ∈ op.rows, st.Has r) → Drawn w (op.perform.run.run s).2

namespace Drawn

/-- After any such history, the open store has integrity and no problem space has two roots. -/
theorem exists_rooted (h : Drawn w s) : ∃ st, s.Opens w st ∧ st.Rooted := by
  induction h with
  | start hs => exact ⟨_, hs, Store.rooted_blank⟩
  | @step s st op _ hs hdraws hrows ih =>
    obtain ⟨st₁, hs₁, hst₁⟩ := ih
    -- The store of a session is unique, so the call starts from the rooted one.
    obtain rfl := hs₁.store_unique hs
    obtain ⟨st', hst', hr⟩ := op.keeps_rooted (w := w) hst₁ hdraws hrows s hs
    refine ⟨st', hst', ?_⟩
    cases hresult : (op.perform.run.run s).1 with
    | ok a =>
      rw [hresult] at hr
      exact hr
    | error e =>
      rw [hresult] at hr
      exact hr

/-- A history goes on with any operations that draw datamaps. -/
theorem performAll {ops : List Operation} (h : Drawn w s) {s' : Session} (hdraws : ∀ op ∈ ops, op.Draws)
    (hs' : Operation.performAll ops s = some s') : Drawn w s' := by
  induction ops generalizing s with
  | nil => exact Option.some.inj hs' ▸ h
  | cons op rest ih =>
    obtain ⟨st, hs, -⟩ := h.exists_rooted
    rw [Operation.performAll, hs.store_eq] at hs'
    dsimp only at hs'
    split at hs'
    · next hrows =>
      exact ih (.step op h hs (hdraws op List.mem_cons_self) hrows)
        (fun op' hop => hdraws op' (List.mem_cons_of_mem _ hop)) hs'
    · cases hs'

/-- After any such history, the way up from a node is found. It leads to a problem space just if the chain of
first parents does, and so to none if no chain of parents does. The problem space has one root; if the walk along
first directed parents ends there, as it does if the root is joined below no node, the path attributes of the node
lead from the root down to it. -/
theorem finds_problemSpace (h : Drawn w s) :
    ∃ st, s.Opens w st ∧ st.Integral ∧ (st.Fits → ∀ n, st.Has n → n.table.isDatamap = true →
      n.table ≠ .datamapEnumerationValues →
      ∃ found, (n.ancestorRow .problemSpaces).run s = .ok found ∧
        (∀ space, found = some space ↔ space.table = .problemSpaces ∧
          Relation.ReflTransGen (st.IsNextBefore .problemSpaces) n space) ∧
        ((∀ space, space.table = .problemSpaces → ¬ Relation.ReflTransGen st.IsOver space n) → found = none) ∧
        ∀ space, found = some space → ∃ root names v, space.datamapRoot?.run s = .ok (some root) ∧
          n.view.pathAttributes.run s = .ok (names.map .text, v) ∧
          (st.Tops [] n root → st.Descends root names n) ∧
          ((∀ p, ¬ st.IsAbove p root) → st.Tops [] n root)) := by
  obtain ⟨st, hs, hst⟩ := h.exists_rooted
  refine ⟨st, hs, hst.toIntegral, fun hfits n hn hdatamap hvalue => ?_⟩
  have hsound := hst.toSound
  obtain ⟨found, hrun, hfound⟩ := ((Row.finds_ancestorRow (t := .problemSpaces) hst.toIntegral hn).mono_sure
    fun _ : True => hfits).exists_run hs
  refine ⟨found, hrun, fun space => (hfound space).trans hst.climbs_iff, fun hnone => ?_, fun space hspace => ?_⟩
  · refine Option.eq_none_iff_forall_ne_some.mpr fun space hspace => ?_
    have hclimbs := (hfound space).mp hspace
    exact hnone space hclimbs.chain.1 (hsound.isOver_of_climbs hn hclimbs)
  · have hclimbs := (hfound space).mp hspace
    obtain ⟨root, htable, hparent, htops⟩ := hclimbs.exists_root hsound hn hdatamap hvalue
    have hhas := hsound.has_of_isParent hparent
    obtain ⟨found', hrun', hhead, -⟩ := ((Correction.finds_datamapRoot? (r := space) hsound).mono_sure
      fun _ : True => hfits.row hhas).exists_run hs
    obtain ⟨⟨_, v⟩, hrun'', top, names, rfl, htop, hdescends⟩ := ((View.finds_pathAttributes (v := n.view)
      hst.toIntegral hn (Row.knows_view n st)).mono_sure fun _ : True => hfits).exists_run hs
    refine ⟨root, names, v, ?_, hrun'', fun hends => htop.unique hends ▸ hdescends, htops⟩
    -- The root is the only child that could be the first one.
    obtain ⟨id, hid⟩ := hhas.exists_id
    have hmem : root ∈ st.childrenIn space .datamapIdentifiers := by
      rw [hid] at hparent ⊢
      exact hsound.mem_childrenIn_iff.mpr ⟨htable, hparent⟩
    obtain ⟨first, rest, hchildren⟩ := List.exists_cons_of_ne_nil (List.ne_nil_of_mem hmem)
    have hfirst : first.table = .datamapIdentifiers ∧ st.IsParent space first := by
      have hfirst : first ∈ st.childrenIn space .datamapIdentifiers := by
        rw [hchildren]
        exact List.mem_cons_self
      rw [hid] at hfirst ⊢
      exact hsound.mem_childrenIn_iff.mp hfirst
    rw [hrun', hhead, hchildren, List.head?_cons,
      hst.root_unique hfirst.2 hparent hfirst.1 htable]

/-- A datamap in which the node 4 is shared by the nodes 2 and 3, of which only 3 is below the root. -/
def shared : List Operation :=
  [.createAgent (.text "agent"),
    .createChild (.ofId .agents 1) .problemSpaces (.text "space"),
    .createJoinedChild (node 1) .datamapIdentifiers (.text "x"),
    .createJoinedChild (node 1) .datamapIdentifiers (.text "y"),
    .createJoinedChild (node 2) .datamapIdentifiers (.text "z"),
    .directedJoin (node 3) (node 4),
    .directedUnjoin (node 1) (node 2)]

/-- This datamap is drawn by hand, and so is one in which the node 2 is above the root. -/
theorem drawn_shared {ops : List Operation} (hops : ops ⊆ shared ++ [.directedJoin (node 2) (node 1)])
    (hs : Operation.performAll ops Reachable.newProject = some s) : Drawn true s := by
  refine (Drawn.start Reachable.opens_newProject).performAll (fun op hop => ?_) hs
  have hop' := hops hop
  simp only [shared, List.cons_append, List.nil_append, List.mem_cons, List.not_mem_nil, or_false] at hop'
  rcases hop' with rfl | rfl | rfl | rfl | rfl | rfl | rfl | rfl <;> first | trivial | exact nofun

/-- The way up from the node 3 leads to the problem space, and its path attributes lead down to it. -/
theorem finds_problemSpace_shared :
    ∃ s ∈ Operation.performAll shared Reachable.newProject, ∃ st, s.Opens true st ∧
      ((node 3).ancestorRow .problemSpaces).run s = .ok (some space.row) ∧
      ∃ names v, (node 3).view.pathAttributes.run s = .ok (names.map .text, v) ∧
        st.Descends (node 1) names (node 3) := by
  have hchecked : ∃ s ∈ Operation.performAll shared Reachable.newProject,
      (s.store.toOption.any fun st => st.Has (node 3) && (st.joinedParents (node 1)).isEmpty &&
        Table.all.all fun t => (st.rows t).all fun record => fitsInteger record.id) = true ∧
      (((node 3).ancestorRow .problemSpaces).run s).toOption = some (some space.row) ∧
      (space.row.datamapRoot?.run s).toOption = some (some (node 1)) := by
    decide +kernel
  obtain ⟨s, hs, hstore, hspace, hroot⟩ := hchecked
  -- What the history guarantees is compared with what the two evaluated queries found.
  obtain ⟨st, hopen, hst, hfinds⟩ := (drawn_shared (List.subset_append_left _ _) hs).finds_problemSpace
  rw [hopen.store_eq] at hstore
  simp only [Except.toOption, Option.any_some, Bool.and_eq_true, decide_eq_true_eq] at hstore
  obtain ⟨⟨hhas, hbare⟩, hfits⟩ := hstore
  obtain ⟨found, hfound, -, -, hdown⟩ :=
    hfinds (Store.fits_of_all hfits) (node 3) hhas rfl (by decide)
  obtain rfl := Except.ok.inj ((eq_ok_of_toOption hspace).symm.trans hfound)
  obtain ⟨root, names, v, hfoundRoot, hnames, hdescends, htops⟩ := hdown _ rfl
  obtain rfl := Option.some.inj (Except.ok.inj ((eq_ok_of_toOption hroot).symm.trans hfoundRoot))
  refine ⟨s, hs, st, hopen, hfound, names, v, hnames, hdescends (htops fun p hp => ?_)⟩
  have hmem : p ∈ st.joinedParents (node 1) := hst.mem_joinedParents_iff.mpr hp
  rw [List.isEmpty_iff.mp hbare] at hmem
  exact List.not_mem_nil hmem

/-- The node 4 is first joined below the node 2, which is below nothing; so no problem space is found above it,
although one is above the node 3. The root of the node 3 is joined below the node 2, and so the path attributes of
the node 3 begin above the root and do not lead from it down to the node. -/
theorem not_finds_problemSpace :
    ∃ s ∈ Operation.performAll (shared ++ [.directedJoin (node 2) (node 1)]) Reachable.newProject,
      Drawn true s ∧ ∃ st, s.Opens true st ∧ Relation.ReflTransGen st.IsOver space.row (node 4) ∧
        ((node 4).ancestorRow .problemSpaces).run s = .ok none ∧
        ((node 3).ancestorRow .problemSpaces).run s = .ok (some space.row) ∧
        space.row.datamapRoot?.run s = .ok (some (node 1)) ∧
        ∃ names v, (node 3).view.pathAttributes.run s = .ok (names.map .text, v) ∧
          ¬ st.Descends (node 1) names (node 3) := by
  have hchecked : ∃ s ∈ Operation.performAll (shared ++ [.directedJoin (node 2) (node 1)])
        Reachable.newProject,
      (s.store.toOption.any fun st => (st.childrenIn space.row .datamapIdentifiers = [node 1] &&
        st.joinedParents (node 1) = [node 2]) && (st.joinedParents (node 3) = [node 1] &&
          st.joinedParents (node 4) = [node 2, node 3]) && (st.Has space.row && st.Has (node 3)) &&
        Table.all.all fun t => (st.rows t).all fun record => fitsInteger record.id) = true ∧
      (((node 4).ancestorRow .problemSpaces).run s).toOption = some none ∧
      (((node 3).ancestorRow .problemSpaces).run s).toOption = some (some space.row) ∧
      (space.row.datamapRoot?.run s).toOption = some (some (node 1)) ∧
      ((node 3).view.pathAttributes.run s).toOption.map (·.1.map Value.shown) =
        some ["New datamap_identifier", "y"] := by
    decide +kernel
  obtain ⟨s, hs, hstore, hdead, hspace, hroot, hnames⟩ := hchecked
  have hdrawn := drawn_shared (List.Subset.refl _) hs
  obtain ⟨st, hopen, hst⟩ := hdrawn.exists_rooted
  rw [hopen.store_eq] at hstore
  simp only [Except.toOption, Option.any_some, Bool.and_eq_true, decide_eq_true_eq] at hstore
  obtain ⟨⟨⟨⟨hchildren, habove⟩, hthird, hfourth⟩, hhas, hnode⟩, hfits⟩ := hstore
  have hmem : ∀ {id key : Int}, node id ∈ st.joinedParents (node key) → st.IsAbove (node id) (node key) :=
    hst.mem_joinedParents_iff.mp
  have hparent : st.IsParent space.row (node 1) := by
    refine hst.isParent_of_mem_childrenIn hhas (t := .datamapIdentifiers) ?_
    rw [hchildren]
    exact List.mem_cons_self
  have hroot' : st.IsAbove (node 1) (node 3) := hmem (by rw [hthird]; exact List.mem_cons_self)
  have hshared : st.IsAbove (node 3) (node 4) := hmem (by rw [hfourth]; exact List.mem_of_mem_tail List.mem_cons_self)
  have hchain : Relation.ReflTransGen st.IsOver space.row (node 4) :=
    ((Relation.ReflTransGen.single (.inl hparent)).tail (.inr hroot')).tail (.inr hshared)
  obtain ⟨⟨_, v⟩, hrun, _, names, rfl, -⟩ := ((View.finds_pathAttributes (v := (node 3).view) hst.toIntegral hnode
    (Row.knows_view _ st)).mono_sure fun _ : True => Store.fits_of_all hfits).exists_run hopen
  have hshown : names = ["New datamap_identifier", "y"] := by
    rw [hrun] at hnames
    have hmap : (names.map .text).map Value.shown = names := by simp [Function.comp_def, Value.shown]
    exact hmap.symm.trans (Option.some.inj hnames)
  refine ⟨s, hs, hdrawn, st, hopen, hchain, eq_ok_of_toOption hdead, eq_ok_of_toOption hspace,
    eq_ok_of_toOption hroot, names, v, hrun, fun hdescends => ?_⟩
  have hlast : st.Descends (node 1) (["New datamap_identifier"] ++ ["y"]) (node 3) := by rwa [hshown] at hdescends
  -- Only the root is above the node 3, and only the node 2 is above the root.
  obtain ⟨c, hfirst, hover, -⟩ := Store.descends_concat_iff.mp hlast
  have hc : c ∈ st.joinedParents (node 3) := hst.mem_joinedParents_iff.mpr hover
  obtain rfl := List.mem_singleton.mp (hthird ▸ hc)
  have hfirst' : st.Descends (node 1) ([] ++ ["New datamap_identifier"]) (node 1) := hfirst
  obtain ⟨d, hnil, hover, -⟩ := Store.descends_concat_iff.mp hfirst'
  have hd : d ∈ st.joinedParents (node 1) := hst.mem_joinedParents_iff.mpr hover
  rw [Store.descends_nil_iff.mp hnil, habove] at hd
  exact absurd hd (by decide)

end Drawn

end SoarProject
