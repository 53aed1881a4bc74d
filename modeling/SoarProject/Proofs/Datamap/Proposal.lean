import Mathlib.Order.Bounds.Basic
import SoarProject.Proofs.Project.History
import SoarProject.Proofs.Session.Looking

/-!
# Proposals and paths

What is proposed for a path, told by where its beginnings lead. A proposal follows a path on its own, and
stops where no node stands for the next triple; it comes to the same nodes as the path resolved, each as
often, and fails just where that fails.

* `Correction.LacksFrom`: a path breaks off at some nodes.
* `Correction.proposeFrom_cases`: what a proposal comes to, beside what the path resolves to.
* `Correction.propose_agrees`: what is proposed for the selected paths of a network.
-/

namespace SoarProject

variable {w : Bool} {s : Session} {st : Store} {nodes found anchors : List View} {root : View}
  {step : Triple} {path rest : List Triple}

/-! ### Paths -/

theorem run_resolveFrom_nil (s : Session) (path : List Triple) : (resolveFrom [] path).run s = .ok [] := by
  cases path <;> rfl

theorem run_resolveFrom_cons (h : (matchingBelow nodes step).run s = .ok found) (rest : List Triple) :
    (resolveFrom nodes (step :: rest)).run s = (resolveFrom found rest).run s := by
  rw [resolveFrom, Query.run_bind_ok h]
  cases found with
  | nil => exact (run_resolveFrom_nil s rest).symm
  | cons v found => rfl

theorem run_resolveFrom_cons_error {e : Failure} (h : (matchingBelow nodes step).run s = .error e)
    (rest : List Triple) : (resolveFrom nodes (step :: rest)).run s = .error e := by
  rw [resolveFrom, Query.run_bind_error h]

/-- What a path leads to from a row are the rows that it leads to from any view of the row. -/
theorem run_resolvePath (root : View) (path : List Triple) (s : Session) :
    (root.row.resolvePath path).run s = ((resolveFrom [root] path).run s).map (List.map (·.row)) := by
  have hviews : ((resolveFrom [root.row.view] path).run s).map (List.map (·.row)) =
      ((resolveFrom [root] path).run s).map (List.map (·.row)) := by
    cases path <;> rfl
  rw [← hviews, Row.resolvePath]
  cases hrun : (resolveFrom [root.row.view] path).run s with
  | error e => rw [Query.run_bind_error hrun]; rfl
  | ok found => rw [Query.run_bind_ok hrun]; rfl

/-- A path leads to nothing from a row just if it leads to nothing from a view of the row. -/
theorem run_resolvePath_eq_nil_iff :
    (root.row.resolvePath path).run s = .ok [] ↔ (resolveFrom [root] path).run s = .ok [] := by
  rw [run_resolvePath]
  cases (resolveFrom [root] path).run s with
  | error e => exact iff_of_false (fun h => nomatch h) (fun h => nomatch h)
  | ok found => cases found <;> simp [Except.map]

namespace Correction

/-! ### Proposing -/

/-- From some nodes a path leads to others by its first `i` triples, and no node stands for the next triple
below any of these. -/
structure LacksFrom (s : Session) (nodes : List View) (path : List Triple) (i : ℕ)
    (anchors : List View) : Prop where
  lt_length : i < path.length
  isLeast : IsLeast {j | (resolveFrom nodes (path.take (j + 1))).run s = .ok []} i
  anchors_ne : anchors ≠ []
  anchors_eq : (resolveFrom nodes (path.take i)).run s = .ok anchors
  childless : ∀ v ∈ anchors, (v.row.matchingChildren path[i]).run s = .ok []

/-- A path breaks off at once. -/
theorem lacksFrom_zero (hne : nodes ≠ []) (h : (matchingBelow nodes step).run s = .ok []) :
    LacksFrom s nodes (step :: rest) 0 nodes where
  lt_length := Nat.succ_pos _
  isLeast := ⟨run_resolveFrom_cons h _, fun _ _ => Nat.zero_le _⟩
  anchors_ne := hne
  anchors_eq := rfl
  childless v hv := by
    -- The nodes below all of them are gathered in one list; as it is empty, so is the list of each.
    obtain ⟨lists, hlists, hnil⟩ := Query.run_flatten_eq_ok_iff.mp h
    obtain ⟨list, hlist, hv⟩ := (mem_of_forall₂ hlists).1 v hv
    rwa [List.flatten_eq_nil_iff.mp hnil.symm list hlist] at hv

/-- A path breaks off one triple later than its rest does from the nodes that stand for its first one. -/
theorem LacksFrom.succ {i : ℕ} (h : (matchingBelow nodes step).run s = .ok found) (hfound : found ≠ [])
    (hlacks : LacksFrom s found rest i anchors) : LacksFrom s nodes (step :: rest) (i + 1) anchors where
  lt_length := Nat.succ_lt_succ hlacks.lt_length
  isLeast := by
    refine ⟨(run_resolveFrom_cons h _).trans hlacks.isLeast.1, fun j hj => ?_⟩
    have hrest : (resolveFrom found (rest.take j)).run s = .ok [] := (run_resolveFrom_cons h _).symm.trans hj
    cases j with
    -- One triple is not too many, since nodes stand for it.
    | zero => exact absurd (Except.ok.inj hrest) hfound
    | succ j => exact Nat.succ_le_succ (hlacks.isLeast.2 hrest)
  anchors_ne := hlacks.anchors_ne
  anchors_eq := (run_resolveFrom_cons h _).trans hlacks.anchors_eq
  childless := hlacks.childless

/-- From some nodes a path leads to others, and nothing is proposed; or it breaks off, and a correction is
proposed for each node where it does; or the proposal fails as the path does. -/
theorem proposeFrom_cases (links : List PathLink) (hne : nodes ≠ []) :
    (∃ found, found ≠ [] ∧ (resolveFrom nodes path).run s = .ok found ∧
      (proposeFrom links nodes path).run s = .ok []) ∨
    (∃ i anchors, LacksFrom s nodes path i anchors ∧ (resolveFrom nodes path).run s = .ok [] ∧
      (proposeFrom links nodes path).run s =
        .ok (anchors.map fun v => { anchor := v, addition := path.drop i, links })) ∨
    ∃ e, (resolveFrom nodes path).run s = .error e ∧ (proposeFrom links nodes path).run s = .error e := by
  -- By induction on the path, for all nodes: both walks go on from the nodes that were found.
  induction path generalizing nodes with
  | nil => exact .inl ⟨nodes, hne, rfl, rfl⟩
  | cons step rest ih =>
    rw [proposeFrom]
    cases hmatch : (matchingBelow nodes step).run s with
    | error e =>
      exact .inr (.inr ⟨e, run_resolveFrom_cons_error hmatch rest, Query.run_bind_error hmatch⟩)
    | ok found =>
      rw [run_resolveFrom_cons hmatch, Query.run_bind_ok hmatch]
      cases found with
      | nil =>
        exact .inr (.inl ⟨0, nodes, lacksFrom_zero hne hmatch, run_resolveFrom_nil s rest, rfl⟩)
      | cons v found =>
        -- There are nodes to go on from, and whatever becomes of the rest becomes of the path.
        have hsome : v :: found ≠ [] := List.cons_ne_nil v found
        refine (ih hsome).imp_right (.imp_left ?_)
        rintro ⟨i, anchors, hlacks, hresolves, hproposes⟩
        exact ⟨i + 1, anchors, hlacks.succ hmatch hsome, hresolves, hproposes⟩

/-- What a path contributes to the proposals, by the rows to which its beginnings lead. -/
structure Contributes (s : Session) (root : View) (path : List Triple) (links : List PathLink)
    (cs : List Correction) : Prop where
  /-- Nothing is proposed just if the path leads to a row. -/
  nil_iff : cs = [] ↔ ∃ rows, rows ≠ [] ∧ (root.row.resolvePath path).run s = .ok rows
  /-- Otherwise the path leads to some rows by its first triples, but to none by one triple more. At each of
  these rows, in their order, the rest of the path is missing, and none of them has a node for its first
  triple. -/
  lacks : (root.row.resolvePath path).run s = .ok [] → ∃ i step anchors,
    IsLeast {j | (root.row.resolvePath (path.take (j + 1))).run s = .ok []} i ∧ path[i]? = some step ∧
      (root.row.resolvePath (path.take i)).run s = .ok (anchors.map (·.row)) ∧ (i = 0 → anchors = [root]) ∧
      cs = anchors.map (fun v => { anchor := v, addition := path.drop i, links }) ∧
      ∀ v ∈ anchors, (v.row.matchingChildren step).run s = .ok []

/-- A path that leads to a node contributes nothing. -/
theorem contributes_nil (links : List PathLink) (hfound : found ≠ [])
    (h : (resolveFrom [root] path).run s = .ok found) : Contributes s root path links [] := by
  have hrows : (root.row.resolvePath path).run s = .ok (found.map (·.row)) := by
    rw [run_resolvePath, h]
    rfl
  refine ⟨iff_of_true rfl ⟨_, by simpa using hfound, hrows⟩, fun hnil => ?_⟩
  rw [hrows] at hnil
  exact absurd (List.map_eq_nil_iff.mp (Except.ok.inj hnil)) hfound

/-- A path that breaks off contributes a correction for each node where it does. -/
theorem LacksFrom.contributes {i : ℕ} (h : LacksFrom s [root] path i anchors) (links : List PathLink)
    (hnil : (resolveFrom [root] path).run s = .ok []) :
    Contributes s root path links
      (anchors.map fun v => { anchor := v, addition := path.drop i, links }) := by
  rw [← run_resolvePath_eq_nil_iff] at hnil
  have hi := h.lt_length
  refine ⟨iff_of_false (by simpa using h.anchors_ne) ?_, fun _ => ⟨i, path[i], anchors, ?_,
    List.getElem?_eq_getElem hi, ?_, ?_, rfl, h.childless⟩⟩
  · -- The full path does not resolve, although prefixes of it do.
    rintro ⟨rows, hrows, hresolves⟩
    exact hrows (Except.ok.inj (hresolves.symm.trans hnil))
  · simpa only [run_resolvePath_eq_nil_iff] using h.isLeast
  · rw [run_resolvePath, h.anchors_eq]
    rfl
  · rintro rfl
    exact (Except.ok.inj h.anchors_eq).symm

/-- Something is proposed for a path just if the path can be resolved. -/
theorem exists_proposeFrom_iff (links : List PathLink) :
    (∃ cs, (proposeFrom links [root] path).run s = .ok cs) ↔
      ∃ rows, (root.row.resolvePath path).run s = .ok rows := by
  rw [run_resolvePath]
  rcases proposeFrom_cases links (List.cons_ne_nil root []) with
    ⟨found, -, hresolves, hproposes⟩ | ⟨i, anchors, -, hresolves, hproposes⟩ | ⟨e, hresolves, hproposes⟩
  all_goals rw [hresolves, hproposes]
  · exact iff_of_true ⟨_, rfl⟩ ⟨_, rfl⟩
  · exact iff_of_true ⟨_, rfl⟩ ⟨_, rfl⟩
  · exact iff_of_false (fun ⟨_, h⟩ => nomatch h) (fun ⟨_, h⟩ => nomatch h)

/-- What is proposed for a path is what the path contributes. -/
theorem contributes_of_proposeFrom {links : List PathLink} {cs : List Correction}
    (h : (proposeFrom links [root] path).run s = .ok cs) : Contributes s root path links cs := by
  rcases proposeFrom_cases links (List.cons_ne_nil root []) with
    ⟨found, hfound, hresolves, hproposes⟩ | ⟨i, anchors, hlacks, hresolves, hproposes⟩ |
      ⟨e, -, hproposes⟩
  · obtain rfl := Except.ok.inj (hproposes.symm.trans h)
    exact contributes_nil links hfound hresolves
  · obtain rfl := Except.ok.inj (hproposes.symm.trans h)
    exact hlacks.contributes links hresolves
  · exact nomatch hproposes.symm.trans h

/-- What is proposed is what the selected paths contribute, path by path. Something is proposed just if each
of the paths can be resolved, as each can from an existing row of a sound store. -/
theorem propose_agrees (s : Session) (root : View) (n : Network) (paths : List TerminalPath) :
    ((∃ cs, (propose root n paths).run s = .ok cs) ↔
      ∀ p ∈ paths, ∃ rows, (root.row.resolvePath (n.steps p.path)).run s = .ok rows) ∧
    (∀ cs, (propose root n paths).run s = .ok cs → ∃ parts, cs = parts.flatten ∧
      List.Forall₂ (fun p part => Contributes s root (n.steps p.path) (p.links.map n.pathLink) part)
        paths parts) ∧
    ∀ w st, s.Opens w st → st.Sound → st.Fits → st.Has root.row →
      ∃ cs, (propose root n paths).run s = .ok cs := by
  refine ⟨?_, fun cs hcs => ?_, fun w st hs hsound hfits hroot => ?_⟩
  · -- The loop fails only where one of the paths cannot be resolved.
    rw [propose, Query.exists_run_flatten_iff]
    exact forall₂_congr fun p _ => exists_proposeFrom_iff _
  · obtain ⟨parts, hparts, rfl⟩ := Query.run_flatten_eq_ok_iff.mp hcs
    exact ⟨parts, rfl, hparts.imp fun _ _ => contributes_of_proposeFrom⟩
  · have hsure : (propose root n paths).Finds st True fun _ => True :=
      ((finds_propose hsound hroot).mono_sure fun _ => hfits).mono fun _ _ => trivial
    exact (hsure.exists_run hs).imp fun _ hrun => hrun.1

/-! ### A path that forks -/

/-- A rule whose first attribute two nodes of the datamap stand for. -/
def forkedNetwork : Network :=
  .link [⟨"<s>", "a", .text "<x>", .identifier, true⟩, ⟨"<x>", "color", .text "red", .string, false⟩]

/-- A project with two nodes of one name below the root of its datamap. -/
def forked : List Operation :=
  [.createAgent (.text "agent"), .createChild (.ofId .agents 1) .problemSpaces (.text "space"),
    .createJoinedChild (.ofId .datamapIdentifiers 1) .datamapIdentifiers (.text "a"),
    .createJoinedChild (.ofId .datamapIdentifiers 1) .datamapIdentifiers (.text "a")]

/-- The root of the datamap. -/
def forkedRoot : View := (Row.ofId .datamapIdentifiers 1).view

/-- One correction is proposed at each of the two nodes, as the path contributes it. -/
theorem propose_agrees_forked :
    ∃ s ∈ Operation.performAll forked Reachable.newProject, ∃ cs parts,
      (propose forkedRoot forkedNetwork forkedNetwork.terminalPaths).run s = .ok cs ∧
      cs.map (fun c => (c.anchor.row.id, c.addition.map (·.attributeName))) =
        [(.int 2, ["color"]), (.int 3, ["color"])] ∧
      cs = parts.flatten ∧
      List.Forall₂ (fun p part => Contributes s forkedRoot (forkedNetwork.steps p.path)
        (p.links.map forkedNetwork.pathLink) part) forkedNetwork.terminalPaths parts := by
  -- What is evaluated: the root exists, every id is kept, and the two corrections are proposed.
  have hchecked : ∃ s ∈ Operation.performAll forked Reachable.newProject,
      (s.store.toOption.any fun st => st.Has forkedRoot.row && Table.all.all fun t =>
        (st.rows t).all fun record => fitsInteger record.id) = true ∧
      ((propose forkedRoot forkedNetwork forkedNetwork.terminalPaths).run s).toOption.map
        (·.map fun c => (c.anchor.row.id, c.addition.map (·.attributeName))) =
          some [(.int 2, ["color"]), (.int 3, ["color"])] := by
    decide +kernel
  obtain ⟨s, hs, hstore, hproposed⟩ := hchecked
  -- The parts come from the theorem, which asks for a sound store.
  have hreachable : Reachable true s := by
    refine (Reachable.start Reachable.opens_newProject).performAll (fun op hop => ?_) hs
    simp only [forked, List.mem_cons, List.not_mem_nil, or_false] at hop
    rcases hop with rfl | rfl | rfl | rfl <;> trivial
  obtain ⟨st, hopen, hst⟩ := hreachable.exists_integral
  simp only [hopen.store_eq, Except.toOption, Option.any_some, Bool.and_eq_true, decide_eq_true_eq] at hstore
  obtain ⟨hroot, hfits⟩ := hstore
  obtain ⟨-, hcontributes, hreturns⟩ :=
    propose_agrees s forkedRoot forkedNetwork forkedNetwork.terminalPaths
  obtain ⟨cs, hcs⟩ := hreturns true st hopen hst.toSound (Store.fits_of_all hfits) hroot
  obtain ⟨parts, hparts, hall⟩ := hcontributes cs hcs
  rw [hcs] at hproposed
  exact ⟨s, hs, cs, parts, hcs, Option.some.inj hproposed, hparts, hall⟩

end Correction

end SoarProject
