import SoarProject.Proofs.Project.Repetition

/-!
# Convergence in a generated datamap

Two paths of a rule that end in one variable converge. A selected path knows the paths selected before it that
it converges on, and hands these links to the corrections that fill it. When a correction has been applied,
its last node is joined to all nodes of its links, as the datamap of the problem space shows them that the
way up from the anchor comes to. Nothing else records convergence: a path whose nodes were all there before
has no correction, and what another correction adds to a path is not joined.

* `generateDatamap_links`: what the applied corrections of a datamap join.
* `not_all_linked`: nodes of converging paths that are not joined, for each of these three reasons.
-/

namespace SoarProject

open Registry

variable {w : Bool} {s s' : Session} {st st' : Store} {v v' : View} {r root : Row} {ns : List Network}

/-- A correction was applied for a selected path: it carries the links of the path, and the path leads to
its last node. -/
structure Correction.AppliedFor (st : Store) (root : Row) (n : Network) (p : TerminalPath)
    (c : Correction) (tail : Row) : Prop where
  tail_eq : c.tail = some tail
  links_eq : c.links = p.links.map n.pathLink
  resolves : (root.resolvePath (n.steps p.path)).Finds st True (tail ∈ ·)

namespace ViewChange.Corrects

variable {n : Network} {p : TerminalPath} {proposed chosen applied : List Correction} {c : Correction}
  (h : Corrects st st' root n proposed chosen applied) (hroot : st.Has root) (hfits : st'.Fits)

include h

/-- An applied correction fills a selected path. -/
theorem exists_isFor (hc : c ∈ applied) : ∃ c₀ ∈ proposed, ∃ p ∈ n.terminalPaths,
    c₀.IsFor st root n p ∧ c₀.IsApplied st' c := by
  obtain ⟨c₀, hc₀, happlied⟩ := (mem_of_forall₂ h.isApplied).2 c hc
  obtain ⟨p, hp, hfor⟩ := h.isFor c₀ (h.selects hc₀)
  exact ⟨c₀, h.selects hc₀, p, hp, hfor, happlied⟩

include hroot hfits

/-- What is found for a path are the nodes that it leads to. -/
theorem finds_resolvePath {path : List Triple} :
    (root.resolvePath path).Finds st' True (fun found => ∀ q, q ∈ found ↔ st'.Leads root path q) :=
  (Row.finds_resolvePath h.grows.integral.toSound (h.grows.has hroot)).mono_sure fun _ => hfits

/-- A correction that fills a path is applied for it. -/
theorem exists_appliedFor (htexts : ∀ t ∈ n.steps p.path, t.IsText) {c₀ : Correction}
    (hfor : c₀.IsFor st root n p) (hc : c₀.IsApplied st' c) : ∃ tail, c.AppliedFor st' root n p tail := by
  obtain ⟨tail, rfl, -, hpath⟩ := hfor.leads_of_isApplied h.grows htexts hc
  exact ⟨tail, rfl, hfor.links_eq,
    (h.finds_resolvePath hroot hfits).mono fun found hfound => (hfound tail).mpr hpath⟩

/-- The last node of an applied correction is joined to the nodes of its links. -/
theorem joined (hhead : (st'.childrenIn r .datamapIdentifiers).head? = some root) (hc : c ∈ applied)
    {tail : Row} (hfor : c.AppliedFor st' root n p tail)
    (hspace : (c.anchor.row.ancestorRow .problemSpaces).Finds st' True (· = some r))
    (htail : tail.table = .datamapIdentifiers) {i : Nat} (hi : i ∈ p.links) {path : List Nat}
    (hpath : path ∈ n.pathsTo i) :
    (root.resolvePath (n.steps path)).Finds st' True fun found => ∀ m ∈ found,
      m.table = .datamapIdentifiers → m ≠ tail → (tail.joined m).Finds st' True (· = true) := by
  have hintegral := h.grows.integral
  -- The correction was applied for the path, so it carries the paths of the link.
  obtain ⟨c₀, -, _, -, hc₀, q, rfl, hq, -⟩ := h.exists_isFor hc
  obtain rfl := Option.some.inj hfor.tail_eq
  obtain ⟨_, rfl, hfound⟩ :=
    hspace.exists_both (Row.finds_ancestorRow hintegral (h.grows.has hc₀.has))
  have hmem : n.steps path ∈ c₀.links.flatMap (·.paths) := by
    rw [show c₀.links = p.links.map n.pathLink from hfor.links_eq]
    exact List.mem_flatMap.mpr ⟨n.pathLink i, List.mem_map_of_mem hi, List.mem_map_of_mem hpath⟩
  -- When it was applied, its tail was joined to every identifier that such a path led to.
  have hlinked := h.links _ hc q r root rfl ((hfound r).mp rfl) hhead (n.steps path) hmem
  refine (h.finds_resolvePath hroot hfits).mono fun found hfound m hm hmtable hne => ?_
  have hleads := (hfound m).mp hm
  have hdeclared : project.areJoined m.table q.table = true := by
    rw [hmtable, htail]
    rfl
  exact Row.finds_joined_of_isJoined hintegral hfits hq
    (hintegral.has_of_leads (h.grows.has hroot) hleads) (hlinked m hleads hne hdeclared)

end ViewChange.Corrects

/-- After a datamap was generated with all corrections, every selected path led to a node before or a
correction was applied for it. If the way up from the anchor of an applied correction comes to the
problem space, its last node is joined to every other identifier that the links of its path lead to. -/
theorem generateDatamap_links (hs : s.Opens w st) (h : st.Integral) (hv : st.Has v.row)
    {select : List Correction → List Correction} (hselect : ∀ cs, select cs ⊆ cs)
    (hall : ∀ cs, cs ⊆ select cs) {applied : List Correction}
    (hrun : (generateDatamap select).run.run (v, s) = (.ok applied, v', s')) :
    ∃ st', s'.Opens w st' ∧ (st'.Fits → ∃ root ns st₁,
      (v.row.datamapRoot?).Finds st' True (· = some root) ∧
      (relatedTriples v.row).Finds st' True (· = ns) ∧
      (ensureRoot.run.run (v, s)).2.2.Opens w st₁ ∧
      (∀ p ∈ (Network.concat ns).terminalPaths,
        (root.resolvePath ((Network.concat ns).steps p.path)).Finds st₁ True (· ≠ []) ∨
          ∃ c ∈ applied, ∃ n, c.AppliedFor st' root (.concat ns) p n) ∧
      ∀ c ∈ applied,
        (∃ p ∈ (Network.concat ns).terminalPaths, ∃ n, c.AppliedFor st' root (.concat ns) p n) ∧
        ∀ p ∈ (Network.concat ns).terminalPaths, ∀ n, c.AppliedFor st' root (.concat ns) p n →
          (c.anchor.row.ancestorRow .problemSpaces).Finds st' True (· = some v.row) →
          n.table = .datamapIdentifiers →
          ∀ i ∈ p.links, ∀ path ∈ (Network.concat ns).pathsTo i,
            (root.resolvePath ((Network.concat ns).steps path)).Finds st' True fun found =>
              ∀ m ∈ found, m.table = .datamapIdentifiers → m ≠ n →
                (n.joined m).Finds st' True (· = true)) := by
  obtain ⟨st₁, st', root, ns, hs₁, hs', -, hgenerated⟩ := exists_generated hs h hv hselect hrun
  refine ⟨st', hs', fun hfits => ?_⟩
  obtain ⟨proposed, hcorrects⟩ := hgenerated.corrects
  have hhas := hgenerated.has_root
  have hgrows := hgenerated.grows
  -- A proposed correction for a path becomes an applied one for it, with the node it led to.
  have happliedFor : ∀ p ∈ (Network.concat ns).terminalPaths, ∀ c₀ c : Correction,
      c₀.IsFor st₁ root (.concat ns) p → c₀.IsApplied st' c → ∃ n, c.AppliedFor st' root (.concat ns) p n :=
    fun p hp c₀ c => hcorrects.exists_appliedFor hhas hfits fun t => hgenerated.isText hp
  refine ⟨root, ns, st₁, hgenerated.finds_root hfits, hgenerated.finds_triples hfits, hs₁, fun p hp => ?_,
    fun c hc => ⟨?_, fun p _ n hfor hspace htable i hi path hpath => ?_⟩⟩
  · -- A path that resolved before needs nothing, and any other has a correction.
    rcases hcorrects.covers p hp with ⟨q, hpath⟩ | ⟨c₀, hc₀, hfor⟩
    · have hfits₁ : st₁.Fits := fun t record hrecord => hfits t record (hgrows.rows_subset t hrecord)
      exact .inl (((Row.finds_resolvePath hgenerated.integral.toSound hhas).mono_sure fun _ =>
        hfits₁).mono fun found hfound => List.ne_nil_of_mem ((hfound q).mpr hpath))
    · obtain ⟨c, hc, happlied⟩ := (mem_of_forall₂ hcorrects.isApplied).1 c₀ (hall _ hc₀)
      exact .inr ⟨c, hc, happliedFor p hp c₀ c hfor happlied⟩
  · obtain ⟨c₀, -, p, hp, hfor, happlied⟩ := hcorrects.exists_isFor hc
    exact ⟨p, hp, happliedFor p hp c₀ c hfor happlied⟩
  · exact hcorrects.joined hhas hfits (hgrows.head?_childrenIn hgenerated.head?_eq) hc hfor hspace htable
      hi hpath

/-! ### Converging paths of one rule -/

/-- A rule with four paths to the value `<c>`. -/
def convergingText : String :=
  "sp \x7bp (state <s> ^l <c> ^o <c> ^a <a> ^b <b>) (<a> ^x <x>) (<x> ^y <c>) " ++
    "(<b> ^a <d>) (<d> ^x <e>) (<e> ^y <c>) --> \x7d"

/-- Its triples. -/
def convergingRule : List Triple :=
  [⟨"<s>", "l", .text "<c>", .identifier, true⟩, ⟨"<s>", "o", .text "<c>", .identifier, true⟩,
    ⟨"<s>", "a", .text "<a>", .identifier, true⟩, ⟨"<s>", "b", .text "<b>", .identifier, true⟩,
    ⟨"<a>", "x", .text "<x>", .identifier, false⟩, ⟨"<x>", "y", .text "<c>", .identifier, false⟩,
    ⟨"<b>", "a", .text "<d>", .identifier, false⟩, ⟨"<d>", "x", .text "<e>", .identifier, false⟩,
    ⟨"<e>", "y", .text "<c>", .identifier, false⟩]

/-- The triples as a network. -/
def convergingNetwork : Network := .concat [.link convergingRule]

/-- A project with this rule and a datamap that has some of its nodes. The node 7 is shared: it is a second
`a` below the root 2, it is below the node `b`, and it is below the root 1 of another problem space. -/
def converging : List Operation :=
  [.createAgent (.text "agent"),
    .createChild (.ofId .agents 1) .problemSpaces (.text "other"),
    .createChild (.ofId .agents 1) .problemSpaces (.text "space"),
    .createChild (.ofId .agents 1) .rules (.text "p"),
    .saveRule (Row.ofId .rules 1).view (.text convergingText),
    .join (.ofId .rules 1) (.ofId .problemSpaces 2),
    .createJoinedChild (node 2) .datamapIdentifiers (.text "l"),
    .createJoinedChild (node 2) .datamapIdentifiers (.text "o"),
    .createJoinedChild (node 2) .datamapIdentifiers (.text "a"),
    .createJoinedChild (node 5) .datamapIdentifiers (.text "x"),
    .createJoinedChild (node 2) .datamapIdentifiers (.text "a"),
    .createJoinedChild (node 2) .datamapIdentifiers (.text "b"),
    .directedJoin (node 8) (node 7),
    .directedJoin (node 1) (node 7)]

/-- The problem space of the rule. -/
def convergingSpace : View := (Row.ofId .problemSpaces 2).view

/-- The selected paths, each with links to those before it. -/
theorem terminalPaths_converging : convergingNetwork.terminalPaths =
    [⟨[0], []⟩, ⟨[1], [0]⟩, ⟨[2, 4, 5], [0, 1]⟩, ⟨[3, 6, 7, 8], [0, 1, 5]⟩] := by
  decide +kernel

/-- What the paths of the rule lead to and what is joined, once the datamap was generated. -/
theorem checked_converging :
    ∃ s ∈ Operation.performAll converging Reachable.newProject,
      (s.store.toOption.any fun st => st.Has convergingSpace.row && st.Has (node 6)) = true ∧
      (((node 2).resolvePath (convergingNetwork.steps [2, 4, 5])).run
        (ensureRoot.run.run (convergingSpace, s)).2.2).toOption = some [] ∧
      (((generateDatamap id).run.run (convergingSpace, s)).1.toOption.any fun cs => cs.all fun c =>
        c.links.length ≠ 2 || (c.anchor.row = node 6 && c.tail = some (node 9))) = true ∧
      let s' := ((generateDatamap id).run.run (convergingSpace, s)).2.2
      (s'.store.toOption.any fun st => Table.all.all fun t => (st.rows t).all fun record =>
        fitsInteger record.id) = true ∧
      ((relatedTriples convergingSpace.row).run s').toOption = some [.link convergingRule] ∧
      (convergingSpace.row.datamapRoot?.run s').toOption = some (some (node 2)) ∧
      (((node 6).ancestorRow .problemSpaces).run s').toOption = some (some convergingSpace.row) ∧
      ([[0], [1], [2, 4, 5], [3, 6, 7, 8]].map fun path =>
        (((node 2).resolvePath (convergingNetwork.steps path)).run s').toOption) =
          [some [node 3], some [node 4], some [node 9, node 11], some [node 11]] ∧
      ([node 4, node 11].map fun n => ((n.joined (node 3)).run s').toOption) = [some false, some false] := by
  decide +kernel

/-- This project is one that can be reached. -/
theorem reachable_converging (hs : Operation.performAll converging Reachable.newProject = some s) :
    Reachable true s := by
  refine (Reachable.start Reachable.opens_newProject).performAll (fun op hop => ?_) hs
  simp only [converging, List.mem_cons, List.not_mem_nil, or_false] at hop
  rcases hop with rfl | rfl | rfl | rfl | rfl | rfl | rfl | rfl | rfl | rfl | rfl | rfl | rfl | rfl <;>
    trivial

/-- The correction that was applied for the third path begins at the node 6, whose way up comes to the
problem space, and so its last node 9 is joined to what the links of the path lead to. -/
theorem generateDatamap_links_converging :
    ∃ s ∈ Operation.performAll converging Reachable.newProject, ∃ st',
      ((generateDatamap id).run.run (convergingSpace, s)).2.2.Opens true st' ∧
        ∀ i ∈ [0, 1], ((node 2).resolvePath (convergingNetwork.steps [i])).Finds st' True fun found =>
          ∀ m ∈ found, m.table = .datamapIdentifiers → m ≠ node 9 →
            ((node 9).joined m).Finds st' True (· = true) := by
  obtain ⟨s, hs, hhas, hbefore, happlied, hfits, hrules, hroot, hclimb, -, -⟩ := checked_converging
  obtain ⟨st, hopen, hst⟩ := (reachable_converging hs).exists_integral
  rw [hopen.store_eq] at hhas
  simp only [Except.toOption, Option.any_some, Bool.and_eq_true, decide_eq_true_eq] at hhas
  have hall : ∀ cs : List Correction, id cs ⊆ cs := fun cs => List.Subset.refl cs
  obtain ⟨-, st₂, hs₂, hgrows⟩ :=
    ViewChange.ends_generateDatamap hst hhas.1 hall convergingSpace s rfl hopen
  rcases hrun : (generateDatamap id).run.run (convergingSpace, s) with ⟨_ | applied, v', s'⟩
  · simp [hrun, Except.toOption] at happlied
  rw [hrun] at happlied hfits hrules hroot hclimb hs₂ hgrows
  obtain ⟨st', hs', hlinks⟩ := generateDatamap_links hopen hst hhas.1 hall hall hrun
  obtain rfl := hs'.store_unique hs₂
  have hfits' : st'.Fits := Store.fits_of_all (by simpa [hs'.store_eq, Except.toOption] using hfits)
  obtain ⟨root, ns, st₁, hfoundRoot, hfoundRules, hs₁, hcovers, happliedFor⟩ := hlinks hfits'
  obtain rfl := Option.some.inj (hfoundRoot.of_run hs' (eq_ok_of_toOption hroot))
  obtain rfl := hfoundRules.of_run hs' (eq_ok_of_toOption hrules)
  have hpath : ⟨[2, 4, 5], [0, 1]⟩ ∈ convergingNetwork.terminalPaths := by
    rw [terminalPaths_converging]
    decide
  -- The path led to no node before, and so a correction was applied for it.
  rcases hcovers _ hpath with hled | ⟨c, hc, n, hfor⟩
  · exact absurd rfl (hled.of_run hs₁ (eq_ok_of_toOption hbefore))
  have hplace := List.all_eq_true.mp happlied c hc
  have hlength : c.links.length = 2 := by rw [hfor.links_eq]; rfl
  simp only [hlength, hfor.tail_eq, ne_eq, not_true_eq_false, decide_false, Bool.false_or, Option.some.injEq,
    Bool.and_eq_true, decide_eq_true_eq] at hplace
  obtain ⟨hanchor, rfl⟩ := hplace
  have hspace : (c.anchor.row.ancestorRow .problemSpaces).Finds st' True (· = some convergingSpace.row) := by
    rw [hanchor]
    have hfinds := (Row.finds_ancestorRow (t := .problemSpaces) hgrows.integral
      (hgrows.has hhas.2)).mono_sure fun _ : True => hfits'
    have hends := (hfinds.of_run hs' (eq_ok_of_toOption hclimb) _).mp rfl
    exact hfinds.mono fun found hfound => (hfound _).mpr hends
  refine ⟨s, hs, st', by rwa [hrun], fun i hi => ?_⟩
  refine (happliedFor c hc).2 _ hpath _ hfor hspace rfl i hi [i] ?_
  have hpaths : ∀ i ∈ [0, 1], [i] ∈ convergingNetwork.pathsTo i := by decide +kernel
  exact hpaths i hi

/-- With all corrections applied, three paths with links lead to nodes that are not joined to the node 3,
which their links lead to: the node 4 was there before, the correction for the third path ends at another
node than 11, and the way up from the anchor of the fourth one comes to another problem space. -/
theorem not_all_linked :
    ∃ s ∈ Operation.performAll converging Reachable.newProject,
      (∃ st, s.Opens true st ∧ st.Integral ∧ st.Has convergingSpace.row) ∧
      ∃ applied v' s', (generateDatamap id).run.run (convergingSpace, s) = (.ok applied, v', s') ∧
        (relatedTriples convergingSpace.row).run s' = .ok [.link convergingRule] ∧
        convergingSpace.row.datamapRoot?.run s' = .ok (some (node 2)) ∧
        ∀ e ∈ [([1], node 4), ([2, 4, 5], node 11), ([3, 6, 7, 8], node 11)],
          ∃ p ∈ convergingNetwork.terminalPaths, p.path = e.1 ∧
            (∃ found, ((node 2).resolvePath (convergingNetwork.steps p.path)).run s' = .ok found ∧
              e.2 ∈ found) ∧
            ∃ i ∈ p.links, ∃ path ∈ convergingNetwork.pathsTo i,
              (∃ found, ((node 2).resolvePath (convergingNetwork.steps path)).run s' = .ok found ∧
                node 3 ∈ found) ∧ (e.2.joined (node 3)).run s' = .ok false := by
  obtain ⟨s, hs, hhas, -, hdone, -, hrules, hroot, -, hfound, hjoined⟩ := checked_converging
  obtain ⟨st, hopen, hst⟩ := (reachable_converging hs).exists_integral
  rw [hopen.store_eq] at hhas
  simp only [Except.toOption, Option.any_some, Bool.and_eq_true, decide_eq_true_eq] at hhas
  rcases hrun : (generateDatamap id).run.run (convergingSpace, s) with ⟨_ | applied, v', s'⟩
  · simp [hrun, Except.toOption] at hdone
  rw [hrun] at hrules hroot hfound hjoined
  simp only [List.map_cons, List.map_nil, List.cons.injEq, and_true] at hfound hjoined
  obtain ⟨hleaf, hold, hthird, hfourth⟩ := hfound
  have hpaths : [0] ∈ convergingNetwork.pathsTo 0 := by decide +kernel
  refine ⟨s, hs, ⟨st, hopen, hst, hhas.1⟩, applied, v', s', hrun, eq_ok_of_toOption hrules,
    eq_ok_of_toOption hroot, fun e he => ?_⟩
  rw [terminalPaths_converging]
  -- In all three cases it is the first link, and what it leads to is the old node.
  have hnode : ∀ {n : Row}, ((n.joined (node 3)).run s').toOption = some false →
      ∀ p : TerminalPath, 0 ∈ p.links → ∃ i ∈ p.links, ∃ path ∈ convergingNetwork.pathsTo i,
        (∃ found, ((node 2).resolvePath (convergingNetwork.steps path)).run s' = .ok found ∧
          node 3 ∈ found) ∧ (n.joined (node 3)).run s' = .ok false := fun hfalse p hp =>
    ⟨0, hp, [0], hpaths, ⟨_, eq_ok_of_toOption hleaf, List.mem_cons_self⟩, eq_ok_of_toOption hfalse⟩
  simp only [List.mem_cons, List.not_mem_nil, or_false] at he
  rcases he with rfl | rfl | rfl
  · exact ⟨⟨[1], [0]⟩, by decide, rfl, ⟨_, eq_ok_of_toOption hold, by decide⟩,
      hnode hjoined.1 _ (by decide)⟩
  · exact ⟨⟨[2, 4, 5], [0, 1]⟩, by decide, rfl, ⟨_, eq_ok_of_toOption hthird, by decide⟩,
      hnode hjoined.2 _ (by decide)⟩
  · exact ⟨⟨[3, 6, 7, 8], [0, 1, 5]⟩, by decide, rfl, ⟨_, eq_ok_of_toOption hfourth, by decide⟩,
      hnode hjoined.2 _ (by decide)⟩

end SoarProject
