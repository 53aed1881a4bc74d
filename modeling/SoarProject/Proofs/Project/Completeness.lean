import SoarProject.Proofs.Datamap.Extraction
import SoarProject.Proofs.Datamap.Gathering
import SoarProject.Proofs.Datamap.Generation
import SoarProject.Proofs.Project.History

/-!
# What a generated datamap shows

The rules of a problem space are taken together when its datamap is generated, as if they shared their
variables. If no two of them use one name for different things, the datamap afterwards shows everything
that each of them reaches. If they do, a rule may be shown in part only.

* `relatedTriples`: the triples of the related rules, rule by rule.
* `generateDatamap_complete`: every triple that is reachable in a rule leads to a node afterwards.
-/

namespace SoarProject

open Network (Compatible)

variable {w : Bool} {s : Session} {st : Store} {v : View} {r : Row} {ns : List Network}

/-! ### Rules -/

namespace Network

/-- The triples of a network. -/
def triples (n : Network) : List Triple := n.nodes.map (·.triple)

/-- No variable of a rule leads back to itself, one variable is the state, and no constant is spelled
like a variable. -/
def IsAcyclic (n : Network) : Prop := ∃ state, Triple.Acyclic n.triples state

/-- The variable of a state leads on to the variable of a triple. -/
def IsReached (n : Network) (i : Nat) : Prop :=
  ∃ t ∈ n.triples, t.isState = true ∧
    Relation.ReflTransGen (Triple.Follows n.triples) t.subject (n.triple i).subject

@[simp]
theorem triples_link (ts : List Triple) : (link ts).triples = ts := by
  simp [triples, link, Function.comp_def]

/-- A path leads to every triple of an acyclic rule that is reached. -/
theorem IsReached.pathsTo_ne_nil {ts : List Triple} (hts : Apart ts)
    (hacyclic : (link ts).IsAcyclic) {i : Nat} (hi : i < ts.length) (hreach : (link ts).IsReached i) :
    (link ts).pathsTo i ≠ [] := by
  obtain ⟨state, hacyclic⟩ := hacyclic
  obtain ⟨t, ht, hstate, hleads⟩ := hreach
  rw [triples_link] at hacyclic ht hleads
  rw [(hacyclic.isState_iff t ht).mp hstate, triple_link hi] at hleads
  exact pathsTo_ne_nil_of_reachable hacyclic hts hi hleads

end Network

/-- The triples of the related rules, linked rule by rule. -/
def relatedTriples (problemSpace : Row) : Query (List Network) := do
  return (← (← relatedRules problemSpace).mapM fun r => extractTriples r.view).map (·.1)

/-- Whatever the related rules are, their triples are distinct and have texts as values. -/
theorem finds_relatedTriples :
    (relatedTriples r).Finds st False (fun ns => ∀ n ∈ ns, ∃ ts, n = .link ts ∧
      Network.Apart ts ∧ ∀ t ∈ ts, t.IsText) := by
  unfold relatedTriples
  refine Query.finds_any.bind fun rules _ => ?_
  refine (Query.Finds.mapM_mem fun r _ => finds_extractTriples).bind fun found hfound =>
    Query.Finds.pure fun n hn => ?_
  obtain ⟨extracted, hmem, rfl⟩ := List.mem_map.mp hn
  obtain ⟨-, -, hextracted⟩ := hfound.2 extracted hmem
  exact hextracted

/-- The triples of the related rules are taken together. -/
theorem exists_rules_of_relatedTriples (h : (relatedTriples r).run s = .ok ns) :
    ∃ rules, (relatedRules r).run s = .ok rules ∧ (ruleTriples rules).run s = .ok (.concat ns) := by
  obtain ⟨rules, hrules, h⟩ := exceptBind_eq_ok.mp h
  obtain ⟨found, hfound, heq⟩ := exceptBind_eq_ok.mp h
  obtain rfl := Except.ok.inj heq
  exact ⟨rules, hrules, exceptBind_eq_ok.mpr ⟨found, hfound, rfl⟩⟩

/-! ### Completeness -/

/-- Once its root is there, a datamap is corrected for the triples of the related rules. -/
theorem run_generateDatamap {select : List Correction → List Correction} {root v₁ : View}
    {s₁ : Session} (hroot : ensureRoot.run.run (v, s) = (.ok root, v₁, s₁))
    (hrules : (relatedTriples v₁.row).run s₁ = .ok ns) :
    (generateDatamap select).run.run (v, s) =
      (ViewChange.correct select root (.concat ns)).run.run (v₁, s₁) := by
  obtain ⟨rules, hfound, hnetwork⟩ := exists_rules_of_relatedTriples hrules
  have hrow : ViewChange.row.run.run (v₁, s₁) = (.ok v₁.row, v₁, s₁) := rfl
  rw [ViewChange.generateDatamap_eq, ViewChange.run_bind, hroot]
  dsimp only
  rw [ViewChange.run_bind, hrow]
  dsimp only
  rw [ViewChange.run_query hfound, ViewChange.run_query hnetwork]

/-- Rules that are taken together are well linked. -/
theorem wellLinked_of_rules (hns : ∀ n ∈ ns, ∃ ts, n = .link ts ∧ Network.Apart ts ∧
    ∀ t ∈ ts, t.IsText) : (Network.concat ns).WellLinked := by
  refine Network.wellLinked_concat fun n hn => ?_
  obtain ⟨ts, rfl, hts, -⟩ := hns n hn
  exact Network.wellLinked_link hts

/-- The triples of a selected path are among those of the rules. -/
theorem isText_of_mem_terminalPath (hns : ∀ n ∈ ns, ∃ ts, n = .link ts ∧ Network.Apart ts ∧
    ∀ t ∈ ts, t.IsText) {p : TerminalPath} (hp : p ∈ (Network.concat ns).terminalPaths) {t : Triple}
    (ht : t ∈ (Network.concat ns).steps p.path) : t.IsText := by
  obtain ⟨i, hi, hpath⟩ := (Network.selected_terminalPaths _).exists_pathsTo hp
  obtain ⟨hlast, -, hlinked, -⟩ := Network.mem_pathsTo_iff.mp hpath
  obtain ⟨j, hj, rfl⟩ := List.mem_map.mp ht
  have hlt := (wellLinked_of_rules hns).inRange hi hlast hlinked j hj
  obtain ⟨n, hn, offset, k, hpart, hk, rfl⟩ := Network.exists_part hlt
  obtain ⟨ts, rfl, -, htexts⟩ := hns n hn
  rw [Network.size_link] at hk
  rw [hpart.triple_eq (by simpa using hk), Network.triple_link hk]
  exact htexts _ (List.getElem_mem hk)

/-- If every selected path leads to a node, so does every triple that is reachable in a rule. -/
theorem exists_leads_of_isReached (hns : ∀ n ∈ ns, ∃ ts, n = .link ts ∧ Network.Apart ts ∧
    ∀ t ∈ ts, t.IsText) (hacyclic : ∀ n ∈ ns, n.IsAcyclic) (hcompat : Compatible ns)
    (hleads : ∀ p ∈ (Network.concat ns).terminalPaths,
      ∃ q, st.Leads r ((Network.concat ns).steps p.path) q)
    {n : Network} (hn : n ∈ ns) {i : Nat} (hi : i < n.size) (hreach : n.IsReached i) :
    ∃ path ∈ n.pathsTo i, ∃ q, st.Leads r (n.steps path) q := by
  -- Each rule is linked on its own, and acyclic variables make it coherent.
  have hcoherent : ∀ m ∈ ns, m.Coherent id := by
    intro m hm
    obtain ⟨state, hstate⟩ := hacyclic m hm
    obtain ⟨ts, rfl, hts, -⟩ := hns m hm
    rw [Network.triples_link] at hstate
    exact Network.coherent_link hstate hts
  have htexts : ∀ m ∈ ns, ∀ j < m.size, (m.triple j).IsText := by
    intro m hm j hj
    obtain ⟨ts, rfl, -, htexts⟩ := hns m hm
    rw [Network.size_link] at hj
    rw [Network.triple_link hj]
    exact htexts _ (List.getElem_mem hj)
  have hpaths : n.pathsTo i ≠ [] := by
    have hacyclicn := hacyclic n hn
    obtain ⟨ts, rfl, hts, -⟩ := hns n hn
    exact hreach.pathsTo_ne_nil hts hacyclicn (by simpa using hi)
  -- Some terminal path of all rules together goes through the accesses of a path to the triple.
  obtain ⟨path, hpath, p, hp, hshapes⟩ :=
    Network.exists_terminalPath_of_compatible hcoherent htexts hcompat hn hi hpaths
  obtain ⟨q, hq⟩ := hleads p hp
  exact ⟨path, hpath, hq.exists_of_shapes hshapes⟩

/-- If no two rules use one name for different things, every triple that is reachable in a rule leads to
a node after the datamap was generated. -/
theorem generateDatamap_complete (hs : s.Opens w st) (h : st.Integral) (hv : st.Has v.row)
    (hrules : (relatedTriples v.row).run (ensureRoot.run.run (v, s)).2.2 = .ok ns)
    (hacyclic : ∀ n ∈ ns, n.IsAcyclic) (hcompat : Compatible ns)
    (hdone : ((generateDatamap id).run.run (v, s)).1.isOk = true) :
    ∃ st' root, ((generateDatamap id).run.run (v, s)).2.2.Opens w st' ∧
      (v.row.datamapRoot?).Finds st' st'.Fits (· = some root) ∧
      ∀ n ∈ ns, ∀ i < n.size, n.IsReached i → ∃ path ∈ n.pathsTo i,
        (root.resolvePath (n.steps path)).Finds st' st'.Fits (· ≠ []) := by
  obtain ⟨hrow, st₁, hs₁, hr⟩ := ViewChange.ends_ensureRoot h hv v s rfl hs
  -- The root is found or created first; the rest of the run goes on from the store with it.
  rcases hroot : ensureRoot.run.run (v, s) with ⟨_ | root, v₁, s₁⟩
  · rw [ViewChange.generateDatamap_eq, ViewChange.run_bind, hroot] at hdone
    cases hdone
  rw [hroot] at hrow hs₁ hr hrules
  dsimp only at hrow hs₁ hr hrules
  obtain ⟨hgrows, hhas, hhead⟩ := hr
  rw [run_generateDatamap hroot (hrow ▸ hrules)] at hdone ⊢
  have hns := finds_relatedTriples.of_run hs₁ hrules
  have hall : ∀ cs : List Correction, id cs ⊆ cs := fun cs => List.Subset.refl cs
  -- With all corrections applied, every terminal path leads somewhere.
  obtain ⟨-, st', hs', hr'⟩ :=
    ViewChange.ends_correct (n := .concat ns) hgrows.integral hhas hall v₁ s₁ hrow hs₁
  cases hresult : ((ViewChange.correct id root (.concat ns)).run.run (v₁, s₁)).1 with
  | error e =>
    rw [hresult] at hdone
    cases hdone
  | ok applied =>
    rw [hresult] at hr'
    obtain ⟨hgrows', hleads⟩ := hr'
    have hleads' := fun p hp => hleads hall p hp fun t ht =>
      isText_of_mem_terminalPath hns hp ht
    refine ⟨st', root.row, hs', ?_, fun n hn i hi hreach => ?_⟩
    · refine ((Correction.finds_datamapRoot? hgrows'.integral.toSound).mono_sure fun hfits =>
        hfits.row (hgrows'.has (hgrows.has hv))).mono fun found hfound => ?_
      rw [hfound.1, hgrows'.head?_childrenIn hhead]
    · obtain ⟨path, hpath, q, hq⟩ := exists_leads_of_isReached hns hacyclic hcompat hleads' hn hi hreach
      exact ⟨path, hpath, (Row.finds_resolvePath hgrows'.integral.toSound (hgrows'.has hhas)).mono
        fun found hfound => List.ne_nil_of_mem ((hfound q).mpr hq)⟩

/-! ### Two rules -/

/-- A project in which a problem space has a rule of its own and one of an operator. -/
def twoRules (own ofOperator : String) : List Operation :=
  [.createAgent (.text "agent"),
    .createChild (.ofId .agents 1) .problemSpaces (.text "space"),
    .createChild (.ofId .agents 1) .operators (.text "operator"),
    .createChild (.ofId .agents 1) .rules (.text "own"),
    .saveRule (Row.ofId .rules 1).view (.text own),
    .createChild (.ofId .agents 1) .rules (.text "other"),
    .saveRule (Row.ofId .rules 2).view (.text ofOperator),
    .join (.ofId .rules 1) (.ofId .problemSpaces 1),
    .join (.ofId .operators 1) (.ofId .problemSpaces 1),
    .join (.ofId .rules 2) (.ofId .operators 1)]

/-- The problem space with two rules. -/
def space : View := (Row.ofId .problemSpaces 1).view

/-- A rule that looks no further than the value of `io`. -/
def shortRule : List Triple := [⟨"<s>", "io", .text "<x>", .identifier, true⟩]

/-- A rule that goes on from the value of `io`, which it calls `x`. -/
def longRule (x : String) : List Triple :=
  [⟨"<s>", "io", .text x, .identifier, true⟩, ⟨x, "input", .text "1", .integer, false⟩]

/-- A text of the short rule. -/
def shortText : String := "sp \x7bshort (state <s> ^io <x>) --> \x7d"

/-- A text of the long rule. -/
def longText (x : String) : String :=
  "sp \x7blong (state <s> ^io " ++ x ++ ") (" ++ x ++ " ^input 1) --> \x7d"

/-- Both rules are acyclic. -/
theorem isAcyclic_of_mem {x : String} (hx : x = "<x>" ∨ x = "<y>") :
    ∀ n ∈ [Network.link shortRule, .link (longRule x)], n.IsAcyclic := by
  let rank (name : String) : Nat := if name = "<s>" then 0 else if name = "1" then 2 else 1
  intro n hn
  simp only [List.mem_cons, List.not_mem_nil, or_false] at hn
  rcases hn with rfl | rfl
  · refine ⟨"<s>", ?_⟩
    rw [Network.triples_link]
    exact Triple.acyclic_of_rank rank (by decide) (by decide) (by decide)
  · refine ⟨"<s>", ?_⟩
    rw [Network.triples_link]
    rcases hx with rfl | rfl <;>
      exact Triple.acyclic_of_rank rank (by decide) (by decide) (by decide)

/-- The second triple of the long rule is reached. -/
theorem isReached_longRule (x : String) : (Network.link (longRule x)).IsReached 1 := by
  refine ⟨⟨"<s>", "io", .text x, .identifier, true⟩, by simp [longRule], rfl, ?_⟩
  rw [Network.triples_link]
  exact .single ⟨⟨"<s>", "io", .text x, .identifier, true⟩, by simp [longRule], rfl, rfl, rfl⟩

/-- A history of two rules is one that can be reached. -/
theorem reachable_twoRules {own ofOperator : String}
    (hs : Operation.performAll (twoRules own ofOperator) Reachable.newProject = some s) :
    Reachable true s := by
  refine (Reachable.start Reachable.opens_newProject).performAll (fun op hop => ?_) hs
  simp only [twoRules, List.mem_cons, List.not_mem_nil, or_false] at hop
  rcases hop with rfl | rfl | rfl | rfl | rfl | rfl | rfl | rfl | rfl | rfl <;> trivial

/-- Rules that call the value of `io` by different names are compatible. -/
theorem compatible_renamed : Compatible [.link shortRule, .link (longRule "<y>")] := by
  -- Both rules are so short that their places can be listed.
  have hplaces : ∀ {P : Network → Network → Nat → Nat → Prop},
      P (.link shortRule) (.link shortRule) 0 0 →
      (∀ j ∈ [0, 1], P (.link shortRule) (.link (longRule "<y>")) 0 j) →
      (∀ i ∈ [0, 1], P (.link (longRule "<y>")) (.link shortRule) i 0) →
      (∀ i ∈ [0, 1], ∀ j ∈ [0, 1], P (.link (longRule "<y>")) (.link (longRule "<y>")) i j) →
      ∀ a ∈ [Network.link shortRule, .link (longRule "<y>")],
        ∀ b ∈ [Network.link shortRule, .link (longRule "<y>")],
          ∀ i < a.size, ∀ j < b.size, P a b i j := by
    intro P hss hsl hls hll a ha b hb i hi j hj
    simp only [List.mem_cons, List.not_mem_nil, or_false] at ha hb hsl hls hll
    rcases ha with rfl | rfl <;> rcases hb with rfl | rfl <;>
      simp only [Network.size_link, shortRule, longRule, List.length_cons, List.length_nil] at hi hj
    · obtain rfl : i = 0 := by omega
      obtain rfl : j = 0 := by omega
      exact hss
    · obtain rfl : i = 0 := by omega
      exact hsl j (by omega)
    · obtain rfl : j = 0 := by omega
      exact hls i (by omega)
    · exact hll i (by omega) j (by omega)
  constructor <;> refine hplaces ?_ ?_ ?_ ?_ <;> decide +kernel

/-- A result that is there is the result. -/
theorem eq_ok_of_toOption {α : Type} {result : Except Failure α} {a : α}
    (h : result.toOption = some a) : result = .ok a := by
  cases result with
  | ok b => rw [Option.some.inj h]
  | error e => cases h

/-- With different names, what the long rule reaches is shown. -/
theorem generateDatamap_complete_renamed :
    ∃ s ∈ Operation.performAll (twoRules shortText (longText "<y>")) Reachable.newProject,
      ∃ st' root, ((generateDatamap id).run.run (space, s)).2.2.Opens true st' ∧
        (Row.resolvePath root (longRule "<y>")).Finds st' st'.Fits (· ≠ []) := by
  have hchecked : ∃ s ∈ Operation.performAll (twoRules shortText (longText "<y>"))
      Reachable.newProject, (s.store.toOption.any fun st => st.Has space.row) = true ∧
      ((relatedTriples space.row).run (ensureRoot.run.run (space, s)).2.2).toOption =
        some [.link shortRule, .link (longRule "<y>")] ∧
      ((generateDatamap id).run.run (space, s)).1.isOk = true := by
    decide +kernel
  -- The run is evaluated; what it leaves behind comes from the theorem.
  obtain ⟨s, hs, hspace, hrules, hdone⟩ := hchecked
  obtain ⟨st, hopen, hst⟩ := (reachable_twoRules hs).exists_integral
  have hhas : st.Has space.row := by simpa [hopen.store_eq, Except.toOption] using hspace
  obtain ⟨st', root, hopen', -, hshown⟩ := generateDatamap_complete hopen hst hhas
    (eq_ok_of_toOption hrules) (isAcyclic_of_mem (Or.inr rfl)) compatible_renamed hdone
  obtain ⟨path, hpath, hfound⟩ :=
    hshown _ (List.mem_cons_of_mem _ List.mem_cons_self) 1 (by decide) (isReached_longRule "<y>")
  have hpaths : (Network.link (longRule "<y>")).pathsTo 1 = [[0, 1]] := by decide +kernel
  rw [hpaths, List.mem_singleton] at hpath
  rw [hpath] at hfound
  exact ⟨s, hs, st', root, hopen', hfound⟩

/-- With one name for the values of `io` in both rules, what the long rule reaches is not shown. -/
theorem not_complete_shared :
    ∃ s ∈ Operation.performAll (twoRules shortText (longText "<x>")) Reachable.newProject,
      ∃ ns, (relatedTriples space.row).run (ensureRoot.run.run (space, s)).2.2 = .ok ns ∧
        (∀ n ∈ ns, n.IsAcyclic) ∧
        .link (longRule "<x>") ∈ ns ∧ (Network.link (longRule "<x>")).IsReached 1 ∧
        ((generateDatamap id).run.run (space, s)).1.isOk = true ∧
        ∃ root, (space.row.datamapRoot?).run ((generateDatamap id).run.run (space, s)).2.2 =
            .ok (some root) ∧
          ∀ path ∈ (Network.link (longRule "<x>")).pathsTo 1,
            (root.resolvePath ((Network.link (longRule "<x>")).steps path)).run
              ((generateDatamap id).run.run (space, s)).2.2 = .ok [] := by
  have hchecked : ∃ s ∈ Operation.performAll (twoRules shortText (longText "<x>"))
      Reachable.newProject, ((relatedTriples space.row).run
        (ensureRoot.run.run (space, s)).2.2).toOption =
          some [.link shortRule, .link (longRule "<x>")] ∧
      ((generateDatamap id).run.run (space, s)).1.isOk = true ∧
      ((space.row.datamapRoot?).run ((generateDatamap id).run.run (space, s)).2.2).toOption =
        some (some (.ofId .datamapIdentifiers 1)) ∧
      (((Row.ofId .datamapIdentifiers 1).resolvePath (longRule "<x>")).run
        ((generateDatamap id).run.run (space, s)).2.2).toOption = some [] := by
    decide +kernel
  -- The generated datamap shows the short rule only, and the longer path resolves to nothing.
  obtain ⟨s, hs, hrules, hdone, hroot, hfound⟩ := hchecked
  refine ⟨s, hs, _, eq_ok_of_toOption hrules, isAcyclic_of_mem (Or.inl rfl),
    List.mem_cons_of_mem _ List.mem_cons_self, isReached_longRule "<x>", hdone, _,
    eq_ok_of_toOption hroot, fun path hpath => ?_⟩
  have hpaths : (Network.link (longRule "<x>")).pathsTo 1 = [[0, 1]] := by decide +kernel
  rw [hpaths, List.mem_singleton] at hpath
  rw [hpath]
  exact eq_ok_of_toOption hfound

end SoarProject
