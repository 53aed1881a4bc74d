import SoarProject.Proofs.Datamap.Precedence
import SoarProject.Proofs.Project.Searching

/-!
# Kinds of constants in a generated datamap

Rules may give an attribute of a state several constants, also such that are spelled alike and differ in kind: a
number, and a symbol of its digits. Triples are the same access if their variables, attributes and values agree,
and so of these only the first is shown. It is shown by a node for its kind, whatever the other accesses are.

* `relatedAccesses`: what the related rules read and write, before what is the same access is left out.
* `generateDatamap_shows_kinds`: below the root there is a node for every constant of a state that is of the kind
  with which its access comes first.
* `not_shows_kinds`: there is none for a constant whose access comes first with another kind.
-/

namespace SoarProject

variable {w : Bool} {s s' : Session} {st : Store} {v v' : View} {r : Row} {ns : List Network}
  {ts : List Triple} {lists : List (List Triple)} {t : Triple} {p : Triple → Bool}

/-! ### The accesses of the related rules -/

/-- The accesses of the related rules, rule by rule. -/
def relatedAccesses (problemSpace : Row) : Query (List (List Triple)) := do
  (← relatedRules problemSpace).mapM Row.readAccesses

/-- The first access on a state that is the same as a triple. -/
def firstSame? (read : List Triple) (t : Triple) : Option Triple := read.find? fun u => u.isState && u.same t

/-- Where the triples of the related rules are found, so are their accesses. -/
theorem exists_relatedAccesses (h : (relatedTriples r).run s = .ok ns) :
    ∃ lists, (relatedAccesses r).run s = .ok lists ∧ ns = (lists.map distinctTriples).map .link := by
  obtain ⟨rules, hrules, h⟩ := exceptBind_eq_ok.mp h
  obtain ⟨found, hfound, heq⟩ := exceptBind_eq_ok.mp h
  obtain rfl := Except.ok.inj heq
  -- Rule by rule: what is extracted is the network of the distinct accesses that were read.
  have hall : ∀ (rules : List Row) (found : List (Network × View)),
      (rules.mapM fun r => extractTriples r.view).run s = .ok found →
      ∃ lists, (rules.mapM Row.readAccesses).run s = .ok lists ∧
        found.map (·.1) = (lists.map distinctTriples).map .link := by
    intro rules
    induction rules with
    | nil =>
      intro found hfound
      obtain rfl := Except.ok.inj hfound
      exact ⟨[], rfl, rfl⟩
    | cons rule rest ih =>
      intro found hfound
      rw [List.mapM_cons] at hfound ⊢
      obtain ⟨extracted, hextracted, hfound⟩ := exceptBind_eq_ok.mp hfound
      obtain ⟨found, hrest, heq⟩ := exceptBind_eq_ok.mp hfound
      obtain rfl := Except.ok.inj heq
      rw [extractTriples_eq_readAccesses] at hextracted
      obtain ⟨read, hread, hextracted⟩ := exceptBind_eq_ok.mp hextracted
      obtain ⟨name, -, heq⟩ := exceptBind_eq_ok.mp hextracted
      obtain rfl := Except.ok.inj heq
      obtain ⟨lists, hlists, heq⟩ := ih found hrest
      refine ⟨read :: lists, ?_, congrArg (Network.link (distinctTriples read) :: ·) heq⟩
      exact exceptBind_eq_ok.mpr ⟨read, hread, exceptBind_eq_ok.mpr ⟨lists, hlists, rfl⟩⟩
  obtain ⟨lists, hlists, heq⟩ := hall rules found hfound
  exact ⟨lists, exceptBind_eq_ok.mpr ⟨rules, hrules, hlists⟩, heq⟩

/-- The accesses of the related rules have texts as their values, and in one rule it depends on the variable whether
one is on a state. -/
theorem finds_relatedAccesses : (relatedAccesses r).Finds st False (fun lists => ∀ ts ∈ lists,
    ∃ states : List String, ∀ t ∈ ts, t.IsText ∧ t.isState = states.contains t.subject) := by
  unfold relatedAccesses
  refine Query.finds_any.bind fun rules _ => ?_
  exact (Query.Finds.mapM_mem fun rule _ => finds_readAccesses).mono fun lists hlists ts hts =>
    (hlists.2 ts hts).choose_spec.2

/-! ### The first of several accesses -/

/-- The first triple for which something holds is kept, if it holds for the same accesses alike. -/
theorem find?_distinctTriples (hp : ∀ a ∈ ts, ∀ b ∈ ts, a.same b = true → p a = p b) :
    (distinctTriples ts).find? p = ts.find? p := by
  have hfold : ∀ kept ts : List Triple,
      (∀ a ∈ kept ++ ts, ∀ b ∈ kept ++ ts, a.same b = true → p a = p b) →
      (ts.foldl (fun kept t => if kept.any (·.same t) then kept else kept ++ [t]) kept).find? p =
        (kept ++ ts).find? p := by
    intro kept ts
    induction ts generalizing kept with
    | nil => simp
    | cons t ts ih =>
      intro hp
      rw [List.foldl_cons]
      by_cases hkept : kept.any (·.same t) = true
      · -- If the property holds for the triple that is left out, it holds for one before it.
        obtain ⟨a, ha, hsame⟩ := List.any_eq_true.mp hkept
        have hat : p a = p t := hp a (by simp [ha]) t (by simp) hsame
        rw [if_pos hkept, ih kept fun a ha b hb => hp a (by grind) b (by grind), List.find?_append,
          List.find?_append, List.find?_cons]
        cases hpt : p t with
        | false => rfl
        | true =>
          have hsome : (kept.find? p).isSome := List.find?_isSome.mpr ⟨a, ha, hat.trans hpt⟩
          obtain ⟨first, hfirst⟩ := Option.isSome_iff_exists.mp hsome
          rw [hfirst]
          rfl
      · rw [if_neg hkept, ih (kept ++ [t]) (by simpa using hp), List.append_assoc, List.singleton_append]
  exact hfold [] ts hp

/-- The first triple for which something holds is kept in the lists of several rules. -/
theorem find?_flatten_distinctTriples
    (hp : ∀ ts ∈ lists, ∀ a ∈ ts, ∀ b ∈ ts, a.same b = true → p a = p b) :
    (lists.map distinctTriples).flatten.find? p = lists.flatten.find? p := by
  induction lists with
  | nil => rfl
  | cons ts lists ih =>
    rw [List.forall_mem_cons] at hp
    rw [List.map_cons, List.flatten_cons, List.flatten_cons, List.find?_append, List.find?_append, ih hp.2,
      find?_distinctTriples hp.1]

/-- Of several rules, a selected path begins with the first access on a state that is the same as a triple, if its
value is a constant. -/
theorem exists_terminalPath_of_firstSame (hread : ∀ ts ∈ lists, ∃ states : List String, ∀ t ∈ ts,
      t.IsText ∧ t.isState = states.contains t.subject) (ht : t.IsText) {u : Triple}
    (hu : firstSame? lists.flatten t = some u) (hconstant : u.isLink = false) :
    let n := Network.concat ((lists.map distinctTriples).map .link)
    ∃ p ∈ n.terminalPaths, ∃ i rest, p.path = i :: rest ∧ n.triple i = u := by
  intro n
  have hspec : ∀ ts ∈ lists.map distinctTriples, (∀ t ∈ ts, t.IsText) ∧ Network.Apart ts := by
    refine List.forall_mem_map.mpr fun ts hts => ?_
    obtain ⟨states, hstates⟩ := hread ts hts
    obtain ⟨htexts, hnodup⟩ := distinctTriples_spec fun t ht => (hstates t ht).1
    exact ⟨htexts, apart_of_nodup htexts hnodup⟩
  -- Whether a state access is meant depends on its subject, which is part of the access.
  have halike : ∀ ts ∈ lists, ∀ a ∈ ts, ∀ b ∈ ts, a.same b = true →
      (a.isState && a.same t) = (b.isState && b.same t) := by
    intro ts hts a ha b hb hsame
    obtain ⟨states, hstates⟩ := hread ts hts
    rw [(hstates a ha).2, (hstates b hb).2, Triple.subject_eq_of_same hsame,
      Triple.same_congr (hstates b hb).1 ht hsame]
  rw [firstSame?, ← find?_flatten_distinctTriples halike] at hu
  obtain ⟨hholds, i, hi, hat, hbefore⟩ := List.find?_eq_some_iff_getElem.mp hu
  rw [Bool.and_eq_true] at hholds
  have htriple : n.triple i = u := (Network.triple_concat_link hi).trans hat
  have htextu : u.IsText := by
    obtain ⟨ts, hts, hmem⟩ := List.mem_flatten.mp (hat ▸ List.getElem_mem hi)
    exact (hspec ts hts).1 u hmem
  -- The first access about the state that is the same begins a terminal path.
  obtain ⟨p, hp, rest, hpath⟩ := Network.exists_terminalPath_of_first (fun ts hts => (hspec ts hts).2)
    (fun ts hts => (hspec ts hts).1) (htriple ▸ hholds.1) (htriple ▸ hconstant) fun j hj hstate => by
      have hlt := hj.trans hi
      have hnot := hbefore j hj
      rw [htriple, ← Bool.not_eq_true]
      rw [Network.triple_concat_link hlt] at hstate ⊢
      intro hsame
      simp [hstate, Triple.same_congr htextu ht hsame, hholds.2] at hnot
  exact ⟨p, hp, i, rest, hpath, htriple⟩

/-! ### Generated datamaps -/

/-- After the datamap of a problem space was generated with all corrections, there is a node below its root for every
constant that a related rule reads or writes on a state, also if the access repeats an earlier one: a node of the
attribute's name for the kind of the constant, if the first access on a state that is the same has this kind. -/
theorem generateDatamap_shows_kinds (hs : s.Opens w st) (h : st.Integral) (hv : st.Has v.row)
    {select : List Correction → List Correction} (hselect : ∀ cs, select cs ⊆ cs)
    (hall : ∀ cs, cs ⊆ select cs) {applied : List Correction}
    (hrun : (generateDatamap select).run.run (v, s) = (.ok applied, v', s')) :
    ∃ st', s'.Opens w st' ∧ (st'.Fits → ∃ root, (v.row.datamapRoot?).Finds st' True (· = some root) ∧
      (relatedAccesses v.row).Finds st' True fun lists => ∀ t ∈ lists.flatten, t.isState = true →
        t.isLink = false → (∀ u, firstSame? lists.flatten t = some u → u.kind = t.kind) →
          ∃ c, st'.Stands root t c) := by
  obtain ⟨st₁, st', root, ns, -, hs', -, hgenerated⟩ := exists_generated hs h hv hselect hrun
  refine ⟨st', hs', fun hfits => ⟨root, hgenerated.finds_root hfits, fun w₁ s₁ hs₁ => ?_⟩⟩
  obtain ⟨_, hns, rfl⟩ := (hgenerated.finds_triples hfits).exists_run hs₁
  obtain ⟨lists, hlists, heq⟩ := exists_relatedAccesses hns
  have hread := finds_relatedAccesses.of_run hs₁ hlists
  rw [hlists]
  intro t ht hstate hconstant hfirst
  obtain ⟨ts, hts, htmem⟩ := List.mem_flatten.mp ht
  obtain ⟨states, hstates⟩ := hread ts hts
  have htext := (hstates t htmem).1
  -- The access itself is on a state, and so there is a first one.
  obtain ⟨u, hu⟩ : ∃ u, firstSame? lists.flatten t = some u := by
    refine Option.isSome_iff_exists.mp (List.find?_isSome.mpr ⟨t, ht, ?_⟩)
    rw [hstate, Triple.same_refl]
    rfl
  have hkind := hfirst u hu
  have hsame : u.same t = true := (Bool.and_eq_true _ _ ▸ List.find?_some hu).2
  have hshape : t.shape = u.shape := by
    have haccess := (Triple.same_iff_access_eq htext).mp hsame
    simp only [Triple.access, Prod.mk.injEq] at haccess
    rw [Triple.shape, Triple.shape, haccess.2.1, haccess.2.2, hkind]
  obtain ⟨p, hp, i, rest, hpath, htriple⟩ := exists_terminalPath_of_firstSame hread htext hu
    (by rwa [Triple.isLink, hkind])
  obtain ⟨proposed, hcorrects⟩ := hgenerated.corrects
  rw [← heq] at hp htriple
  obtain ⟨q, hleads⟩ := hcorrects.leads (hall proposed) hp fun t => hgenerated.isText hp
  rw [hpath, Network.steps, List.map_cons, htriple] at hleads
  cases hleads with
  | @cons _ c _ _ _ hstands _ => exact ⟨c, hstands.of_shape hshape⟩

/-- A rule that gives an attribute of its state constants of all kinds. -/
def kindsText : String := "sp \x7bkinds (state <s> ^a 1 ^a 1.5 ^a << on off >>) --> (<s> ^a 1) \x7d"

/-- What the rule reads and writes. -/
def kindsRead : List Triple :=
  [⟨"<s>", "a", .text "1", .integer, true⟩, ⟨"<s>", "a", .text "1.5", .float, true⟩,
    ⟨"<s>", "a", .text "on", .string, true⟩, ⟨"<s>", "a", .text "off", .string, true⟩,
    ⟨"<s>", "a", .text "1", .integer, true⟩]

/-- Below the root there is a node for each constant of the rule. -/
theorem generateDatamap_shows_kinds_oneRule :
    ∃ s ∈ Operation.performAll (oneRule kindsText) Reachable.newProject, ∃ applied v' s' st',
      (generateDatamap id).run.run (space, s) = (.ok applied, v', s') ∧ s'.Opens true st' ∧
        (relatedAccesses space.row).run s' = .ok [kindsRead] ∧
        ∀ t ∈ kindsRead, ∃ c, st'.Stands (node 1) t c := by
  have hchecked : ∃ s ∈ Operation.performAll (oneRule kindsText) Reachable.newProject,
      (s.store.toOption.any fun st => st.Has space.row) = true ∧
      ((generateDatamap id).run.run (space, s)).1.isOk = true ∧
      let s' := ((generateDatamap id).run.run (space, s)).2.2
      (s'.store.toOption.any fun st => Table.all.all fun t => (st.rows t).all fun record =>
        fitsInteger record.id) = true ∧
      ((space.row.datamapRoot?).run s').toOption = some (some (node 1)) ∧
      ((relatedAccesses space.row).run s').toOption = some [kindsRead] := by
    decide +kernel
  obtain ⟨s, hs, hspace, hdone, hfits, hroot, hread⟩ := hchecked
  obtain ⟨st, hopen, hst⟩ := (reachable_oneRule hs).exists_integral
  have hhas : st.Has space.row := by simpa [hopen.store_eq, Except.toOption] using hspace
  rcases hrun : (generateDatamap id).run.run (space, s) with ⟨_ | applied, v', s'⟩
  · rw [hrun] at hdone
    cases hdone
  rw [hrun] at hfits hroot hread
  have hall : ∀ cs : List Correction, id cs ⊆ cs := fun cs => List.Subset.refl cs
  obtain ⟨st', hs', hshows⟩ := generateDatamap_shows_kinds hopen hst hhas hall hall hrun
  obtain ⟨root, hfound, haccesses⟩ :=
    hshows (Store.fits_of_all (by simpa [hs'.store_eq, Except.toOption] using hfits))
  obtain rfl := Option.some.inj (hfound.of_run hs' (eq_ok_of_toOption hroot))
  have hnodes := haccesses.of_run hs' (eq_ok_of_toOption hread)
  refine ⟨s, hs, applied, v', s', st', hrun, hs', eq_ok_of_toOption hread, fun t ht => ?_⟩
  -- Each access of the rule is the first of its kind, and so its node shows the kind.
  have hkinds : ∀ t ∈ kindsRead, t.isState = true ∧ t.isLink = false ∧
      firstSame? [kindsRead].flatten t = some t := by decide
  obtain ⟨hstate, hconstant, hfirst⟩ := hkinds t ht
  exact hnodes t (by simpa using ht) hstate hconstant fun u hu => by
    rw [hfirst] at hu
    rw [← Option.some.inj hu]

/-- A rule that gives an attribute of its state a number and a symbol of its digits. -/
def digitsText : String := "sp \x7bdigits (state <s> ^a 1 ^a |1|) --> \x7d"

/-- The symbol that the rule looks for, second to the number. -/
def digitSymbol : Triple := ⟨"<s>", "a", .text "1", .string, true⟩

/-- There is no node for a constant whose access comes first with another kind. -/
theorem not_shows_kinds :
    ∃ s ∈ Operation.performAll (oneRule digitsText) Reachable.newProject, ∃ applied v' s' st' lists,
      (generateDatamap id).run.run (space, s) = (.ok applied, v', s') ∧ s'.Opens true st' ∧
        (space.row.datamapRoot?).run s' = .ok (some (node 1)) ∧
        (relatedAccesses space.row).run s' = .ok lists ∧ ∃ t ∈ lists.flatten, t.isState = true ∧
          t.isLink = false ∧ ¬ ∃ c, st'.Stands (node 1) t c := by
  have hchecked : ∃ s ∈ Operation.performAll (oneRule digitsText) Reachable.newProject,
      (s.store.toOption.any fun st => st.Has space.row) = true ∧
      ((generateDatamap id).run.run (space, s)).1.isOk = true ∧
      let s' := ((generateDatamap id).run.run (space, s)).2.2
      (s'.store.toOption.any fun st => st.Has (node 1)) = true ∧
      ((space.row.datamapRoot?).run s').toOption = some (some (node 1)) ∧
      ((relatedAccesses space.row).run s').toOption =
        some [[{ digitSymbol with kind := .integer }, digitSymbol]] ∧
      (((node 1).matchingChildren digitSymbol).run s').toOption.map
        (·.map (·.row)) = some [] := by
    decide +kernel
  obtain ⟨s, hs, hspace, hdone, hnode, hroot, hread, hnone⟩ := hchecked
  obtain ⟨st, hopen, hst⟩ := (reachable_oneRule hs).exists_integral
  have hhas : st.Has space.row := by simpa [hopen.store_eq, Except.toOption] using hspace
  rcases hrun : (generateDatamap id).run.run (space, s) with ⟨_ | applied, v', s'⟩
  · rw [hrun] at hdone
    cases hdone
  rw [hrun] at hnode hroot hread hnone
  obtain ⟨-, st', hs', hgrows⟩ := ViewChange.ends_generateDatamap (w := true) hst hhas
    (fun cs => List.Subset.refl (id cs)) space s rfl hopen
  rw [hrun] at hs' hgrows
  have hhas' : st'.Has (node 1) := by simpa [hs'.store_eq, Except.toOption] using hnode
  refine ⟨s, hs, applied, v', s', st', _, hrun, hs', eq_ok_of_toOption hroot, eq_ok_of_toOption hread,
    digitSymbol, by simp, rfl, rfl, ?_⟩
  -- A node for the symbol would be found among the children, but none is.
  rintro ⟨c, hc⟩
  obtain ⟨found, hfound, hempty⟩ := Option.map_eq_some_iff.mp hnone
  obtain rfl := List.map_eq_nil_iff.mp hempty
  obtain ⟨view, hview, -⟩ := ((Row.finds_matchingChildren hgrows.integral.toSound hhas').of_run hs'
    (eq_ok_of_toOption hfound) c).mpr hc
  cases hview

end SoarProject
