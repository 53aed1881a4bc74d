import SoarProject.Project.Search
import SoarProject.Proofs.Datamap.Tree
import SoarProject.Proofs.Project.Convergence
import SoarProject.Proofs.Session.Looking

/-!
# Searching a generated datamap

The datamap of a problem space is generated downward, from the triples of rules to nodes. A search by one of
its nodes goes upward, from the node to attributes, and compares these with the paths of the triples of each
rule. Where the datamap was only its root, the two agree: every part of a selected path leads to a node whose
attributes are those of the part, the search by the node finds the rule of the path, and there are no other
nodes.

* `Row.Uses`: what the search looks for in a rule.
* `looks_searchAttribute`: what the search by a node of a tree finds.
* `generateDatamap_searchable`: every node of a generated datamap is found by a selected path, and its search
  finds the rule of this path.
-/

namespace SoarProject

open Registry
open ViewChange (Looks)

variable {w : Bool} {s s' : Session} {st : Store} {v v' : View} {r q root owner : Row}
  {path : List Triple} {paths : List (List Triple)} {ns : List Network} {n : Network}
  {attributes : List String}

/-! ### The triples of a rule -/

namespace Row

/-- The linked triples of a rule. -/
def linkedTriples (rule : Row) : Query Network := do
  let states ← stateVariables rule
  let tests ← triplesBelow rule .conditionForOneIdentifiers .attributeValueTests testTriples
  let makes ← triplesBelow rule .varAttrValMakes .attributeValueMakes makeTriples
  return .link ((distinctTriples (tests ++ makes)).map fun t =>
    { t with isState := states.contains t.subject })

/-- The triples of a rule are extracted, and then its name is looked at. -/
theorem extractTriples_eq (v : View) : extractTriples v = (do
    let n ← v.row.linkedTriples
    let found ← v.name
    return (n, found.2)) := by
  simp only [extractTriples, linkedTriples, bind_assoc, pure_bind]

/-- The triples that are surely extracted from a rule are linked. -/
theorem finds_linkedTriples (h : (extractTriples r.view).Finds st True (·.1 = n)) :
    r.linkedTriples.Finds st True (· = n) := by
  rw [extractTriples_eq] at h
  refine h.of_bind fun m => ?_
  exact Query.finds_any.bind fun _ _ => Query.Finds.pure fun heq => heq

/-- A rule has a path with some attributes. -/
def Uses (st : Store) (r : Row) (attributes : List String) : Prop :=
  ∃ n, r.linkedTriples.Finds st True (· = n) ∧ ∃ i < n.size, n.matchesPath i attributes = true

end Row

/-- Whether a rule has a path with some attributes is found. -/
theorem finds_usesPath (h : st.Sound) (hfits : st.Fits) (hv : st.Has v.row) (hknows : v.Knows st)
    (hn : v.row.linkedTriples.Finds st True (· = n)) :
    (usesPath attributes v).Finds st True (fun found => found = true ↔ v.row.Uses st attributes) := by
  unfold usesPath
  rw [Row.extractTriples_eq, bind_assoc]
  refine hn.bind ?_
  rintro _ rfl
  rw [bind_assoc]
  refine ((View.finds_name_of_knows h hv hknows).mono_sure fun _ => hfits).bind fun found _ => ?_
  refine Query.Finds.pure ?_
  simp only [List.any_eq_true, List.mem_range]
  refine ⟨fun huses => ⟨_, hn, huses⟩, fun ⟨m, hm, huses⟩ => ?_⟩
  obtain ⟨_, rfl, rfl⟩ := hn.exists_both hm
  exact huses

/-! ### The related rules -/

/-- The rules that belong to a problem space, with their networks. -/
structure Store.Relates (st : Store) (owner : Row) (rules : List Row) (ns : List Network) : Prop where
  rules_eq : (relatedRules owner).Finds st True (· = rules)
  triples_eq : List.Forall₂ (fun r n => (extractTriples r.view).Finds st True (·.1 = n)) rules ns
  has : ∀ r ∈ rules, st.Has r

/-- The triples that are surely found for the related rules are those of each rule. -/
theorem exists_relates (h : st.Integral) (hfits : st.Fits)
    (hns : (relatedTriples owner).Finds st True (· = ns)) : ∃ rules, st.Relates owner rules ns := by
  have hkeeps := Store.KeepsRules.refl st
  unfold relatedTriples at hns
  -- The whole query does not fail, so its first half does not.
  have hfirst : (relatedRules owner).Finds st True fun _ => True :=
    hns.of_bind fun _ => Query.finds_any.mono fun _ _ _ => trivial
  obtain ⟨rules, -, hrules⟩ := (sameIn_relatedRules hkeeps).exists_eq hfirst
  have hhas : ∀ r ∈ rules, r.table = .rules ∧ st.Has r := by
    obtain ⟨_, rfl, hhas⟩ := hrules.exists_both (finds_relatedRules_has h.toSound)
    exact hhas
  have hlists : (rules.mapM fun r => extractTriples r.view).Finds st True fun found =>
      found.map (·.1) = ns := (hns.of_bind_eq hrules).of_bind fun found => Query.Finds.pure id
  -- Each extraction gives its own list, the same in every session on the store.
  obtain ⟨found, rfl, hfound⟩ := hlists.exists_mapM_eq fun r hr =>
    sameIn_extractTriples hkeeps h (.refl h) hfits (hhas r hr).1 (hhas r hr).2
  refine ⟨rules, hrules, ?_, fun r hr => (hhas r hr).2⟩
  rw [List.forall₂_map_right_iff]
  exact hfound.imp fun r e he => he.mono fun _ heq => congrArg Prod.fst heq

namespace Store.Relates

variable {rules : List Row} (h : st.Relates owner rules ns)

include h

theorem length_eq : rules.length = ns.length := h.triples_eq.length_eq

/-- Each rule has linked triples. -/
theorem exists_linkedTriples (hr : r ∈ rules) : ∃ n, r.linkedTriples.Finds st True (· = n) := by
  obtain ⟨n, -, hn⟩ := (mem_of_forall₂ h.triples_eq).1 r hr
  exact ⟨n, Row.finds_linkedTriples hn⟩

/-- The triples of a rule are those of its network. -/
theorem finds_linkedTriples {k : Nat} (hr : rules[k]? = some r) (hk : k < ns.length) :
    r.linkedTriples.Finds st True (· = ns[k]) := by
  obtain ⟨hlt, rfl⟩ := List.getElem?_eq_some_iff.mp hr
  exact Row.finds_linkedTriples (h.triples_eq.get hlt hk)

end Store.Relates

/-! ### Looking from a node of a tree -/

section Looking

variable (h : st.Integral) (hfits : st.Fits) (htree : st.IsTree root paths) (hroot : st.Has root)
  (hpath : st.Leads root path v.row) (hknows : v.Knows st)

include h hfits hroot hpath hknows

/-- What a view is once it was asked for its path. -/
theorem finds_onPath : v.onPath.Finds st True (fun v' => v'.row = v.row ∧ v'.Knows st) := by
  have hhas := h.toSound.has_of_leads hroot hpath
  unfold View.onPath Row.hasParentJoinedRows
  rw [bind_assoc]
  refine ((Row.finds_parentJoinedRows h.toSound).mono_sure fun _ => hfits.row hhas).bind ?_
  rintro _ rfl
  rw [pure_bind]
  split
  · refine ((View.finds_name_of_knows h.toSound hhas hknows).mono_sure fun _ => hfits).bind ?_
    exact fun found ⟨hrow, hknows', _⟩ => Query.Finds.pure ⟨hrow, hknows'⟩
  · exact Query.Finds.pure ⟨rfl, hknows⟩

/-- A view still remembers no other name once it was asked for its path. -/
theorem looks_onPath : (ViewChange.through fun v => return ((), ← v.onPath)).Looks st v
    (fun _ v' => v'.row = v.row ∧ v'.Knows st) :=
  Looks.through (g := fun v' => ((), v')) rfl (finds_onPath h hfits hroot hpath hknows)

include htree

/-- The path attributes that a node shows are the attributes of the path to it. -/
theorem looks_pathAttributes :
    ViewChange.pathAttributes.Looks st v (fun names v' =>
      names = path.map (.text ·.attributeName) ∧ v'.row = v.row ∧ v'.Knows st) := by
  unfold ViewChange.pathAttributes
  refine (looks_onPath h hfits hroot hpath hknows).bind ?_
  rintro - v' ⟨hrow, hknows'⟩
  refine Looks.through (g := id) (bind_pure _).symm ?_
  rw [← hrow] at hpath ⊢
  exact (htree.finds_pathAttributes h hroot hpath hknows').mono_sure fun _ => hfits

/-- A node has a path name. -/
theorem looks_pathName :
    ViewChange.pathName.Looks st v (fun _ v' => v'.row = v.row ∧ v'.Knows st) := by
  unfold ViewChange.pathName
  refine (looks_onPath h hfits hroot hpath hknows).bind ?_
  rintro - v' ⟨hrow, hknows'⟩
  refine Looks.through (g := id) (bind_pure _).symm ?_
  rw [← hrow] at hpath ⊢
  unfold View.pathName
  refine ((htree.finds_pathAttributes h hroot hpath hknows').mono_sure fun _ => hfits).bind ?_
  rintro ⟨names, v''⟩ ⟨rfl, hrow', hknows''⟩
  -- All names of the path are texts, so none of them stops the joining.
  have htexts : (path.map (Value.text ·.attributeName)).findIdx? (!·.isSomeText) = none := by
    simp [List.findIdx?_eq_none_iff, Value.isSomeText]
  have hjoined := joinedPath.eq_def (path.map (Value.text ·.attributeName))
  rw [htexts] at hjoined
  dsimp only at hjoined ⊢
  rw [hjoined]
  exact Query.Finds.pure ⟨hrow', hknows''⟩

end Looking

/-- The search by a node of a tree finds the related rules that have a path with the attributes of the path to
the node. -/
theorem looks_searchAttribute (h : st.Integral) (hfits : st.Fits) (htree : st.IsTree root paths)
    (hroot : st.Has root) (htable : root.table = .datamapIdentifiers) (hspace : st.IsParent owner root)
    (hspacetable : owner.table = .problemSpaces) {rules : List Row} (hrules : st.Relates owner rules ns)
    (hpath : st.Leads root path v.row) (hknows : v.Knows st) :
    searchAttribute.Looks st v (fun found _ => ∀ r, r ∈ found.rules ↔
      r ∈ rules ∧ r.Uses st (path.map (·.attributeName))) := by
  unfold searchAttribute
  refine (looks_pathAttributes h hfits htree hroot hpath hknows).bind ?_
  rintro _ v₁ ⟨rfl, hrow, hknows₁⟩
  refine Looks.row ?_
  have hhas := h.toSound.has_of_leads hroot hpath
  -- The path of the node says which attributes to look for; climbing from it finds the problem space.
  have hclimbs : st.Climbs .problemSpaces [] v₁.row owner :=
    htree.climbs h htable hspace hspacetable (hrow ▸ hpath) fun x hx => absurd hx List.not_mem_nil
  refine Looks.query ((Row.finds_ancestorRow h (hrow ▸ hhas)).mono_sure fun _ => hfits) fun found hfound => ?_
  rw [(hfound owner).mpr hclimbs]
  dsimp only
  refine Looks.query hrules.rules_eq fun found hfound => ?_
  rw [hfound]
  -- The name of the node goes into the title only.
  refine (looks_pathName h hfits htree hroot (hrow ▸ hpath) hknows₁).bind fun name v₂ _ => ?_
  have hshown : (path.map (Value.text ·.attributeName)).map Value.shown = path.map (·.attributeName) := by
    rw [List.map_map]
    rfl
  rw [hshown]
  -- Each rule comes with whether it uses the path.
  let IsResult (r : Row) (result : Row × Value × Bool) : Prop :=
    result.1 = r ∧ (result.2.2 = true ↔ r.Uses st (path.map (·.attributeName)))
  refine (Looks.mapM (T := IsResult) fun r hr => ?_).bind ?_
  · have hname := View.finds_name_of_knows h.toSound (hrules.has r hr) (Row.knows_view r st)
    refine Looks.query (hname.mono_sure fun _ => hfits) ?_
    rintro ⟨_, rule⟩ ⟨hrule, hknows', -⟩
    obtain ⟨n, hn⟩ := hrules.exists_linkedTriples hr
    replace hrule : rule.row = r := hrule
    dsimp only at hknows' ⊢
    refine Looks.query (finds_usesPath h.toSound hfits (hrule ▸ hrules.has r hr) hknows' (hrule ▸ hn))
      fun found hfound => Looks.pure ⟨⟨rfl, ?_⟩, rfl⟩
    rwa [hrule] at hfound
  rintro results _ ⟨hresults, -⟩
  obtain ⟨hall, hnone⟩ := mem_of_forall₂ hresults
  -- The rules that were marked are the ones shown.
  refine Looks.pure fun r => ?_
  simp only [List.mem_map, List.mem_filter]
  constructor
  · rintro ⟨result, ⟨hmem, huses⟩, rfl⟩
    obtain ⟨r, hr, rfl, hiff⟩ := hnone result hmem
    exact ⟨hr, hiff.mp huses⟩
  · rintro ⟨hr, huses⟩
    obtain ⟨result, hmem, rfl, hiff⟩ := hall r hr
    exact ⟨result, ⟨hmem, hiff.mpr huses⟩, rfl⟩

/-! ### Generated datamaps -/

/-- A node shows some attributes as its path, and the search by it finds a rule. -/
def Store.ShowsUse (st : Store) (q : Row) (attributes : List String) (r : Row) : Prop :=
  ∀ v : View, v.row = q → v.Knows st →
    ViewChange.pathAttributes.Looks st v (fun names _ => names = attributes.map .text) ∧
    searchAttribute.Looks st v (fun found _ => r ∈ found.rules)

/-- A rule whose network a selected path belongs to has a path with the attributes of each part of it. -/
theorem Store.Relates.uses {rules : List Row} (h : st.Relates owner rules ns)
    (hlinked : ∀ n ∈ ns, n.WellLinked) {p : TerminalPath} (hp : p ∈ (Network.concat ns).terminalPaths)
    {k : Nat} (hr : rules[k]? = some r) (hbelongs : Network.Belongs ns k p.path) {front : List Nat}
    (hne : front ≠ []) (hfront : front <+: p.path) :
    r.Uses st (((Network.concat ns).steps front).map (·.attributeName)) := by
  obtain ⟨hlt, -⟩ := List.getElem?_eq_some_iff.mp hr
  obtain ⟨i, -, hpath⟩ := (Network.selected_terminalPaths _).exists_pathsTo hp
  have hk : k < ns.length := h.length_eq ▸ hlt
  obtain ⟨j, hj, path, hmem, hsteps⟩ := hbelongs.exists_mem_pathsTo hlinked hk hpath hne hfront
  refine ⟨ns[k], h.finds_linkedTriples hr hk, j, hj, List.any_eq_true.mpr ⟨path, hmem, ?_⟩⟩
  rw [hsteps, beq_self_eq_true]

/-- Where a datamap is a tree along the selected paths of the related rules, the search by each node finds the
rules of the path that leads to it. -/
theorem Store.Relates.showsUse {rules : List Row} (hrules : st.Relates owner rules ns) (h : st.Integral)
    (hfits : st.Fits) (htree : st.IsTree root paths) (hroot : st.Has root)
    (htable : root.table = .datamapIdentifiers) (hspace : st.IsParent owner root)
    (hspacetable : owner.table = .problemSpaces) (hpath : st.Leads root path q) {k : Nat}
    (hr : rules[k]? = some r) (huses : r.Uses st (path.map (·.attributeName))) :
    st.ShowsUse q (path.map (·.attributeName)) r := by
  rintro v rfl hknows
  constructor
  · refine (looks_pathAttributes h hfits htree hroot hpath hknows).mono ?_
    rintro _ v' ⟨rfl, -⟩
    rw [List.map_map]
    rfl
  · refine (looks_searchAttribute h hfits htree hroot htable hspace hspacetable hrules hpath hknows).mono ?_
    exact fun found _ hfound => (hfound r).mpr ⟨List.mem_of_getElem? hr, huses⟩

/-- After the datamap of a problem space, which was only its root, was generated with all corrections, every
selected path belongs to a related rule. Each part of such a path leads to nodes that show its attributes, and
the search by these nodes finds the rule. Every node that is joined somewhere below the root is one of these. -/
theorem generateDatamap_searchable (hs : s.Opens w st) (h : st.Integral) (hv : st.Has v.row)
    (hspacetable : v.row.table = .problemSpaces)
    (hhead : (st.childrenIn v.row .datamapIdentifiers).head? = some root)
    (hbare : ∀ q, ¬ st.IsAbove root q ∧ ¬ st.IsAbove q root)
    {select : List Correction → List Correction} (hselect : ∀ cs, select cs ⊆ cs)
    (hall : ∀ cs, cs ⊆ select cs) {applied : List Correction}
    (hrun : (generateDatamap select).run.run (v, s) = (.ok applied, v', s')) :
    ∃ st', s'.Opens w st' ∧ (st'.Fits → ∃ rules ns, st'.Relates v.row rules ns ∧
      (v.row.datamapRoot?).Finds st' True (· = some root) ∧
      (∀ p ∈ (Network.concat ns).terminalPaths,
        (∃ k < rules.length, Network.Belongs ns k p.path) ∧
        ∀ front, front ≠ [] → front <+: p.path →
          (root.resolvePath ((Network.concat ns).steps front)).Finds st' True fun found =>
            found ≠ [] ∧ ∀ q ∈ found, ∀ k r, rules[k]? = some r → Network.Belongs ns k p.path →
              st'.ShowsUse q (((Network.concat ns).steps front).map (·.attributeName)) r) ∧
      ∀ q, st'.IsBelow root q → ∃ p ∈ (Network.concat ns).terminalPaths, ∃ front, front ≠ [] ∧
        front <+: p.path ∧
        (root.resolvePath ((Network.concat ns).steps front)).Finds st' True (q ∈ ·) ∧
        ∃ r ∈ rules, st'.ShowsUse q (((Network.concat ns).steps front).map (·.attributeName)) r) := by
  obtain ⟨st₁, st', root', ns, hs₁, hs', hgrows₁, hgenerated⟩ := exists_generated hs h hv hselect hrun
  refine ⟨st', hs', fun hfits => ?_⟩
  obtain ⟨proposed, hcorrects⟩ := hgenerated.corrects
  have hgrows := hgenerated.grows
  have hintegral := hgrows.integral
  -- The root is there, and so the corrections begin with the store as it is.
  have hfits₀ : st.Fits := fun t record hrecord =>
    hfits t record ((hgrows₁.trans hgrows).rows_subset t hrecord)
  obtain ⟨-, st₂, hs₂, hfound⟩ := ViewChange.ends_ensureRoot_found h.toSound hfits₀ hv hhead v s rfl hs
  obtain rfl := hs₁.store_unique hs₂
  obtain rfl : st₁ = st := by
    split at hfound
    · exact hfound.2
    · exact hfound.elim
  obtain rfl : root' = root := Option.some.inj (hgenerated.head?_eq.symm.trans hhead)
  obtain ⟨rules, hrules⟩ := exists_relates hintegral hfits (hgenerated.finds_triples hfits)
  have hroot := hgenerated.has_root
  obtain ⟨htable, hparent⟩ : root'.table = .datamapIdentifiers ∧ st₁.IsParent v.row root' := by
    obtain ⟨id, hid⟩ := hv.exists_id
    rw [hid] at hhead ⊢
    exact h.mem_childrenIn_iff.mp (List.mem_of_head? hhead)
  have htexts : ∀ p ∈ (Network.concat ns).terminalPaths, ∀ t ∈ (Network.concat ns).steps p.path, t.IsText :=
    fun p hp t => hgenerated.isText hp
  have htree := hcorrects.isTree hroot htexts (Store.isTree_of_bare hbare)
  have hlinked : ∀ n ∈ ns, n.WellLinked := by
    intro n hn
    obtain ⟨ts, rfl, hapart, -⟩ := hgenerated.linked n hn
    exact Network.wellLinked_link hapart
  have hbelongs : ∀ p ∈ (Network.concat ns).terminalPaths, ∃ k < rules.length,
      Network.Belongs ns k p.path := by
    intro p hp
    obtain ⟨i, -, hpath⟩ := (Network.selected_terminalPaths _).exists_pathsTo hp
    obtain ⟨k, hk, hk'⟩ := Network.exists_belongs hlinked hpath
    exact ⟨k, hrules.length_eq ▸ hk, hk'⟩
  have hresolves : ∀ path, (root'.resolvePath path).Finds st' True fun found =>
      ∀ q, q ∈ found ↔ st'.Leads root' path q := fun _ => hcorrects.finds_resolvePath hroot hfits
  have hshows : ∀ p ∈ (Network.concat ns).terminalPaths, ∀ front, front ≠ [] → front <+: p.path →
      ∀ q, st'.Leads root' ((Network.concat ns).steps front) q → ∀ k r, rules[k]? = some r →
        Network.Belongs ns k p.path →
          st'.ShowsUse q (((Network.concat ns).steps front).map (·.attributeName)) r :=
    fun p hp front hne hfront q hpath k r hr hk =>
      hrules.showsUse hintegral hfits htree (hgrows.has hroot) htable (hgrows.isParent hparent)
        hspacetable hpath hr (hrules.uses hlinked hp hr hk hne hfront)
  refine ⟨rules, ns, hrules, hgenerated.finds_root hfits, fun p hp => ⟨hbelongs p hp, ?_⟩, fun q hq => ?_⟩
  · intro front hne hfront
    obtain ⟨rest, hrest⟩ := hfront
    obtain ⟨q, hpath⟩ := hcorrects.leads (hall proposed) hp (htexts p hp)
    rw [← hrest, Network.steps, List.map_append] at hpath
    obtain ⟨c, hc⟩ := hpath.exists_of_append
    refine (hresolves _).mono fun found hfound => ⟨List.ne_nil_of_mem ((hfound c).mpr hc), fun q hq => ?_⟩
    exact hshows p hp front hne ⟨rest, hrest⟩ q ((hfound q).mp hq)
  · obtain ⟨_, hpath, _, hne, hfront, hleads⟩ := htree.isOn hq
    obtain ⟨p, hp, rfl⟩ := List.mem_map.mp hpath
    obtain ⟨front, hfront', rfl⟩ := List.prefix_map_iff.mp hfront
    have hne' : front ≠ [] := fun hnil => hne (by rw [hnil]; rfl)
    obtain ⟨k, hk, hbelongs⟩ := hbelongs p hp
    have hr := List.getElem?_eq_getElem hk
    exact ⟨p, hp, front, hne', hfront', (hresolves _).mono fun found hfound => (hfound q).mpr hleads,
      _, List.getElem_mem hk, hshows p hp front hne' hfront' q hleads k _ hr hbelongs⟩

/-! ### The datamap of one rule -/

/-- A project with one rule. -/
def oneRule (text : String) : List Operation :=
  [.createAgent (.text "agent"),
    .createChild (.ofId .agents 1) .problemSpaces (.text "space"),
    .createChild (.ofId .agents 1) .rules (.text "r"),
    .saveRule (Row.ofId .rules 1).view (.text text),
    .join (.ofId .rules 1) (.ofId .problemSpaces 1)]

/-- Whether nothing is joined below anything else can be checked. -/
theorem Store.not_isAbove_of_all
    (h : (project.directedPairs.all fun pair => (st.pairsOf (.directed pair.1 pair.2)).isEmpty) = true) :
    ¬ st.IsAbove r q := by
  rintro ⟨hpair, habove⟩
  rw [List.isEmpty_iff.mp (List.all_eq_true.mp h _ hpair)] at habove
  exact List.not_mem_nil habove

/-- A project with one rule is one that can be reached. -/
theorem reachable_oneRule {text : String}
    (hs : Operation.performAll (oneRule text) Reachable.newProject = some s) : Reachable true s := by
  refine (Reachable.start Reachable.opens_newProject).performAll (fun op hop => ?_) hs
  simp only [oneRule, List.mem_cons, List.not_mem_nil, or_false] at hop
  rcases hop with rfl | rfl | rfl | rfl | rfl <;> trivial

/-- The search by each of the two nodes of a rule with two triples finds this rule. -/
theorem generateDatamap_searchable_oneRule :
    ∃ s ∈ Operation.performAll (oneRule (longText "<y>")) Reachable.newProject, ∃ st',
      ((generateDatamap id).run.run (space, s)).2.2.Opens true st' ∧
        ∀ front ∈ [["io"], ["io", "input"]],
          ((node 1).resolvePath ((longRule "<y>").take front.length)).Finds st' True fun found =>
            found ≠ [] ∧ ∀ q ∈ found, st'.ShowsUse q front (.ofId .rules 1) := by
  have hchecked : ∃ s ∈ Operation.performAll (oneRule (longText "<y>")) Reachable.newProject,
      (s.store.toOption.any fun st => st.Has space.row &&
        ((st.childrenIn space.row .datamapIdentifiers).head? = some (node 1) &&
          project.directedPairs.all fun pair => (st.pairsOf (.directed pair.1 pair.2)).isEmpty)) = true ∧
      ((generateDatamap id).run.run (space, s)).1.isOk = true ∧
      let s' := ((generateDatamap id).run.run (space, s)).2.2
      (s'.store.toOption.any fun st => Table.all.all fun t => (st.rows t).all fun record =>
        fitsInteger record.id) = true ∧
      ((relatedRules space.row).run s').toOption = some [.ofId .rules 1] ∧
      (((Row.ofId .rules 1).linkedTriples).run s').toOption = some (.link (longRule "<y>")) := by
    decide +kernel
  obtain ⟨s, hs, hstore, hdone, hfits, hrules, htriples⟩ := hchecked
  obtain ⟨st, hopen, hst⟩ := (reachable_oneRule hs).exists_integral
  rw [hopen.store_eq] at hstore
  simp only [Except.toOption, Option.any_some, Bool.and_eq_true, decide_eq_true_eq] at hstore
  obtain ⟨hhas, hhead, hnone⟩ := hstore
  rcases hrun : (generateDatamap id).run.run (space, s) with ⟨_ | applied, v', s'⟩
  · rw [hrun] at hdone
    cases hdone
  rw [hrun] at hfits hrules htriples
  have hall : ∀ cs : List Correction, id cs ⊆ cs := fun cs => List.Subset.refl cs
  obtain ⟨st', hs', hsearch⟩ := generateDatamap_searchable hopen hst hhas rfl hhead
    (fun q => ⟨Store.not_isAbove_of_all hnone, Store.not_isAbove_of_all hnone⟩) hall hall hrun
  -- The problem space has one rule, and both prefixes of its path belong to it.
  obtain ⟨rules, ns, hrelates, -, hshows, -⟩ :=
    hsearch (Store.fits_of_all (by simpa [hs'.store_eq, Except.toOption] using hfits))
  obtain rfl := hrelates.rules_eq.of_run hs' (eq_ok_of_toOption hrules)
  obtain ⟨n, rfl⟩ := List.length_eq_one_iff.mp hrelates.length_eq.symm
  obtain rfl : .link (longRule "<y>") = n :=
    (hrelates.finds_linkedTriples rfl Nat.zero_lt_one).of_run hs' (eq_ok_of_toOption htriples)
  have hpath : ⟨[0, 1], []⟩ ∈ (Network.concat [.link (longRule "<y>")]).terminalPaths := by decide +kernel
  have hbelongs : Network.Belongs [.link (longRule "<y>")] 0 [0, 1] := by
    unfold Network.Belongs
    decide +kernel
  refine ⟨s, hs, st', by rwa [hrun], fun front hfront => ?_⟩
  simp only [List.mem_cons, List.not_mem_nil, or_false] at hfront
  rcases hfront with rfl | rfl
  · exact ((hshows _ hpath).2 [0] (by decide) ⟨[1], rfl⟩).mono fun found hfound =>
      ⟨hfound.1, fun q hq => hfound.2 q hq 0 _ rfl hbelongs⟩
  · exact ((hshows _ hpath).2 [0, 1] (by decide) ⟨[], rfl⟩).mono fun found hfound =>
      ⟨hfound.1, fun q hq => hfound.2 q hq 0 _ rfl hbelongs⟩

end SoarProject
