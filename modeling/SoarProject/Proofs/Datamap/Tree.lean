import SoarProject.Proofs.Datamap.Generation

/-!
# Datamaps that are trees

Below a root to which nothing is joined, corrections grow a tree: whatever comes below the root is joined below
one node, has no structural parent, and is the node that some part of a path leads to. In such a datamap the
way up from a node is the way down to it read backwards.

* `Store.IsTree`: what is below a root is a tree along some paths.
* `Store.IsTree.sprouts`: one node more leaves it a tree.
* `ViewChange.Corrects.isTree`: a datamap that is corrected stays a tree.
* `Store.IsTree.climbs`, `Store.IsTree.finds_pathAttributes`: the way up from a node, and the names on it.
-/

namespace SoarProject

open Registry

variable {st st' : Store} {r p p' c q root space : Row} {path front : List Triple} {step : Triple}
  {paths : List (List Triple)} {visited : List Row}

namespace Store

/-! ### Below a root -/

/-- Directed joins lead from a row down to another one. -/
def IsBelow (st : Store) (root q : Row) : Prop := Relation.TransGen st.IsAbove root q

/-- A part with which some path begins leads to a node. -/
def IsOn (st : Store) (root : Row) (paths : List (List Triple)) (q : Row) : Prop :=
  ∃ path ∈ paths, ∃ front, front ≠ [] ∧ front <+: path ∧ st.Leads root front q

/-- What is below a root is a tree along some paths. -/
structure IsTree (st : Store) (root : Row) (paths : List (List Triple)) : Prop where
  top : ∀ p, ¬ st.IsAbove p root
  unique : ∀ {q p p'}, st.IsBelow root q → st.IsAbove p q → st.IsAbove p' q → p = p'
  parentless : ∀ {q}, st.IsBelow root q → ∀ p, ¬ st.IsParent p q
  isOn : ∀ {q}, st.IsBelow root q → st.IsOn root paths q

/-- A root to which nothing is joined is a tree by itself. -/
theorem isTree_of_bare (h : ∀ q, ¬ st.IsAbove root q ∧ ¬ st.IsAbove q root) : st.IsTree root paths := by
  have hnone : ∀ {q}, ¬ st.IsBelow root q := by
    intro q hq
    obtain ⟨c, hc, -⟩ := Relation.TransGen.head'_iff.mp hq
    exact (h c).1 hc
  exact ⟨fun p => (h p).2, fun hq => absurd hq hnone, fun hq => absurd hq hnone, fun hq => absurd hq hnone⟩

/-- What a path leads to is the root or below it. -/
theorem eq_or_isBelow_of_leads (h : st.Leads root path q) : q = root ∨ st.IsBelow root q := by
  induction h with
  | nil => exact .inl rfl
  | cons hstands _ ih =>
    rcases ih with rfl | hbelow
    · exact .inr (.single hstands.1.1)
    · exact .inr (.head hstands.1.1 hbelow)

/-- The node of a triple at the end of a path is below the root. -/
theorem isBelow_of_leads_concat (h : st.Leads root (path ++ [step]) q) : st.IsBelow root q := by
  obtain ⟨c, hpath, hstands⟩ := leads_concat_iff.mp h
  rcases eq_or_isBelow_of_leads hpath with rfl | hbelow
  · exact .single hstands.1.1
  · exact .tail hbelow hstands.1.1

/-- Where one node was joined, what is below a root was so before or is the new node. -/
theorem Sprouts.isBelow (h : st.Sprouts st' p c) (hst : st.Sound) (hq : st'.IsBelow root q) :
    st.IsBelow root q ∨ q = c ∧ ¬ st.Has c ∧ ∀ r, ¬ st'.IsParent r c := by
  induction hq with
  | single habove =>
    rcases h.above _ _ habove with hold | ⟨-, hq, hnew⟩
    · exact .inl (.single hold)
    · exact .inr ⟨hq, hnew⟩
  | tail _ habove ih =>
    rcases h.above _ _ habove with hold | ⟨-, hq, hnew⟩
    · rcases ih with hbelow | ⟨rfl, hnew, -⟩
      · exact .inl (.tail hbelow hold)
      · exact absurd (hst.has_of_isAbove hold).1 hnew
    · exact .inr ⟨hq, hnew⟩

/-- A growing store loses no node on a path. -/
theorem Grows.isOn (h : st.Grows st') (hq : st.IsOn root paths q) : st'.IsOn root paths q := by
  obtain ⟨path, hpath, front, hne, hfront, hleads⟩ := hq
  exact ⟨path, hpath, front, hne, hfront, h.leads hleads⟩

namespace IsTree

/-! ### Growing trees -/

/-- A node that is joined below the root or below one of its nodes leaves a tree, if it is on a path. -/
theorem sprouts (h : st.IsTree root paths) (hst : st.Integral) (hroot : st.Has root)
    (hs : st.Sprouts st' p c) (hc : st'.IsOn root paths c) : st'.IsTree root paths where
  -- The only row with a new parent is the one that sprouted, and the root is not new.
  top q hq := by
    rcases hs.above q root hq with hold | ⟨-, rfl, hnew, -⟩
    · exact h.top q hold
    · exact hnew hroot
  -- The sprouted node has one parent, and old nodes keep theirs.
  unique {q a b} hq ha hb := by
    rcases hs.above a q ha with ha | ⟨rfl, rfl, hnew, -⟩ <;> rcases hs.above b q hb with hb | ⟨rfl, hq', hnew', -⟩
    · rcases hs.isBelow hst.toSound hq with hold | ⟨rfl, hnew, -⟩
      · exact h.unique hold ha hb
      · exact absurd (hst.has_of_isAbove ha).2 hnew
    · exact absurd (hst.has_of_isAbove ha).2 (hq' ▸ hnew')
    · exact absurd (hst.has_of_isAbove hb).2 hnew
    · rfl
  parentless {q} hq r hr := by
    rcases hs.isBelow hst.toSound hq with hold | ⟨rfl, -, hnone⟩
    · obtain ⟨a, -, ha⟩ := Relation.TransGen.tail'_iff.mp hold
      exact h.parentless hold r ((hs.grows.isParent_iff (hst.has_of_isAbove ha).2).mp hr)
    · exact hnone r hr
  isOn {q} hq := by
    rcases hs.isBelow hst.toSound hq with hold | ⟨rfl, -, -⟩
    · exact hs.grows.isOn (h.isOn hold)
    · exact hc

/-- The nodes along a part of a path are found or created in a tree. -/
theorem paves (h : st.IsTree root paths) (hroot : st.Has root) (hp : st.Leads root front p)
    (hpaves : st.Paves p path st' q) {whole : List Triple} (hwhole : whole ∈ paths)
    (hfront : front ++ path <+: whole) (htexts : ∀ t ∈ path, t.IsText) : st'.IsTree root paths := by
  induction hpaves with
  | nil => exact h
  | @snoc path step st₁ st' c q hpaves hsprouts hstands ih =>
    rw [← List.append_assoc] at hfront
    have htexts' : ∀ t ∈ path, t.IsText := fun t ht => htexts t (List.mem_append_left _ ht)
    have htree := ih ((List.prefix_append _ _).trans hfront) htexts'
    have hc := (hpaves.grows.leads hp).append (hpaves.leads htexts')
    have hq : st'.Leads root (front ++ path ++ [step]) q :=
      leads_concat_iff.mpr ⟨c, hsprouts.grows.leads hc, hstands (htexts step (by simp))⟩
    exact htree.sprouts hpaves.grows.integral (hpaves.grows.has hroot) hsprouts
      ⟨whole, hwhole, _, by simp, hfront, hq⟩

/-- Undirected joins leave a tree. -/
theorem sameNodes (h : st.IsTree root paths) (hs : st.SameNodes st') : st'.IsTree root paths := by
  have habove : st'.IsAbove = st.IsAbove := by
    funext a b
    exact propext hs.isAbove_iff
  have hbelow : ∀ {q}, st'.IsBelow root q → st.IsBelow root q := by
    intro q hq
    rwa [IsBelow, habove] at hq
  refine ⟨fun p hp => h.top p (hs.isAbove_iff.mp hp), fun hq ha hb => ?_, fun hq p hp => ?_, fun hq => ?_⟩
  · exact h.unique (hbelow hq) (hs.isAbove_iff.mp ha) (hs.isAbove_iff.mp hb)
  · exact h.parentless (hbelow hq) p (hs.isParent_iff.mp hp)
  · obtain ⟨path, hpath, front, hne, hfront, hleads⟩ := h.isOn (hbelow hq)
    exact ⟨path, hpath, front, hne, hfront, hs.leads hleads⟩

end IsTree

end Store

open Store (IsTree IsBelow)

/-- A path that a correction fills is one that it fills in a store that has grown. -/
theorem Correction.Fills.grows {c : Correction} (h : c.Fills st root path) (hgrows : st.Grows st') :
    c.Fills st' root path := by
  obtain ⟨front, hpath, hfront⟩ := h
  exact ⟨front, hpath, hgrows.leads hfront⟩

/-- Corrections that fill paths leave a tree along these paths. -/
theorem Correction.AppliedInTurn.isTree {cs applied : List Correction}
    (h : AppliedInTurn st cs st' applied) (htree : st.IsTree root paths) (hroot : st.Has root)
    (hfills : ∀ c ∈ cs, ∃ path ∈ paths, (∀ t ∈ path, t.IsText) ∧ c.Fills st root path) :
    st'.IsTree root paths := by
  induction h with
  | nil => exact htree
  | cons hpaves _ ih =>
    obtain ⟨path, hpath, htexts, front, rfl, hfront⟩ := hfills _ List.mem_cons_self
    refine ih (htree.paves hroot hfront hpaves hpath (List.prefix_refl _)
      fun t ht => htexts t (List.mem_append_right _ ht)) (hpaves.grows.has hroot) ?_
    intro c hc
    obtain ⟨path, hpath, htexts, hfill⟩ := hfills c (List.mem_cons_of_mem _ hc)
    exact ⟨path, hpath, htexts, hfill.grows hpaves.grows⟩

/-- A datamap that is a tree along the selected paths stays one when it is corrected. -/
theorem ViewChange.Corrects.isTree {n : Network} {proposed chosen applied : List Correction}
    (h : Corrects st st' root n proposed chosen applied) (hroot : st.Has root)
    (htexts : ∀ p ∈ n.terminalPaths, ∀ t ∈ n.steps p.path, t.IsText)
    (htree : st.IsTree root (n.terminalPaths.map (n.steps ·.path))) :
    st'.IsTree root (n.terminalPaths.map (n.steps ·.path)) := by
  obtain ⟨st₁, happlied, hlinks⟩ := h.applies
  refine (happlied.isTree htree hroot fun c hc => ?_).sameNodes hlinks.same
  obtain ⟨p, hp, hfor⟩ := h.isFor c (h.selects hc)
  exact ⟨n.steps p.path, List.mem_map_of_mem hp, htexts p hp, hfor.fills⟩

/-! ### The way up -/

namespace Store

/-- Only nodes of datamaps are joined below others. -/
theorem isDatamap_of_isAbove (h : st.IsAbove p c) : c.table.isDatamap = true := by
  have hall : ∀ pair ∈ project.directedPairs, pair.2.isDatamap = true := by decide
  exact hall _ h.1

theorem Sound.mem_joinedParents_iff_of_has (h : st.Sound) (hq : st.Has q) :
    p ∈ st.joinedParents q ↔ st.IsAbove p q := by
  obtain ⟨id, hid⟩ := hq.exists_id
  rw [hid]
  exact h.mem_joinedParents_iff

/-- Visited rows that longer paths lead to. -/
def AreDeeper (st : Store) (root : Row) (visited : List Row) (depth : Nat) : Prop :=
  ∀ x ∈ visited, ∃ path, st.Leads root path x ∧ depth < path.length

/-- On the way up, the visited rows stay deeper. -/
theorem AreDeeper.cons (hvisited : st.AreDeeper root visited (path ++ [step]).length)
    (hpath : st.Leads root (path ++ [step]) q) :
    st.AreDeeper root (q :: visited) path.length := by
  rw [List.length_append, List.length_singleton] at hvisited
  refine List.forall_mem_cons.mpr ⟨⟨_, hpath, by simp⟩, fun x hx => ?_⟩
  obtain ⟨path', hpath', hlength⟩ := hvisited x hx
  exact ⟨path', hpath', by omega⟩

namespace IsTree

variable (h : st.IsTree root paths) (hst : st.Integral) (hroot : st.Has root)

include h

/-- No path leads back to the root. -/
theorem eq_nil_of_leads_root (hpath : st.Leads root path root) : path = [] := by
  rcases List.eq_nil_or_concat path with rfl | ⟨front, step, rfl⟩
  · rfl
  · rw [List.concat_eq_append] at hpath
    obtain ⟨c, -, hstands⟩ := leads_concat_iff.mp hpath
    exact absurd hstands.1.1 (h.top c)

include hst

/-- All paths to a node have the same names. -/
theorem names_eq {path' : List Triple} (hpath : st.Leads root path q) (hpath' : st.Leads root path' q) :
    path.map (·.attributeName) = path'.map (·.attributeName) := by
  induction path using List.reverseRecOn generalizing q path' with
  | nil =>
    cases hpath
    rw [h.eq_nil_of_leads_root hpath']
  | append_singleton front step ih =>
    have hbelow := isBelow_of_leads_concat hpath
    obtain ⟨c, hfront, hstands⟩ := leads_concat_iff.mp hpath
    -- Nothing leads back to the root, so the other path has a last step too.
    rcases List.eq_nil_or_concat path' with rfl | ⟨front', step', rfl⟩
    · cases hpath'
      exact absurd hstands.1.1 (h.top c)
    · rw [List.concat_eq_append] at hpath' ⊢
      obtain ⟨c', hfront', hstands'⟩ := leads_concat_iff.mp hpath'
      -- In a tree both paths come over the same parent, and a node has one name.
      obtain rfl := h.unique hbelow hstands.1.1 hstands'.1.1
      have hname := hst.named_unique hstands.2 hstands'.2
      rw [List.map_append, List.map_append, ih hfront hfront', List.map_singleton, List.map_singleton,
        hname]

/-- A node that no deeper path leads to was not visited. -/
theorem not_mem_of_areDeeper (hpath : st.Leads root path q)
    (hvisited : st.AreDeeper root visited path.length) : q ∉ visited := by
  intro hq
  obtain ⟨path', hpath', hlength⟩ := hvisited q hq
  have hnames := congrArg List.length (h.names_eq hst hpath hpath')
  rw [List.length_map, List.length_map] at hnames
  omega

/-- The first row that a node below the root is joined below is the one above it. -/
theorem head?_joinedParents (hpath : st.Leads root path c) (hstands : st.Stands c step q) :
    (st.joinedParents q).head? = some c := by
  have hbelow := isBelow_of_leads_concat (leads_concat_iff.mpr ⟨c, hpath, hstands⟩)
  have hhas := (hst.has_of_isAbove hstands.1.1).2
  have hc := (hst.mem_joinedParents_iff_of_has hhas).mpr hstands.1.1
  obtain ⟨first, rest, hparents⟩ := List.exists_cons_of_ne_nil (List.ne_nil_of_mem hc)
  have hfirst := (hst.mem_joinedParents_iff_of_has hhas).mp (hparents ▸ List.mem_cons_self)
  rw [hparents, List.head?_cons, h.unique hbelow hfirst hstands.1.1]

/-- The way up from a node of a datamap leads to the problem space that owns the root. -/
theorem climbs (htable : root.table = .datamapIdentifiers) (hspace : st.IsParent space root)
    (hspacetable : space.table = .problemSpaces) (hpath : st.Leads root path q)
    (hvisited : st.AreDeeper root visited path.length) : st.Climbs .problemSpaces visited q space := by
  -- The climb must not end early, so no node on the way is a problem space.
  have hdatamap : ∀ {x : Row}, x.table.isDatamap = true → x.table ≠ .problemSpaces := by
    intro x hx heq
    rw [heq] at hx
    cases hx
  -- From the node upwards: the last step of the path is climbed first.
  induction path using List.reverseRecOn generalizing q visited with
  | nil =>
    cases hpath
    refine .up (h.not_mem_of_areDeeper hst .nil hvisited) (by simp [htable]) (.inl hspace)
      (.here (fun hmem => ?_) hspacetable)
    rcases List.mem_cons.mp hmem with rfl | hmem
    · exact hdatamap (by rw [htable]; rfl) hspacetable
    · obtain ⟨path', hpath', hlength⟩ := hvisited space hmem
      rcases List.eq_nil_or_concat path' with rfl | ⟨front, step, rfl⟩
      · exact absurd hlength (lt_irrefl _)
      · rw [List.concat_eq_append] at hpath'
        obtain ⟨c, -, hstands⟩ := leads_concat_iff.mp hpath'
        exact hdatamap (isDatamap_of_isAbove hstands.1.1) hspacetable
  | append_singleton front step ih =>
    obtain ⟨c, hfront, hstands⟩ := leads_concat_iff.mp hpath
    have hisdatamap := isDatamap_of_isAbove hstands.1.1
    exact .up (h.not_mem_of_areDeeper hst hpath hvisited) (hdatamap hisdatamap)
      (.inr ⟨h.parentless (isBelow_of_leads_concat hpath), hisdatamap,
        h.head?_joinedParents hst hfront hstands⟩)
      (ih hfront (hvisited.cons hpath))

include hroot

/-- The names on the way up from a node are those on the way down to it. -/
theorem finds_namesAbove {fuel : Nat} {v : View} (hpath : st.Leads root path v.row) (hknows : v.Knows st)
    (hvisited : st.AreDeeper root visited path.length) (hfuel : (st.unvisited visited).ncard < fuel) :
    (View.namesAbove fuel visited v).Finds st st.Fits (fun found =>
      found.1 = path.map (.text ·.attributeName) ∧ found.2.row = v.row ∧ found.2.Knows st) := by
  induction path using List.reverseRecOn generalizing v visited fuel with
  | nil =>
    obtain ⟨fuel, rfl⟩ := Nat.exists_eq_add_one_of_ne_zero (Nat.ne_zero_of_lt hfuel)
    have hrow := leads_nil_iff.mp hpath
    rw [View.namesAbove, if_neg (h.not_mem_of_areDeeper hst hpath hvisited)]
    refine ((Row.finds_parentJoinedRows hst.toSound).mono_sure fun hfits =>
      hrow ▸ hfits.row hroot).bind ?_
    -- There is nothing above the root.
    rintro _ rfl
    split
    · exact Query.Finds.pure ⟨rfl, rfl, hknows⟩
    · next parent rest hparents =>
      rw [hrow] at hparents
      exact absurd ((hst.mem_joinedParents_iff_of_has hroot).mp (hparents ▸ List.mem_cons_self)) (h.top _)
  | append_singleton front step ih =>
    obtain ⟨c, hfront, hstands⟩ := leads_concat_iff.mp hpath
    obtain ⟨fuel, rfl⟩ := Nat.exists_eq_add_one_of_ne_zero (Nat.ne_zero_of_lt hfuel)
    have hhas := (hst.has_of_isAbove hstands.1.1).2
    have hnew := h.not_mem_of_areDeeper hst hpath hvisited
    have hhead := h.head?_joinedParents hst hfront hstands
    -- The only node above is the one before the last step, and it was not visited.
    have hless := Store.ncard_unvisited_cons_lt hhas hnew
    rw [View.namesAbove, if_neg hnew]
    refine ((Row.finds_parentJoinedRows hst.toSound).mono_sure fun hfits => hfits.row hhas).bind ?_
    rintro _ rfl
    split
    · next hnil => simp [hnil] at hhead
    next parent rest hparents =>
    rw [hparents, List.head?_cons, Option.some.injEq] at hhead
    subst hhead
    refine (View.finds_name_of_knows hst.toSound hhas hknows).bind ?_
    rintro ⟨_, v'⟩ ⟨hrow, hknows', name, rfl, hnamed⟩
    dsimp only at hrow hknows' ⊢
    rw [hrow]
    refine (ih (v := parent.view) hfront (Row.knows_view parent st) (hvisited.cons hpath)
      (by omega)).bind fun above ⟨habove, _⟩ => ?_
    refine Query.Finds.pure ⟨?_, hrow, hknows'⟩
    dsimp only
    rw [habove, hst.named_unique hnamed hstands.2, List.map_append, List.map_singleton]

/-- The path attributes of a node are the names on the way down to it. -/
theorem finds_pathAttributes {v : View} (hpath : st.Leads root path v.row) (hknows : v.Knows st) :
    v.pathAttributes.Finds st st.Fits (fun found =>
      found.1 = path.map (.text ·.attributeName) ∧ found.2.row = v.row ∧ found.2.Knows st) := by
  unfold View.pathAttributes
  refine Query.Finds.read fun w s hs => ?_
  dsimp only
  rw [hs.size_eq]
  have hle := (st.unvisited_finite_and_le []).2
  exact h.finds_namesAbove hst hroot hpath hknows (fun x hx => absurd hx List.not_mem_nil) (by omega)

end IsTree

end Store

end SoarProject
