import Mathlib.Data.List.Nodup
import SoarProject.Proofs.Datamap.Comparison
import SoarProject.Proofs.Datamap.Selection

/-!
# What the selected paths cover

A network is coherent if no path comes back to a variable and if triples on one variable are reached
in the same ways. In a coherent network the selected paths leave nothing out: every triple that a path
leads to lies, access by access, on a selected path (`Coherent.covered`).

The selected paths form a tree. A path that meets the variable of a selected path in another way
collides with it, so that all selected paths come to a variable in one way (`Coherent.route_eq`). An
uncovered triple on such a variable can therefore be reached along a selected path and be followed down
to a triple where the path is a candidate; nothing then refuses it.
-/

namespace SoarProject.Network

variable {n : Network} {κ : Type} {key : Nat → κ}

/-- No path comes back to a variable, and triples on one variable are reached in the same ways. -/
structure Coherent (n : Network) (key : Nat → κ) : Prop where
  wellLinked : n.WellLinked
  keyedBy : n.KeyedBy key
  /-- A linked path has a variable of its own for each triple. -/
  subjects_nodup : ∀ {path}, n.Linked path → (path.map fun i => (n.triple i).subject).Nodup
  /-- Only the first triple of a path from a state belongs to a state. -/
  state_first : ∀ {front c rest}, n.Linked (front ++ c :: rest) →
    n.StartsAtState (front ++ c :: rest) → (n.triple c).isState = true → front = []
  /-- No constant is spelled like a variable. -/
  constant_ne : ∀ {i j}, i < n.size → j < n.size → (n.triple i).isLink = false →
    (n.triple i).value ≠ .text (n.triple j).subject
  /-- If two triples on one variable are both reached, they are reached in the same ways. -/
  routes_agree : ∀ {b c path}, b < n.size → n.pathsTo b ≠ [] →
    (n.triple b).subject = (n.triple c).subject → path ∈ n.pathsTo c →
    ∃ route ∈ n.pathsTo b, route.dropLast.map key = path.dropLast.map key
  /-- If two triples with one variable as their value are both reached, both have children or none. -/
  children_agree : ∀ {a b x}, a < n.size → b < n.size → n.pathsTo a ≠ [] → n.pathsTo b ≠ [] →
    (n.triple a).isLink = true → (n.triple b).isLink = true →
    (n.triple a).value = .text x → (n.triple b).value = .text x →
    (n.node a).children ≠ [] → (n.node b).children ≠ []

/-! ### Paths of a coherent network -/

/-- The places of a linked path hold triples if the last one does. -/
theorem WellLinked.inRange (hlinks : n.WellLinked) {path : List Nat} {i : Nat} (hi : i < n.size)
    (hlast : path.getLast? = some i) (hlinked : n.Linked path) : n.InRange path := by
  intro j hj
  obtain ⟨front, rest, rfl⟩ := List.append_of_mem hj
  cases rest with
  | nil =>
    simp only [List.getLast?_append, List.getLast?_singleton, Option.some_or,
      Option.some.injEq] at hlast
    exact hlast ▸ hi
  | cons c rest => exact hlinks.parent_lt hlinked.parent

/-- The places of a path hold triples. -/
theorem WellLinked.inRange_of_mem_pathsTo (hlinks : n.WellLinked) {path : List Nat} {i : Nat}
    (hpath : path ∈ n.pathsTo i) : n.InRange path := by
  obtain ⟨hlast, -, hlinked, -⟩ := Network.mem_pathsTo_iff.mp hpath
  exact hlinks.inRange (lt_size_of_mem_pathsTo hpath) hlast hlinked

/-- A selected path meets the variable that is the value of a triple. -/
def MeetsValue (n : Network) (accepted : List TerminalPath) (l : Nat) : Prop :=
  ∃ a ∈ accepted, ∃ d ∈ a.path, (n.triple l).value = .text (n.triple d).subject

/-- What some selected paths meet is met by more of them. -/
theorem MeetsValue.mono {accepted grown : List TerminalPath} {l : Nat} (hsub : accepted ⊆ grown)
    (h : MeetsValue n accepted l) : MeetsValue n grown l := by
  obtain ⟨a, ha, hd⟩ := h
  exact ⟨a, hsub ha, hd⟩

/-- A path to a triple may be selected if the triple has a constant or no children, or if its value is
met by the path or by another triple of a selected one. -/
theorem isCandidate_iff {accepted : List TerminalPath} {i : Nat} {path : List Nat} :
    n.isCandidate accepted i path = true ↔
      (n.triple i).isLink = false ∨ (n.node i).children = [] ∨
        (∃ d ∈ path, (n.triple i).value = .text (n.triple d).subject) ∨
        ∃ a ∈ accepted, ∃ j ∈ a.path, (n.triple j).value.agrees (n.triple i).value = true ∧
          (n.triple j).same (n.triple i) = false := by
  simp only [isCandidate, Bool.or_eq_true, Bool.not_eq_true', List.isEmpty_iff, or_assoc,
    isAmong_subjects_iff]
  by_cases hlink : (n.triple i).isLink = true
  · -- A link may also converge with a triple of a path that was selected before.
    simp only [hlink, linksInto, ↓reduceIte, List.isEmpty_eq_false_iff_exists_mem,
      List.mem_filterMap, Bool.true_eq_false, false_or]
    refine or_congr_right (or_congr_right ?_)
    constructor
    · rintro ⟨j, a, ha, hfind⟩
      have := List.find?_some hfind
      simp only [Triple.convergesOn, Bool.and_eq_true, Bool.not_eq_true'] at this
      exact ⟨a, ha, j, List.mem_of_find?_eq_some hfind, this⟩
    · rintro ⟨a, ha, j, hj, hagrees, hother⟩
      obtain ⟨k, hk⟩ : ∃ k, a.path.find? (fun j => (n.triple i).convergesOn (n.triple j)) = some k :=
        Option.isSome_iff_exists.mp (List.find?_isSome.mpr
          ⟨j, hj, by simp [Triple.convergesOn, hagrees, hother]⟩)
      exact ⟨k, a, ha, hk⟩
  · simp only [Bool.not_eq_true] at hlink
    simp [hlink]

/-- A path to a triple is the beginning of a selected one. -/
def Covered (n : Network) (key : Nat → κ) (accepted : List TerminalPath) (i : Nat) : Prop :=
  ∃ path ∈ n.pathsTo i, ∃ a ∈ accepted, path.map key <+: a.path.map key

/-- A way to a triple that begins at its state or follows a selected path to its variable. -/
structure Way (n : Network) (key : Nat → κ) (accepted : List TerminalPath) (q : List Nat) (i : Nat) :
    Prop where
  /-- The way and the triple are a path. -/
  mem_pathsTo : q ++ [i] ∈ n.pathsTo i
  /-- The triples of the way are those of a selected path. -/
  follows : q = [] ∨ ∃ a ∈ accepted, ∃ u d v, a.path = u ++ d :: v ∧ q.map key = u.map key ∧
    (n.triple i).subject = (n.triple d).subject

/-- If a selected path begins with a way and its triple, it covers the triple. -/
theorem Way.covered {accepted : List TerminalPath} {q : List Nat} {i : Nat} (hway : Way n key accepted q i) {a : TerminalPath}
    (ha : a ∈ accepted) (hcont : (q ++ [i]).map key <+: a.path.map key) :
    Covered n key accepted i :=
  ⟨_, hway.mem_pathsTo, a, ha, hcont⟩

/-- No selected path meets the variable of a triple. -/
def Unmet (n : Network) (accepted : List TerminalPath) (c : Nat) : Prop :=
  ∀ a ∈ accepted, ∀ d ∈ a.path, (n.triple d).subject ≠ (n.triple c).subject

/-- If no path comes back to a variable, every linked list of places from a state is a path. -/
theorem mem_pathsTo_iff_of_nodup (hlinks : n.WellLinked)
    (hnodup : ∀ {path}, n.Linked path → (path.map fun i => (n.triple i).subject).Nodup)
    {path : List Nat} {i : Nat} (hi : i < n.size) :
    path ∈ n.pathsTo i ↔ path.getLast? = some i ∧ n.Linked path ∧ n.StartsAtState path := by
  rw [Network.mem_pathsTo_iff]
  constructor
  · rintro ⟨hlast, -, hlinked, hstate, -⟩
    exact ⟨hlast, hlinked, hstate⟩
  · rintro ⟨hlast, hlinked, hstate⟩
    have hsubjects := hnodup hlinked
    -- A linked path has no subject twice, which bounds it and keeps its triples apart.
    refine ⟨hlast, ?_, hlinked, hstate, ?_⟩
    · exact length_le_size_of_nodup (List.Nodup.of_map _ hsubjects)
        (hlinks.inRange hi hlast hlinked)
    · rw [Distinct, steps, List.pairwise_map]
      rw [List.Nodup, List.pairwise_map] at hsubjects
      refine hsubjects.imp fun {a b} hne => ?_
      by_contra hsame
      exact hne (Triple.subject_eq_of_same (by simpa using hsame)).symm

namespace Coherent

variable (h : Coherent n key)

include h

/-- In a coherent network every linked list of places from a state is a path. -/
theorem mem_pathsTo_iff {path : List Nat} {i : Nat} (hi : i < n.size) :
    path ∈ n.pathsTo i ↔ path.getLast? = some i ∧ n.Linked path ∧ n.StartsAtState path :=
  mem_pathsTo_iff_of_nodup h.wellLinked h.subjects_nodup hi

theorem inRange {path : List Nat} {i : Nat} (hi : i < n.size) (hpath : path ∈ n.pathsTo i) :
    n.InRange path := by
  obtain ⟨hlast, hlinked, -⟩ := (h.mem_pathsTo_iff hi).mp hpath
  exact h.wellLinked.inRange hi hlast hlinked

/-- A path goes on to the children of its last triple. -/
theorem concat_mem_pathsTo {path : List Nat} {i c : Nat} (hpath : path ∈ n.pathsTo i)
    (hparent : i ∈ (n.node c).parents) : path ++ [c] ∈ n.pathsTo c := by
  have hi := h.wellLinked.parent_lt hparent
  obtain ⟨hlast, hlinked, s, hs, hstate⟩ := (h.mem_pathsTo_iff hi).mp hpath
  obtain ⟨front, rfl⟩ := List.getLast?_eq_some_iff.mp hlast
  refine (h.mem_pathsTo_iff (lt_size_of_parent hparent)).mpr ⟨by simp, ?_, s, ?_, hstate⟩
  · rw [Linked, List.append_assoc]
    exact List.isChain_append_cons_cons.mpr ⟨hlinked, hparent, .singleton _⟩
  · rw [List.head?_append]
    exact Option.mem_def.mpr (by rw [Option.mem_def.mp hs]; rfl)

/-- A path meets a variable once. -/
theorem subject_ne {u v w : List Nat} {c d i : Nat} (hi : i < n.size)
    (hpath : u ++ c :: (v ++ d :: w) ∈ n.pathsTo i) :
    (n.triple c).subject ≠ (n.triple d).subject := by
  have hnodup := h.subjects_nodup ((h.mem_pathsTo_iff hi).mp hpath).2.1
  rw [List.map_append, List.map_cons] at hnodup
  have hhead := (List.nodup_cons.mp (List.nodup_append.mp hnodup).2.1).1
  intro hsubject
  exact hhead (hsubject ▸ List.mem_map_of_mem (by simp))

/-- Places with one key hold triples on one variable. -/
theorem subject_eq_of_key_eq {i j : Nat} (hi : i < n.size) (hj : j < n.size)
    (hij : key i = key j) : (n.triple i).subject = (n.triple j).subject :=
  Triple.subject_eq_of_same ((h.keyedBy i j hi hj).mpr hij)

/-- After the same accesses, paths go on from the same variable. -/
theorem subject_eq_of_route_eq {u u' v v' : List Nat} {c d i j : Nat} (hi : i < n.size)
    (hj : j < n.size) (hp : u ++ c :: v ∈ n.pathsTo i) (hq : u' ++ d :: v' ∈ n.pathsTo j)
    (hroute : u.map key = u'.map key) (hne : u ≠ []) :
    (n.triple c).subject = (n.triple d).subject := by
  obtain ⟨x, s, rfl⟩ : ∃ x s, u = x ++ [s] :=
    ⟨u.dropLast, u.getLast hne, (List.dropLast_append_getLast hne).symm⟩
  have hne' : u' ≠ [] := by
    rintro rfl
    simp at hroute
  obtain ⟨x', s', rfl⟩ : ∃ x' s', u' = x' ++ [s'] :=
    ⟨u'.dropLast, u'.getLast hne', (List.dropLast_append_getLast hne').symm⟩
  have hs : s < n.size := h.inRange hi hp s (by simp)
  have hs' : s' < n.size := h.inRange hj hq s' (by simp)
  -- The last triples on the two ways are the same access, and their value is the variable behind both.
  have hkey : key s = key s' := by
    simp only [List.map_append, List.map_cons, List.map_nil] at hroute
    exact List.singleton_injective (List.append_inj_right' hroute rfl)
  have hvalue := h.wellLinked.value_eq
    (show n.Linked (x ++ s :: c :: v) by simpa using ((h.mem_pathsTo_iff hi).mp hp).2.1)
  have hvalue' := h.wellLinked.value_eq
    (show n.Linked (x' ++ s' :: d :: v') by simpa using ((h.mem_pathsTo_iff hj).mp hq).2.1)
  have := Triple.value_eq_text_of_same ((h.keyedBy s s' hs hs').mpr hkey) hvalue'
  rw [hvalue] at this
  exact Cell.text.inj this

/-- A variable at which one path begins is not met later by another one. -/
theorem eq_nil_of_subject_eq_head {u v w : List Nat} {c d i j : Nat} (hi : i < n.size)
    (hp : u ++ c :: v ∈ n.pathsTo i) (hq : d :: w ∈ n.pathsTo j)
    (hsubject : (n.triple c).subject = (n.triple d).subject) : u = [] := by
  have hc : c < n.size := h.inRange hi hp c (by simp)
  have hd : [] ++ [d] ∈ n.pathsTo d := prefix_mem_pathsTo hq
  obtain ⟨route, hroute, hkeys⟩ := h.routes_agree hc
    (List.ne_nil_of_mem (prefix_mem_pathsTo hp)) hsubject hd
  -- The route to `d` has no link, so `d` tests the state variable, and so does `c`.
  obtain ⟨hlast, -, hstate⟩ := (h.mem_pathsTo_iff hc).mp hroute
  obtain ⟨front, rfl⟩ := List.getLast?_eq_some_iff.mp hlast
  simp only [List.dropLast_concat, List.nil_append, List.dropLast_singleton, List.map_nil,
    List.map_eq_nil_iff] at hkeys
  subst hkeys
  obtain ⟨s, hs, hstate⟩ := hstate
  simp only [List.nil_append, List.head?_cons, Option.mem_def, Option.some.injEq] at hs
  obtain ⟨-, hlinked, hstart⟩ := (h.mem_pathsTo_iff hi).mp hp
  exact h.state_first hlinked hstart (hs ▸ hstate)

/-! ### Ways to a variable -/

/-- If one way to a variable continues another one, the two are the same. -/
theorem route_eq_of_prefix {u v u' v' : List Nat} {c d i j : Nat} (hi : i < n.size)
    (hj : j < n.size) (hp : u ++ c :: v ∈ n.pathsTo i) (hq : u' ++ d :: v' ∈ n.pathsTo j)
    (hsubject : (n.triple c).subject = (n.triple d).subject)
    (hcont : u'.map key <+: u.map key) : u.map key = u'.map key := by
  obtain ⟨t, ht⟩ := hcont
  obtain ⟨u₁, u₂, rfl, hroute, rfl⟩ := List.append_eq_map_iff.mp ht
  cases u₂ with
  | nil => simpa using hroute
  | cons e u₂ =>
    -- A longer route would reach the subject a second time on the way to `c`.
    exfalso
    by_cases hne : u₁ = []
    · subst hne
      obtain rfl : u' = [] := by simpa using hroute.symm
      simpa using h.eq_nil_of_subject_eq_head hi hp hq hsubject
    · have hp' : u₁ ++ e :: (u₂ ++ c :: v) ∈ n.pathsTo i := by simpa using hp
      have hsame := h.subject_eq_of_route_eq hi hj hp' hq hroute hne
      exact h.subject_ne hi hp' (hsame.trans hsubject.symm)

/-- A path that does not collide with another one comes to their common variable in the same way. -/
theorem route_eq_of_not_collides {u v u' v' : List Nat} {c d i j : Nat} (hi : i < n.size)
    (hj : j < n.size) (hp : u ++ c :: v ∈ n.pathsTo i) (hq : u' ++ d :: v' ∈ n.pathsTo j)
    (hsubject : (n.triple c).subject = (n.triple d).subject)
    (hfree : Triple.collides (n.steps (u' ++ d :: v')) (n.steps (u ++ c :: v)) = false) :
    u.map key = u'.map key := by
  rcases prefix_or_leaves key u' u with hcont | hcont | ⟨rest, hleaves⟩
  · exact h.route_eq_of_prefix hi hj hp hq hsubject hcont
  · exact (h.route_eq_of_prefix hj hi hq hp hsubject.symm hcont).symm
  · have hcollides := (collides_steps_iff h.wellLinked h.keyedBy ((h.mem_pathsTo_iff hj).mp hq).2.1
      (h.inRange hj hq) (h.inRange hi hp)).mpr
      ⟨_, hleaves.append (d :: v') (c :: v), d, ?_, c, by simp, hsubject.symm⟩
    · exact absurd hcollides (by simp [hfree])
    · obtain ⟨u₁, a, w, -, -, -, rfl, -⟩ := hleaves
      simp

section Selected

variable {accepted : List TerminalPath} (hselected : Selected n accepted)

include hselected

/-- All selected paths come to a variable in one way. -/
theorem route_eq {a b : TerminalPath} (ha : a ∈ accepted) (hb : b ∈ accepted)
    {u v u' v' : List Nat} {c d : Nat} (hp : a.path = u ++ c :: v) (hq : b.path = u' ++ d :: v')
    (hsubject : (n.triple c).subject = (n.triple d).subject) : u.map key = u'.map key := by
  obtain ⟨i, hi, hpath⟩ := hselected.exists_pathsTo ha
  obtain ⟨j, hj, hpath'⟩ := hselected.exists_pathsTo hb
  obtain ⟨k, hk, rfl⟩ := List.getElem_of_mem ha
  obtain ⟨l, hl, rfl⟩ := List.getElem_of_mem hb
  have hpairs := List.pairwise_iff_getElem.mp hselected.pairwise
  rw [hp] at hpath
  rw [hq] at hpath'
  rcases lt_trichotomy k l with hkl | rfl | hkl
  · -- The later of two selected paths did not collide with the earlier one.
    refine h.route_eq_of_not_collides hi hj hpath hpath' hsubject ?_
    rw [← hp, ← hq]
    exact (hpairs k l hk hl hkl).1
  · -- One path meets the variable once.
    rw [hp] at hq
    rcases List.append_eq_append_iff.mp hq with ⟨x, rfl, hx⟩ | ⟨x, rfl, hx⟩
    · cases x with
      | nil => simp
      | cons e x =>
        simp only [List.cons_append, List.cons.injEq] at hx
        obtain ⟨rfl, rfl⟩ := hx
        exact absurd hsubject (h.subject_ne hi hpath)
    · cases x with
      | nil => simp
      | cons e x =>
        simp only [List.cons_append, List.cons.injEq] at hx
        obtain ⟨rfl, rfl⟩ := hx
        exact absurd hsubject.symm (h.subject_ne hj hpath')
  · refine (h.route_eq_of_not_collides hj hi hpath' hpath hsubject.symm ?_).symm
    rw [← hp, ← hq]
    exact (hpairs l k hl hk hkl).1

/-- A selected path is not the beginning of another one. -/
theorem eq_of_prefix {a b : TerminalPath} (ha : a ∈ accepted) (hb : b ∈ accepted)
    (hcont : a.path.map key <+: b.path.map key) : a = b := by
  obtain ⟨i, hi, hpath⟩ := hselected.exists_pathsTo ha
  obtain ⟨j, hj, hpath'⟩ := hselected.exists_pathsTo hb
  obtain ⟨k, hk, rfl⟩ := List.getElem_of_mem ha
  obtain ⟨l, hl, rfl⟩ := List.getElem_of_mem hb
  have hpairs := List.pairwise_iff_getElem.mp hselected.pairwise
  have hp := h.inRange hi hpath
  have hq := h.inRange hj hpath'
  -- The one accepted later would have been refused for the other.
  rcases lt_trichotomy k l with hkl | rfl | hkl
  · have := (redundant_steps_iff h.keyedBy hq hp).mpr (Or.inr hcont)
    exact absurd this (by simp [(hpairs k l hk hl hkl).2])
  · rfl
  · have := (redundant_steps_iff h.keyedBy hp hq).mpr (Or.inl hcont)
    exact absurd this (by simp [(hpairs l k hl hk hkl).2])

/-- A variable that a selected path leads to and that has children is met by a selected path. -/
theorem meetsValue_of_last {a : TerminalPath} (ha : a ∈ accepted) {l : Nat} (hl : l < n.size)
    (hpath : a.path ∈ n.pathsTo l) (hlink : (n.triple l).isLink = true)
    (hchildren : (n.node l).children ≠ []) : MeetsValue n accepted l := by
  induction hselected generalizing a l with
  | nil => exact absurd ha List.not_mem_nil
  | @select accepted i path hselected hi hpathi hcandidate _ ih =>
    rcases List.mem_append.mp ha with ha | ha
    · exact (ih ha hl hpath hlink hchildren).mono (List.subset_append_left _ _)
    obtain rfl := List.mem_singleton.mp ha
    obtain rfl : i = l := by
      have hlast := ((h.mem_pathsTo_iff hi).mp hpathi).1
      rw [((h.mem_pathsTo_iff hl).mp hpath).1] at hlast
      exact (Option.some.inj hlast).symm
    rw [isCandidate_iff] at hcandidate
    rcases hcandidate with hkind | hnone | ⟨d, hd, hvalue⟩ | ⟨b, hb, j, hj, hagrees, -⟩
    · exact absurd hlink (by simp [hkind])
    · exact absurd hnone hchildren
    · exact ⟨_, List.mem_append_right _ (List.mem_singleton_self _), d, hd, hvalue⟩
    · -- The path met another triple with the same value, which a selected path goes on from.
      obtain ⟨c, hc⟩ := List.exists_mem_of_ne_nil _ hchildren
      have hparent := h.wellLinked.mem_children_iff.mp hc
      have hvalue := (Triple.leadsTo_iff.mp (h.wellLinked.leadsTo hparent)).2
      have hvaluej : (n.triple j).value = .text (n.triple c).subject :=
        Triple.eq_text_of_agrees (hvalue ▸ hagrees)
      obtain ⟨k, hk, hpathb⟩ := hselected.exists_pathsTo hb
      have hjlt := h.inRange hk hpathb j hj
      have hlinkj : (n.triple j).isLink = true := by
        by_contra hconst
        exact h.constant_ne hjlt (lt_size_of_parent hparent) (by simpa using hconst) hvaluej
      refine MeetsValue.mono (List.subset_append_left _ _) ?_
      obtain ⟨x, y, hxy⟩ := List.append_of_mem hj
      cases y with
      | nil =>
        have hpathj : b.path ∈ n.pathsTo j := by
          rw [hxy] at hpathb ⊢
          exact prefix_mem_pathsTo hpathb
        have hmeets := ih hb hjlt hpathj hlinkj (h.children_agree hi hjlt
          (List.ne_nil_of_mem hpath) (List.ne_nil_of_mem hpathj) hlink hlinkj hvalue hvaluej
          hchildren)
        rwa [MeetsValue, hvaluej, ← hvalue] at hmeets
      | cons e y =>
        have hnext := h.wellLinked.value_eq (hxy ▸ ((h.mem_pathsTo_iff hk).mp hpathb).2.1)
        exact ⟨b, hb, e, by simp [hxy], by rw [hvalue, ← hvaluej, hnext]⟩

/-- Selected paths meet the variables that triples with children on selected paths lead to. -/
theorem meetsValue_of_mem {a : TerminalPath} (ha : a ∈ accepted) {s : Nat} (hs : s ∈ a.path)
    (hlink : (n.triple s).isLink = true) (hchildren : (n.node s).children ≠ []) :
    MeetsValue n accepted s := by
  obtain ⟨l, hl, hpath⟩ := hselected.exists_pathsTo ha
  obtain ⟨x, y, hxy⟩ := List.append_of_mem hs
  cases y with
  | nil =>
    refine h.meetsValue_of_last hselected ha (h.inRange hl hpath s hs) ?_ hlink hchildren
    rw [hxy] at hpath ⊢
    exact prefix_mem_pathsTo hpath
  | cons d y =>
    exact ⟨a, ha, d, by simp [hxy],
      h.wellLinked.value_eq (hxy ▸ ((h.mem_pathsTo_iff hl).mp hpath).2.1)⟩

/-! ### From a selected path to an uncovered triple -/

/-- A selected path that meets a variable of a way comes to it along the way. -/
theorem route_eq_of_way {q : List Nat} {i : Nat} (hway : Way n key accepted q i) (hi : i < n.size)
    {a : TerminalPath} (ha : a ∈ accepted) {x y u w : List Nat} {d c : Nat}
    (hp : a.path = x ++ d :: y) (hq : q ++ [i] = u ++ c :: w)
    (hsubject : (n.triple d).subject = (n.triple c).subject) : x.map key = u.map key := by
  rcases hway.follows with rfl | ⟨b, hb, u', e, v, hb', hkeys, hsame⟩
  · obtain ⟨rfl, rfl, rfl⟩ : u = [] ∧ c = i ∧ w = [] := by
      cases u <;> simp_all
    obtain ⟨k, hk, hpath⟩ := hselected.exists_pathsTo ha
    have := h.eq_nil_of_subject_eq_head hk (hp ▸ hpath) hway.mem_pathsTo hsubject
    simp [this]
  · rcases List.eq_nil_or_concat w with rfl | ⟨w, j, rfl⟩
    · obtain ⟨rfl, rfl⟩ := List.append_inj' hq rfl |>.imp id (List.cons.inj · |>.1)
      rw [hkeys]
      exact h.route_eq hselected ha hb hp hb' (hsubject.trans hsame)
    · rw [List.concat_eq_append, ← List.cons_append, ← List.append_assoc] at hq
      obtain ⟨rfl, -⟩ := List.append_inj' hq rfl
      -- The followed path meets the variable at the same place as the way.
      rw [List.map_append, List.map_cons, eq_comm, List.map_eq_append_iff] at hkeys
      obtain ⟨u'', t, rfl, hu, ht⟩ := hkeys
      obtain ⟨c', t, rfl, hc, -⟩ := List.map_eq_cons_iff.mp ht
      obtain ⟨k, hk, hpath⟩ := hselected.exists_pathsTo hb
      have hc' := h.inRange hk hpath c' (by simp [hb'])
      have hclt := h.inRange hi hway.mem_pathsTo c (by simp)
      rw [← hu]
      refine h.route_eq hselected ha hb hp (by rw [hb', List.append_assoc, List.cons_append]) ?_
      rw [hsubject, h.subject_eq_of_key_eq hc' hclt hc]

/-- A path that goes on from an uncovered triple over unmet variables is not redundant. -/
theorem not_redundant_of_way {q r : List Nat} {i z : Nat} (hway : Way n key accepted q i)
    (huncovered : ¬ Covered n key accepted i) (hz : z < n.size)
    (hpath : q ++ i :: r ∈ n.pathsTo z) {a : TerminalPath} (ha : a ∈ accepted) :
    Triple.redundant (n.steps (q ++ i :: r)) (n.steps a.path) = false := by
  obtain ⟨k, hk, hpatha⟩ := hselected.exists_pathsTo ha
  by_contra hredundant
  rw [Bool.not_eq_false, redundant_steps_iff h.keyedBy (h.inRange hz hpath)
    (h.inRange hk hpatha)] at hredundant
  have hbegin : (q ++ [i]).map key <+: (q ++ i :: r).map key := by simp
  rcases hredundant with hcont | hcont
  · exact huncovered (hway.covered ha (hbegin.trans hcont))
  · rcases List.prefix_or_prefix_of_prefix hbegin hcont with hcont | hcont
    · exact huncovered (hway.covered ha hcont)
    rw [List.map_append, List.map_singleton, List.prefix_concat_iff] at hcont
    rcases hcont with heq | hcont
    · refine huncovered (hway.covered ha ?_)
      exact ⟨[], by rw [heq, List.map_append, List.map_singleton, List.append_nil]⟩
    -- The selected path would be a proper beginning of the one that the way follows.
    rcases hway.follows with rfl | ⟨b, hb, u, d, v, hb', hkeys, -⟩
    · have hnil : a.path = [] := by simpa using hcont
      have := ((h.mem_pathsTo_iff hk).mp hpatha).1
      simp [hnil] at this
    · have hab : a = b := h.eq_of_prefix hselected ha hb <| by
        rw [hb', List.map_append, ← hkeys]
        exact hcont.trans (List.prefix_append _ _)
      have hlength := hcont.length_le
      rw [hkeys, hab, hb'] at hlength
      simp only [List.length_append, List.length_map, List.length_cons] at hlength
      omega

/-- A path that goes on from a triple over unmet variables does not collide with a selected one. -/
theorem not_collides_of_way {q r : List Nat} {i z : Nat} (hway : Way n key accepted q i)
    (hi : i < n.size) (hunmet : ∀ c ∈ r, Unmet n accepted c) (hz : z < n.size)
    (hpath : q ++ i :: r ∈ n.pathsTo z) {a : TerminalPath} (ha : a ∈ accepted) :
    Triple.collides (n.steps (q ++ i :: r)) (n.steps a.path) = false := by
  obtain ⟨k, hk, hpatha⟩ := hselected.exists_pathsTo ha
  by_contra hcollides
  rw [Bool.not_eq_false, collides_steps_iff h.wellLinked h.keyedBy
    ((h.mem_pathsTo_iff hz).mp hpath).2.1 (h.inRange hz hpath) (h.inRange hk hpatha)] at hcollides
  -- The two paths part, and further on they meet in the subjects of the triples at c and d.
  obtain ⟨-, ⟨u, e, w, u', b, q', rfl, hp, hq, hu, hne⟩, c, hc, d, hd, hsubject⟩ := hcollides
  obtain ⟨w, w', rfl⟩ := List.append_of_mem (show c ∈ w from hc)
  obtain ⟨x, y, hxy⟩ := List.append_of_mem hd
  -- No triple behind the way meets an accepted path, so the meeting is on the way itself.
  have hcr : c ∉ r := fun hcr => hunmet c hcr a ha d hd hsubject.symm
  obtain ⟨t, ht⟩ : ∃ t, q ++ [i] = (u ++ e :: w) ++ c :: t := by
    have hsplit : (q ++ [i]) ++ r = (u ++ e :: w) ++ c :: w' := by simpa using hp
    rcases List.append_eq_append_iff.mp hsplit with ⟨t, -, ht⟩ | ⟨t, ht, -⟩
    · exact absurd (by simp [ht]) hcr
    · cases t with
      | nil =>
        have : c :: w' = r := by simpa [ht] using hsplit.symm
        exact absurd (this ▸ List.mem_cons_self) hcr
      | cons c' t =>
        refine ⟨t, ?_⟩
        rw [ht, List.append_assoc] at hsplit
        have := List.append_cancel_left hsplit
        simp only [List.cons_append, List.cons.injEq] at this
        rw [ht, this.1]
  -- Up to there both go through the same accesses, against their parting.
  have hroute := h.route_eq_of_way hselected hway hi ha hxy ht hsubject.symm
  have hkeys := congrArg (List.map key) (hq.symm.trans hxy)
  rw [List.map_append, List.map_append, hroute, List.map_append, hu, List.append_assoc] at hkeys
  have := List.append_cancel_left hkeys
  simp only [List.map_cons, List.cons_append, List.cons.injEq] at this
  exact hne this.1.symm

/-! ### Nothing is left out -/

variable (hdone : ∀ j < n.size, HasPath n accepted j ∨ Settled n accepted j)

include hdone

/-- A path that goes on from an uncovered triple over unmet variables would be selected unless it goes
on to a child. -/
theorem exists_child_of_way {q r : List Nat} {i z : Nat} (hway : Way n key accepted q i)
    (hi : i < n.size) (huncovered : ¬ Covered n key accepted i)
    (hunmet : ∀ c ∈ r, Unmet n accepted c) (hz : z < n.size)
    (hpath : q ++ i :: r ∈ n.pathsTo z) :
    (∃ w, w ∈ (n.node z).children) ∧
      ∀ a ∈ accepted, ∀ j ∈ a.path, (n.triple j).value.agrees (n.triple z).value = true →
        (n.triple j).same (n.triple z) = true := by
  -- The path was looked at and is not refused, so what is left is that it was no candidate.
  have hrefused : n.isRefused accepted (q ++ i :: r) = false := by
    simp only [isRefused, Bool.or_eq_false_iff, List.any_eq_false, Bool.not_eq_true]
    exact ⟨fun a ha => h.not_collides_of_way hselected hway hi hunmet hz hpath ha,
      fun a ha => h.not_redundant_of_way hselected hway huncovered hz hpath ha⟩
  have hcandidate : n.isCandidate accepted z (q ++ i :: r) = false := by
    rcases hdone z hz with ⟨a, ha, hpatha⟩ | hsettled
    · exfalso
      have hlast := ((h.mem_pathsTo_iff hz).mp hpath).1
      -- An accepted path to the last triple would cover it, or would be met there.
      rcases List.eq_nil_or_concat r with rfl | ⟨r, c, rfl⟩
      · obtain rfl : i = z := by simpa using hlast
        exact huncovered ⟨a.path, hpatha, a, ha, List.prefix_rfl⟩
      · obtain rfl : c = z := by simpa [List.getLast?_cons] using hlast
        exact hunmet c (by simp) a ha c
          (List.mem_of_getLast? ((h.mem_pathsTo_iff hz).mp hpatha).1) rfl
    · by_contra hcandidate
      have := hsettled _ hpath (by simpa using hcandidate)
      simp [hrefused] at this
  have hnot := mt isCandidate_iff.mpr (Bool.not_eq_true _ ▸ hcandidate)
  push Not at hnot
  obtain ⟨-, hchildren, -, hsame⟩ := hnot
  refine ⟨List.exists_mem_of_ne_nil _ hchildren, fun a ha j hj hagrees => ?_⟩
  simpa using hsame a ha j hj hagrees

/-- Below an uncovered triple, paths over unmet variables go on without end. -/
theorem exists_path_of_way {q : List Nat} {i : Nat} (hway : Way n key accepted q i)
    (hi : i < n.size) (huncovered : ¬ Covered n key accepted i) (k : Nat) :
    ∃ r z, r.length = k ∧ z < n.size ∧ q ++ i :: r ∈ n.pathsTo z ∧
      ∀ c ∈ r, Unmet n accepted c := by
  induction k with
  | zero => exact ⟨[], i, rfl, hi, hway.mem_pathsTo, by simp⟩
  | succ k ih =>
    obtain ⟨r, z, hlength, hz, hpath, hunmet⟩ := ih
    obtain ⟨⟨w, hw⟩, hsame⟩ :=
      h.exists_child_of_way hselected hdone hway hi huncovered hunmet hz hpath
    have hparent := h.wellLinked.mem_children_iff.mp hw
    have hvalue := (Triple.leadsTo_iff.mp (h.wellLinked.leadsTo hparent)).2
    have hnext := h.concat_mem_pathsTo hpath hparent
    have hlt := lt_size_of_parent hparent
    refine ⟨r ++ [w], w, by simp [hlength], hlt, by simpa using hnext, fun c hc => ?_⟩
    rcases List.mem_append.mp hc with hc | hc
    · exact hunmet c hc
    obtain rfl := List.mem_singleton.mp hc
    intro a ha d hd hsubject
    obtain ⟨x, y, hxy⟩ := List.append_of_mem hd
    obtain ⟨l, hl, hpatha⟩ := hselected.exists_pathsTo ha
    rcases List.eq_nil_or_concat x with rfl | ⟨x, s, rfl⟩
    · have := h.eq_nil_of_subject_eq_head hlt hnext (hxy ▸ hpatha) hsubject.symm
      simp at this
    -- The selected path comes to the variable by a triple with the value of `z`, so by `z` itself.
    rw [List.concat_eq_append, List.append_assoc, List.singleton_append] at hxy
    have hs : s ∈ a.path := by simp [hxy]
    have hslt := h.inRange hl hpatha s hs
    have hvalues : (n.triple s).value = .text (n.triple c).subject := by
      rw [h.wellLinked.value_eq (hxy ▸ ((h.mem_pathsTo_iff hl).mp hpatha).2.1), hsubject]
    have hsame := hsame a ha s hs (by simp [hvalue, hvalues, Cell.agrees])
    have hlast := ((h.mem_pathsTo_iff hz).mp hpath).1
    rcases List.eq_nil_or_concat r with rfl | ⟨r, e, rfl⟩
    · obtain rfl : i = z := by simpa using hlast
      refine huncovered (hway.covered ha ?_)
      have hroute := h.route_eq_of_way hselected hway hi ha hxy (w := []) rfl
        (Triple.subject_eq_of_same hsame)
      rw [hxy, List.map_append, List.map_append, hroute, List.prefix_append_right_inj]
      exact List.cons_prefix_cons.mpr
        ⟨((h.keyedBy s i hslt hi).mp hsame).symm, List.nil_prefix⟩
    · obtain rfl : e = z := by simpa [List.getLast?_cons] using hlast
      exact hunmet e (by simp) a ha s hs (Triple.subject_eq_of_same hsame)

/-- There is a way to covered triples only. -/
theorem covered_of_way {q : List Nat} {i : Nat} (hway : Way n key accepted q i) (hi : i < n.size) :
    Covered n key accepted i := by
  by_contra huncovered
  obtain ⟨r, z, hlength, hz, hpath, -⟩ :=
    h.exists_path_of_way hselected hdone hway hi huncovered n.size
  have := (Network.mem_pathsTo_iff.mp hpath).2.1
  simp only [List.length_append, List.length_cons] at this
  omega

/-- The triples of every path are covered, from the state on. -/
theorem covered_of_linked {path : List Nat} {i : Nat} (hi : i < n.size)
    (hpath : path ∈ n.pathsTo i) : Covered n key accepted i := by
  induction path using List.reverseRecOn generalizing i with
  | nil => simpa using ((h.mem_pathsTo_iff hi).mp hpath).1
  | append_singleton front c ih =>
    obtain ⟨hlast, hlinked, hstate⟩ := (h.mem_pathsTo_iff hi).mp hpath
    obtain rfl : c = i := by simpa using hlast
    rcases List.eq_nil_or_concat front with rfl | ⟨front, p, rfl⟩
    · exact h.covered_of_way hselected hdone ⟨hpath, Or.inl rfl⟩ hi
    -- The covered triple before `c` is on a selected path, which meets the variable of `c`.
    rw [List.concat_eq_append, List.append_assoc, List.singleton_append] at hlinked hpath
    have hparent := hlinked.parent
    have hp := h.wellLinked.parent_lt hparent
    have hpathp := prefix_mem_pathsTo hpath
    obtain ⟨way, hwayp, a, ha, hcont⟩ := ih hp (by simpa using hpathp)
    obtain ⟨x, rfl⟩ := List.getLast?_eq_some_iff.mp ((h.mem_pathsTo_iff hp).mp hwayp).1
    obtain ⟨rest, hrest⟩ := hcont
    rw [List.map_append, List.append_assoc, List.map_singleton, List.singleton_append, eq_comm,
      List.map_eq_append_iff] at hrest
    obtain ⟨x', t, hxt, -, ht⟩ := hrest
    obtain ⟨s, t, rfl, hkey, -⟩ := List.map_eq_cons_iff.mp ht
    obtain ⟨l, hl, hpatha⟩ := hselected.exists_pathsTo ha
    have hs := h.inRange hl hpatha s (by simp [hxt])
    obtain ⟨hlinkp, hvaluep⟩ := Triple.leadsTo_iff.mp (h.wellLinked.leadsTo hparent)
    have hvalue := Triple.value_eq_text_of_same ((h.keyedBy s p hs hp).mpr hkey) hvaluep
    have hlink : (n.triple s).isLink = true := by
      by_contra hconst
      exact h.constant_ne hs hi (by simpa using hconst) hvalue
    have hpaths := prefix_mem_pathsTo (hxt ▸ hpatha)
    have hchildren := h.children_agree hp hs (List.ne_nil_of_mem hpathp)
      (List.ne_nil_of_mem hpaths) hlinkp hlink hvaluep hvalue
      (List.ne_nil_of_mem (h.wellLinked.mem_children_iff.mpr hparent))
    obtain ⟨b, hb, d, hd, hmeets⟩ := h.meetsValue_of_mem hselected ha (by simp [hxt]) hlink hchildren
    have hsubject : (n.triple c).subject = (n.triple d).subject :=
      Cell.text.inj (hvalue.symm.trans hmeets)
    obtain ⟨k, hk, hpathb⟩ := hselected.exists_pathsTo hb
    obtain ⟨u, v, huv⟩ := List.append_of_mem hd
    obtain ⟨route, hroute, hkeys⟩ := h.routes_agree hi (List.ne_nil_of_mem hpath) hsubject
      (prefix_mem_pathsTo (huv ▸ hpathb))
    obtain ⟨q, rfl⟩ := List.getLast?_eq_some_iff.mp ((h.mem_pathsTo_iff hi).mp hroute).1
    simp only [List.dropLast_concat] at hkeys
    exact h.covered_of_way hselected hdone
      ⟨hroute, Or.inr ⟨b, hb, u, d, v, huv, hkeys, hsubject⟩⟩ hi

end Selected

/-- Every triple that a path leads to lies, access by access, on a selected path. -/
theorem covered {i : Nat} (hi : i < n.size) (hreach : n.pathsTo i ≠ []) :
    Covered n key n.terminalPaths i := by
  obtain ⟨path, hpath⟩ := List.exists_mem_of_ne_nil _ hreach
  exact h.covered_of_linked (selected_terminalPaths n) (fun _ => settled_terminalPaths) hi hpath

end Coherent

end SoarProject.Network
