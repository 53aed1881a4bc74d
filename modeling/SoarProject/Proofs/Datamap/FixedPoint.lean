import Mathlib.Data.List.Forall2
import Mathlib.Data.List.ReduceOption
import SoarProject.Proofs.Datamap.Gathering

/-!
# The fixed point of path growth

Path growth looks at the triples of all rules again and again until a pass selects nothing. Whatever
cycles the rules have, in whatever order their triples stand, and whether or not two rules hold the same
access:

* `exists_passes`: this takes at most one pass more than there are triples.
* `IsFixedPoint`: what the selected paths are like, and why no other path is selected.
* `terminalPaths_concat`: path growth over several rules ends in such a fixed point.
-/

namespace SoarProject

namespace Triple

variable {p q : List Triple}

/-- Two paths have the same accesses, or one of them begins with those of the other. -/
def Nested (p q : List Triple) : Prop :=
  List.Forall₂ (fun a b => a.same b = true) (p.take q.length) (q.take p.length)

/-- Two paths are redundant if they are nested. -/
theorem redundant_iff : redundant p q = true ↔ Nested p q := by
  induction p generalizing q with
  | nil => simp [redundant, Nested]
  | cons a p ih =>
    cases q with
    | nil => simp [redundant, Nested]
    | cons b q =>
      rw [redundant, Bool.and_eq_true, ih]
      simp [Nested]

end Triple

namespace Network

open Triple

variable {n : Network} {accepted final : List TerminalPath} {i : Nat} {path : List Nat}

/-! ### Passes -/

/-- Growth takes some passes over the triples that are left, of which each but the last selects
something, and ends with some paths. -/
inductive Passes (n : Network) : Nat → List Nat → List TerminalPath → List TerminalPath → Prop
  | last {working : List Nat} {accepted : List TerminalPath} :
      n.pass working accepted = (working, accepted) → Passes n 1 working accepted accepted
  | more {count : Nat} {working remaining : List Nat} {accepted grown final : List TerminalPath} :
      n.pass working accepted = (remaining, grown) → grown ≠ accepted →
      Passes n count remaining grown final → Passes n (count + 1) working accepted final

/-- A pass that selects nothing goes on looking at all its triples. -/
theorem pass_fst_eq (n : Network) (working : List Nat) (accepted : List TerminalPath)
    (h : (n.pass working accepted).2 = accepted) :
    (n.pass working accepted).1 = working := by
  induction working with
  | nil => rfl
  | cons i working ih =>
    simp only [pass] at h ⊢
    set selected := (n.pathsTo i).foldl (n.consider i) accepted with hselected
    have hgrown : accepted <+: selected := prefix_foldl_consider n i accepted (n.pathsTo i)
    have hsame : selected = accepted := by
      refine (hgrown.eq_of_length_le ?_).symm
      exact h ▸ (prefix_pass n working selected).length_le
    rw [hsame] at h ⊢
    rw [if_pos rfl, ih h]

/-- Growth takes at most one pass more than there are triples to look at. -/
theorem exists_passes (n : Network) (working : List Nat) (accepted : List TerminalPath) :
    ∃ count ≤ working.length + 1, Passes n count working accepted (n.grow working accepted) := by
  induction working, accepted using grow.induct n with
  -- The pass took something away, and so the next one begins with a shorter list.
  | case1 working accepted remaining grown hpass hlt ih =>
    obtain ⟨count, hcount, hpasses⟩ := ih
    rw [grow]
    simp only [hpass, hlt, ↓reduceIte]
    refine ⟨count + 1, by omega, .more hpass ?_ hpasses⟩
    rintro rfl
    have hsame := pass_fst_eq n working grown (by rw [hpass])
    rw [hpass] at hsame
    exact absurd (congrArg List.length hsame) hlt.ne
  -- The pass took nothing away, and so it left everything as it was.
  | case2 working accepted remaining grown hpass hlt =>
    have hsub := sublist_pass n working accepted
    rw [hpass] at hsub
    obtain rfl := hsub.eq_of_length_le (not_lt.mp hlt)
    have hlength : (n.pass remaining accepted).1.length = remaining.length := by rw [hpass]
    obtain ⟨hsame, -⟩ := settled_of_pass hlength
    rw [hpass] at hsame
    subst hsame
    rw [grow]
    simp only [hpass, hlt, ↓reduceIte]
    exact ⟨1, by omega, .last hpass⟩

/-! ### The conditions of a fixed point -/

/-- A triple at which every path ends: its value is a constant or leads to no triple. -/
def IsTerminal (n : Network) (i : Nat) : Prop :=
  (n.triple i).isLink = false ∨ (n.node i).children = []

/-- A path to a triple runs into itself: the value of the triple is a variable of the path. -/
def Loops (n : Network) (i : Nat) (path : List Nat) : Prop :=
  (n.triple i).isLink = true ∧ ∃ t ∈ n.steps path, (n.triple i).value = .text t.subject

/-- A path has no link into selected ones. -/
def Unlinked (n : Network) (accepted : List TerminalPath) (path : List Nat) : Prop :=
  ∀ a ∈ accepted, loopsInto? (n.steps path) (n.steps a.path) = .ok none

/-- Selected paths as path growth leaves them. -/
structure IsFixedPoint (n : Network) (accepted : List TerminalPath) : Prop where
  /-- Each is one of the paths from a state to its last triple. -/
  isPath : ∀ a ∈ accepted, ∃ i < n.size, a.path.getLast? = some i ∧ a.path ∈ n.pathsTo i
  /-- None has the same accesses as another one or begins with them. -/
  apart : accepted.Pairwise fun a b => ¬ Nested (n.steps b.path) (n.steps a.path)
  /-- None collides with an earlier one. -/
  clear : accepted.Pairwise fun a b => collides (n.steps b.path) (n.steps a.path) = false
  /-- Each cannot go on, runs into itself, or has links. -/
  ends : ∀ a ∈ accepted, ∃ i, a.path.getLast? = some i ∧
    (n.IsTerminal i ∨ n.Loops i a.path ∨ a.links ≠ [])
  /-- The links of each are the triples, in order, by which it runs into the earlier ones. -/
  links : ∀ k, (hk : k < accepted.length) → ∃ found,
    (accepted.take k).mapM (fun a => loopsInto? (n.steps accepted[k].path) (n.steps a.path)) =
      .ok found ∧ n.steps accepted[k].links = found.reduceOption
  /-- A triple at which none ends has only paths that can go on and have no links, or that collide or
  are nested with a selected one. -/
  maximal : ∀ i < n.size, (∀ a ∈ accepted, a.path.getLast? ≠ some i) → ∀ path ∈ n.pathsTo i,
    (¬ n.IsTerminal i ∧ ¬ n.Loops i path ∧ n.Unlinked accepted path) ∨
    (∃ a ∈ accepted, collides (n.steps path) (n.steps a.path) = true) ∨
    ∃ a ∈ accepted, Nested (n.steps path) (n.steps a.path)

/-- The last triple of a path to a triple is that triple. -/
theorem getLast?_of_mem_pathsTo (hpath : path ∈ n.pathsTo i) : path.getLast? = some i :=
  (mem_pathsTo_iff.mp hpath).1

/-- What a path to a triple runs into in another path is the first triple with the same value. -/
theorem loopsInto?_steps (hpath : path ∈ n.pathsTo i) (existing : List Nat) :
    loopsInto? (n.steps path) (n.steps existing) =
      .ok (if (n.triple i).isLink then
        (existing.find? fun j => (n.triple i).convergesOn (n.triple j)).map n.triple else none) := by
  have hlast : (n.steps path).getLast? = some (n.triple i) := by
    rw [steps, List.getLast?_map, getLast?_of_mem_pathsTo hpath, Option.map_some]
  rw [loopsInto?, hlast]
  simp only [steps, List.find?_map, Function.comp_def]

/-- The triples by which a path runs into selected ones are those of its links. -/
theorem mapM_loopsInto?_steps (hpath : path ∈ n.pathsTo i) (accepted : List TerminalPath) :
    ∃ found, accepted.mapM (fun a => loopsInto? (n.steps path) (n.steps a.path)) = .ok found ∧
      n.steps (n.linksInto accepted i) = found.reduceOption := by
  simp only [loopsInto?_steps hpath]
  refine ⟨_, List.mapM_pure, ?_⟩
  cases hlink : (n.triple i).isLink with
  | false => simp [linksInto, hlink, steps, List.reduceOption]
  | true =>
    simp only [linksInto, hlink, if_true, steps, List.map_filterMap, List.reduceOption,
      List.filterMap_map, Function.comp_def, id]

/-- A path is unlinked if it would get no links. -/
theorem unlinked_iff (hpath : path ∈ n.pathsTo i) :
    n.Unlinked accepted path ↔ n.linksInto accepted i = [] := by
  simp only [Unlinked, loopsInto?_steps hpath, Except.ok.injEq, linksInto]
  cases (n.triple i).isLink with
  | false => simp
  | true => simp [List.filterMap_eq_nil_iff]

/-- A path to a triple may be selected if the triple is terminal, or if the path runs into itself or
into a selected one. -/
theorem isCandidate_eq_true_iff :
    n.isCandidate accepted i path = true ↔
      n.IsTerminal i ∨ n.Loops i path ∨ n.linksInto accepted i ≠ [] := by
  have hamong : (n.triple i).isAmong (subjects (n.steps path)) = true ↔
      ∃ t ∈ n.steps path, (n.triple i).value = .text t.subject := by
    simp [isAmong, subjects]
  simp only [isCandidate, Bool.or_eq_true, Bool.not_eq_true', List.isEmpty_iff,
    ← Bool.not_eq_true, hamong, IsTerminal, Loops]
  by_cases hlink : (n.triple i).isLink = true <;> simp [hlink, or_assoc]

/-- A path is refused if it collides or is nested with a selected one. -/
theorem isRefused_eq_true_iff :
    n.isRefused accepted path = true ↔
      (∃ a ∈ accepted, collides (n.steps path) (n.steps a.path) = true) ∨
      ∃ a ∈ accepted, Nested (n.steps path) (n.steps a.path) := by
  simp [isRefused, redundant_iff]

/-! ### Selected paths -/

/-- A selected path cannot go on, runs into itself, or has links. -/
theorem Selected.ends (h : Selected n accepted) {a : TerminalPath} (ha : a ∈ accepted) :
    ∃ i, a.path.getLast? = some i ∧ (n.IsTerminal i ∨ n.Loops i a.path ∨ a.links ≠ []) := by
  induction h with
  | nil => exact absurd ha List.not_mem_nil
  | select _ _ hpath hcandidate _ ih =>
    rcases List.mem_append.mp ha with ha | ha
    · exact ih ha
    · rw [List.mem_singleton.mp ha]
      exact ⟨_, getLast?_of_mem_pathsTo hpath, isCandidate_eq_true_iff.mp hcandidate⟩

/-- The links of a selected path are the triples by which it runs into the paths selected before. -/
theorem Selected.links (h : Selected n accepted) {k : Nat} (hk : k < accepted.length) :
    ∃ found, (accepted.take k).mapM
        (fun a => loopsInto? (n.steps accepted[k].path) (n.steps a.path)) = .ok found ∧
      n.steps accepted[k].links = found.reduceOption := by
  induction h generalizing k with
  | nil => simp at hk
  | @select accepted i path _ _ hpath _ _ ih =>
    by_cases hlt : k < accepted.length
    · simpa only [List.getElem_append_left hlt, List.take_append_of_le_length hlt.le] using ih hlt
    · obtain rfl : k = accepted.length := by
        rw [List.length_append, List.length_singleton] at hk
        omega
      simpa only [List.getElem_concat_length, List.take_left'] using
        mapM_loopsInto?_steps hpath accepted

/-! ### Several rules -/

/-- The network of several rules holds all their triples. -/
theorem size_concat_link (rules : List (List Triple)) :
    (concat (rules.map link)).size = rules.flatten.length := by
  induction rules using List.reverseRecOn with
  | nil => rfl
  | append_singleton rules ts ih =>
    rw [List.map_append, List.map_singleton, concat_append_singleton, size_append, ih, size_link,
      List.flatten_append, List.length_append, List.flatten_singleton]

/-- Path growth over the triples of several rules takes at most one pass more than there are triples,
and ends in a fixed point. -/
theorem terminalPaths_concat (rules : List (List Triple)) :
    let n := concat (rules.map link)
    (∃ count ≤ rules.flatten.length + 1, Passes n count (List.range n.size) [] n.terminalPaths) ∧
      IsFixedPoint n n.terminalPaths := by
  intro n
  have hselected := selected_terminalPaths n
  refine ⟨?_, ?_, ?_, ?_, fun a ha => hselected.ends ha, fun k hk => hselected.links hk, ?_⟩
  · obtain ⟨count, hcount, hpasses⟩ := exists_passes n (List.range n.size) []
    rw [List.length_range, size_concat_link] at hcount
    exact ⟨count, hcount, hpasses⟩
  · intro a ha
    obtain ⟨i, hi, hpath⟩ := hselected.exists_pathsTo ha
    exact ⟨i, hi, getLast?_of_mem_pathsTo hpath, hpath⟩
  · exact hselected.pairwise.imp fun h hnested =>
      absurd (redundant_iff.mpr hnested) (Bool.eq_false_iff.mp h.2)
  · exact hselected.pairwise.imp And.left
  · -- What was not selected was refused in the last pass, or it was no candidate.
    intro i hi hfree path hpath
    rcases settled_terminalPaths hi with ⟨a, ha, hlast⟩ | hsettled
    · exact absurd (getLast?_of_mem_pathsTo hlast) (hfree a ha)
    by_cases hcandidate : n.isCandidate n.terminalPaths i path = true
    · exact .inr (isRefused_eq_true_iff.mp (hsettled path hpath hcandidate))
    · rw [isCandidate_eq_true_iff, not_or, not_or, not_not] at hcandidate
      exact .inl ⟨hcandidate.1, hcandidate.2.1, (unlinked_iff hpath).mpr hcandidate.2.2⟩

end Network

end SoarProject
