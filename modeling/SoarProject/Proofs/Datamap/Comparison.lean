import SoarProject.Datamap.Growth
import SoarProject.Proofs.Datamap.Chain

/-!
# Comparing paths

Path growth compares paths access by access. With a key for each place that is the same for the same
access, the comparisons become facts about lists of keys:

* `redundant_steps_iff`: one path is redundant with another if the keys of one begin with those of the
  other.
* `collides_steps_iff`: a path collides with another if they part and the path then comes to a triple
  on a variable of the other one.
-/

namespace SoarProject.Network

variable {n : Network} {κ : Type} {key : Nat → κ} {p q : List Nat}

/-- Two places have the same key if they hold the same access. -/
def KeyedBy (n : Network) (key : Nat → κ) : Prop :=
  ∀ i j, i < n.size → j < n.size → ((n.triple i).same (n.triple j) = true ↔ key i = key j)

/-- All places of a path hold triples. -/
def InRange (n : Network) (path : List Nat) : Prop := ∀ i ∈ path, i < n.size

theorem inRange_cons_iff {i : Nat} : n.InRange (i :: p) ↔ i < n.size ∧ n.InRange p :=
  List.forall_mem_cons

/-- Two paths are redundant if one of them continues the other. -/
theorem redundant_steps_iff (hkey : n.KeyedBy key) (hp : n.InRange p) (hq : n.InRange q) :
    Triple.redundant (n.steps p) (n.steps q) = true ↔
      p.map key <+: q.map key ∨ q.map key <+: p.map key := by
  induction p generalizing q with
  | nil => simp [steps, Triple.redundant]
  | cons a p ih =>
    cases q with
    | nil => simp [steps, Triple.redundant]
    | cons b q =>
      -- The two paths are compared step by step, as far as the shorter one goes.
      obtain ⟨ha, hp⟩ := inRange_cons_iff.mp hp
      obtain ⟨hb, hq⟩ := inRange_cons_iff.mp hq
      have ih := ih hp hq
      simp only [steps] at ih
      simp only [steps, List.map_cons, Triple.redundant, Bool.and_eq_true, hkey a b ha hb, ih,
        List.cons_prefix_cons, eq_comm (a := key b), ← and_or_left]

/-- One path leaves another: they agree up to somewhere, and go on with different accesses. What the
first one has left begins with `rest`. -/
def Leaves (key : Nat → κ) (p q rest : List Nat) : Prop :=
  ∃ u a v u' b q', rest = a :: v ∧ p = u ++ a :: v ∧ q = u' ++ b :: q' ∧
    u.map key = u'.map key ∧ key a ≠ key b

/-- Two paths that begin with the same access part behind it. -/
theorem leaves_cons_iff_of_key_eq {a b : Nat} {rest : List Nat} (hab : key a = key b) :
    Leaves key (a :: p) (b :: q) rest ↔ Leaves key p q rest := by
  constructor
  · rintro ⟨u, c, v, u', d, q', rfl, hp, hq, hu, hcd⟩
    -- The common part `u` begins with the two equal heads, or it would end before them.
    cases u with
    | nil =>
      cases u' with
      | nil => grind
      | cons b' u' => simp at hu
    | cons a' u =>
      cases u' with
      | nil => simp at hu
      | cons b' u' =>
        simp only [List.cons_append, List.cons.injEq] at hp hq
        simp only [List.map_cons, List.cons.injEq] at hu
        exact ⟨u, c, v, u', d, q', rfl, hp.2, hq.2, hu.2, hcd⟩
  · rintro ⟨u, c, v, u', d, q', rfl, rfl, rfl, hu, hcd⟩
    exact ⟨a :: u, c, v, b :: u', d, q', rfl, rfl, rfl, by simp [hab, hu], hcd⟩

/-- Two paths that begin with different accesses part at once. -/
theorem leaves_cons_iff_of_key_ne {a b : Nat} {rest : List Nat} (hab : key a ≠ key b) :
    Leaves key (a :: p) (b :: q) rest ↔ rest = a :: p := by
  constructor
  · rintro ⟨u, c, v, u', d, q', rfl, hp, hq, hu, hcd⟩
    -- The heads differ, so nothing is common.
    cases u with
    | nil => exact hp.symm
    | cons a' u =>
      cases u' with
      | nil => simp at hu
      | cons b' u' =>
        simp only [List.cons_append, List.cons.injEq] at hp hq
        simp only [List.map_cons, List.cons.injEq] at hu
        exact absurd (hp.1 ▸ hq.1 ▸ hu.1) hab
  · rintro rfl
    exact ⟨[], a, p, [], b, q, rfl, rfl, rfl, rfl, hab⟩

/-- What a path has left where it leaves another one. -/
theorem divergence?_steps_eq_some_iff (hkey : n.KeyedBy key) (hp : n.InRange p)
    (hq : n.InRange q) {left : List Triple} :
    Triple.divergence? (n.steps p) (n.steps q) = some left ↔
      ∃ rest, Leaves key p q rest ∧ left = n.steps rest := by
  induction p generalizing q with
  | nil => simp [steps, Triple.divergence?, Leaves]
  | cons a p ih =>
    cases q with
    | nil => simp [steps, Triple.divergence?, Leaves]
    | cons b q =>
      obtain ⟨ha, hp⟩ := inRange_cons_iff.mp hp
      obtain ⟨hb, hq⟩ := inRange_cons_iff.mp hq
      simp only [steps, List.map_cons, Triple.divergence?]
      split_ifs with hsame
      · -- The paths begin with one access; whether they part is up to the rest.
        have hab := (hkey a b ha hb).mp hsame
        simp only [leaves_cons_iff_of_key_eq hab]
        exact ih hp hq
      · -- The paths part here, and all of the first one is left.
        have hab : key a ≠ key b := fun h => hsame ((hkey a b ha hb).mpr h)
        simp only [leaves_cons_iff_of_key_ne hab, exists_eq_left, Option.some.injEq, List.map_cons,
          eq_comm (a := left)]

theorem Leaves.append {rest : List Nat} (h : Leaves key p q rest) (x y : List Nat) :
    Leaves key (p ++ x) (q ++ y) (rest ++ x) := by
  obtain ⟨u, a, v, u', b, q', rfl, rfl, rfl, hu, hab⟩ := h
  exact ⟨u, a, v ++ x, u', b, q' ++ y, by simp, by simp, by simp, hu, hab⟩

/-- Two paths part, or one of them continues the other. -/
theorem prefix_or_leaves (key : Nat → κ) (p q : List Nat) :
    p.map key <+: q.map key ∨ q.map key <+: p.map key ∨ ∃ rest, Leaves key p q rest := by
  induction p generalizing q with
  | nil => simp
  | cons a p ih =>
    cases q with
    | nil => simp
    | cons b q =>
      by_cases hab : key a = key b
      · simpa only [List.map_cons, hab, List.cons_prefix_cons, true_and,
          leaves_cons_iff_of_key_eq hab] using ih q
      · exact Or.inr (Or.inr ⟨a :: p, (leaves_cons_iff_of_key_ne hab).mpr rfl⟩)

/-- The value of a triple is the variable that the next triple of a linked path starts from. -/
theorem WellLinked.value_eq (hlinks : n.WellLinked) {front rest : List Nat} {s c : Nat}
    (hlinked : n.Linked (front ++ s :: c :: rest)) :
    (n.triple s).value = .text (n.triple c).subject :=
  (Triple.leadsTo_iff.mp (hlinks.leadsTo hlinked.parent)).2

/-- A value is among the variables of a path if it is the variable of one of its triples. -/
theorem isAmong_subjects_iff {s : Nat} :
    (n.triple s).isAmong (Triple.subjects (n.steps q)) = true ↔
      ∃ d ∈ q, (n.triple s).value = .text (n.triple d).subject := by
  simp [Triple.isAmong, Triple.subjects, steps]

/-- A linked path collides with another one if it leaves it and a later triple is on a variable of the
other path. -/
theorem collides_steps_iff (hlinks : n.WellLinked) (hkey : n.KeyedBy key) (hlinked : n.Linked p)
    (hp : n.InRange p) (hq : n.InRange q) :
    Triple.collides (n.steps p) (n.steps q) = true ↔
      ∃ rest, Leaves key p q rest ∧
        ∃ c ∈ rest.tail, ∃ d ∈ q, (n.triple c).subject = (n.triple d).subject := by
  have hinit : n.InRange p.dropLast := fun i hi => hp i (List.dropLast_subset _ hi)
  have hdrop : (n.steps p).dropLast = n.steps p.dropLast := List.map_dropLast.symm
  have hunfold : Triple.collides (n.steps p) (n.steps q) = true ↔
      ∃ rest, Leaves key p.dropLast q rest ∧
        ∃ s ∈ rest, ∃ d ∈ q, (n.triple s).value = .text (n.triple d).subject := by
    rw [Triple.collides, hdrop]
    constructor
    · split
      next left hleft =>
        obtain ⟨rest, hrest, rfl⟩ := (divergence?_steps_eq_some_iff hkey hinit hq).mp hleft
        intro hany
        simp only [steps, List.any_map, List.any_eq_true, Function.comp_apply] at hany
        obtain ⟨s, hs, hamong⟩ := hany
        exact ⟨rest, hrest, s, hs, isAmong_subjects_iff.mp hamong⟩
      next => simp
    · rintro ⟨rest, hrest, s, hs, hd⟩
      rw [(divergence?_steps_eq_some_iff hkey hinit hq).mpr ⟨rest, hrest, rfl⟩]
      simp only [steps, List.any_map, List.any_eq_true, Function.comp_apply]
      exact ⟨s, hs, isAmong_subjects_iff.mpr hd⟩
  rw [hunfold]
  constructor
  · rintro ⟨rest, ⟨u, a, v, u', b, q', rfl, hpu, hqu, hu, hab⟩, s, hs, d, hd, hvalue⟩
    have hne : p ≠ [] := by
      rintro rfl
      simp at hpu
    have hlast : p = u ++ a :: (v ++ [p.getLast hne]) := by
      conv_lhs => rw [← List.dropLast_append_getLast hne, hpu]
      simp
    -- The triple behind `s` starts from its value.
    obtain ⟨x, y, hxy⟩ := List.append_of_mem hs
    obtain ⟨c, z, hcz⟩ := List.exists_cons_of_ne_nil
      (List.append_ne_nil_of_right_ne_nil y (List.cons_ne_nil (p.getLast hne) []))
    have hp' : p = (u ++ x) ++ s :: c :: z := by
      rw [hlast, ← List.cons_append, hxy, ← hcz]
      simp
    refine ⟨a :: (v ++ [p.getLast hne]), ⟨u, a, _, u', b, q', rfl, hlast, hqu, hu, hab⟩, c, ?_, d,
      hd, ?_⟩
    · have : a :: (v ++ [p.getLast hne]) = x ++ s :: c :: z := by
        rw [← List.cons_append, hxy, ← hcz]
        simp
      rw [this]
      cases x <;> simp
    · have := hlinks.value_eq (hp' ▸ hlinked)
      rw [hvalue] at this
      exact (Cell.text.inj this).symm
  · rintro ⟨rest, ⟨u, a, v, u', b, q', rfl, hpu, hqu, hu, hab⟩, c, hc, d, hd, hsubject⟩
    obtain ⟨x, w, rfl⟩ := List.append_of_mem (show c ∈ v from hc)
    -- The triple before `c` has the variable of `c` as its value.
    obtain ⟨x', s, hs⟩ : ∃ x' s, a :: x = x' ++ [s] :=
      ⟨(a :: x).dropLast, (a :: x).getLast (List.cons_ne_nil a x),
        (List.dropLast_append_getLast _).symm⟩
    have hp' : p = (u ++ x') ++ s :: c :: w := by
      rw [hpu, ← List.cons_append, hs]
      simp
    refine ⟨a :: (x ++ (c :: w).dropLast), ⟨u, a, _, u', b, q', rfl, ?_, hqu, hu, hab⟩, s, ?_, d,
      hd, ?_⟩
    · rw [hpu, ← List.cons_append, ← List.append_assoc, List.dropLast_append_cons]
      simp
    · rw [← List.cons_append, hs]
      simp
    · rw [hlinks.value_eq (hp' ▸ hlinked), hsubject]

end SoarProject.Network
