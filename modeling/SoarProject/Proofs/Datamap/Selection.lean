import SoarProject.Datamap.Growth
import SoarProject.Proofs.Datamap.Chain

/-!
# How paths are selected

The order in which path growth selects paths does not matter for what it ends with; two facts do.

* `selected_terminalPaths`: each selected path is a path to some triple which, when it was selected,
  was a candidate and was not refused by the paths selected before it.
* `settled_terminalPaths`: when growth ends, a triple either has a selected path or has none left that
  would be selected.
-/

namespace SoarProject.Network

variable {n : Network} {accepted grown : List TerminalPath} {i : Nat} {path : List Nat}

/-- Paths that were selected one after the other. -/
inductive Selected (n : Network) : List TerminalPath → Prop
  | nil : Selected n []
  | select {accepted : List TerminalPath} {i : Nat} {path : List Nat} :
      Selected n accepted → i < n.size → path ∈ n.pathsTo i →
      n.isCandidate accepted i path = true → n.isRefused accepted path = false →
      Selected n (accepted ++ [⟨path, n.linksInto accepted i⟩])

/-- A path to the triple has been selected. -/
def HasPath (n : Network) (accepted : List TerminalPath) (i : Nat) : Prop :=
  ∃ a ∈ accepted, a.path ∈ n.pathsTo i

/-- No path to the triple would be selected. -/
def Settled (n : Network) (accepted : List TerminalPath) (i : Nat) : Prop :=
  ∀ path ∈ n.pathsTo i, n.isCandidate accepted i path = true → n.isRefused accepted path = true

/-! ### One triple -/

/-- A path is selected if it is a candidate that is not refused; otherwise nothing changes. -/
theorem consider_cases (n : Network) (i : Nat) (accepted : List TerminalPath) (path : List Nat) :
    (n.isCandidate accepted i path = true ∧ n.isRefused accepted path = false ∧
      n.consider i accepted path = accepted ++ [⟨path, n.linksInto accepted i⟩]) ∨
    ((n.isCandidate accepted i path = true → n.isRefused accepted path = true) ∧
      n.consider i accepted path = accepted) := by
  unfold consider
  by_cases hselect : (n.isCandidate accepted i path && !n.isRefused accepted path) = true
  · rw [if_pos hselect]
    simp only [Bool.and_eq_true, Bool.not_eq_true'] at hselect
    exact Or.inl ⟨hselect.1, hselect.2, rfl⟩
  · rw [if_neg hselect]
    refine Or.inr ⟨fun hcandidate => ?_, rfl⟩
    simpa [hcandidate] using hselect

/-- Selecting among some paths keeps what was selected. -/
theorem prefix_foldl_consider (n : Network) (i : Nat) (accepted : List TerminalPath)
    (paths : List (List Nat)) :
    accepted <+: paths.foldl (n.consider i) accepted := by
  induction paths generalizing accepted with
  | nil => exact List.prefix_rfl
  | cons path paths ih =>
    refine List.IsPrefix.trans ?_ (ih _)
    rcases consider_cases n i accepted path with ⟨-, -, h⟩ | ⟨-, h⟩
    · exact ⟨_, h.symm⟩
    · exact ⟨[], by rw [h, List.append_nil]⟩

/-- Selecting among paths to a triple gives selected paths. -/
theorem Selected.foldl_consider (hi : i < n.size) {paths : List (List Nat)}
    (hpaths : ∀ path ∈ paths, path ∈ n.pathsTo i) (haccepted : Selected n accepted) :
    Selected n (paths.foldl (n.consider i) accepted) := by
  induction paths generalizing accepted with
  | nil => exact haccepted
  | cons path paths ih =>
    refine ih (fun p hp => hpaths p (List.mem_cons_of_mem _ hp)) ?_
    rcases consider_cases n i accepted path with ⟨hcandidate, hnew, h⟩ | ⟨-, h⟩ <;> rw [h]
    · exact .select haccepted hi (hpaths path List.mem_cons_self) hcandidate hnew
    · exact haccepted

/-- If something was selected among paths to a triple, the triple has a selected path. -/
theorem hasPath_foldl_consider {paths : List (List Nat)}
    (hpaths : ∀ path ∈ paths, path ∈ n.pathsTo i)
    (hlength : (paths.foldl (n.consider i) accepted).length ≠ accepted.length) :
    HasPath n (paths.foldl (n.consider i) accepted) i := by
  induction paths generalizing accepted with
  | nil => exact absurd rfl hlength
  | cons path paths ih =>
    rw [List.foldl_cons] at hlength ⊢
    rcases consider_cases n i accepted path with ⟨-, -, h⟩ | ⟨-, h⟩
    · -- This path is accepted, and what is accepted stays.
      refine ⟨⟨path, n.linksInto accepted i⟩, ?_, hpaths path List.mem_cons_self⟩
      refine (prefix_foldl_consider _ _ _ paths).subset ?_
      rw [h]
      exact List.mem_append_right _ (List.mem_singleton_self _)
    · rw [h] at hlength ⊢
      exact ih (fun p hp => hpaths p (List.mem_cons_of_mem _ hp)) hlength

/-- If nothing was selected among some paths, none of them would be. -/
theorem settled_of_foldl_consider {paths : List (List Nat)}
    (hlength : (paths.foldl (n.consider i) accepted).length = accepted.length) :
    ∀ path ∈ paths, n.isCandidate accepted i path = true → n.isRefused accepted path = true := by
  induction paths with
  | nil => simp
  | cons path paths ih =>
    rw [List.foldl_cons] at hlength
    rcases consider_cases n i accepted path with ⟨-, -, h⟩ | ⟨hsettled, h⟩
    · -- An accepted path would have made the list longer.
      have hgrown := (prefix_foldl_consider n i (n.consider i accepted path) paths).length_le
      rw [hlength, h, List.length_append, List.length_singleton] at hgrown
      omega
    · rw [h] at hlength
      intro p hp
      rcases List.mem_cons.mp hp with rfl | hp
      · exact hsettled
      · exact ih hlength p hp

/-! ### One pass -/

/-- A pass keeps what was selected. -/
theorem prefix_pass (n : Network) (working : List Nat) (accepted : List TerminalPath) :
    accepted <+: (n.pass working accepted).2 := by
  induction working generalizing accepted with
  | nil => exact List.prefix_rfl
  | cons i working ih => exact (prefix_foldl_consider ..).trans (ih _)

/-- A pass selects paths to its triples. -/
theorem Selected.pass {working : List Nat} (hworking : ∀ i ∈ working, i < n.size)
    (haccepted : Selected n accepted) : Selected n (n.pass working accepted).2 := by
  induction working generalizing accepted with
  | nil => exact haccepted
  | cons i working ih =>
    refine ih (fun j hj => hworking j (List.mem_cons_of_mem _ hj)) ?_
    exact haccepted.foldl_consider (hworking i List.mem_cons_self) fun _ h => h

/-- A pass keeps looking only at its own triples. -/
theorem sublist_pass (n : Network) (working : List Nat) (accepted : List TerminalPath) :
    (n.pass working accepted).1.Sublist working := by
  induction working generalizing accepted with
  | nil => exact List.Sublist.refl _
  | cons i working ih =>
    simp only [Network.pass]
    split
    · exact (ih _).cons_cons i
    · exact (ih _).cons i

/-- A triple that a pass stops looking at has a selected path. -/
theorem mem_or_hasPath_pass (n : Network) (accepted : List TerminalPath) {working : List Nat}
    (hi : i ∈ working) :
    i ∈ (n.pass working accepted).1 ∨ HasPath n (n.pass working accepted).2 i := by
  induction working generalizing accepted with
  | nil => simp at hi
  | cons j working ih =>
    rcases List.mem_cons.mp hi with rfl | hi
    · simp only [Network.pass]
      -- The index is dropped only when one of its paths was accepted.
      split_ifs with hlength
      · exact Or.inl List.mem_cons_self
      · obtain ⟨a, ha, hpath⟩ := hasPath_foldl_consider (fun _ h => h) hlength
        exact Or.inr ⟨a, (prefix_pass n working _).subset ha, hpath⟩
    · rcases ih _ hi with h | h
      · left
        simp only [Network.pass]
        split_ifs
        · exact List.mem_cons_of_mem _ h
        · exact h
      · exact Or.inr h

/-- A pass that goes on looking at all its triples selects nothing and leaves them settled. -/
theorem settled_of_pass {working : List Nat}
    (hlength : (n.pass working accepted).1.length = working.length) :
    (n.pass working accepted).2 = accepted ∧ ∀ i ∈ working, Settled n accepted i := by
  induction working with
  | nil => simp [Network.pass]
  | cons i working ih =>
    simp only [Network.pass] at hlength ⊢
    set selected := (n.pathsTo i).foldl (n.consider i) accepted with hselected
    split_ifs at hlength with hsame
    · -- Nothing was taken at i, so the same list of paths is carried through the rest.
      have hkept : selected = accepted :=
        (prefix_foldl_consider n i accepted (n.pathsTo i)).eq_of_length hsame.symm |>.symm
      rw [hkept, List.length_cons, List.length_cons] at hlength
      obtain ⟨hfinal, hsettled⟩ := ih (by omega)
      rw [hkept]
      refine ⟨hfinal, fun j hj => ?_⟩
      rcases List.mem_cons.mp hj with rfl | hj
      · exact settled_of_foldl_consider hsame
      · exact hsettled j hj
    · -- Something was taken at i, so i is gone from the list, against its length.
      have := (sublist_pass n working selected).length_le
      rw [hlength, List.length_cons] at this
      omega

/-! ### All passes -/

/-- Growth keeps what was selected. -/
theorem prefix_grow (working : List Nat) (accepted : List TerminalPath) :
    accepted <+: n.grow working accepted := by
  induction working, accepted using grow.induct n with
  | case1 working accepted remaining grown hpass hlt ih =>
    rw [grow]
    simp only [hpass, hlt, ↓reduceIte]
    have := prefix_pass n working accepted
    rw [hpass] at this
    exact this.trans ih
  | case2 working accepted remaining grown hpass hlt =>
    rw [grow]
    simp only [hpass, hlt, ↓reduceIte]
    have := prefix_pass n working accepted
    rwa [hpass] at this

/-- What growth ends with was selected, and every triple that it looked at has a selected path or is
settled. -/
theorem grow_spec (working : List Nat) (accepted : List TerminalPath)
    (hworking : ∀ i ∈ working, i < n.size) (haccepted : Selected n accepted) :
    Selected n (n.grow working accepted) ∧ ∀ i ∈ working,
      HasPath n (n.grow working accepted) i ∨ Settled n (n.grow working accepted) i := by
  induction working, accepted using grow.induct n with
  -- A triple that left the list had a path accepted, which stays accepted from then on.
  | case1 working accepted remaining grown hpass hlt ih =>
    have hsub := sublist_pass n working accepted
    have hselected := haccepted.pass hworking
    rw [hpass] at hsub hselected
    obtain ⟨hfinal, hall⟩ := ih (fun i hi => hworking i (hsub.subset hi)) hselected
    rw [grow]
    simp only [hpass, hlt, ↓reduceIte]
    refine ⟨hfinal, fun i hi => ?_⟩
    have hstep := mem_or_hasPath_pass n accepted hi
    rw [hpass] at hstep
    rcases hstep with hleft | ⟨a, ha, hpath⟩
    · exact hall i hleft
    · exact Or.inl ⟨a, (prefix_grow remaining grown).subset ha, hpath⟩
  -- The last pass took nothing, and so all that is left is settled.
  | case2 working accepted remaining grown hpass hlt =>
    have hsub := sublist_pass n working accepted
    have hlength : (n.pass working accepted).1.length = working.length := by
      have := hsub.length_le
      rw [hpass] at this ⊢
      exact le_antisymm this (not_lt.mp hlt)
    obtain ⟨hsame, hsettled⟩ := settled_of_pass hlength
    rw [hpass] at hsame
    subst hsame
    rw [grow]
    simp only [hpass, hlt, ↓reduceIte]
    exact ⟨haccepted, fun i hi => Or.inr (hsettled i hi)⟩

/-- The terminal paths were selected one after the other. -/
theorem selected_terminalPaths (n : Network) : Selected n n.terminalPaths :=
  (grow_spec _ _ (by simp) .nil).1

/-- When growth ends, a triple has a selected path or none that would be selected. -/
theorem settled_terminalPaths (hi : i < n.size) :
    HasPath n n.terminalPaths i ∨ Settled n n.terminalPaths i :=
  (grow_spec _ _ (by simp) .nil).2 i (List.mem_range.mpr hi)

/-! ### Selected paths -/

/-- A selected path leads to a triple. -/
theorem Selected.exists_pathsTo (h : Selected n accepted) {a : TerminalPath} (ha : a ∈ accepted) :
    ∃ i < n.size, a.path ∈ n.pathsTo i := by
  induction h with
  | nil => exact absurd ha List.not_mem_nil
  | select _ hi hpath _ _ ih =>
    rcases List.mem_append.mp ha with ha | ha
    · exact ih ha
    · rw [List.mem_singleton.mp ha]
      exact ⟨_, hi, hpath⟩

/-- A selected path neither collides with an earlier one nor is redundant with it. -/
theorem Selected.pairwise (h : Selected n accepted) :
    accepted.Pairwise fun a b =>
      Triple.collides (n.steps b.path) (n.steps a.path) = false ∧
        Triple.redundant (n.steps b.path) (n.steps a.path) = false := by
  induction h with
  | nil => exact .nil
  | select _ _ _ _ hnew ih =>
    refine List.pairwise_append.mpr ⟨ih, List.pairwise_singleton _ _, ?_⟩
    intro a ha b hb
    rw [List.mem_singleton.mp hb]
    simp only [isRefused, Bool.or_eq_false_iff, List.any_eq_false, Bool.not_eq_true] at hnew
    exact ⟨hnew.1 a ha, hnew.2 a ha⟩

end SoarProject.Network
