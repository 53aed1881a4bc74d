import SoarProject.Proofs.Datamap.FixedPoint

/-!
# Accesses that come first

Path growth looks at the triples in their order, and so an access on a state is looked at before any later one.
If its value is a constant, its path is the access alone, which can always be selected: it never comes back to a
selected path, and the only paths that begin with the same access belong to rules before it.

* `Network.isRefused_foldl_consider`: what has been looked at, and could be selected, is refused from then on.
* `Network.exists_terminalPath_of_first`: a constant of a state whose access no other triple of a state made before
  begins a selected path.
-/

namespace SoarProject

namespace Triple

variable {a b t : Triple} {q : List Triple}

theorem same_comm (ha : a.IsText) (hb : b.IsText) : a.same b = b.same a := by
  rw [Bool.eq_iff_iff, same_iff_access_eq hb, same_iff_access_eq ha]
  exact eq_comm

theorem same_congr (hb : b.IsText) (ht : t.IsText) (h : a.same b = true) : a.same t = b.same t := by
  rw [Bool.eq_iff_iff, same_iff_access_eq ht, same_iff_access_eq ht, (same_iff_access_eq hb).mp h]

/-- A path of one triple is nested with the paths that begin with the same access. -/
theorem nested_singleton_cons_iff : Nested [t] (a :: q) ↔ t.same a = true := by
  simp [Nested]

theorem nested_refl (q : List Triple) : Nested q q := by
  rw [Nested]
  exact List.forall₂_same.mpr fun a _ => a.same_refl

end Triple

namespace Network

open Triple

variable {n : Network} {accepted : List TerminalPath} {i j : Nat} {path : List Nat} {paths : List (List Nat)}
  {rules : List (List Triple)}

/-! ### Looking at one triple after the other -/

/-- With more selected paths, what is refused still is. -/
theorem isRefused_of_prefix {grown : List TerminalPath} (hgrown : accepted <+: grown)
    (h : n.isRefused accepted path = true) : n.isRefused grown path = true := by
  rw [isRefused_eq_true_iff] at h ⊢
  rcases h with ⟨a, ha, hcollides⟩ | ⟨a, ha, hnested⟩
  · exact .inl ⟨a, hgrown.subset ha, hcollides⟩
  · exact .inr ⟨a, hgrown.subset ha, hnested⟩

/-- A path to a terminal triple that has been looked at is refused from then on. -/
theorem isRefused_foldl_consider (hterminal : n.IsTerminal i) (hpath : path ∈ paths) :
    n.isRefused (paths.foldl (n.consider i) accepted) path = true := by
  induction paths generalizing accepted with
  | nil => cases hpath
  | cons first rest ih =>
    rcases List.mem_cons.mp hpath with rfl | hrest
    · refine isRefused_of_prefix (prefix_foldl_consider n i _ rest) ?_
      rcases consider_cases n i accepted path with ⟨-, -, heq⟩ | ⟨hrefused, heq⟩ <;> rw [heq]
      · exact isRefused_eq_true_iff.mpr (.inr ⟨_, List.mem_concat_self, nested_refl _⟩)
      · exact hrefused (isCandidate_eq_true_iff.mpr (.inl hterminal))
    · exact ih hrest

/-- What is selected among some paths is one of them, or was selected before. -/
theorem mem_foldl_consider {a : TerminalPath} (ha : a ∈ paths.foldl (n.consider i) accepted) :
    a ∈ accepted ∨ a.path ∈ paths := by
  induction paths generalizing accepted with
  | nil => exact .inl ha
  | cons first rest ih =>
    rcases ih ha with hselected | hrest
    · rcases consider_cases n i accepted first with ⟨-, -, heq⟩ | ⟨-, heq⟩ <;> rw [heq] at hselected
      · rcases List.mem_append.mp hselected with hold | hnew
        · exact .inl hold
        · rw [List.mem_singleton.mp hnew]
          exact .inr List.mem_cons_self
      · exact .inl hselected
    · exact .inr (List.mem_cons_of_mem _ hrest)

/-- What a pass selects leads to one of its triples, or was selected before. -/
theorem mem_pass {a : TerminalPath} {working : List Nat} (ha : a ∈ (n.pass working accepted).2) :
    a ∈ accepted ∨ ∃ i ∈ working, a.path ∈ n.pathsTo i := by
  induction working generalizing accepted with
  | nil => exact .inl ha
  | cons j rest ih =>
    rcases ih ha with hselected | ⟨i, hi, hpath⟩
    · exact (mem_foldl_consider hselected).imp_right fun hpath => ⟨j, List.mem_cons_self, hpath⟩
    · exact .inr ⟨i, List.mem_cons_of_mem _ hi, hpath⟩

/-- A pass over some triples and then over others. -/
theorem pass_append (working rest : List Nat) :
    (n.pass (working ++ rest) accepted).2 = (n.pass rest (n.pass working accepted).2).2 := by
  induction working generalizing accepted with
  | nil => rfl
  | cons i working ih => exact ih

/-- Every path to a terminal triple is refused because of a selected path to this triple or to one before it. -/
theorem exists_refusing (hi : i < n.size) (hterminal : n.IsTerminal i) (hpath : path ∈ n.pathsTo i) :
    ∃ accepted ⊆ n.terminalPaths, n.isRefused accepted path = true ∧
      ∀ a ∈ accepted, ∃ j ≤ i, a.path ∈ n.pathsTo j := by
  let before := (n.pass (List.range i) []).2
  let grown := (n.pathsTo i).foldl (n.consider i) before
  have hsplit : List.range n.size = List.range i ++ i :: (List.range (n.size - i - 1)).map (· + (i + 1)) := by
    have hsize : n.size = i + (1 + (n.size - i - 1)) := by omega
    conv_lhs => rw [hsize, List.range_add, List.range_add]
    simp [Nat.add_comm, Nat.add_left_comm]
  refine ⟨grown, ?_, isRefused_foldl_consider hterminal hpath, fun a ha => ?_⟩
  · -- The paths that the first pass selects stay selected.
    have hpass : grown <+: (n.pass (List.range n.size) []).2 := by
      rw [hsplit, pass_append]
      exact prefix_pass n _ grown
    refine (hpass.trans ?_).subset
    rw [terminalPaths, grow]
    dsimp only
    split
    · exact prefix_grow _ _
    · exact List.prefix_rfl
  · rcases mem_foldl_consider ha with hbefore | hpath
    · rcases mem_pass hbefore with hnone | ⟨j, hj, hpath⟩
      · cases hnone
      · exact ⟨j, (List.mem_range.mp hj).le, hpath⟩
    · exact ⟨i, le_rfl, hpath⟩

/-! ### Accesses on states -/

/-- A triple of a state is a path. -/
theorem singleton_mem_pathsTo (h : (n.triple i).isState = true) : [i] ∈ n.pathsTo i := by
  refine mem_pathsTo_iff.mpr ⟨rfl, Nat.one_le_iff_ne_zero.mpr ?_, .singleton _, ⟨i, rfl, h⟩, ?_⟩
  · have hi := lt_size_of_isState h
    omega
  · simp [Distinct, steps]

/-- The triples of several rules follow each other. -/
theorem map_triple_concat_link (rules : List (List Triple)) :
    (concat (rules.map link)).nodes.map (·.triple) = rules.flatten := by
  induction rules using List.reverseRecOn with
  | nil => rfl
  | append_singleton rules ts ih =>
    rw [List.map_append, List.map_singleton, concat_append_singleton, List.flatten_append, ← ih]
    simp [append, link, Function.comp_def]

theorem triple_concat_link (hi : i < rules.flatten.length) :
    (concat (rules.map link)).triple i = rules.flatten[i] := by
  simp only [← map_triple_concat_link, List.length_map] at hi ⊢
  rw [List.getElem_map, triple, node, List.getD_eq_getElem?_getD, List.getElem?_eq_getElem hi, Option.getD_some]

variable (hapart : ∀ ts ∈ rules, Apart ts) (htexts : ∀ ts ∈ rules, ∀ t ∈ ts, t.IsText)

include hapart

/-- A path that leads to a triple at or before a place begins there or before, if it begins with the same access. -/
theorem head_le_of_same (hi : i < (concat (rules.map link)).size) {j h : Nat} {rest : List Nat} (hj : j ≤ i)
    (hpath : h :: rest ∈ (concat (rules.map link)).pathsTo j)
    (hsame : ((concat (rules.map link)).triple i).same ((concat (rules.map link)).triple h) = true) : h ≤ i := by
  have hlinked : ∀ m ∈ rules.map link, m.WellLinked :=
    List.forall_mem_map.mpr fun ts hts => wellLinked_link (hapart ts hts)
  obtain ⟨k, hk, hbelongs⟩ := exists_belongs hlinked hpath
  obtain ⟨hle, hlt⟩ := hbelongs h List.mem_cons_self
  obtain ⟨hle', -⟩ := hbelongs j (List.mem_of_getLast? (getLast?_of_mem_pathsTo hpath))
  by_cases hbefore : start (rules.map link) (k + 1) ≤ i
  · omega
  · -- Both are triples of one rule, where no access comes twice.
    rw [start_succ hk] at hlt hbefore
    obtain ⟨a, rfl⟩ := Nat.exists_eq_add_of_le' hle
    obtain ⟨b, rfl⟩ := Nat.exists_eq_add_of_le' (hle'.trans hj)
    have hpart := part_getElem hk
    have ha : a < ((rules.map link)[k]).size := by omega
    have hb : b < ((rules.map link)[k]).size := by omega
    rw [hpart.triple_eq ha, hpart.triple_eq hb] at hsame
    rw [List.length_map] at hk
    simp only [List.getElem_map, size_link] at ha hb hsame
    rw [triple_link ha, triple_link hb] at hsame
    have hab := hapart _ (List.getElem_mem hk) b a hb ha hsame
    omega

include htexts

/-- A constant of a state begins a selected path if no triple of a state before it is the same access. -/
theorem exists_terminalPath_of_first (hstate : ((concat (rules.map link)).triple i).isState = true)
    (hconstant : ((concat (rules.map link)).triple i).isLink = false)
    (hfirst : ∀ j < i, ((concat (rules.map link)).triple j).isState = true →
      ((concat (rules.map link)).triple j).same ((concat (rules.map link)).triple i) = false) :
    ∃ p ∈ (concat (rules.map link)).terminalPaths, ∃ rest, p.path = i :: rest := by
  set n := concat (rules.map link) with hn
  have hi := lt_size_of_isState hstate
  have htext : ∀ j < n.size, (n.triple j).IsText := by
    intro j hj
    rw [hn, size_concat_link] at hj
    rw [hn, triple_concat_link hj]
    obtain ⟨ts, hts, ht⟩ := List.mem_flatten.mp (List.getElem_mem hj)
    exact htexts ts hts _ ht
  obtain ⟨accepted, hsubset, hrefused, hleads⟩ :=
    exists_refusing hi (.inl hconstant) (singleton_mem_pathsTo hstate)
  rcases isRefused_eq_true_iff.mp hrefused with ⟨a, -, hcollides⟩ | ⟨a, ha, hnested⟩
  · exact absurd hcollides (Bool.false_ne_true)
  obtain ⟨j, hj, hpath⟩ := hleads a ha
  obtain ⟨-, -, -, hstarts, -⟩ := mem_pathsTo_iff.mp hpath
  obtain ⟨h, hhead, hhstate⟩ := hstarts
  obtain ⟨rest, hrest⟩ := List.head?_eq_some_iff.mp hhead
  rw [hrest] at hpath hnested
  have hsame : (n.triple i).same (n.triple h) = true := nested_singleton_cons_iff.mp hnested
  have hle := head_le_of_same hapart hi hj hpath hsame
  -- Before its place no triple of a state is the same access, and so the path begins there.
  rcases hle.lt_or_eq with hlt | rfl
  · rw [same_comm (htext i hi) (htext h (hlt.trans hi)), hfirst h hlt hhstate] at hsame
    cases hsame
  · exact ⟨a, hsubset ha, rest, hrest⟩

end Network

end SoarProject
