import SoarProject.Proofs.Datamap.Acyclic

/-!
# Triples of several rules

The networks of several rules in one. Each of them is a part of the whole, shifted by the places of the
rules before it; links stay within a part, and so do the paths to a triple.

* `Network.Part`: one network within another one.
* `Part.mem_pathsTo_iff`: the paths to a triple are those in its part.
* `Compatible`: no two rules use one name for different things.
* `coherent_concat`: the whole is coherent if its parts are compatible and each is coherent.
* `exists_terminalPath_of_compatible`: then the selected paths of the whole leave out no triple of any
  part.
-/

namespace SoarProject

namespace Network

variable {n m a b : Network} {ns : List Network} {offset i j p c : Nat} {path q : List Nat}

/-! ### Parts -/

/-- The places of a network `m` are those of the network `n` from `offset` on. -/
structure Part (n m : Network) (offset : Nat) : Prop where
  size_le : m.size + offset ≤ n.size
  node_eq : ∀ {i}, i < m.size → n.node (i + offset) =
    { m.node i with
      parents := (m.node i).parents.map (· + offset)
      children := (m.node i).children.map (· + offset) }

theorem node_append_left (hi : i < a.size) : (append a b).node i = a.node i := by
  rw [size] at hi
  simp [node, append, List.getD_eq_getElem?_getD, List.getElem?_append_left hi]

theorem size_append : (append a b).size = a.size + b.size := by
  simp [size, append]

/-- The second of two networks is a part of both. -/
theorem part_append_right : (append a b).Part b a.size where
  size_le := by rw [size_append, Nat.add_comm]
  node_eq {i} hi := by
    have hle : a.nodes.length ≤ i + a.size := Nat.le_add_left _ _
    have hsub : i + a.size - a.nodes.length = i := Nat.add_sub_cancel _ _
    rw [size] at hi
    simp [node, append, List.getD_eq_getElem?_getD, List.getElem?_append_right hle, hsub, hi]

namespace Part

theorem append (h : a.Part m offset) : (append a b).Part m offset where
  size_le := by
    rw [size_append]
    exact h.size_le.trans (Nat.le_add_right _ _)
  node_eq {i} hi := by
    rw [node_append_left (lt_of_lt_of_le (Nat.add_lt_add_right hi _) h.size_le), h.node_eq hi]

variable (h : n.Part m offset)

include h

theorem triple_eq (hi : i < m.size) : n.triple (i + offset) = m.triple i := by
  rw [triple, triple, h.node_eq hi]

theorem lt_size (hi : i < m.size) : i + offset < n.size :=
  lt_of_lt_of_le (Nat.add_lt_add_right hi _) h.size_le

/-- The parents of a triple are in its part. -/
theorem mem_parents_iff (hi : i < m.size) :
    p ∈ (n.node (i + offset)).parents ↔ ∃ s ∈ (m.node i).parents, s + offset = p := by
  rw [h.node_eq hi, List.mem_map]

/-- The children of a triple are in its part. -/
theorem mem_children_iff (hi : i < m.size) :
    c ∈ (n.node (i + offset)).children ↔ ∃ s ∈ (m.node i).children, s + offset = c := by
  rw [h.node_eq hi, List.mem_map]

theorem steps_eq (hq : m.InRange q) : n.steps (q.map (· + offset)) = m.steps q := by
  rw [steps, steps, List.map_map]
  exact List.map_congr_left fun i hi => h.triple_eq (hq i hi)

/-- A linked path to a triple of a part is a shifted path of the part. -/
theorem exists_linked (hlinks : m.WellLinked) (hj : j < m.size)
    (hlast : path.getLast? = some (j + offset)) (hlinked : n.Linked path) :
    ∃ q, path = q.map (· + offset) ∧ m.Linked q ∧ m.InRange q := by
  induction path with
  | nil => cases hlast
  | cons p path ih =>
    cases path with
    | nil =>
      obtain rfl : p = j + offset := by simpa using hlast
      exact ⟨[j], rfl, .singleton _, by simpa [InRange] using hj⟩
    | cons c path =>
      -- Parents stay within the part, so the chain is followed down from its last index.
      obtain ⟨hparent, hrest⟩ := List.isChain_cons_cons.mp hlinked
      obtain ⟨q, hpath, hlinkedq, hq⟩ := ih (by simpa using hlast) hrest
      obtain ⟨d, q, rfl, rfl, hrest⟩ := List.map_eq_cons_iff.mp hpath.symm
      have hd := hq d List.mem_cons_self
      obtain ⟨s, hs, rfl⟩ := (h.mem_parents_iff hd).mp hparent
      refine ⟨s :: d :: q, by rw [List.map_cons, hpath], List.isChain_cons_cons.mpr ⟨hs, hlinkedq⟩, ?_⟩
      exact inRange_cons_iff.mpr ⟨hlinks.parent_lt hs, hq⟩

theorem linked_map (hq : m.InRange q) (hlinked : m.Linked q) : n.Linked (q.map (· + offset)) := by
  refine (List.isChain_map _).mpr ?_
  refine List.IsChain.imp_of_mem_imp (fun p c _ hc hparent => ?_) hlinked
  exact (h.mem_parents_iff (hq c hc)).mpr ⟨p, hparent, rfl⟩

theorem startsAtState_map_iff (hq : m.InRange q) :
    n.StartsAtState (q.map (· + offset)) ↔ m.StartsAtState q := by
  cases q with
  | nil => simp [StartsAtState]
  | cons i q => simp [StartsAtState, h.triple_eq (hq i List.mem_cons_self)]

/-- The paths to a triple are those in its part, if no path comes back to a variable. -/
theorem mem_pathsTo_iff {key : Nat → Nat} (hm : m.Coherent key) (hlinks : n.WellLinked)
    (hnodup : ∀ {path}, n.Linked path → (path.map fun i => (n.triple i).subject).Nodup)
    (hj : j < m.size) :
    path ∈ n.pathsTo (j + offset) ↔ ∃ q ∈ m.pathsTo j, path = q.map (· + offset) := by
  rw [mem_pathsTo_iff_of_nodup hlinks hnodup (h.lt_size hj)]
  constructor
  · rintro ⟨hlast, hlinked, hstate⟩
    obtain ⟨q, rfl, hlinkedq, hq⟩ := h.exists_linked hm.wellLinked hj hlast hlinked
    -- The part has the same triples at the shifted indices, so it starts at the same state.
    rw [h.startsAtState_map_iff hq] at hstate
    refine ⟨q, (hm.mem_pathsTo_iff hj).mpr ⟨?_, hlinkedq, hstate⟩, rfl⟩
    rw [List.getLast?_map, Option.map_eq_some_iff] at hlast
    obtain ⟨l, hl, hlj⟩ := hlast
    rw [hl, Nat.add_right_cancel hlj]
  · rintro ⟨q, hpath, rfl⟩
    have hq := hm.inRange hj hpath
    obtain ⟨hlast, hlinked, hstate⟩ := (hm.mem_pathsTo_iff hj).mp hpath
    exact ⟨by rw [List.getLast?_map, hlast]; rfl, h.linked_map hq hlinked,
      (h.startsAtState_map_iff hq).mpr hstate⟩

/-- A path to a triple of a part is a path of the part. -/
theorem exists_mem_pathsTo (hlinks : m.WellLinked) (hj : j < m.size)
    (hpath : path ∈ n.pathsTo (j + offset)) : ∃ q ∈ m.pathsTo j, path = q.map (· + offset) := by
  obtain ⟨hlast, -, hlinked, hstate, hdistinct⟩ := Network.mem_pathsTo_iff.mp hpath
  obtain ⟨q, rfl, hlinkedq, hq⟩ := h.exists_linked hlinks hj hlast hlinked
  rw [Distinct, h.steps_eq hq] at hdistinct
  refine ⟨q, Network.mem_pathsTo_iff.mpr ⟨?_, ?_, hlinkedq, (h.startsAtState_map_iff hq).mp hstate,
    hdistinct⟩, rfl⟩
  · rw [List.getLast?_map, Option.map_eq_some_iff] at hlast
    obtain ⟨l, hl, hlj⟩ := hlast
    rw [hl, Nat.add_right_cancel hlj]
  · exact length_le_size_of_nodup (Distinct.nodup hdistinct) hq

end Part

/-! ### The whole -/

theorem concat_append_singleton : concat (ns ++ [m]) = append (concat ns) m := by
  simp [concat, List.foldl_append]

/-- The place in the whole where a network of a list begins. -/
def start (ns : List Network) (k : Nat) : Nat := (concat (ns.take k)).size

theorem start_succ {k : Nat} (hk : k < ns.length) : start ns (k + 1) = start ns k + ns[k].size := by
  rw [start, ← List.take_append_getElem hk, concat_append_singleton, size_append, start]

/-- Every network of a list is a part of the whole, where it begins. -/
theorem part_getElem {k : Nat} (hk : k < ns.length) : (concat ns).Part ns[k] (start ns k) := by
  induction ns using List.reverseRecOn with
  | nil => cases hk
  | append_singleton ns b ih =>
    rw [concat_append_singleton]
    by_cases hlt : k < ns.length
    · rw [List.getElem_append_left hlt, start, List.take_append_of_le_length hlt.le]
      exact (ih hlt).append
    · obtain rfl : k = ns.length := by
        rw [List.length_append, List.length_singleton] at hk
        omega
      rw [List.getElem_concat_length rfl, start, List.take_left]
      exact part_append_right

theorem part_of_mem (hm : m ∈ ns) : ∃ offset, (concat ns).Part m offset := by
  obtain ⟨k, hk, rfl⟩ := List.getElem_of_mem hm
  exact ⟨_, part_getElem hk⟩

/-- Every place of the whole is one of a network of the list. -/
theorem exists_place (hi : i < (concat ns).size) :
    ∃ k, ∃ hk : k < ns.length, ∃ j < ns[k].size, j + start ns k = i := by
  induction ns using List.reverseRecOn with
  | nil => cases hi
  | append_singleton ns b ih =>
    -- The index lies in the parts before the last one, or in the last one itself.
    by_cases hlt : i < (concat ns).size
    · obtain ⟨k, hk, j, hj, hij⟩ := ih hlt
      refine ⟨k, by rw [List.length_append]; omega, j, ?_, ?_⟩
      · rwa [List.getElem_append_left hk]
      · rwa [start, List.take_append_of_le_length hk.le]
    · rw [concat_append_singleton, size_append] at hi
      refine ⟨ns.length, by simp, i - (concat ns).size, ?_, ?_⟩
      · rw [List.getElem_concat_length rfl]
        omega
      · rw [start, List.take_left]
        omega

/-- Every place of the whole is one of a part. -/
theorem exists_part (hi : i < (concat ns).size) :
    ∃ m ∈ ns, ∃ offset j, (concat ns).Part m offset ∧ j < m.size ∧ j + offset = i := by
  obtain ⟨k, hk, j, hj, hij⟩ := exists_place hi
  exact ⟨ns[k], List.getElem_mem hk, start ns k, j, part_getElem hk, hj, hij⟩

/-- Well-linked networks are well linked in one. -/
theorem wellLinked_concat (h : ∀ m ∈ ns, m.WellLinked) : (concat ns).WellLinked where
  mem_children_iff {p c} := by
    constructor
    · intro hc
      -- A child belongs to the part that its parent belongs to, and there it is linked back.
      have hlt : p < (concat ns).size := by
        by_contra hlt
        rw [node_of_size_le (not_lt.mp hlt)] at hc
        exact absurd hc List.not_mem_nil
      obtain ⟨m, hm, offset, p, hpart, hp, rfl⟩ := exists_part hlt
      obtain ⟨d, hd, rfl⟩ := (hpart.mem_children_iff hp).mp hc
      have hparent := (h m hm).mem_children_iff.mp hd
      exact (hpart.mem_parents_iff (lt_size_of_parent hparent)).mpr ⟨p, hparent, rfl⟩
    · intro hp
      obtain ⟨m, hm, offset, c, hpart, hc, rfl⟩ := exists_part (lt_size_of_parent hp)
      obtain ⟨s, hs, rfl⟩ := (hpart.mem_parents_iff hc).mp hp
      exact (hpart.mem_children_iff ((h m hm).parent_lt hs)).mpr
        ⟨c, (h m hm).mem_children_iff.mpr hs, rfl⟩
  parent_lt {p c} hp := by
    obtain ⟨m, hm, offset, c, hpart, hc, rfl⟩ := exists_part (lt_size_of_parent hp)
    obtain ⟨s, hs, rfl⟩ := (hpart.mem_parents_iff hc).mp hp
    exact hpart.lt_size ((h m hm).parent_lt hs)
  leadsTo {p c} hp := by
    obtain ⟨m, hm, offset, c, hpart, hc, rfl⟩ := exists_part (lt_size_of_parent hp)
    obtain ⟨s, hs, rfl⟩ := (hpart.mem_parents_iff hc).mp hp
    rw [hpart.triple_eq hc, hpart.triple_eq ((h m hm).parent_lt hs)]
    exact (h m hm).leadsTo hs

/-- A path in the whole belongs to a network of the list: its places are those of this network. -/
def Belongs (ns : List Network) (k : Nat) (path : List Nat) : Prop :=
  ∀ i ∈ path, start ns k ≤ i ∧ i < start ns (k + 1)

/-- Every path to a triple belongs to a network of the list. -/
theorem exists_belongs (h : ∀ m ∈ ns, m.WellLinked) (hpath : path ∈ (concat ns).pathsTo i) :
    ∃ k < ns.length, Belongs ns k path := by
  obtain ⟨k, hk, j, hj, rfl⟩ := exists_place (lt_size_of_mem_pathsTo hpath)
  obtain ⟨hlast, -, hlinked, -⟩ := mem_pathsTo_iff.mp hpath
  obtain ⟨q, rfl, -, hq⟩ :=
    (part_getElem hk).exists_linked (h _ (List.getElem_mem hk)) hj hlast hlinked
  refine ⟨k, hk, List.forall_mem_map.mpr fun i hi => ?_⟩
  have := hq i hi
  rw [start_succ hk]
  omega

/-- The beginning of a path that belongs to a network is, in this network, a path with the same triples. -/
theorem Belongs.exists_mem_pathsTo (h : ∀ m ∈ ns, m.WellLinked) {k : Nat} (hk : k < ns.length)
    (hbelongs : Belongs ns k path) (hpath : path ∈ (concat ns).pathsTo i) {front : List Nat}
    (hne : front ≠ []) (hfront : front <+: path) :
    ∃ j < ns[k].size, ∃ q ∈ ns[k].pathsTo j, (concat ns).steps front = ns[k].steps q := by
  have hpart := part_getElem hk
  obtain ⟨init, c, rfl⟩ := (List.eq_nil_or_concat front).resolve_left hne
  rw [List.concat_eq_append] at hfront ⊢
  obtain ⟨rest, rfl⟩ := hfront
  rw [List.append_assoc, List.singleton_append] at hpath hbelongs
  obtain ⟨hle, hlt⟩ := hbelongs c (by simp)
  rw [start_succ hk] at hlt
  -- The last index of the front lies in part `k`, and the parents of an index stay in its part.
  obtain ⟨j, rfl⟩ := Nat.exists_eq_add_of_le' hle
  have hj : j < ns[k].size := by omega
  obtain ⟨q, hq, heq⟩ :=
    hpart.exists_mem_pathsTo (h _ (List.getElem_mem hk)) hj (prefix_mem_pathsTo hpath)
  obtain ⟨hlast, -, hlinked, -⟩ := mem_pathsTo_iff.mp hq
  exact ⟨j, hj, q, hq, by
    rw [heq, hpart.steps_eq ((h _ (List.getElem_mem hk)).inRange hj hlast hlinked)]⟩

/-- Paths that do not come back to a variable in any part do not come back in the whole. -/
theorem nodup_concat (h : ∀ m ∈ ns, m.Coherent id) (hlinked : (concat ns).Linked path) :
    (path.map fun i => ((concat ns).triple i).subject).Nodup := by
  rcases List.eq_nil_or_concat path with rfl | ⟨front, l, rfl⟩
  · exact List.nodup_nil
  rw [List.concat_eq_append] at hlinked ⊢
  by_cases hl : l < (concat ns).size
  · obtain ⟨m, hm, offset, j, hpart, hj, rfl⟩ := exists_part hl
    obtain ⟨q, hpath, hlinkedq, hq⟩ :=
      hpart.exists_linked (h m hm).wellLinked hj (by simp) hlinked
    rw [hpath, List.map_map]
    have hsubjects : (q.map fun i => ((concat ns).triple (i + offset)).subject) =
        q.map fun i => (m.triple i).subject :=
      List.map_congr_left fun i hi => by rw [hpart.triple_eq (hq i hi)]
    exact hsubjects ▸ (h m hm).subjects_nodup hlinkedq
  · -- Beyond the triples there are no links.
    rcases List.eq_nil_or_concat front with rfl | ⟨front, p, rfl⟩
    · simp
    · rw [List.concat_eq_append, List.append_assoc, List.singleton_append] at hlinked
      exact absurd (lt_size_of_parent hlinked.parent) hl

/-! ### Compatible rules -/

/-- No two networks use one name for different things. -/
structure Compatible (ns : List Network) : Prop where
  /-- No constant is spelled like a variable. -/
  constant_ne : ∀ a ∈ ns, ∀ b ∈ ns, ∀ i < a.size, ∀ j < b.size, (a.triple i).isLink = false →
    (a.triple i).value ≠ .text (b.triple j).subject
  /-- The same access is reached with values of one kind. -/
  kinds_agree : ∀ a ∈ ns, ∀ b ∈ ns, ∀ i < a.size, ∀ j < b.size, a.pathsTo i ≠ [] →
    b.pathsTo j ≠ [] → (a.triple i).access = (b.triple j).access →
    (a.triple i).kind = (b.triple j).kind
  /-- A variable that is reached in both is reached by the same accesses. -/
  routes_agree : ∀ a ∈ ns, ∀ b ∈ ns, ∀ i < a.size, ∀ j < b.size, a.pathsTo i ≠ [] →
    (a.triple i).subject = (b.triple j).subject → ∀ path ∈ b.pathsTo j, ∃ route ∈ a.pathsTo i,
      (a.steps route.dropLast).map Triple.access = (b.steps path.dropLast).map Triple.access
  /-- A variable that is a value in both goes on in both or in none. -/
  children_agree : ∀ a ∈ ns, ∀ b ∈ ns, ∀ i < a.size, ∀ j < b.size, a.pathsTo i ≠ [] →
    b.pathsTo j ≠ [] → (a.triple i).isLink = true → (b.triple j).isLink = true →
    (a.triple i).value = (b.triple j).value → (a.node i).children ≠ [] → (b.node j).children ≠ []

/-- The places of a network have the accesses of their triples as keys. -/
def accessAt (n : Network) (i : Nat) : String × String × Cell := (n.triple i).access

/-- The keys of a shifted path are the accesses of the path. -/
theorem Part.map_accessAt (hpart : n.Part m offset) (hq : m.InRange q) :
    (q.map (· + offset)).map n.accessAt = (m.steps q).map Triple.access := by
  rw [← hpart.steps_eq hq, steps, List.map_map (g := Triple.access)]
  rfl

/-- Lists that agree under one map agree under another one that depends on it. -/
theorem map_eq_map_of_map_eq {α β γ : Type} {f : α → β} {g : α → γ} {xs ys : List α}
    (h : xs.map f = ys.map f) (hg : ∀ x ∈ xs, ∀ y ∈ ys, f x = f y → g x = g y) :
    xs.map g = ys.map g := by
  induction xs generalizing ys with
  | nil => rw [List.map_eq_nil_iff.mp h.symm]
  | cons x xs ih =>
    obtain ⟨y, ys, rfl, hxy, hrest⟩ := List.map_eq_cons_iff.mp h.symm
    rw [List.map_cons, List.map_cons, hg x List.mem_cons_self y List.mem_cons_self hxy.symm,
      ih hrest.symm fun x hx y hy => hg x (List.mem_cons_of_mem _ hx) y (List.mem_cons_of_mem _ hy)]

section Whole

variable (h : ∀ m ∈ ns, m.Coherent id)

include h

theorem Part.mem_pathsTo_concat_iff (hpart : (concat ns).Part m offset) (hm : m ∈ ns)
    (hj : j < m.size) :
    path ∈ (concat ns).pathsTo (j + offset) ↔ ∃ q ∈ m.pathsTo j, path = q.map (· + offset) :=
  hpart.mem_pathsTo_iff (h m hm) (wellLinked_concat fun m hm => (h m hm).wellLinked)
    (nodup_concat h) hj

theorem Part.pathsTo_ne_nil (hpart : (concat ns).Part m offset) (hm : m ∈ ns) (hj : j < m.size)
    (hreach : (concat ns).pathsTo (j + offset) ≠ []) : m.pathsTo j ≠ [] := by
  obtain ⟨path, hpath⟩ := List.exists_mem_of_ne_nil _ hreach
  obtain ⟨q, hq, -⟩ := (hpart.mem_pathsTo_concat_iff h hm hj).mp hpath
  exact List.ne_nil_of_mem hq

/-- Compatible networks that are coherent are coherent in one. -/
theorem coherent_concat (htext : ∀ m ∈ ns, ∀ i < m.size, (m.triple i).IsText)
    (hcompat : Compatible ns) : (concat ns).Coherent (concat ns).accessAt where
  wellLinked := wellLinked_concat fun m hm => (h m hm).wellLinked
  keyedBy i j _ hlt := by
    obtain ⟨m, hm, offset, j, hpart, hj, rfl⟩ := exists_part hlt
    refine Triple.same_iff_access_eq ?_
    rw [hpart.triple_eq hj]
    exact htext m hm j hj
  subjects_nodup := nodup_concat h
  state_first {front c rest} hlinked hstart hstate := by
    -- All of the path lies in the part of its last triple, and that part knows the clause.
    obtain ⟨m, hm, offset, j, hpart, hj, rfl⟩ := exists_part (lt_size_of_isState hstate)
    have hlast : (front ++ [j + offset]).getLast? = some (j + offset) := by simp
    obtain ⟨q, hpath, hlinkedq, hq⟩ := hpart.exists_linked (h m hm).wellLinked hj hlast
      (List.isChain_split.mp hlinked).1
    obtain ⟨u, v, rfl, rfl, hv⟩ := List.map_eq_append_iff.mp hpath.symm
    obtain ⟨i, rfl, hi⟩ := List.map_eq_singleton_iff.mp hv
    obtain rfl : i = j := Nat.add_right_cancel hi
    rw [hpart.triple_eq hj] at hstate
    have hstartq : m.StartsAtState (u ++ [i]) := by
      rw [← hpart.startsAtState_map_iff hq, ← hpath]
      obtain ⟨s, hs, hstart⟩ := hstart
      refine ⟨s, ?_, hstart⟩
      cases u <;> simpa using hs
    have hfirst : u = [] := (h m hm).state_first hlinkedq hstartq hstate
    rw [hfirst, List.map_nil]
  constant_ne {i j} hlti hltj hlink := by
    obtain ⟨a, ha, offset, i, hparta, hi, rfl⟩ := exists_part hlti
    obtain ⟨b, hb, offset', j, hpartb, hj, rfl⟩ := exists_part hltj
    rw [hparta.triple_eq hi] at hlink ⊢
    rw [hpartb.triple_eq hj]
    exact hcompat.constant_ne a ha b hb i hi j hj hlink
  routes_agree {b c path} hb hreach hsubject hpath := by
    -- The two triples may stand in different parts: this is what the rules must agree on.
    obtain ⟨x, hx, offset, i, hpartx, hi, rfl⟩ := exists_part hb
    obtain ⟨y, hy, offset', j, hparty, hj, rfl⟩ := exists_part (lt_size_of_mem_pathsTo hpath)
    obtain ⟨q, hq, rfl⟩ := (hparty.mem_pathsTo_concat_iff h hy hj).mp hpath
    rw [hpartx.triple_eq hi, hparty.triple_eq hj] at hsubject
    obtain ⟨route, hroute, hkeys⟩ := hcompat.routes_agree x hx y hy i hi j hj
      (hpartx.pathsTo_ne_nil h hx hi hreach) hsubject q hq
    refine ⟨_, (hpartx.mem_pathsTo_concat_iff h hx hi).mpr ⟨route, hroute, rfl⟩, ?_⟩
    have hinx := (h x hx).inRange hi hroute
    have hiny := (h y hy).inRange hj hq
    rw [← List.map_dropLast, ← List.map_dropLast,
      hpartx.map_accessAt fun k hk => hinx k (List.dropLast_subset _ hk),
      hparty.map_accessAt fun k hk => hiny k (List.dropLast_subset _ hk), hkeys]
  children_agree {a b x} ha hb hreacha hreachb hlinka hlinkb hvaluea hvalueb hchildren := by
    obtain ⟨y, hy, offset, i, hparty, hi, rfl⟩ := exists_part ha
    obtain ⟨z, hz, offset', j, hpartz, hj, rfl⟩ := exists_part hb
    rw [hparty.triple_eq hi] at hlinka hvaluea
    rw [hpartz.triple_eq hj] at hlinkb hvalueb
    rw [hparty.node_eq hi] at hchildren
    rw [hpartz.node_eq hj]
    have := hcompat.children_agree y hy z hz i hi j hj (hparty.pathsTo_ne_nil h hy hi hreacha)
      (hpartz.pathsTo_ne_nil h hz hj hreachb) hlinka hlinkb (hvaluea.trans hvalueb.symm)
    simpa using this (by simpa using hchildren)

/-- The same access is reached with values of one kind. -/
theorem kind_eq_of_access_eq (hcompat : Compatible ns) (hi : (concat ns).pathsTo i ≠ [])
    (hj : (concat ns).pathsTo j ≠ []) (hij : (concat ns).accessAt i = (concat ns).accessAt j) :
    ((concat ns).triple i).kind = ((concat ns).triple j).kind := by
  obtain ⟨path, hpath⟩ := List.exists_mem_of_ne_nil _ hi
  obtain ⟨path', hpath'⟩ := List.exists_mem_of_ne_nil _ hj
  obtain ⟨x, hx, offset, k, hpartx, hk, rfl⟩ := exists_part (lt_size_of_mem_pathsTo hpath)
  obtain ⟨y, hy, offset', l, hparty, hl, rfl⟩ := exists_part (lt_size_of_mem_pathsTo hpath')
  rw [accessAt, accessAt, hpartx.triple_eq hk, hparty.triple_eq hl] at hij
  rw [hpartx.triple_eq hk, hparty.triple_eq hl]
  exact hcompat.kinds_agree x hx y hy k hk l hl (hpartx.pathsTo_ne_nil h hx hk hi)
    (hparty.pathsTo_ne_nil h hy hl hj) hij

/-- The selected paths of compatible networks show every triple of each of them. -/
theorem exists_terminalPath_of_compatible (htext : ∀ m ∈ ns, ∀ i < m.size, (m.triple i).IsText)
    (hcompat : Compatible ns) (hm : m ∈ ns) (hi : i < m.size) (hreach : m.pathsTo i ≠ []) :
    ∃ path ∈ m.pathsTo i, ∃ a ∈ (concat ns).terminalPaths,
      (m.steps path).map Triple.shape <+: ((concat ns).steps a.path).map Triple.shape := by
  have hwhole := coherent_concat h htext hcompat
  obtain ⟨offset, hpart⟩ := part_of_mem hm
  have hlt := hpart.lt_size hi
  obtain ⟨q, hq⟩ := List.exists_mem_of_ne_nil _ hreach
  have hreach' := List.ne_nil_of_mem
    ((hpart.mem_pathsTo_concat_iff h hm hi).mpr ⟨q, hq, rfl⟩)
  obtain ⟨path, hpath, a, ha, rest, hrest⟩ := hwhole.covered hlt hreach'
  obtain ⟨j, hj, hpatha⟩ := (selected_terminalPaths _).exists_pathsTo ha
  obtain ⟨q, hq, rfl⟩ := (hpart.mem_pathsTo_concat_iff h hm hi).mp hpath
  obtain ⟨u, v, huv, hu, -⟩ := List.map_eq_append_iff.mp hrest.symm
  -- Along the selected path the accesses are the same, and with them the kinds.
  have hshapes : u.map (Triple.shape ∘ (concat ns).triple) =
      (q.map (· + offset)).map (Triple.shape ∘ (concat ns).triple) := by
    refine map_eq_map_of_map_eq hu fun x hx y hy hxy => ?_
    have hkind := kind_eq_of_access_eq h hcompat
      (pathsTo_ne_nil_of_mem hpatha (by simp [huv, hx]))
      (pathsTo_ne_nil_of_mem hpath hy) hxy
    simp only [accessAt, Triple.access, Prod.mk.injEq] at hxy
    simp [Triple.shape, hxy.2.1, hxy.2.2, hkind]
  refine ⟨q, hq, a, ha, ?_⟩
  rw [← hpart.steps_eq ((h m hm).inRange hi hq), huv]
  simp only [steps, List.map_map, List.map_append] at hshapes ⊢
  rw [hshapes]
  exact List.prefix_append _ _

end Whole

end Network

end SoarProject
