import Mathlib.Data.List.Nodup
import SoarProject.Proofs.Datamap.Coverage

/-!
# Simple chains

The paths to a triple of a rule are its simple chains: lists of distinct triples of the rule that
begin at a state, in which the value of each triple is the variable of the next. A chain may pass
through further triples of a state.

* `nodup_chainsInto`: the search for chains finds none twice.
* `chainsInto_eq_pathsTo`: the search ends before it has taken more steps than there are triples.
* `link_enumerates`: the links of distinct triples are exactly the accesses of values, and the paths to
  each triple are exactly its simple chains, whatever cycles the variables form.
-/

namespace SoarProject

namespace Triple

/-- The value of a triple is the variable of the next one. -/
def Continues (t next : Triple) : Prop := t.isLink = true ∧ t.value = .text next.subject

/-- A list of distinct triples that begins at a state and follows the values of its triples. -/
structure IsSimpleChain (ts chain : List Triple) : Prop where
  /-- The triples are among the given ones. -/
  subset : chain ⊆ ts
  /-- No triple occurs twice. -/
  nodup : chain.Nodup
  /-- The first triple belongs to a state. -/
  isState : ∃ t ∈ chain.head?, t.isState = true
  /-- Each triple has the variable of the next one as its value. -/
  continues : chain.IsChain Continues

end Triple

namespace Network

open Triple

variable {n : Network} {ts : List Triple} {path : List Nat}

/-! ### No chain is found twice -/

/-- What the search finds from different fronts is different. -/
theorem eq_of_mem_chainsInto {fuel p q : Nat} {chain : List Nat} (hp : n.Distinct (p :: chain))
    (hq : n.Distinct (q :: chain)) (hpath : path ∈ n.chainsInto fuel (p :: chain))
    (hpath' : path ∈ n.chainsInto fuel (q :: chain)) : p = q := by
  obtain ⟨front, rfl, -⟩ := (mem_chainsInto_iff hp).mp hpath
  obtain ⟨front', heq, -⟩ := (mem_chainsInto_iff hq).mp hpath'
  have hlength : (p :: chain).length = (q :: chain).length := by simp
  exact (List.cons.inj (List.append_inj_right' heq hlength)).1

/-- The search for chains finds none twice, if no parent is listed twice. -/
theorem nodup_chainsInto (hparents : ∀ i, (n.node i).parents.Nodup) {fuel top : Nat}
    {rest : List Nat} (hdistinct : n.Distinct (top :: rest)) :
    (n.chainsInto fuel (top :: rest)).Nodup := by
  induction fuel generalizing top rest with
  | zero => simp [chainsInto]
  | succ fuel ih =>
    simp only [chainsInto]
    set fresh := (n.node top).parents.filter fun p =>
      !(n.steps (top :: rest)).any fun t => t.same (n.triple p) with hfresh
    have hfront : ∀ p ∈ fresh, n.Distinct (p :: top :: rest) := by
      intro p hp
      rw [hfresh, List.mem_filter] at hp
      exact distinct_cons_iff.mpr ⟨by simpa using hp.2, hdistinct⟩
    refine List.nodup_append'.mpr ⟨by split_ifs <;> simp, List.nodup_flatMap.mpr ⟨?_, ?_⟩, ?_⟩
    · exact fun p hp => ih (hfront p hp)
    · refine ((hparents top).filter _).imp_of_mem fun {p q} hp hq hne => ?_
      refine List.disjoint_left.mpr fun path hpath hpath' => ?_
      exact hne (eq_of_mem_chainsInto (hfront p hp) (hfront q hq) hpath hpath')
    · -- A longer chain is not the one that stops here.
      refine List.disjoint_left.mpr fun path hstop hlonger => ?_
      obtain ⟨p, hp, hpath⟩ := List.mem_flatMap.mp hlonger
      obtain ⟨front, rfl, -⟩ := (mem_chainsInto_iff (hfront p hp)).mp hpath
      split_ifs at hstop
      · have hlength := congrArg List.length (List.mem_singleton.mp hstop)
        simp only [List.length_append, List.length_cons] at hlength
        omega
      · simp at hstop

/-! ### The search ends -/

/-- The search from a chain does not depend on its fuel, if that is enough for all other triples. -/
theorem chainsInto_congr (hlinks : n.WellLinked) {fuel fuel' : Nat} {chain : List Nat}
    (hdistinct : n.Distinct chain) (hrange : n.InRange chain)
    (hfuel : n.size < fuel + chain.length) (hfuel' : n.size < fuel' + chain.length) :
    n.chainsInto fuel chain = n.chainsInto fuel' chain := by
  have hlength := length_le_size_of_nodup hdistinct.nodup hrange
  induction fuel generalizing fuel' chain with
  | zero => omega
  | succ fuel ih =>
    -- The size bounds the length of a path, so neither fuel has run out.
    obtain ⟨fuel', rfl⟩ : ∃ k, fuel' = k + 1 := ⟨fuel' - 1, by omega⟩
    cases chain with
    | nil => rfl
    | cons top rest =>
      simp only [chainsInto]
      congr 1
      refine List.flatMap_congr fun p hp => ?_
      obtain ⟨hparent, hfresh⟩ := List.mem_filter.mp hp
      have hfront : n.Distinct (p :: top :: rest) :=
        distinct_cons_iff.mpr ⟨by simpa using hfresh, hdistinct⟩
      have hinside : n.InRange (p :: top :: rest) :=
        inRange_cons_iff.mpr ⟨hlinks.parent_lt hparent, hrange⟩
      simp only [List.length_cons] at hfuel hfuel'
      exact ih hfront hinside (by simp only [List.length_cons]; omega)
        (by simp only [List.length_cons]; omega) (length_le_size_of_nodup hfront.nodup hinside)

/-- The search for the paths to a triple has ended when it has gone back as many steps as there are
triples. -/
theorem chainsInto_eq_pathsTo (hlinks : n.WellLinked) {fuel i : Nat} (hi : i < n.size)
    (hfuel : n.size ≤ fuel) : n.chainsInto fuel [i] = n.pathsTo i := by
  have hone : n.Distinct [i] := by simp [Distinct, steps]
  refine chainsInto_congr hlinks hone (inRange_cons_iff.mpr ⟨hi, List.forall_mem_nil _⟩) ?_ ?_ <;>
    simp only [List.length_singleton] <;> omega

/-! ### Places and triples -/

theorem inRange_link : (link ts).InRange path ↔ ∀ i ∈ path, i < ts.length := by
  rw [InRange, size_link]

/-- Every list of some triples is a list of their places. -/
theorem exists_steps_eq {chain : List Triple} (hsub : chain ⊆ ts) :
    ∃ path : List Nat, (link ts).InRange path ∧ (link ts).steps path = chain := by
  induction chain with
  | nil => exact ⟨[], nofun, rfl⟩
  | cons t chain ih =>
    obtain ⟨path, hrange, rfl⟩ := ih (List.subset_of_cons_subset hsub)
    obtain ⟨i, hi, rfl⟩ := List.getElem_of_mem (hsub List.mem_cons_self)
    refine ⟨i :: path, inRange_cons_iff.mpr ⟨by simpa using hi, hrange⟩, ?_⟩
    simp [steps, triple_link hi]

theorem steps_subset (hrange : (link ts).InRange path) : (link ts).steps path ⊆ ts := by
  intro t ht
  obtain ⟨i, hi, rfl⟩ := List.mem_map.mp ht
  rw [triple_link (inRange_link.mp hrange i hi)]
  exact List.getElem_mem _

namespace Apart

variable (hts : Apart ts)

include hts

/-- Among distinct triples, each triple has one place. -/
theorem triple_inj {i j : Nat} (hi : i < ts.length) (hj : j < ts.length) :
    (link ts).triple i = (link ts).triple j ↔ i = j := by
  constructor
  · intro heq
    rw [triple_link hi, triple_link hj] at heq
    exact hts i j hi hj (heq ▸ same_refl _)
  · rintro rfl
    rfl

/-- Among distinct triples, paths with the same triples are the same. -/
theorem steps_inj {p q : List Nat} (hp : (link ts).InRange p) (hq : (link ts).InRange q)
    (h : (link ts).steps p = (link ts).steps q) : p = q := by
  induction p generalizing q with
  | nil => exact (List.map_eq_nil_iff.mp h.symm).symm
  | cons i p ih =>
    cases q with
    | nil => simp [steps] at h
    | cons j q =>
      obtain ⟨hi, hp⟩ := inRange_cons_iff.mp hp
      obtain ⟨hj, hq⟩ := inRange_cons_iff.mp hq
      simp only [steps, List.map_cons, List.cons.injEq] at h
      rw [size_link] at hi hj
      rw [(hts.triple_inj hi hj).mp h.1, ih hp hq h.2]

/-- Among distinct triples, the accesses of a path are distinct if its triples are. -/
theorem distinct_iff (hrange : (link ts).InRange path) :
    (link ts).Distinct path ↔ ((link ts).steps path).Nodup := by
  rw [inRange_link] at hrange
  rw [Distinct, steps, List.Nodup, List.pairwise_map, List.pairwise_map]
  refine List.Pairwise.iff_of_mem fun {i j} hi hj => ?_
  rw [ne_eq, hts.triple_inj (hrange i hi) (hrange j hj), triple_link (hrange i hi),
    triple_link (hrange j hj), ← Bool.not_eq_true, not_iff_not]
  constructor
  · exact fun hsame => (hts j i (hrange j hj) (hrange i hi) hsame).symm
  · rintro rfl
    exact same_refl _

/-- Among distinct triples, a path is linked if its triples continue each other. -/
theorem linked_iff (hrange : (link ts).InRange path) :
    (link ts).Linked path ↔ ((link ts).steps path).IsChain Continues := by
  rw [inRange_link] at hrange
  rw [Linked, steps, List.isChain_map]
  refine List.IsChain.iff_of_mem_imp fun i j hi hj => ?_
  rw [mem_parents_link hts (hrange j hj), triple_link (hrange i hi), triple_link (hrange j hj)]
  constructor
  · rintro ⟨_, hleads⟩
    exact leadsTo_iff.mp hleads
  · exact fun hcontinues => ⟨hrange i hi, leadsTo_iff.mpr hcontinues⟩

/-- Among distinct triples, the paths are those places whose triples form a simple chain. -/
theorem mem_pathsTo_iff {i : Nat} (hi : i < ts.length) (hrange : (link ts).InRange path) :
    path ∈ (link ts).pathsTo i ↔
      IsSimpleChain ts ((link ts).steps path) ∧ ((link ts).steps path).getLast? = some ts[i] := by
  -- The last index is read off the last triple, as no triple is listed twice.
  have hlast : ((link ts).steps path).getLast? = some ts[i] ↔ path.getLast? = some i := by
    rw [steps, List.getLast?_map, ← triple_link hi, Option.map_eq_some_iff]
    constructor
    · rintro ⟨j, hj, heq⟩
      rw [hj, (hts.triple_inj (inRange_link.mp hrange j (List.mem_of_getLast? hj)) hi).mp heq]
    · exact fun heq => ⟨i, heq, rfl⟩
  have hstate : (link ts).StartsAtState path ↔
      ∃ t ∈ ((link ts).steps path).head?, t.isState = true := by
    simp [StartsAtState, steps]
  rw [Network.mem_pathsTo_iff, hlast, hts.linked_iff hrange, hstate, hts.distinct_iff hrange]
  constructor
  · rintro ⟨hlast, -, hlinked, hstate, hnodup⟩
    exact ⟨⟨steps_subset hrange, hnodup, hstate, hlinked⟩, hlast⟩
  · rintro ⟨⟨-, hnodup, hstate, hlinked⟩, hlast⟩
    exact ⟨hlast, length_le_size_of_nodup (List.Nodup.of_map _ hnodup) hrange, hlinked, hstate, hnodup⟩

/-- No parent is listed twice. -/
theorem nodup_parents (i : Nat) : ((link ts).node i).parents.Nodup := by
  by_cases hi : i < ts.length
  · rw [node_link hi]
    change (placesWhere ts (·.leadsTo ts[i])).Nodup
    rw [placesWhere_eq hts]
    have hplaces : (ts.zipIdx.map (·.2)).Nodup := by
      rw [List.zipIdx_map_snd]
      exact List.nodup_range'
    exact hplaces.sublist (List.filter_sublist.map _)
  · rw [node_of_size_le (by simpa using hi)]
    exact List.nodup_nil

end Apart

/-! ### Links and paths -/

/-- The links of distinct triples are exactly the pairs in which the value of one is the variable of the
other, listed on both sides; and the search for the paths to a triple, which more fuel does not prolong,
finds exactly the simple chains that end with it, each of them once. -/
theorem link_enumerates (hts : Apart ts) :
    (∀ i j, (hi : i < ts.length) → (hj : j < ts.length) →
      (j ∈ ((link ts).node i).children ↔ i ∈ ((link ts).node j).parents) ∧
      (j ∈ ((link ts).node i).children ↔ Continues ts[i] ts[j])) ∧
    ∀ i, (hi : i < ts.length) →
      (∀ fuel, ts.length ≤ fuel → (link ts).chainsInto fuel [i] = (link ts).pathsTo i) ∧
      (((link ts).pathsTo i).map (link ts).steps).Nodup ∧
      ∀ chain, chain ∈ ((link ts).pathsTo i).map (link ts).steps ↔
        IsSimpleChain ts chain ∧ chain.getLast? = some ts[i] := by
  have hlinks := wellLinked_link hts
  refine ⟨fun i j hi hj => ⟨hlinks.mem_children_iff, ?_⟩, fun i hi => ⟨?_, ?_, fun chain => ?_⟩⟩
  · rw [mem_children_link hts hi]
    exact ⟨fun ⟨_, hleads⟩ => leadsTo_iff.mp hleads, fun h => ⟨hj, leadsTo_iff.mpr h⟩⟩
  · intro fuel hfuel
    exact chainsInto_eq_pathsTo hlinks (by simpa using hi) (by simpa using hfuel)
  · have hone : (link ts).Distinct [i] := by simp [Distinct, steps]
    have hrange : ∀ path ∈ (link ts).pathsTo i, (link ts).InRange path :=
      fun path hpath => hlinks.inRange_of_mem_pathsTo hpath
    -- Different paths show different accesses, since no access is linked twice.
    refine (nodup_chainsInto hts.nodup_parents hone).map_on fun p hp q hq heq => ?_
    exact hts.steps_inj (hrange p hp) (hrange q hq) heq
  · constructor
    · intro hchain
      obtain ⟨path, hpath, rfl⟩ := List.mem_map.mp hchain
      exact (hts.mem_pathsTo_iff hi (hlinks.inRange_of_mem_pathsTo hpath)).mp hpath
    · rintro ⟨hsimple, hlast⟩
      obtain ⟨path, hrange, rfl⟩ := exists_steps_eq hsimple.subset
      exact List.mem_map_of_mem ((hts.mem_pathsTo_iff hi hrange).mpr ⟨hsimple, hlast⟩)

/-- A cycle of two variables, and a constant on the variable of the state. -/
def loop : List Triple :=
  [⟨"<s>", "a", .text "<x>", .identifier, true⟩, ⟨"<x>", "b", .text "<s>", .identifier, false⟩,
    ⟨"<s>", "c", .text "1", .integer, true⟩]

/-- The triples of the cycle are distinct. -/
theorem apart_loop : Apart loop := by
  have hsame : ∀ i : Fin 3, ∀ j : Fin 3, loop[i].same loop[j] = true → i = j := by decide
  intro i j hi hj h
  exact congrArg Fin.val (hsame ⟨i, hi⟩ ⟨j, hj⟩ h)

/-- The constant is reached at once, and also by way of the cycle, which passes a triple of the state
before it. -/
theorem link_enumerates_loop :
    loop.drop 2 ∈ ((link loop).pathsTo 2).map (link loop).steps ∧
      loop ∈ ((link loop).pathsTo 2).map (link loop).steps := by
  obtain ⟨-, hpaths⟩ := link_enumerates apart_loop
  obtain ⟨-, -, hmem⟩ := hpaths 2 (by decide)
  refine ⟨(hmem _).mpr ⟨⟨by decide, by decide, ?_, .singleton _⟩, rfl⟩,
    (hmem _).mpr ⟨⟨List.Subset.refl _, by decide, ?_, ?_⟩, rfl⟩⟩
  · exact ⟨⟨"<s>", "c", .text "1", .integer, true⟩, rfl, rfl⟩
  · exact ⟨⟨"<s>", "a", .text "<x>", .identifier, true⟩, rfl, rfl⟩
  · exact .cons_cons ⟨rfl, rfl⟩ (.cons_cons ⟨rfl, rfl⟩ (.singleton _))

end Network

end SoarProject
