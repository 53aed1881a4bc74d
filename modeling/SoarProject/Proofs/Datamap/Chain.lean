import Mathlib.Data.List.Chain
import Mathlib.Data.List.Perm.Subperm
import SoarProject.Datamap.Triple

/-!
# Chains of triples

The paths to a triple are its chains of parents that begin at a state. This module describes them
without the search that finds them:

* `mem_pathsTo_iff`: a path to a triple is a linked list of places that ends there, begins at a
  state, and uses no access twice.
* `mem_parents_link`, `mem_children_link`: among distinct triples the links are exactly the pairs in
  which one triple leads to the other.
* `WellLinked` is what this means for any network: parents and children agree, and each parent leads to
  its child.
-/

namespace SoarProject

namespace Triple

@[simp]
theorem same_refl (t : Triple) : t.same t = true := by
  simp [same, Cell.agrees]

/-- The same access starts from the same variable. -/
theorem subject_eq_of_same {a b : Triple} (h : a.same b = true) : a.subject = b.subject := by
  simp only [same, Bool.and_eq_true, beq_iff_eq] at h
  exact h.1.1

/-- A cell that agrees with a text is that text. -/
theorem eq_text_of_agrees {c : Cell} {s : String} (h : c.agrees (.text s) = true) :
    c = .text s := by
  cases c <;> simp_all [Cell.agrees, Cell.same]

/-- The same access has the same text as its value. -/
theorem value_eq_text_of_same {a b : Triple} {s : String} (h : a.same b = true)
    (hb : b.value = .text s) : a.value = .text s := by
  simp only [same, Bool.and_eq_true] at h
  exact eq_text_of_agrees (hb ▸ h.2)

/-- A value that is kept as a text. -/
def IsText (t : Triple) : Prop := ∃ s, t.value = .text s

/-- Variable, attribute and value of a triple. -/
def access (t : Triple) : String × String × Cell := (t.subject, t.attributeName, t.value)

/-- Attribute, kind and value of a triple, by which nodes stand for it. -/
def shape (t : Triple) : String × TripleKind × Cell := (t.attributeName, t.kind, t.value)

/-- If the value of one of two triples is a text, they are the same access if they agree in variable,
attribute and value. -/
theorem same_iff_access_eq {a b : Triple} (hb : b.IsText) :
    a.same b = true ↔ a.access = b.access := by
  obtain ⟨s, hs⟩ := hb
  constructor
  · intro h
    have hvalue := value_eq_text_of_same h hs
    simp only [same, Bool.and_eq_true, beq_iff_eq] at h
    rw [access, access, h.1.1, h.1.2, hvalue, hs]
  · intro h
    simp only [access, Prod.mk.injEq] at h
    simp [same, h.1, h.2.1, h.2.2, Cell.agrees]

/-- A triple leads to another one if its value is a variable from which the other one starts. -/
theorem leadsTo_iff {a b : Triple} :
    a.leadsTo b = true ↔ a.isLink = true ∧ a.value = .text b.subject := by
  simp [leadsTo, isAmong]

end Triple

namespace Network

variable {n : Network} {path : List Nat}

/-- Every triple of a path is a parent of the next one. -/
def Linked (n : Network) (path : List Nat) : Prop :=
  path.IsChain fun p c => p ∈ (n.node c).parents

/-- The first triple of a path belongs to a state. -/
def StartsAtState (n : Network) (path : List Nat) : Prop :=
  ∃ i ∈ path.head?, (n.triple i).isState = true

/-- No access occurs twice in a path. -/
def Distinct (n : Network) (path : List Nat) : Prop :=
  (n.steps path).Pairwise fun a b => b.same a = false

/-! ### The search for chains -/

/-- A chain that meets `p` again has no room for it in front. -/
theorem distinct_cons_iff {p : Nat} :
    n.Distinct (p :: path) ↔
      (n.steps path).any (fun t => t.same (n.triple p)) = false ∧ n.Distinct path := by
  simp [Distinct, steps]

theorem Distinct.of_append_right {front : List Nat} (h : n.Distinct (front ++ path)) :
    n.Distinct path := by
  simp only [Distinct, steps, List.map_append] at h
  exact (List.pairwise_append.mp h).2.1

/-- The search extends a chain at its front by linked places with fresh accesses, until a state. -/
theorem mem_chainsInto_iff {fuel top : Nat} {rest : List Nat}
    (hdistinct : n.Distinct (top :: rest)) :
    path ∈ n.chainsInto fuel (top :: rest) ↔
      ∃ front, path = front ++ top :: rest ∧ front.length < fuel ∧ n.Linked (front ++ [top]) ∧
        n.StartsAtState path ∧ n.Distinct path := by
  -- One step of the enumeration prepends a parent that is not on the path, and the fuel loses one.
  induction fuel generalizing top rest with
  | zero => simp [chainsInto]
  | succ fuel ih =>
    simp only [chainsInto, List.mem_append, List.mem_flatMap, List.mem_filter]
    constructor
    · rintro (hstop | ⟨p, ⟨hparent, hfresh⟩, hpath⟩)
      · by_cases hstate : (n.triple top).isState = true
        · simp only [hstate, ↓reduceIte, List.mem_singleton] at hstop
          subst hstop
          exact ⟨[], rfl, by simp, .singleton _, ⟨top, by simp, hstate⟩, hdistinct⟩
        · simp [hstate] at hstop
      · have hfront : n.Distinct (p :: top :: rest) :=
          distinct_cons_iff.mpr ⟨by simpa using hfresh, hdistinct⟩
        obtain ⟨front, rfl, hlength, hlinked, hstate, hpath⟩ := (ih hfront).mp hpath
        refine ⟨front ++ [p], by simp, by simpa using hlength, ?_, hstate, hpath⟩
        simp only [Linked, List.append_assoc, List.singleton_append]
        exact List.isChain_append_cons_cons.mpr ⟨hlinked, hparent, .singleton _⟩
    · rintro ⟨front, rfl, hlength, hlinked, hstate, hpath⟩
      -- Nothing is in front, and the path stops here; or the last of what is in front is the parent taken.
      rcases List.eq_nil_or_concat front with rfl | ⟨front, p, rfl⟩
      · obtain ⟨i, hi, htop⟩ := hstate
        simp only [List.nil_append, List.head?_cons, Option.mem_def, Option.some.injEq] at hi
        subst hi
        simp [htop]
      · simp only [List.concat_eq_append, List.append_assoc, List.singleton_append] at *
        obtain ⟨hlinked, hparent, -⟩ := List.isChain_append_cons_cons.mp hlinked
        have hfront : n.Distinct (p :: top :: rest) := hpath.of_append_right
        refine Or.inr ⟨p, ⟨hparent, by simpa using (distinct_cons_iff.mp hfront).1⟩, ?_⟩
        exact (ih hfront).mpr ⟨front, by simp, by simpa using hlength, hlinked, hstate, hpath⟩

/-- The paths to a triple are the linked lists of distinct accesses from a state to it. -/
theorem mem_pathsTo_iff {i : Nat} :
    path ∈ n.pathsTo i ↔
      path.getLast? = some i ∧ path.length ≤ n.size ∧ n.Linked path ∧ n.StartsAtState path ∧
        n.Distinct path := by
  have hone : n.Distinct [i] := by simp [Distinct, steps]
  rw [pathsTo, mem_chainsInto_iff hone]
  -- The bound of the search is the number of triples, the last one included.
  constructor
  · rintro ⟨front, rfl, hlength, hlinked, hstate, hpath⟩
    refine ⟨by simp, ?_, hlinked, hstate, hpath⟩
    rw [List.length_append, List.length_singleton]
    omega
  · rintro ⟨hlast, hlength, hlinked, hstate, hpath⟩
    obtain ⟨front, rfl⟩ := List.getLast?_eq_some_iff.mp hlast
    rw [List.length_append, List.length_singleton] at hlength
    exact ⟨front, rfl, by omega, hlinked, hstate, hpath⟩

/-- The beginning of a path to a triple is a path. -/
theorem prefix_mem_pathsTo {front rest : List Nat} {i c : Nat}
    (hpath : front ++ c :: rest ∈ n.pathsTo i) : front ++ [c] ∈ n.pathsTo c := by
  obtain ⟨-, hlength, hlinked, ⟨s, hs, hstate⟩, hdistinct⟩ := mem_pathsTo_iff.mp hpath
  have hfirst : front ++ [c] <+: front ++ c :: rest :=
    (List.prefix_append_right_inj front).mpr ⟨rest, rfl⟩
  refine mem_pathsTo_iff.mpr ⟨by simp, hfirst.length_le.trans hlength,
    (List.isChain_split.mp hlinked).1, ⟨s, by cases front <;> simpa using hs, hstate⟩, ?_⟩
  exact hdistinct.sublist (hfirst.sublist.map _)

theorem pathsTo_ne_nil_of_mem {i j : Nat} (hpath : path ∈ n.pathsTo i) (hj : j ∈ path) :
    n.pathsTo j ≠ [] := by
  obtain ⟨front, rest, rfl⟩ := List.append_of_mem hj
  exact List.ne_nil_of_mem (prefix_mem_pathsTo hpath)

theorem Distinct.nodup (h : n.Distinct path) : path.Nodup := by
  rw [Distinct, steps, List.pairwise_map] at h
  refine h.imp fun {i j} hne heq => ?_
  subst heq
  simp [Triple.same_refl] at hne

theorem length_le_size_of_nodup (hnodup : path.Nodup) (hrange : ∀ i ∈ path, i < n.size) :
    path.length ≤ n.size := by
  have hsub : path ⊆ List.range n.size := fun i hi => List.mem_range.mpr (hrange i hi)
  simpa using (List.subperm_of_subset hnodup hsub).length_le

/-! ### Links among distinct triples -/

/-- No two triples of a list are the same access. -/
def Apart (ts : List Triple) : Prop :=
  ∀ i j (hi : i < ts.length) (hj : j < ts.length), ts[i].same ts[j] = true → i = j

/-- Nothing is dropped from a list in which no entry repeats an access. -/
theorem foldl_keep_eq_append {found kept : List (Triple × Nat)}
    (hfound : found.Pairwise fun a b => a.1.same b.1 = false)
    (hkept : ∀ a ∈ kept, ∀ b ∈ found, a.1.same b.1 = false) :
    found.foldl (fun kept (t, i) =>
      if kept.any fun (s, _) => s.same t then kept else kept ++ [(t, i)]) kept = kept ++ found := by
  induction found generalizing kept with
  | nil => simp
  | cons b found ih =>
    obtain ⟨hb, hfound⟩ := List.pairwise_cons.mp hfound
    -- What was kept before does not repeat the first access, so it is kept as well.
    have hnew : (kept.any fun (s, _) => s.same b.1) = false := by
      rw [List.any_eq_false]
      intro a ha
      simp [hkept a ha b (by simp)]
    rw [List.foldl_cons]
    simp only [hnew, Bool.false_eq_true, ↓reduceIte]
    rw [ih hfound]
    · simp
    · intro a ha c hc
      rcases List.mem_append.mp ha with ha | ha
      · exact hkept a ha c (by simp [hc])
      · rw [List.mem_singleton.mp ha]
        exact hb c hc

/-- Among distinct triples no place that meets a condition is passed over. -/
theorem placesWhere_eq {ts : List Triple} (hts : Apart ts) (p : Triple → Bool) :
    placesWhere ts p = (ts.zipIdx.filter fun (t, _) => p t).map (·.2) := by
  have hpairs : (ts.zipIdx.filter fun (t, _) => p t).Pairwise fun a b => a.1.same b.1 = false := by
    apply List.Pairwise.filter
    rw [List.pairwise_iff_getElem]
    intro i j hi hj hij
    simp only [List.length_zipIdx] at hi hj
    simp only [List.getElem_zipIdx]
    by_contra hsame
    exact absurd (hts i j hi hj (by simpa using hsame)) (by omega)
  simp only [placesWhere]
  rw [foldl_keep_eq_append hpairs (by simp), List.nil_append]

/-- Among distinct triples the places that meet a condition are all of them. -/
theorem mem_placesWhere {ts : List Triple} (hts : Apart ts) {p : Triple → Bool} {i : Nat} :
    i ∈ placesWhere ts p ↔ ∃ hi : i < ts.length, p ts[i] = true := by
  rw [placesWhere_eq hts]
  simp only [List.mem_map, List.mem_filter, Prod.exists, List.mem_zipIdx_iff_getElem?]
  constructor
  · rintro ⟨t, j, ⟨hj, hp⟩, rfl⟩
    obtain ⟨hi, rfl⟩ := List.getElem?_eq_some_iff.mp hj
    exact ⟨hi, hp⟩
  · rintro ⟨hi, hp⟩
    exact ⟨ts[i], i, ⟨by simp [hi], hp⟩, rfl⟩

@[simp]
theorem size_link (ts : List Triple) : (link ts).size = ts.length := by
  simp [size, link]

theorem node_link {ts : List Triple} {i : Nat} (hi : i < ts.length) :
    (link ts).node i = ⟨ts[i], placesWhere ts (·.leadsTo ts[i]), placesWhere ts ts[i].leadsTo⟩ := by
  simp [node, link, hi]

@[simp]
theorem triple_link {ts : List Triple} {i : Nat} (hi : i < ts.length) :
    (link ts).triple i = ts[i] := by
  rw [triple, node_link hi]

theorem mem_parents_link {ts : List Triple} (hts : Apart ts) {i j : Nat} (hi : i < ts.length) :
    j ∈ ((link ts).node i).parents ↔ ∃ hj : j < ts.length, ts[j].leadsTo ts[i] = true := by
  rw [node_link hi]
  exact mem_placesWhere hts (p := (·.leadsTo ts[i]))

theorem mem_children_link {ts : List Triple} (hts : Apart ts) {i j : Nat} (hi : i < ts.length) :
    j ∈ ((link ts).node i).children ↔ ∃ hj : j < ts.length, ts[i].leadsTo ts[j] = true := by
  rw [node_link hi]
  exact mem_placesWhere hts (p := ts[i].leadsTo)

/-- Parents and children agree, and each parent leads to its child. -/
structure WellLinked (n : Network) : Prop where
  /-- A triple is a child of its parents and a parent of its children. -/
  mem_children_iff : ∀ {p c}, c ∈ (n.node p).children ↔ p ∈ (n.node c).parents
  /-- Parents are triples of the network. -/
  parent_lt : ∀ {p c}, p ∈ (n.node c).parents → p < n.size
  /-- The value of a parent is the variable that its child starts from. -/
  leadsTo : ∀ {p c}, p ∈ (n.node c).parents → (n.triple p).leadsTo (n.triple c) = true

/-- A place without a triple has no links. -/
theorem node_of_size_le {i : Nat} (hi : n.size ≤ i) : n.node i = default := by
  rw [node, List.getD_eq_getElem?_getD, List.getElem?_eq_none hi, Option.getD_none]

/-- Neighbours in a linked path are parent and child. -/
theorem Linked.parent {front rest : List Nat} {p c : Nat}
    (h : n.Linked (front ++ p :: c :: rest)) : p ∈ (n.node c).parents :=
  (List.isChain_append_cons_cons.mp h).2.1

/-- Only the triples of a network have parents. -/
theorem lt_size_of_parent {p c : Nat} (h : p ∈ (n.node c).parents) : c < n.size := by
  by_contra hc
  rw [node_of_size_le (not_lt.mp hc)] at h
  exact absurd h List.not_mem_nil

/-- Only the triples of a network belong to a state. -/
theorem lt_size_of_isState {i : Nat} (h : (n.triple i).isState = true) : i < n.size := by
  by_contra hi
  rw [triple, node_of_size_le (not_lt.mp hi)] at h
  exact absurd h Bool.false_ne_true

/-- Only the triples of a network have paths. -/
theorem lt_size_of_mem_pathsTo {i : Nat} (h : path ∈ n.pathsTo i) : i < n.size := by
  obtain ⟨hlast, -, hlinked, ⟨s, hs, hstate⟩, -⟩ := mem_pathsTo_iff.mp h
  obtain ⟨front, rfl⟩ := List.getLast?_eq_some_iff.mp hlast
  rcases List.eq_nil_or_concat front with rfl | ⟨front, p, rfl⟩
  · obtain rfl : i = s := by simpa using hs
    exact lt_size_of_isState hstate
  · rw [List.concat_eq_append, List.append_assoc, List.singleton_append] at hlinked
    exact lt_size_of_parent hlinked.parent

/-- Distinct triples are well linked. -/
theorem wellLinked_link {ts : List Triple} (hts : Apart ts) : (link ts).WellLinked where
  mem_children_iff {p c} := by
    constructor
    · intro h
      -- A position past the end has no children.
      have hp : p < ts.length := by
        by_contra hp
        rw [node_of_size_le (by simpa using hp)] at h
        exact absurd h List.not_mem_nil
      obtain ⟨hc, hleads⟩ := (mem_children_link hts hp).mp h
      exact (mem_parents_link hts hc).mpr ⟨hp, hleads⟩
    · intro h
      have hc : c < ts.length := by simpa using lt_size_of_parent h
      obtain ⟨hp, hleads⟩ := (mem_parents_link hts hc).mp h
      exact (mem_children_link hts hp).mpr ⟨hc, hleads⟩
  parent_lt {p c} h := by
    have hc : c < ts.length := by simpa using lt_size_of_parent h
    obtain ⟨hp, -⟩ := (mem_parents_link hts hc).mp h
    simpa using hp
  leadsTo {p c} h := by
    have hc : c < ts.length := by simpa using lt_size_of_parent h
    obtain ⟨hp, hleads⟩ := (mem_parents_link hts hc).mp h
    rwa [triple_link hp, triple_link hc]

end Network

end SoarProject
