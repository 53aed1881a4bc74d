import Mathlib.Algebra.Order.BigOperators.Group.List
import Mathlib.Algebra.Order.Ring.Nat
import Mathlib.Data.Finset.Card
import Mathlib.Logic.Relation

/-!
# Depth-first visits

A depth-first visit goes below one pending node after the other and passes over the nodes that it has seen.
It is told apart from the loop that does it: what the loop keeps on a stack, a visit has as its structure, so
that each fact is proved by induction on the visit.

* `exists_visits`: where finitely many nodes can be come to, there is a visit.
* `Visits.mem_iff`: it comes to the nodes that are below the first one, and to nothing else.
* `Visits.nodup`: it comes to each of them once.
* `Visits.pairwise`: without cycles, a node comes behind all nodes below it.
* `Visits.filter_eq_flatMap`: where nodes have one parent, whole subtrees come one after the other.
-/

namespace SoarProject

variable {α : Type} {next : α → List α} {pending seen post seen' : List α} {r p q c d x y : α}

/-! ### Forests -/

section Forest

variable {R : α → α → Prop} {S : α → Prop} (hclosed : ∀ x c, S x → R x c → S c)

include hclosed

/-- What is below a node of a closed set belongs to it. -/
theorem mem_of_reflTransGen (hp : S p) (hpq : Relation.ReflTransGen R p q) : S q := by
  induction hpq with
  | refl => exact hp
  | tail _ hqc ih => exact hclosed _ _ ih hqc

/-- Without cycles and with one parent for each node, no node is below two different children of a node. -/
theorem eq_of_reflTransGen (hacyclic : ∀ x, ¬ Relation.TransGen R x x)
    (hparent : ∀ p q c, S p → S q → R p c → R q c → p = q) (hr : S r) (hc : R r c) (hd : R r d)
    (hcx : Relation.ReflTransGen R c x) (hdx : Relation.ReflTransGen R d x) : c = d := by
  have hbelow : ∀ {c y : α}, R r c → Relation.ReflTransGen R c y → S y :=
    fun hc hcy => mem_of_reflTransGen hclosed (hclosed r _ hr hc) hcy
  -- Climbing from `x` both ways meet in the same rows, as every row has one parent.
  induction hcx with
  | refl =>
    rcases Relation.ReflTransGen.cases_tail hdx with heq | ⟨y, hdy, hyc⟩
    · exact heq
    · obtain rfl := hparent y r c (hbelow hd hdy) hr hyc hc
      exact absurd (.head' hd hdy) (hacyclic y)
  | @tail y z hcy hyz ih =>
    rcases Relation.ReflTransGen.cases_tail hdx with rfl | ⟨w, hdw, hwz⟩
    · obtain rfl := hparent y r z (hbelow hc hcy) hr hyz hd
      exact absurd (.head' hc hcy) (hacyclic y)
    · obtain rfl := hparent y w z (hbelow hc hcy) (hbelow hd hdw) hyz hwz
      exact ih hdw

end Forest

/-! ### Visits -/

/-- The node `c` is next to the node `p`. -/
def Link (next : α → List α) (p c : α) : Prop := c ∈ next p

/-- A visit of pending nodes that passes over those in `seen`. The nodes that it comes to are listed in `post`,
each behind those that it comes to below it; at the end, the nodes in `seen'` have been seen. -/
inductive Visits (next : α → List α) : List α → List α → List α → List α → Prop
  /-- No node is pending. -/
  | nil {seen : List α} : Visits next [] seen [] seen
  /-- The first node has been seen. -/
  | skip {c : α} {rest seen post seen' : List α} (hc : c ∈ seen) (hrest : Visits next rest seen post seen') :
      Visits next (c :: rest) seen post seen'
  /-- The first node is new: what is next to it comes first, then the node, and then the rest. -/
  | visit {c : α} {rest seen below between post seen' : List α} (hc : c ∉ seen)
      (hbelow : Visits next (next c) (c :: seen) below between)
      (hrest : Visits next rest between post seen') :
      Visits next (c :: rest) seen (below ++ c :: post) seen'

/-- The steps of a visit: one for each node that is or becomes pending, and one to leave each node. -/
def visitSteps (next : α → List α) (pending post : List α) : Nat :=
  pending.length + (post.map fun c => (next c).length + 1).sum

namespace Visits

/-! ### What a visit comes to -/

/-- At the end, the nodes have been seen that the visit came to, and those that had been seen. -/
theorem mem_seen_iff (h : Visits next pending seen post seen') : x ∈ seen' ↔ x ∈ post ∨ x ∈ seen := by
  induction h with
  | nil => simp
  | skip _ _ ih => exact ih
  | visit _ _ _ ihbelow ihrest =>
    rw [ihrest, ihbelow, List.mem_append, List.mem_cons, List.mem_cons]
    tauto

/-- A visit does not come to a node that had been seen. -/
theorem not_mem_seen (h : Visits next pending seen post seen') (hx : x ∈ post) : x ∉ seen := by
  induction h with
  | nil => exact absurd hx List.not_mem_nil
  | skip _ _ ih => exact ih hx
  | visit hc hbelow _ ihbelow ihrest =>
    have hseen : ∀ y ∈ _, y ∈ _ := fun y hy => (hbelow.mem_seen_iff (x := y)).mpr (.inr hy)
    rcases List.mem_append.mp hx with hx | hx
    · exact fun hmem => ihbelow hx (List.mem_cons_of_mem _ hmem)
    · rcases List.mem_cons.mp hx with rfl | hx
      · exact hc
      · exact fun hmem => ihrest hx (hseen _ (List.mem_cons_of_mem _ hmem))

/-- A visit comes to a node once. -/
theorem nodup (h : Visits next pending seen post seen') : post.Nodup := by
  induction h with
  | nil => exact List.nodup_nil
  | skip _ _ ih => exact ih
  | visit hc hbelow hrest ihbelow ihrest =>
    have hnew : ∀ y ∈ _, y ∉ _ := fun y hy => hrest.not_mem_seen hy
    have hself := hbelow.mem_seen_iff.mpr (.inr List.mem_cons_self)
    refine List.nodup_append.mpr ⟨ihbelow, List.nodup_cons.mpr ⟨fun hmem => hnew _ hmem hself, ihrest⟩, ?_⟩
    rintro y hy z hz rfl
    rcases List.mem_cons.mp hz with rfl | hz
    · exact hbelow.not_mem_seen hy List.mem_cons_self
    · exact hnew y hz (hbelow.mem_seen_iff.mpr (.inl hy))

/-- At the end, everything has been seen that was pending or is next to a node that the visit came to. -/
theorem closed (h : Visits next pending seen post seen') :
    (∀ c ∈ pending, c ∈ seen') ∧ ∀ x ∈ post, ∀ c ∈ next x, c ∈ seen' := by
  induction h with
  | nil => exact ⟨fun _ hc => absurd hc List.not_mem_nil, fun _ hx => absurd hx List.not_mem_nil⟩
  | skip hc hrest ih =>
    exact ⟨List.forall_mem_cons.mpr ⟨hrest.mem_seen_iff.mpr (.inr hc), ih.1⟩, ih.2⟩
  | visit _ hbelow hrest ihbelow ihrest =>
    -- What is seen stays seen while the rest is visited.
    have hkept : ∀ y ∈ _, y ∈ _ := fun y hy => (hrest.mem_seen_iff (x := y)).mpr (.inr hy)
    have hself := hbelow.mem_seen_iff.mpr (.inr List.mem_cons_self)
    refine ⟨List.forall_mem_cons.mpr ⟨hkept _ hself, ihrest.1⟩, fun x hx c hc => ?_⟩
    rcases List.mem_append.mp hx with hx | hx
    · exact hkept c (ihbelow.2 x hx c hc)
    · rcases List.mem_cons.mp hx with rfl | hx
      · exact hkept c (ihbelow.1 c hc)
      · exact ihrest.2 x hx c hc

/-- A visit comes to pending nodes and to nodes below them. -/
theorem exists_reflTransGen (h : Visits next pending seen post seen') (hx : x ∈ post) :
    ∃ c ∈ pending, Relation.ReflTransGen (Link next) c x := by
  induction h with
  | nil => exact absurd hx List.not_mem_nil
  | skip _ _ ih =>
    obtain ⟨c, hc, hcx⟩ := ih hx
    exact ⟨c, List.mem_cons_of_mem _ hc, hcx⟩
  | visit _ _ _ ihbelow ihrest =>
    -- Below the row visited now, at the row itself, or below one of the rest.
    rcases List.mem_append.mp hx with hx | hx
    · obtain ⟨d, hd, hdx⟩ := ihbelow hx
      exact ⟨_, List.mem_cons_self, .head hd hdx⟩
    · rcases List.mem_cons.mp hx with rfl | hx
      · exact ⟨_, List.mem_cons_self, .refl⟩
      · obtain ⟨d, hd, hdx⟩ := ihrest hx
        exact ⟨d, List.mem_cons_of_mem _ hd, hdx⟩

/-- A visit below a node comes to the other nodes below it. -/
theorem mem_iff (h : Visits next (next r) [r] post seen') :
    x ∈ post ↔ x ≠ r ∧ Relation.TransGen (Link next) r x := by
  constructor
  · intro hx
    obtain ⟨c, hc, hcx⟩ := h.exists_reflTransGen hx
    exact ⟨fun heq => h.not_mem_seen hx (List.mem_singleton.mpr heq), .head' hc hcx⟩
  · rintro ⟨hne, hrx⟩
    obtain ⟨hpending, hclosed⟩ := h.closed
    -- The walk down from `r` stays among what was seen, also when it passes through `r` again.
    have hseen : x ∈ seen' := by
      induction hrx with
      | single hc => exact hpending _ hc
      | @tail y _ hry hyx ih =>
        by_cases hy : y = r
        · exact hpending _ (hy ▸ hyx)
        · have hy : y ∈ post := (h.mem_seen_iff.mp (ih hy)).resolve_right (by simpa using hy)
          exact hclosed y hy _ hyx
    exact (h.mem_seen_iff.mp hseen).resolve_right (by simpa using hne)

/-! ### Nodes in order -/

/-- All nodes below a node have been seen. -/
def Settled (next : α → List α) (seen : List α) (x : α) : Prop :=
  ∀ y, Relation.TransGen (Link next) x y → y ∈ seen

theorem settled_mono (h : Visits next pending seen post seen') (hx : Settled next seen x) :
    Settled next seen' x :=
  fun y hy => h.mem_seen_iff.mpr (.inr (hx y hy))

/-- Without cycles, a node is settled once the nodes next to it have been visited. -/
theorem settled_of_next {c : α} {below : List α} (hacyclic : ∀ x, ¬ Relation.TransGen (Link next) x x)
    (h : Visits next (next c) (c :: seen) below seen')
    (hopen : ∀ x ∈ c :: seen, Relation.ReflTransGen (Link next) x c ∨ Settled next (c :: seen) x)
    (hbelow : ∀ x ∈ below, Settled next seen' x) : Settled next seen' c := by
  intro y hy
  obtain ⟨d, hcd, hdy⟩ := Relation.TransGen.head'_iff.mp hy
  have hd := h.closed.1 d hcd
  rcases Relation.reflTransGen_iff_eq_or_transGen.mp hdy with rfl | hdy
  · exact hd
  · rcases h.mem_seen_iff.mp hd with hd | hd
    · exact hbelow d hd y hdy
    · -- A node that is open still would close a cycle.
      rcases hopen d hd with hdc | hd
      · exact absurd (.head' hcd hdc) (hacyclic c)
      · exact h.settled_mono hd y hdy

/-- Without cycles, the nodes that a visit comes to are settled at its end, and each of them comes behind the
nodes below it. The nodes seen before are settled or still open, with the pending ones below them. -/
theorem settled_and_pairwise (hacyclic : ∀ x, ¬ Relation.TransGen (Link next) x x)
    (h : Visits next pending seen post seen') (hpending : ∀ c ∈ pending, c ∈ next r)
    (hseen : ∀ x ∈ seen, Relation.ReflTransGen (Link next) x r ∨ Settled next seen x) :
    (∀ x ∈ post, Settled next seen' x) ∧ post.Pairwise fun x y => ¬ Relation.TransGen (Link next) x y := by
  -- The rows not settled are those above the row visited, and acyclic links do not lead back to them.
  induction h generalizing r with
  | nil => exact ⟨fun _ hx => absurd hx List.not_mem_nil, List.Pairwise.nil⟩
  | skip _ _ ih => exact ih (List.forall_mem_cons.mp hpending).2 hseen
  | @visit c rest seen below between post seen' _ hbelow hrest ihbelow ihrest =>
    obtain ⟨hrc, hpending⟩ := List.forall_mem_cons.mp hpending
    have hopen : ∀ x ∈ c :: seen, Relation.ReflTransGen (Link next) x c ∨ Settled next (c :: seen) x := by
      refine List.forall_mem_cons.mpr ⟨.inl .refl, fun x hx => ?_⟩
      exact (hseen x hx).imp (·.tail hrc) fun hx y hy => List.mem_cons_of_mem _ (hx y hy)
    obtain ⟨hsettled, hordered⟩ := ihbelow (fun _ hd => hd) hopen
    -- When everything below is settled, the node itself is.
    have hself := hbelow.settled_of_next hacyclic hopen hsettled
    have hnew : ∀ x ∈ below ++ [c], Settled next between x := by
      intro x hx
      rcases List.mem_append.mp hx with hx | hx
      · exact hsettled x hx
      · exact List.mem_singleton.mp hx ▸ hself
    -- What is visited afterwards finds these nodes settled.
    obtain ⟨hlater, hpost⟩ := ihrest hpending fun x hx => by
      rcases hbelow.mem_seen_iff.mp hx with hx | hx
      · exact .inr (hsettled x hx)
      · rcases List.mem_cons.mp hx with rfl | hx
        · exact .inr hself
        · exact (hseen x hx).imp_right fun hx =>
            hbelow.settled_mono fun y hy => List.mem_cons_of_mem _ (hx y hy)
    rw [List.append_cons]
    constructor
    · intro x hx
      rcases List.mem_append.mp hx with hx | hx
      · exact hrest.settled_mono (hnew x hx)
      · exact hlater x hx
    · refine List.pairwise_append.mpr ⟨?_, hpost, fun x hx y hy hxy => ?_⟩
      · refine List.pairwise_append.mpr ⟨hordered, List.pairwise_singleton _ c, fun x hx y hy hxc => ?_⟩
        rw [List.mem_singleton.mp hy] at hxc
        obtain ⟨d, hd, hdx⟩ := hbelow.exists_reflTransGen hx
        -- A way back from the node to what was listed below it would close a cycle.
        exact hacyclic c (.trans (.head' hd hdx) hxc)
      · exact hrest.not_mem_seen hy (hnew x hx y hxy)

/-- Without cycles, a visit below a node comes to each node behind those below it. -/
theorem pairwise (hacyclic : ∀ x, ¬ Relation.TransGen (Link next) x x)
    (h : Visits next (next r) [r] post seen') :
    post.Pairwise fun x y => ¬ Relation.TransGen (Link next) x y :=
  (h.settled_and_pairwise hacyclic (fun _ hc => hc) fun x hx => by
    rw [List.mem_singleton.mp hx]
    exact .inl .refl).2

/-! ### Subtrees -/

section Forest

variable {S : α → Prop} (hacyclic : ∀ x, ¬ Relation.TransGen (Link next) x x)
  (hclosed : ∀ x c, S x → Link next x c → S c)
  (hparent : ∀ p q c, S p → S q → Link next p c → Link next q c → p = q)

include hacyclic hclosed hparent

/-- In a forest, a visit of pending nodes that nothing seen is below lists their subtrees one after the
other. -/
theorem filter_eq_flatMap {keep : α → Bool} {tree : α → List α} (hnodup : ∀ x, S x → (next x).Nodup)
    (htree : ∀ x, S x → tree x = (next x).flatMap fun c => tree c ++ if keep c then [c] else [])
    (h : Visits next pending seen post seen') (hr : S r) (hpending : ∀ c ∈ pending, c ∈ next r)
    (hfirst : pending.Nodup)
    (hseen : ∀ c ∈ pending, ∀ x, Relation.ReflTransGen (Link next) c x → x ∉ seen) :
    post.filter keep = pending.flatMap fun c => tree c ++ if keep c then [c] else [] := by
  induction h generalizing r with
  | nil => rfl
  | skip hc _ _ => exact absurd hc (hseen _ List.mem_cons_self _ .refl)
  | @visit c rest seen below between post seen' _ hbelow hrest ihbelow ihrest =>
    obtain ⟨hrc, hpending⟩ := List.forall_mem_cons.mp hpending
    obtain ⟨hother, hfirst⟩ := List.nodup_cons.mp hfirst
    have hc := hclosed r c hr hrc
    -- Nothing in the subtree of the node was seen, as nodes have one parent.
    have hsubtree : below.filter keep = tree c := by
      rw [htree c hc]
      refine ihbelow hc (fun _ hd => hd) (hnodup c hc) fun d hd x hdx hx => ?_
      rcases List.mem_cons.mp hx with rfl | hx
      · exact hacyclic x (.head' hd hdx)
      · exact hseen c List.mem_cons_self x (.head hd hdx) hx
    have hlater := ihrest hr hpending hfirst fun d hd x hdx hx => by
      -- The subtrees of two pending nodes have nothing in common.
      have hnot : ¬ Relation.ReflTransGen (Link next) c x := fun hcx =>
        hother (eq_of_reflTransGen hclosed hacyclic hparent hr hrc (hpending d hd) hcx hdx ▸ hd)
      rcases hbelow.mem_seen_iff.mp hx with hx | hx
      · obtain ⟨e, he, hex⟩ := hbelow.exists_reflTransGen hx
        exact hnot (.head he hex)
      · rcases List.mem_cons.mp hx with rfl | hx
        · exact hnot .refl
        · exact hseen d (List.mem_cons_of_mem _ hd) x hdx hx
    rw [List.flatMap_cons, ← hlater, List.filter_append, List.filter_cons, hsubtree]
    split <;> simp

end Forest

/-! ### How long a visit takes -/

/-- A visit of nodes with no more than `n` others next to them, of which there are no more than `n`, takes no
more steps than the square of `n + 1`. -/
theorem visitSteps_le {n : Nat} (hpending : pending.length ≤ n) (hpost : post.length ≤ n)
    (hnext : ∀ x ∈ post, (next x).length ≤ n) : visitSteps next pending post < (n + 1) * (n + 1) := by
  have hsum : (post.map fun c => (next c).length + 1).sum ≤ post.length * (n + 1) := by
    have hall : ∀ k ∈ post.map fun c => (next c).length + 1, k ≤ n + 1 := by
      intro k hk
      obtain ⟨c, hc, rfl⟩ := List.mem_map.mp hk
      exact Nat.succ_le_succ (hnext c hc)
    simpa using List.sum_le_card_nsmul _ _ hall
  calc visitSteps next pending post ≤ n + post.length * (n + 1) := Nat.add_le_add hpending hsum
    _ ≤ n + n * (n + 1) := Nat.add_le_add_left (Nat.mul_le_mul_right _ hpost) n
    _ < (n + 1) * (n + 1) := by rw [Nat.succ_mul]; omega

end Visits

/-- Where everything that is next to a node is among finitely many nodes, there is a visit. -/
theorem exists_visits [DecidableEq α] (nodes : Finset α) (hnodes : ∀ x, ∀ c ∈ next x, c ∈ nodes)
    (hpending : ∀ c ∈ pending, c ∈ nodes) (seen : List α) :
    ∃ post seen', Visits next pending seen post seen' := by
  -- Each node that is come to leaves fewer that have not been seen, so that the depth is bounded.
  obtain ⟨n, hn⟩ : ∃ n, (nodes \ seen.toFinset).card < n := ⟨_, Nat.lt_succ_self _⟩
  induction n generalizing pending seen with
  | zero => omega
  | succ n ih =>
    induction pending generalizing seen with
    | nil => exact ⟨[], seen, .nil⟩
    | cons c rest ihrest =>
      obtain ⟨hc, hpending⟩ := List.forall_mem_cons.mp hpending
      by_cases hseen : c ∈ seen
      · obtain ⟨post, seen', h⟩ := ihrest hpending seen hn
        exact ⟨post, seen', .skip hseen h⟩
      · have hfewer : (nodes \ (c :: seen).toFinset).card < (nodes \ seen.toFinset).card := by
          refine Finset.card_lt_card (Finset.ssubset_iff_of_subset ?_ |>.mpr ⟨c, ?_, ?_⟩)
          · exact Finset.sdiff_subset_sdiff (Finset.Subset.refl _) (by simp)
          · simpa using ⟨hc, hseen⟩
          · simp
        obtain ⟨below, between, hbelow⟩ := ih (hnodes c) (c :: seen) (by omega)
        have hle : (nodes \ between.toFinset).card ≤ (nodes \ seen.toFinset).card := by
          refine Finset.card_le_card (Finset.sdiff_subset_sdiff (Finset.Subset.refl _) fun x hx => ?_)
          rw [List.mem_toFinset] at hx ⊢
          exact hbelow.mem_seen_iff.mpr (.inr (List.mem_cons_of_mem _ hx))
        obtain ⟨post, seen', hrest⟩ := ihrest hpending between (by omega)
        exact ⟨_, seen', .visit hseen hbelow hrest⟩

end SoarProject
