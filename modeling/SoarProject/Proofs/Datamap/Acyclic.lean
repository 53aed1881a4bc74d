import Mathlib.Logic.Relation
import SoarProject.Proofs.Datamap.Coverage

/-!
# Acyclic rules

In an acyclic rule no variable leads back to itself, one variable is the state, and no constant is
spelled like a variable.

* `coherent_link`: the network of distinct triples of an acyclic rule is coherent.
* `exists_terminalPath_of_reachable`: every triple that is reachable from the state occurs in a terminal
  path, in whatever order the triples stand.
-/

namespace SoarProject

namespace Triple

variable {ts : List Triple}

/-- A triple whose value is the variable `y` starts from the variable `x`. -/
def Follows (ts : List Triple) (x y : String) : Prop :=
  ∃ t ∈ ts, t.isLink = true ∧ t.subject = x ∧ t.value = .text y

/-- No variable leads back to itself, the triples of the variable `state` are those of a state, and no
constant is spelled like a variable. -/
structure Acyclic (ts : List Triple) (state : String) : Prop where
  /-- No variable leads back to itself. -/
  not_transGen : ∀ x, ¬ Relation.TransGen (Follows ts) x x
  /-- The state is one variable. -/
  isState_iff : ∀ t ∈ ts, t.isState = true ↔ t.subject = state
  /-- No constant is spelled like a variable. -/
  constant_ne : ∀ t ∈ ts, t.isLink = false → ∀ u ∈ ts, t.value ≠ .text u.subject

/-- A rule is acyclic if the rank of its variables grows along its triples. -/
theorem acyclic_of_rank {state : String} (rank : String → Nat)
    (hrank : ∀ t ∈ ts, t.isLink = true → rank t.subject < rank t.value.shown)
    (hstate : ∀ t ∈ ts, t.isState = true ↔ t.subject = state)
    (hconstant : ∀ t ∈ ts, t.isLink = false → ∀ u ∈ ts, t.value ≠ .text u.subject) :
    Acyclic ts state where
  not_transGen x hcycle := by
    -- Each link raises the rank, so a chain of them cannot return.
    have hlt : ∀ {x y}, Relation.TransGen (Follows ts) x y → rank x < rank y := by
      have hstep : ∀ {x y}, Follows ts x y → rank x < rank y := by
        rintro x y ⟨t, ht, hlink, rfl, hvalue⟩
        have := hrank t ht hlink
        rwa [hvalue] at this
      intro x y h
      induction h with
      | single h => exact hstep h
      | tail _ h ih => exact ih.trans (hstep h)
    exact lt_irrefl _ (hlt hcycle)
  isState_iff := hstate
  constant_ne := hconstant

end Triple

namespace Network

open Triple

variable {ts : List Triple} {state : String}

/-- In a linked path the variable of each triple follows that of the one before. -/
theorem Linked.follows (hts : Apart ts) {path : List Nat} (h : (link ts).Linked path) :
    (path.map fun i => ((link ts).triple i).subject).IsChain (Follows ts) := by
  refine (List.isChain_map _).mpr (h.imp fun {p c} hparent => ?_)
  have hp := (wellLinked_link hts).parent_lt hparent
  obtain ⟨hlink, hvalue⟩ := leadsTo_iff.mp ((wellLinked_link hts).leadsTo hparent)
  rw [size_link] at hp
  rw [triple_link hp] at hlink hvalue ⊢
  exact ⟨ts[p], List.getElem_mem hp, hlink, rfl, hvalue⟩

/-- A chain of variables does not come back to one of them. -/
theorem nodup_of_isChain (hacyclic : Acyclic ts state) {names : List String}
    (h : names.IsChain (Follows ts)) : names.Nodup := by
  have hpairs := (h.imp fun {a b} => Relation.TransGen.single).pairwise
  refine hpairs.imp fun {a b} hab heq => ?_
  exact hacyclic.not_transGen b (heq ▸ hab)

/-- The triples of a state start from one variable. -/
theorem subject_eq_of_isState (hacyclic : Acyclic ts state) {i : Nat}
    (h : ((link ts).triple i).isState = true) : ((link ts).triple i).subject = state := by
  have hi := lt_size_of_isState h
  rw [size_link] at hi
  rw [triple_link hi] at h ⊢
  exact (hacyclic.isState_iff _ (List.getElem_mem hi)).mp h

/-- Triples on one variable have the same parents. -/
theorem mem_parents_of_subject_eq (hts : Apart ts) {p b c : Nat} (hb : b < (link ts).size)
    (hsubject : ((link ts).triple b).subject = ((link ts).triple c).subject)
    (hparent : p ∈ ((link ts).node c).parents) : p ∈ ((link ts).node b).parents := by
  have hc := lt_size_of_parent hparent
  rw [size_link] at hb hc
  rw [triple_link hb, triple_link hc] at hsubject
  obtain ⟨hp, hleads⟩ := (mem_parents_link hts hc).mp hparent
  refine (mem_parents_link hts hb).mpr ⟨hp, leadsTo_iff.mpr ?_⟩
  rw [hsubject]
  exact leadsTo_iff.mp hleads

/-- The network of distinct triples of an acyclic rule is coherent. -/
theorem coherent_link (hacyclic : Acyclic ts state) (hts : Apart ts) :
    Coherent (link ts) id where
  wellLinked := wellLinked_link hts
  keyedBy i j hi hj := by
    rw [size_link] at hi hj
    rw [triple_link hi, triple_link hj]
    constructor
    · exact hts i j hi hj
    · rintro (rfl : i = j)
      exact same_refl _
  subjects_nodup hlinked := nodup_of_isChain hacyclic (hlinked.follows hts)
  -- A second state triple on the path would repeat the subject of the first.
  state_first {front c rest} hlinked hstart hstate := by
    cases front with
    | nil => rfl
    | cons s front =>
      obtain ⟨s', hs', hstart⟩ := hstart
      obtain rfl : s = s' := by simpa using hs'
      have hnodup := nodup_of_isChain hacyclic (hlinked.follows hts)
      simp only [List.cons_append, List.map_cons, List.nodup_cons] at hnodup
      refine absurd (List.mem_map.mpr ⟨c, by simp, ?_⟩) hnodup.1
      rw [subject_eq_of_isState hacyclic hstart, subject_eq_of_isState hacyclic hstate]
  constant_ne {i j} hi hj hlink := by
    rw [size_link] at hi hj
    rw [triple_link hi] at hlink ⊢
    rw [triple_link hj]
    exact hacyclic.constant_ne _ (List.getElem_mem hi) hlink _ (List.getElem_mem hj)
  -- What leads to one triple of a variable leads to each of them, so the last step is exchanged.
  routes_agree {b c path} hb _ hsubject hpath := by
    refine ⟨path.dropLast ++ [b], ?_, by simp⟩
    have hc := lt_size_of_mem_pathsTo hpath
    have hnodup := fun {path} (h : (link ts).Linked path) =>
      nodup_of_isChain hacyclic (h.follows hts)
    rw [mem_pathsTo_iff_of_nodup (wellLinked_link hts) hnodup hc] at hpath
    rw [mem_pathsTo_iff_of_nodup (wellLinked_link hts) hnodup hb]
    obtain ⟨hlast, hlinked, s, hs, hstate⟩ := hpath
    obtain ⟨front, rfl⟩ := List.getLast?_eq_some_iff.mp hlast
    rw [List.dropLast_concat]
    rcases List.eq_nil_or_concat front with rfl | ⟨front, p, rfl⟩
    · -- The path is the one triple: it is about the state, and so is every triple of the same subject.
      obtain rfl : c = s := by simpa using hs
      refine ⟨rfl, .singleton _, b, rfl, ?_⟩
      rw [size_link] at hb
      rw [triple_link hb] at hsubject ⊢
      rw [hacyclic.isState_iff _ (List.getElem_mem hb), hsubject,
        subject_eq_of_isState hacyclic hstate]
    · -- The last step hangs below another triple, which has every triple of the subject below it.
      rw [List.concat_eq_append, List.append_assoc, List.singleton_append] at hlinked ⊢
      refine ⟨by simp, List.isChain_append_cons_cons.mpr ?_, s, ?_, hstate⟩
      · obtain ⟨hfront, hparent, -⟩ := List.isChain_append_cons_cons.mp hlinked
        exact ⟨hfront, mem_parents_of_subject_eq hts hb hsubject hparent, .singleton _⟩
      · cases front <;> simpa using hs
  children_agree {a b x} ha hb _ _ hlinka hlinkb hvaluea hvalueb hchildren := by
    rw [size_link] at ha hb
    obtain ⟨c, hc⟩ := List.exists_mem_of_ne_nil _ hchildren
    obtain ⟨hc, hleads⟩ := (mem_children_link hts ha).mp hc
    refine List.ne_nil_of_mem ((mem_children_link hts hb).mpr ⟨hc, leadsTo_iff.mpr ?_⟩)
    rw [triple_link ha] at hvaluea
    rw [triple_link hb] at hlinkb hvalueb
    exact ⟨hlinkb, hvalueb.trans (hvaluea.symm.trans (leadsTo_iff.mp hleads).2)⟩

/-- A path leads to every triple that is reachable from the state. -/
theorem pathsTo_ne_nil_of_reachable (hacyclic : Acyclic ts state) (hts : Apart ts) {i : Nat}
    (hi : i < ts.length) (hreach : Relation.ReflTransGen (Follows ts) state ts[i].subject) :
    (link ts).pathsTo i ≠ [] := by
  have hcoherent := coherent_link hacyclic hts
  generalize hx : ts[i].subject = x at hreach
  -- By induction on the way from the state to the subject.
  induction hreach generalizing i with
  | refl =>
    have hstate := (hacyclic.isState_iff _ (List.getElem_mem hi)).mpr hx
    rw [← triple_link hi] at hstate
    have hpath : [i] ∈ (link ts).pathsTo i :=
      (hcoherent.mem_pathsTo_iff (lt_size_of_isState hstate)).mpr
        ⟨List.getLast?_singleton, .singleton _, i, rfl, hstate⟩
    exact List.ne_nil_of_mem hpath
  | tail _ hstep ih =>
    obtain ⟨t, ht, hlink, hsubject, hvalue⟩ := hstep
    obtain ⟨j, hj, rfl⟩ := List.getElem_of_mem ht
    obtain ⟨path, hpath⟩ := List.exists_mem_of_ne_nil _ (ih hj hsubject)
    -- A path to a triple with the subject as its value goes on to the triple itself.
    have hparent := (mem_parents_link hts hi).mpr
      ⟨hj, leadsTo_iff.mpr ⟨hlink, hvalue.trans (congrArg _ hx.symm)⟩⟩
    exact List.ne_nil_of_mem (hcoherent.concat_mem_pathsTo hpath hparent)

/-- Every triple of an acyclic rule that is reachable from the state occurs in a terminal path. -/
theorem exists_terminalPath_of_reachable (hacyclic : Acyclic ts state) (hts : Apart ts) {i : Nat}
    (hi : i < ts.length) (hreach : Relation.ReflTransGen (Follows ts) state ts[i].subject) :
    ∃ a ∈ (link ts).terminalPaths, i ∈ a.path := by
  have hcoherent := coherent_link hacyclic hts
  have hsize : i < (link ts).size := by simpa using hi
  obtain ⟨path, hpath, a, ha, hcont⟩ :=
    hcoherent.covered hsize (pathsTo_ne_nil_of_reachable hacyclic hts hi hreach)
  rw [List.map_id, List.map_id] at hcont
  have hlast := ((hcoherent.mem_pathsTo_iff hsize).mp hpath).1
  exact ⟨a, ha, hcont.subset (List.mem_of_getLast? hlast)⟩

/-- A variable that is reached by two attributes, with the triples from the last to the first. -/
def diamond : List Triple :=
  [⟨"<x>", "c", .text "1", .integer, false⟩, ⟨"<s>", "b", .text "<x>", .identifier, true⟩,
    ⟨"<s>", "a", .text "<x>", .identifier, true⟩]

/-- The triples of the diamond are distinct. -/
theorem apart_diamond : Apart diamond := by
  have hsame : ∀ i : Fin 3, ∀ j : Fin 3, diamond[i].same diamond[j] = true → i = j := by decide
  intro i j hi hj h
  exact congrArg Fin.val (hsame ⟨i, hi⟩ ⟨j, hj⟩ h)

/-- The diamond is an acyclic rule. -/
theorem acyclic_diamond : Acyclic diamond "<s>" :=
  acyclic_of_rank (fun x => if x = "<s>" then 0 else 1) (by decide) (by decide) (by decide)

/-- The triple behind the two ways of the diamond occurs in a terminal path. -/
theorem exists_terminalPath_diamond : ∃ a ∈ (link diamond).terminalPaths, 0 ∈ a.path := by
  have hi : 0 < diamond.length := by decide
  refine exists_terminalPath_of_reachable acyclic_diamond apart_diamond hi (.single ?_)
  exact ⟨⟨"<s>", "a", .text "<x>", .identifier, true⟩, by decide, rfl, rfl, rfl⟩

end Network

end SoarProject
