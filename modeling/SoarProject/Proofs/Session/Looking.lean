import SoarProject.Proofs.Session.Dependence
import SoarProject.Proofs.Store.Contents

/-!
# Looking through a view

Some of what is done through a view only looks at the store: it succeeds, and leaves the session as it is. Only
the view may remember more afterwards.

* `ViewChange.Looks`: what is seen through a view.
* `Query.SameIn.exists_eq`, `Query.Finds.exists_mapM_eq`: what is surely found, and does not depend on the
  session, is one value.

For each way to look there is one rule.
-/

namespace SoarProject

variable {α β : Type} {w : Bool} {s : Session} {st : Store}

namespace Query

variable {q : Query α} {f : α → Query β} {R : α → Prop} {T : β → Prop} {a : α}

/-- What is surely found is found in each session. -/
theorem Finds.exists_run (h : q.Finds st True R) (hs : s.Opens w st) : ∃ a, q.run s = .ok a ∧ R a := by
  have hfound := h w s hs
  cases hrun : q.run s with
  | error e => simp [hrun] at hfound
  | ok a =>
    rw [hrun] at hfound
    exact ⟨a, rfl, hfound⟩

/-- Of two queries that surely find something, the first one does. -/
theorem Finds.of_bind (h : (q >>= f).Finds st True T)
    (hf : ∀ a, (f a).Finds st False fun b => T b → R a) : q.Finds st True R := by
  intro w s hs
  obtain ⟨b, hb, hT⟩ := h.exists_run hs
  obtain ⟨a, ha, hrest⟩ := exceptBind_eq_ok.mp hb
  rw [show q.run s = .ok a from ha]
  exact (hf a).of_run hs hrest hT

/-- Of two queries that surely find something, the second one does after what the first one finds. -/
theorem Finds.of_bind_eq (h : (q >>= f).Finds st True T) (hq : q.Finds st True (· = a)) :
    (f a).Finds st True T := by
  intro w s hs
  obtain ⟨b, hb, rfl⟩ := hq.exists_run hs
  rw [← run_bind_ok hb]
  exact h w s hs

/-- What is surely found and does not depend on the session is one value. -/
theorem SameIn.exists_eq (h : q.SameIn st st) (hq : q.Finds st True R) :
    ∃ a, R a ∧ q.Finds st True (· = a) := by
  let s : Session := { registry := .project, connection := .memory st }
  have hs : s.Opens s.isWritable st := ⟨rfl, rfl, rfl⟩
  obtain ⟨a, hrun, ha⟩ := hq.exists_run hs
  refine ⟨a, ha, fun w s' hs' => ?_⟩
  rw [← h _ s w s' hs hs', hrun]

/-- What is surely found for each entry of a list is one value for each. -/
theorem Finds.exists_mapM_eq {f : α → Query β} {xs : List α} {T : List β → Prop}
    (h : (xs.mapM f).Finds st True T) (hf : ∀ x ∈ xs, (f x).SameIn st st) :
    ∃ ys, T ys ∧ List.Forall₂ (fun x y => (f x).Finds st True (· = y)) xs ys := by
  induction xs generalizing T with
  | nil =>
    have hnil : (Pure.pure [] : Query (List β)).Finds st True (· = []) := Finds.pure rfl
    obtain ⟨ys, hys, rfl⟩ := h.exists_both hnil
    exact ⟨[], hys, .nil⟩
  | cons x xs ih =>
    rw [List.mapM_cons] at h
    -- The loop does not fail, so neither does its first query, and each has one result.
    have hx : (f x).Finds st True fun _ => True :=
      h.of_bind fun _ => Query.finds_any.mono fun _ _ _ => trivial
    obtain ⟨y, -, hy⟩ := (hf x List.mem_cons_self).exists_eq hx
    have hrest : (xs.mapM f).Finds st True fun ys => T (y :: ys) :=
      (h.of_bind_eq hy).of_bind fun ys => Finds.pure id
    obtain ⟨ys, hys, hall⟩ := ih hrest fun x hx => hf x (List.mem_cons_of_mem _ hx)
    exact ⟨y :: ys, hys, .cons hy hall⟩

end Query

namespace ViewChange

variable {v : View} {c : ViewChange α} {f : α → ViewChange β} {R : α → View → Prop} {T : β → View → Prop}

/-- Through the view `v`, with the store open, a change gives something and a view for which `R` holds. It
succeeds and leaves the session as it is. -/
def Looks (c : ViewChange α) (st : Store) (v : View) (R : α → View → Prop) : Prop :=
  ∀ w s, s.Opens w st → ∃ a v', c.run.run (v, s) = (.ok a, v', s) ∧ R a v'

theorem Looks.mono (h : c.Looks st v R) {R' : α → View → Prop} (hR : ∀ a v', R a v' → R' a v') :
    c.Looks st v R' := by
  intro w s hs
  obtain ⟨a, v', hrun, ha⟩ := h w s hs
  exact ⟨a, v', hrun, hR a v' ha⟩

theorem Looks.pure {a : α} (h : R a v) : (pure a : ViewChange α).Looks st v R :=
  fun _ _ _ => ⟨a, v, rfl, h⟩

theorem Looks.bind (hc : c.Looks st v R) (hf : ∀ a v', R a v' → (f a).Looks st v' T) :
    (c >>= f).Looks st v T := by
  intro w s hs
  obtain ⟨a, v', hrun, ha⟩ := hc w s hs
  rw [run_bind, hrun]
  exact hf a v' ha w s hs

theorem Looks.row {f : Row → ViewChange β} (hf : (f v.row).Looks st v T) : (row >>= f).Looks st v T := by
  intro w s hs
  have hrow : ViewChange.row.run.run (v, s) = (.ok v.row, v, s) := rfl
  rw [run_bind, hrow]
  exact hf w s hs

theorem Looks.query {q : Query α} {R : α → Prop} (hq : q.Finds st True R)
    (hf : ∀ a, R a → (f a).Looks st v T) : ((liftM q : ViewChange α) >>= f).Looks st v T := by
  intro w s hs
  obtain ⟨a, hrun, ha⟩ := hq.exists_run hs
  rw [run_query hrun]
  exact hf a ha w s hs

/-- What a query surely finds, with the view that it gives. -/
theorem Looks.through {q : Query β} {g : β → α × View} {c : View → Change (α × View)}
    (hc : c v = (liftM q : Change β) >>= fun b => Pure.pure (g b))
    (hq : q.Finds st True fun b => R (g b).1 (g b).2) : (through c).Looks st v R := by
  intro w s hs
  obtain ⟨b, hrun, hb⟩ := hq.exists_run hs
  have hc' : (c v).run s = (.ok (g b), s) := by
    rw [hc]
    exact Change.run_query hrun
  refine ⟨(g b).1, (g b).2, ?_, hb⟩
  simp only [ExceptT.run, StateT.run, ViewChange.through, ExceptT.mk] at hc' ⊢
  rw [hc']

/-- A look for each entry of a list, through the same view. -/
theorem Looks.mapM {f : α → ViewChange β} {T : α → β → Prop} {xs : List α}
    (hf : ∀ x ∈ xs, (f x).Looks st v fun y v' => T x y ∧ v' = v) :
    (xs.mapM f).Looks st v fun ys v' => List.Forall₂ T xs ys ∧ v' = v := by
  induction xs with
  | nil => exact Looks.pure ⟨.nil, rfl⟩
  | cons x xs ih =>
    rw [List.mapM_cons]
    refine (hf x List.mem_cons_self).bind ?_
    rintro y _ ⟨hy, rfl⟩
    refine (ih fun z hz => hf z (List.mem_cons_of_mem _ hz)).bind ?_
    rintro ys _ ⟨hys, rfl⟩
    exact Looks.pure ⟨.cons hy hys, rfl⟩

end ViewChange

end SoarProject
