import SoarProject.Proofs.Session.Effect

/-!
# What changes through a view give

Some changes surely succeed where a store is open that may be changed. What is said of them is the value, the
view that they leave, and the store.

* `ViewChange.Gives`: what a change through a view gives.
* `ViewChange.Gives.on`: the same as a change of the session.

For each way to build a change through a view there is one rule.
-/

namespace SoarProject

variable {α β : Type} {st : Store} {v : View}

namespace ViewChange

variable {c : ViewChange α} {f : α → ViewChange β} {Q : α → View → Store → Prop}
  {T : β → View → Store → Prop}

/-- Through the view `v`, with the store open, which may be changed, a change succeeds. It gives a value and
leaves a view and a store for which `Q` holds. -/
def Gives (c : ViewChange α) (st : Store) (v : View) (Q : α → View → Store → Prop) : Prop :=
  ∀ s : Session, s.Opens true st → ∃ a v' s' st',
    c.run.run (v, s) = (.ok a, v', s') ∧ s'.Opens true st' ∧ Q a v' st'

namespace Gives

theorem mono (h : c.Gives st v Q) {Q' : α → View → Store → Prop}
    (hQ : ∀ a v' st', Q a v' st' → Q' a v' st') : c.Gives st v Q' := by
  intro s hs
  obtain ⟨a, v', s', st', hrun, hs', ha⟩ := h s hs
  exact ⟨a, v', s', st', hrun, hs', hQ a v' st' ha⟩

theorem pure {a : α} (h : Q a v st) : (Pure.pure a : ViewChange α).Gives st v Q :=
  fun s hs => ⟨a, v, s, st, rfl, hs, h⟩

theorem bind (hc : c.Gives st v fun a v' st' => (f a).Gives st' v' T) : (c >>= f).Gives st v T := by
  intro s hs
  obtain ⟨a, v', s', st', hrun, hs', ha⟩ := hc s hs
  rw [run_bind, hrun]
  exact ha s' hs'

theorem row {f : Row → ViewChange β} (hf : (f v.row).Gives st v T) :
    (ViewChange.row >>= f).Gives st v T :=
  bind fun s hs => ⟨v.row, v, s, st, rfl, hs, hf⟩

theorem lift {c : Change α} (hc : c.Ends true st (Q · v) fun _ => False) :
    (liftM c : ViewChange α).Gives st v Q := by
  intro s hs
  obtain ⟨a, s', st', hrun, hs', ha⟩ := hc.exists_ok (fun _ hE => hE) hs
  have hlift : (liftM c : ViewChange α).run.run (v, s) =
      ((c.run.run s).1, v, (c.run.run s).2) := rfl
  exact ⟨a, v, s', st', by rw [hlift, hrun], hs', ha⟩

/-- A change that gives the view anew. -/
theorem through {c : View → Change (α × View)}
    (hc : (c v).Ends true st (fun p st' => Q p.1 p.2 st') fun _ => False) :
    (through c).Gives st v Q := by
  intro s hs
  obtain ⟨⟨a, v'⟩, s', st', hrun, hs', ha⟩ := hc.exists_ok (fun _ hE => hE) hs
  refine ⟨a, v', s', st', ?_, hs', ha⟩
  simp only [ExceptT.run, StateT.run, ViewChange.through, ExceptT.mk] at hrun ⊢
  rw [hrun]

theorem suppressing (hc : c.Gives st v Q) : (suppressing c).Gives st v Q := by
  intro s hs
  obtain ⟨a, v', s', st', hrun, hs', ha⟩ := hc _ (hs.withSuppressed true)
  refine ⟨a, v', { s' with suppressed := s.suppressed }, st', ?_, hs'.withSuppressed _, ha⟩
  simp only [ExceptT.run, StateT.run, ViewChange.suppressing, ExceptT.mk] at hrun ⊢
  rw [hrun]

theorem batch {event : EventKind} (hc : c.Gives st v Q) : (batch event c).Gives st v Q :=
  bind (hc.suppressing.mono fun _ _ _ ha => bind (lift (Change.Ends.announce (pure ha))))

theorem tryCatch {handler : Failure → ViewChange α} (hc : c.Gives st v Q) :
    (MonadExcept.tryCatch c handler).Gives st v Q := by
  intro s hs
  obtain ⟨a, v', s', st', hrun, hs', ha⟩ := hc s hs
  exact ⟨a, v', s', st', by rw [run_tryCatch, hrun], hs', ha⟩

/-- A failure after a change is caught, and what the change gave is kept. -/
theorem tryCatch_throw {c : ViewChange α} {e : Failure} {handler : Failure → ViewChange β}
    (hc : c.Gives st v fun _ v' st' => (handler e).Gives st' v' T) :
    (MonadExcept.tryCatch (c >>= fun _ => throw e) handler).Gives st v T := by
  intro s hs
  obtain ⟨a, v', s', st', hrun, hs', ha⟩ := hc s hs
  have hthrow : (c >>= fun _ => (throw e : ViewChange β)).run.run (v, s) = (.error e, v', s') := by
    rw [run_bind, hrun]
    rfl
  rw [run_tryCatch, hthrow]
  exact ha s' hs'

/-- What is done through a view is done to the session. -/
theorem on (hc : c.Gives st v Q) :
    (c.on v).Ends true st (fun p st' => Q p.1 p.2 st') fun _ => False := by
  intro s hs
  obtain ⟨a, v', s', st', hrun, hs', ha⟩ := hc s hs
  have hon : (ViewChange.on v c).run.run s = (.ok (a, v'), s') := by
    change ((c.run.run (v, s)).1.map (·, (c.run.run (v, s)).2.1), (c.run.run (v, s)).2.2) = _
    rw [hrun]
    rfl
  rw [hon]
  exact ⟨st', hs', ha⟩

end Gives

end ViewChange

end SoarProject
