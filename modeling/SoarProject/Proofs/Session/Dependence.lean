import SoarProject.Proofs.Session.Effect
import SoarProject.Row.Join

/-!
# What a query depends on

A query that looks only at a part of the store gives the same in two stores that agree in that part.

* `Query.SameIn q st st'`: the query `q` gives the same, or fails in the same way, whether the store `st`
  or the store `st'` is open.

For each way to build a query there is one rule.
-/

namespace SoarProject

variable {α β : Type} {w : Bool} {st st' : Store}

/-- A session has one store open. -/
theorem Session.Opens.store_unique {s : Session} (h : s.Opens w st) (h' : s.Opens w st') : st = st' :=
  Except.ok.inj (h.store_eq.symm.trans h'.store_eq)

namespace Query

/-- A query gives the same, or fails in the same way, whichever of two stores is open. -/
def SameIn (q : Query α) (st st' : Store) : Prop :=
  ∀ w s w' s', s.Opens w st → s'.Opens w' st' → q.run s = q.run s'

variable {q : Query α} {R : α → Prop}

/-- What is surely found in both stores is the same. -/
theorem SameIn.of_finds {a : α} (h : q.Finds st True (· = a)) (h' : q.Finds st' True (· = a)) :
    q.SameIn st st' := by
  intro w s w' s' hs hs'
  have hfound := h w s hs
  have hfound' := h' w' s' hs'
  cases hrun : q.run s with
  | error e => simp [hrun] at hfound
  | ok b =>
    cases hrun' : q.run s' with
    | error e => simp [hrun'] at hfound'
    | ok b' =>
      simp only [hrun, hrun'] at hfound hfound'
      rw [hfound, hfound']

theorem SameIn.pure {a : α} : (pure a : Query α).SameIn st st' := fun _ _ _ _ _ _ => rfl

theorem SameIn.throw {e : Failure} : (throw e : Query α).SameIn st st' := fun _ _ _ _ _ _ => rfl

theorem SameIn.bind {f : α → Query β} (hq : q.SameIn st st') (hR : q.Finds st False R)
    (hf : ∀ a, R a → (f a).SameIn st st') : (q >>= f).SameIn st st' := by
  intro w s w' s' hs hs'
  have hrun : ∀ s, (q >>= f).run s = q.run s >>= fun a => (f a).run s := fun _ => rfl
  rw [hrun, hrun, ← hq w s w' s' hs hs']
  cases hresult : q.run s with
  | error e => rfl
  | ok a => exact hf a (hR.of_run hs hresult) w s w' s' hs hs'

/-- One query after another, whatever the first one finds. -/
theorem SameIn.bind_any {f : α → Query β} (hq : q.SameIn st st') (hf : ∀ a, (f a).SameIn st st') :
    (q >>= f).SameIn st st' :=
  hq.bind finds_any fun a _ => hf a

theorem SameIn.registry {f : Registry → Query β} (hf : (f Registry.project).SameIn st st') :
    (Query.registry >>= f).SameIn st st' := by
  intro w s w' s' hs hs'
  have hrun : ∀ s, (Query.registry >>= f).run s = (f s.registry).run s := fun _ => rfl
  rw [hrun, hrun, hs.registry_eq, hs'.registry_eq]
  exact hf w s w' s' hs hs'

theorem SameIn.ask {f : Store → Except Failure α} (h : f st = f st') : (ask f).SameIn st st' := by
  intro w s w' s' hs hs'
  have hrun : ∀ s, (Query.ask f).run s = s.store >>= f := fun _ => rfl
  rw [hrun, hrun, hs.store_eq, hs'.store_eq]
  exact h

theorem SameIn.orDefault {d : α} (hq : q.SameIn st st') : (q.orDefault d).SameIn st st' := by
  intro w s w' s' hs hs'
  have hsame : q s = q s' := hq w s w' s' hs hs'
  simp only [ReaderT.run, Query.orDefault, hsame]

/-- A query for each entry of a list. -/
theorem SameIn.mapM {f : α → Query β} {xs : List α} (hf : ∀ x ∈ xs, (f x).SameIn st st') :
    (xs.mapM f).SameIn st st' := by
  induction xs with
  | nil => exact SameIn.pure
  | cons x xs ih =>
    rw [List.mapM_cons]
    refine (hf x List.mem_cons_self).bind_any fun y => ?_
    exact (ih fun z hz => hf z (List.mem_cons_of_mem _ hz)).bind_any fun ys => SameIn.pure

/-! ### One relation -/

/-- The pairs of a relation that is the same in both stores. -/
theorem SameIn.pairsWhere {n : RelationName} (h : st'.find? n = st.find? n) (keys : List Cell)
    (p : CellPair → Bool) : (Query.pairsWhere n keys p).SameIn st st' :=
  .ask (by rw [Store.pairs, Store.pairs, Store.relation, Store.relation, h])

/-- A record of a relation that is the same in both stores. -/
theorem SameIn.recordsWhere {t : Table} (h : st'.find? (.entity t) = st.find? (.entity t))
    (used : List String) (column : String) (key : Cell) :
    (Query.ask (·.recordsWhere t used column key)).SameIn st st' :=
  .ask (by rw [Store.recordsWhere, Store.recordsWhere, Store.records, Store.records, Store.relation,
    Store.relation, h])

/-- The record of a row. -/
theorem SameIn.record? {r : Row} (h : st'.find? (.entity r.table) = st.find? (.entity r.table))
    (used : List String) : (r.record? used).SameIn st st' :=
  .bind_any (.recordsWhere h _ _ _) fun _ => .pure

end Query

end SoarProject
