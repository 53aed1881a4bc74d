import Mathlib.Data.List.Forall2
import SoarProject.Row.Basic
import SoarProject.Schema.Project

/-!
# Effects of queries and changes

What a query finds and where a change ends, stated on the open store alone: neither depends on where
the store is kept or on events.

* `Query.Finds q st sure R`: with the store `st` open, `q` finds something for which `R` holds; it may
  fail unless `sure`.
* `Change.Ends c w st Q E`: with the store `st` open, which may be changed if `w`, the change `c` gives
  a value and a store for which `Q` holds, or fails and leaves a store for which `E` holds.
* `ViewChange.Ends` is the same for what is done through a view of a row.

For each way to build a query or a change there is one rule.
-/

namespace SoarProject

variable {α β : Type} {w : Bool} {st : Store}

namespace Session

/-- A session that follows the registry of a project has a store open, which may be changed if `w`. -/
structure Opens (s : Session) (w : Bool) (st : Store) : Prop where
  registry_eq : s.registry = Registry.project
  isWritable_eq : s.isWritable = w
  store_eq : s.store = .ok st

/-- Where a store is open, one that is put in its place is the open one. -/
theorem store_setStore {s : Session} (h : s.store = .ok st) (st' : Store) :
    (s.setStore st').store = .ok st' := by
  unfold Session.store at h
  unfold Session.setStore
  split at h
  · cases h
  · simp [Session.store, *]
  · next name hconnection =>
    simp [Session.store, hconnection, Disk.writeShared, Disk.putShared, Disk.sharedStore]
  · next name hconnection =>
    simp [Session.store, hconnection, Disk.write, Disk.store?, Disk.contents?]

/-- Putting a store in place keeps the registry. -/
theorem registry_setStore (s : Session) (st' : Store) : (s.setStore st').registry = s.registry := by
  unfold Session.setStore
  split <;> rfl

/-- Putting a store in place does not change whether it may be changed. -/
theorem isWritable_setStore (s : Session) (st' : Store) :
    (s.setStore st').isWritable = s.isWritable := by
  unfold Session.setStore
  split <;> rfl

theorem Opens.setStore {s : Session} (h : s.Opens w st) (st' : Store) :
    (s.setStore st').Opens w st' where
  registry_eq := (s.registry_setStore st').trans h.registry_eq
  isWritable_eq := (s.isWritable_setStore st').trans h.isWritable_eq
  store_eq := store_setStore h.store_eq st'

theorem Opens.announce {s : Session} (h : s.Opens w st) (event : EventKind) :
    (s.announce event).Opens w st := by
  unfold Session.announce
  split
  · exact h
  · exact ⟨h.registry_eq, h.isWritable_eq, h.store_eq⟩

/-- Suppressing events leaves the store as it is. -/
theorem Opens.withSuppressed {s : Session} (h : s.Opens w st) (on : Bool) :
    { s with suppressed := on }.Opens w st :=
  ⟨h.registry_eq, h.isWritable_eq, h.store_eq⟩

theorem Opens.size_eq {s : Session} (h : s.Opens w st) : s.size = st.size := by
  simp [Session.size, h.store_eq, Except.toOption]

end Session

/-! ### Queries -/

/-- Of two lists that are related entry by entry, each has a related entry for every one of the other. -/
theorem mem_of_forall₂ {R : α → β → Prop} {xs : List α} {ys : List β} (h : List.Forall₂ R xs ys) :
    (∀ x ∈ xs, ∃ y ∈ ys, R x y) ∧ ∀ y ∈ ys, ∃ x ∈ xs, R x y := by
  induction h with
  | nil => simp
  | cons hxy _ ih =>
    obtain ⟨hleft, hright⟩ := ih
    constructor
    · intro x hx
      rcases List.mem_cons.mp hx with rfl | hx
      · exact ⟨_, List.mem_cons_self, hxy⟩
      · obtain ⟨y, hy, hT⟩ := hleft x hx
        exact ⟨y, List.mem_cons_of_mem _ hy, hT⟩
    · intro y hy
      rcases List.mem_cons.mp hy with rfl | hy
      · exact ⟨_, List.mem_cons_self, hxy⟩
      · obtain ⟨x, hx, hT⟩ := hright y hy
        exact ⟨x, List.mem_cons_of_mem _ hx, hT⟩

namespace Query

/-- With the store open, a query finds something for which `R` holds; it may fail unless `sure`. -/
def Finds (q : Query α) (st : Store) (sure : Prop) (R : α → Prop) : Prop :=
  ∀ w s, s.Opens w st → match q.run s with
    | .ok a => R a
    | .error _ => ¬ sure

variable {sure : Prop} {R : α → Prop} {T : β → Prop} {q : Query α}

/-- What a query gives in one session is something that it finds. -/
theorem Finds.of_run (h : q.Finds st sure R) {s : Session} (hs : s.Opens w st) {a : α}
    (hrun : q.run s = .ok a) : R a := by
  have := h w s hs
  rwa [hrun] at this

theorem Finds.mono (h : q.Finds st sure R) {R' : α → Prop} (hR : ∀ a, R a → R' a) :
    q.Finds st sure R' := by
  intro w s hs
  have := h w s hs
  split at this <;> simp_all

/-- A query that is surer than needed. -/
theorem Finds.mono_sure (h : q.Finds st sure R) {sure' : Prop} (hsure : sure' → sure) :
    q.Finds st sure' R := by
  intro w s hs
  have := h w s hs
  split at this
  · next heq => simpa [heq] using this
  · next heq => simpa [heq] using mt hsure this

/-- What is surely found is also what is found otherwise. -/
theorem Finds.exists_both (h : q.Finds st True R) {R' : α → Prop} (h' : q.Finds st sure R') :
    ∃ a, R a ∧ R' a := by
  let s : Session := { registry := .project, connection := .memory st }
  have hs : s.Opens s.isWritable st := ⟨rfl, rfl, rfl⟩
  have hfound := h _ s hs
  cases hrun : q.run s with
  | error e => simp [hrun] at hfound
  | ok a =>
    rw [hrun] at hfound
    exact ⟨a, hfound, h'.of_run hs hrun⟩

/-- Every query finds something, if it does not fail. -/
theorem finds_any : q.Finds st False fun _ => True := by
  intro w s hs
  split
  · trivial
  · exact not_false

theorem Finds.pure {a : α} (h : R a) : (pure a : Query α).Finds st sure R :=
  fun _ _ _ => h

theorem Finds.throw {e : Failure} (h : ¬ sure) : (throw e : Query α).Finds st sure R :=
  fun _ _ _ => h

theorem run_bind_ok {s : Session} {a : α} {f : α → Query β} (hq : q.run s = .ok a) :
    (q >>= f).run s = (f a).run s := by
  rw [ReaderT.run_bind, hq]
  rfl

theorem run_bind_error {s : Session} {e : Failure} {f : α → Query β} (hq : q.run s = .error e) :
    (q >>= f).run s = .error e := by
  rw [ReaderT.run_bind, hq]
  rfl

theorem run_bind_eq_ok_iff {s : Session} {f : α → Query β} {b : β} :
    (q >>= f).run s = .ok b ↔ ∃ a, q.run s = .ok a ∧ (f a).run s = .ok b := by
  cases hq : q.run s with
  | error e => simp [run_bind_error hq]
  | ok a => simp [run_bind_ok hq]

/-- A query for each entry of a list gives a value just if all of them do. -/
theorem run_mapM_eq_ok_iff {s : Session} {f : α → Query β} {xs : List α} {ys : List β} :
    (xs.mapM f).run s = .ok ys ↔ List.Forall₂ (fun x y => (f x).run s = .ok y) xs ys := by
  induction xs generalizing ys with
  | nil =>
    rw [List.mapM_nil, List.forall₂_nil_left_iff]
    exact ⟨fun h => (Except.ok.inj h).symm, fun h => h ▸ rfl⟩
  | cons x xs ih =>
    simp only [List.mapM_cons, run_bind_eq_ok_iff, ih, List.forall₂_cons_left_iff]
    constructor
    · rintro ⟨y, hy, rest, hrest, heq⟩
      exact ⟨y, rest, hy, hrest, (Except.ok.inj heq).symm⟩
    · rintro ⟨y, rest, hy, hrest, rfl⟩
      exact ⟨y, hy, rest, hrest, rfl⟩

/-- Lists that are found for the entries of a list, put together. -/
theorem run_flatten_eq_ok_iff {s : Session} {g : α → Query (List β)} {xs : List α} {zs : List β} :
    (do return (← xs.mapM g).flatten : Query (List β)).run s = .ok zs ↔
      ∃ lists, List.Forall₂ (fun x list => (g x).run s = .ok list) xs lists ∧ zs = lists.flatten := by
  rw [run_bind_eq_ok_iff]
  simp only [run_mapM_eq_ok_iff]
  refine exists_congr fun lists => and_congr_right fun _ => ?_
  exact ⟨fun h => (Except.ok.inj h).symm, fun h => h ▸ rfl⟩

/-- Lists are found and put together just if a list is found for each entry. -/
theorem exists_run_flatten_iff {s : Session} {g : α → Query (List β)} {xs : List α} :
    (∃ zs, (do return (← xs.mapM g).flatten : Query (List β)).run s = .ok zs) ↔
      ∀ x ∈ xs, ∃ list, (g x).run s = .ok list := by
  simp only [run_flatten_eq_ok_iff]
  constructor
  · rintro ⟨_, lists, hlists, -⟩ x hx
    obtain ⟨list, -, hlist⟩ := (mem_of_forall₂ hlists).1 x hx
    exact ⟨list, hlist⟩
  · intro h
    choose! list hlist using h
    refine ⟨_, xs.map list, List.forall₂_map_right_iff.mpr ?_, rfl⟩
    exact List.forall₂_same.mpr hlist

/-- One query after another. -/
theorem Finds.bind {f : α → Query β} (hq : q.Finds st sure R)
    (hf : ∀ a, R a → (f a).Finds st sure T) : (q >>= f).Finds st sure T := by
  intro w s hs
  have hfirst := hq w s hs
  have hrun : (q >>= f).run s = q.run s >>= fun a => (f a).run s := rfl
  rw [hrun]
  cases hresult : q.run s with
  | error e =>
    rw [hresult] at hfirst
    exact hfirst
  | ok a =>
    rw [hresult] at hfirst
    exact hf a hfirst w s hs

theorem Finds.map {f : α → β} (hq : q.Finds st sure fun a => T (f a)) : (f <$> q).Finds st sure T :=
  hq.bind fun _ ha => Finds.pure ha

/-- The registry is that of a project. -/
theorem finds_registry {R : Registry → Prop} (h : R Registry.project) :
    registry.Finds st sure R := by
  intro w s hs
  change R s.registry
  rwa [hs.registry_eq]

theorem Finds.registry {f : Registry → Query β} (hf : (f Registry.project).Finds st sure T) :
    (Query.registry >>= f).Finds st sure T := by
  intro w s hs
  have hrun : (Query.registry >>= f).run s = (f s.registry).run s := rfl
  rw [hrun, hs.registry_eq]
  exact hf w s hs

/-- The open store is found. -/
theorem finds_store {R : Store → Prop} (h : R st) : store.Finds st sure R := by
  intro w s hs
  have hrun : store.run s = s.store := rfl
  rw [hrun, hs.store_eq]
  exact h

theorem Finds.read {f : Session → Query β}
    (hf : ∀ w s, s.Opens w st → (f s).Finds st sure T) : (read >>= f).Finds st sure T :=
  fun w s hs => hf w s hs w s hs

/-- What is asked of the open store. -/
theorem finds_ask {f : Store → Except Failure α} {R : α → Prop}
    (hok : ∀ a, f st = .ok a → R a) (herror : ∀ e, f st = .error e → ¬ sure) :
    (ask f).Finds st sure R := by
  intro w s hs
  have hrun : (ask f).run s = s.store >>= f := rfl
  rw [hrun, hs.store_eq]
  change match f st with | .ok a => R a | .error _ => ¬ sure
  split
  · next h => exact hok _ h
  · next h => exact herror _ h

/-- A default is of no use where the store reports no error. -/
theorem Finds.orDefault {d : α} (hq : q.Finds st sure R)
    (hstorage : ∀ w s e, s.Opens w st → q.run s ≠ .error (.storage e)) :
    (q.orDefault d).Finds st sure R := by
  intro w s hs
  have hfound := hq w s hs
  have hnone := fun e => hstorage w s e hs
  -- The default is given only for a failure of the store.
  have hrun : (∀ e, q.run s ≠ .error (.storage e)) → (q.orDefault d).run s = q.run s := by
    simp only [ReaderT.run, Query.orDefault]
    intro hother
    split
    · next e hresult => exact absurd hresult (hother e)
    · rfl
  rw [hrun hnone]
  exact hfound

/-- A query with a default is as sure as the query. -/
theorem Finds.orDefault_any {d : α} (hq : q.Finds st sure R) :
    (q.orDefault d).Finds st sure fun _ => True := by
  intro w s hs
  have hfound := hq w s hs
  simp only [ReaderT.run, Query.orDefault] at hfound ⊢
  cases hresult : q s with
  | ok a => trivial
  | error e =>
    rw [hresult] at hfound
    cases e with
    | storage e => trivial
    | _ => exact hfound

/-- A query for each entry of a list. -/
theorem Finds.mapM {f : α → Query β} {T : α → β → Prop} {xs : List α}
    (hf : ∀ x ∈ xs, (f x).Finds st sure (T x)) :
    (xs.mapM f).Finds st sure fun ys => List.Forall₂ T xs ys := by
  induction xs with
  | nil => exact Finds.pure .nil
  | cons x xs ih =>
    rw [List.mapM_cons]
    refine (hf x (by simp)).bind fun y hy => ?_
    refine (ih fun z hz => hf z (by simp [hz])).bind fun ys hys => ?_
    exact Finds.pure (.cons hy hys)

theorem Finds.mapM_eq {f : α → Query β} {g : α → β} {xs : List α}
    (hf : ∀ x ∈ xs, (f x).Finds st sure (· = g x)) :
    (xs.mapM f).Finds st sure (· = xs.map g) := by
  refine (Finds.mapM hf).mono fun ys hys => ?_
  rw [← List.forall₂_eq_eq_eq, List.forall₂_map_right_iff]
  exact hys.flip

theorem Finds.mapM_mem {f : α → Query β} {T : α → β → Prop} {xs : List α}
    (hf : ∀ x ∈ xs, (f x).Finds st sure (T x)) :
    (xs.mapM f).Finds st sure fun ys =>
      (∀ x ∈ xs, ∃ y ∈ ys, T x y) ∧ ∀ y ∈ ys, ∃ x ∈ xs, T x y :=
  (Finds.mapM hf).mono fun _ hys => mem_of_forall₂ hys

/-- The entries of a list for which a query finds that a condition holds, in their order. -/
theorem Finds.filterM_eq {f : α → Query Bool} {p : α → Bool} {xs : List α}
    (hf : ∀ x ∈ xs, (f x).Finds st sure (· = p x)) : (xs.filterM f).Finds st sure (· = xs.filter p) := by
  -- The accumulator holds what was kept so far, last one first.
  have haux : ∀ kept, (List.filterAuxM f xs kept).Finds st sure (· = (xs.filter p).reverse ++ kept) := by
    induction xs with
    | nil => exact fun kept => Finds.pure rfl
    | cons x xs ih =>
      intro kept
      rw [List.filterAuxM]
      refine (hf x List.mem_cons_self).bind fun found hfound => ?_
      refine (ih (fun y hy => hf y (List.mem_cons_of_mem _ hy)) _).mono fun ys hys => ?_
      rw [hys, hfound]
      cases hx : p x with
      | true => simp [hx]
      | false => simp [hx]
  refine (haux []).bind fun ys hys => Finds.pure ?_
  rw [hys, List.append_nil, List.reverse_reverse]

/-- The entries of a list for which a query finds that `P` holds. -/
theorem Finds.filterM {f : α → Query Bool} {P : α → Prop} {xs : List α}
    (hf : ∀ x ∈ xs, (f x).Finds st sure fun found => found = true ↔ P x) :
    (xs.filterM f).Finds st sure fun ys => ∀ x, x ∈ ys ↔ x ∈ xs ∧ P x := by
  classical
  have hdecide : ∀ x ∈ xs, (f x).Finds st sure (· = decide (P x)) := by
    intro x hx
    refine (hf x hx).mono fun found hfound => ?_
    rw [Bool.eq_iff_iff, hfound, decide_eq_true_iff]
  refine (Finds.filterM_eq hdecide).mono fun ys hys x => ?_
  rw [hys, List.mem_filter, decide_eq_true_iff]

/-- Whether a query finds that `P` holds for an entry of a list. -/
theorem Finds.anyM {f : α → Query Bool} {P : α → Prop} {xs : List α}
    (hf : ∀ x ∈ xs, (f x).Finds st sure fun found => found = true ↔ P x) :
    (xs.anyM f).Finds st sure fun found => found = true ↔ ∃ x ∈ xs, P x := by
  induction xs with
  | nil => exact Finds.pure (by simp)
  | cons x xs ih =>
    rw [List.anyM]
    refine (hf x (by simp)).bind fun found hfound => ?_
    cases found with
    | true => exact Finds.pure (by simp [hfound.mp rfl])
    | false =>
      have hx : ¬ P x := fun hP => Bool.false_ne_true (hfound.mpr hP)
      exact (ih fun z hz => hf z (by simp [hz])).mono fun b hb => by simp [hb, hx]

end Query

/-! ### Steps of a session -/

/-- With the store open, a step ends with a result and a store for which `Q` holds. -/
def Session.Leads (m : StateM Session α) (w : Bool) (st : Store) (Q : α → Store → Prop) : Prop :=
  ∀ s, s.Opens w st → ∃ st', (m.run s).2.Opens w st' ∧ Q (m.run s).1 st'

namespace Session.Leads

variable {m : StateM Session α} {Q : α → Store → Prop} {T : β → Store → Prop}

theorem mono (h : Leads m w st Q) {Q' : α → Store → Prop} (hQ : ∀ a st', Q a st' → Q' a st') :
    Leads m w st Q' := by
  intro s hs
  obtain ⟨st', hst', hq⟩ := h s hs
  exact ⟨st', hst', hQ _ _ hq⟩

theorem pure {a : α} (h : Q a st) : Leads (pure a) w st Q := fun _ hs => ⟨st, hs, h⟩

theorem bind {f : α → StateM Session β} (hm : Leads m w st fun a st' => Leads (f a) w st' T) :
    Leads (m >>= f) w st T := by
  intro s hs
  obtain ⟨st', hst', hf⟩ := hm s hs
  exact hf _ hst'

end Session.Leads

/-! ### Changes -/

namespace Change

/-- With the store open, a change gives a value and a store for which `Q` holds, or fails and leaves a
store for which `E` holds. -/
def Ends (c : Change α) (w : Bool) (st : Store) (Q : α → Store → Prop) (E : Store → Prop) : Prop :=
  Session.Leads c.run w st fun r st' => match r with
    | .ok a => Q a st'
    | .error _ => E st'

variable {c : Change α} {Q : α → Store → Prop} {T : β → Store → Prop} {E : Store → Prop}

theorem Ends.mono (h : c.Ends w st Q E) {Q' : α → Store → Prop} {E' : Store → Prop}
    (hQ : ∀ a st', Q a st' → Q' a st') (hE : ∀ st', E st' → E' st') : c.Ends w st Q' E' := by
  refine Session.Leads.mono h fun r st' hr => ?_
  cases r with
  | ok a => exact hQ a st' hr
  | error e => exact hE st' hr

/-- A change that cannot fail gives a value. -/
theorem Ends.exists_ok (h : c.Ends w st Q E) (hE : ∀ st', ¬ E st') {s : Session}
    (hs : s.Opens w st) :
    ∃ a s' st', c.run.run s = (.ok a, s') ∧ s'.Opens w st' ∧ Q a st' := by
  obtain ⟨st', hst', hr⟩ := h s hs
  cases hrun : (c.run.run s).1 with
  | error e =>
    rw [hrun] at hr
    exact absurd hr (hE st')
  | ok a =>
    rw [hrun] at hr
    exact ⟨a, (c.run.run s).2, st', Prod.ext hrun rfl, hst', hr⟩

theorem Ends.pure {a : α} (h : Q a st) : (pure a : Change α).Ends w st Q E := Session.Leads.pure h

theorem Ends.throw {e : Failure} (h : E st) : (throw e : Change α).Ends w st Q E :=
  fun _ hs => ⟨st, hs, h⟩

theorem Ends.bind {f : α → Change β} (hc : c.Ends w st (fun a st' => (f a).Ends w st' T E) E) :
    (c >>= f).Ends w st T E := by
  unfold Ends
  rw [ExceptT.run_bind]
  refine Session.Leads.bind (Session.Leads.mono hc fun r st' hr => ?_)
  cases r with
  | ok a => exact hr
  | error e => exact Session.Leads.pure hr

/-- What a query finds, before a change. -/
theorem Ends.query {sure : Prop} {R : α → Prop} {q : Query α} {f : α → Change β}
    (hq : q.Finds st sure R) (hf : ∀ a, R a → (f a).Ends w st T E) (hE : ¬ sure → E st) :
    ((liftM q : Change α) >>= f).Ends w st T E := by
  refine Ends.bind fun s hs => ?_
  have hfound := hq w s hs
  -- A query leaves the session as it was.
  have hrun : (liftM q : Change α).run.run s = (q.run s, s) := rfl
  rw [hrun]
  refine ⟨st, hs, ?_⟩
  cases hresult : q.run s with
  | ok a =>
    rw [hresult] at hfound
    exact hf a hfound
  | error e =>
    rw [hresult] at hfound
    exact hE hfound

theorem run_bind {s s' : Session} {a : α} {f : α → Change β} (hc : c.run.run s = (.ok a, s')) :
    (c >>= f).run.run s = (f a).run.run s' := by
  rw [ExceptT.run_bind, StateT.run_bind, hc]
  rfl

theorem run_bind_error {s s' : Session} {e : Failure} {f : α → Change β}
    (hc : c.run.run s = (.error e, s')) : (c >>= f).run.run s = (.error e, s') := by
  rw [ExceptT.run_bind, StateT.run_bind, hc]
  rfl

/-- A query that gives a value, before a change. -/
theorem run_query {q : Query α} {s : Session} {a : α} {f : α → Change β} (hq : q.run s = .ok a) :
    ((liftM q : Change α) >>= f).run.run s = (f a).run.run s :=
  run_bind (show (q.run s, s) = _ by rw [hq])

theorem run_query_error {q : Query α} {s : Session} {e : Failure} {f : α → Change β}
    (hq : q.run s = .error e) : ((liftM q : Change α) >>= f).run.run s = (.error e, s) :=
  run_bind_error (show (q.run s, s) = _ by rw [hq])

theorem Ends.step {m : StateM Session α} (hm : Session.Leads m w st Q) :
    (liftM m : Change α).Ends w st Q E := hm

/-- Queries in a row are one query before a change. -/
theorem liftM_bind (q : Query α) (f : α → Query β) :
    (liftM (q >>= f) : Change β) = (liftM q : Change α) >>= fun a => liftM (f a) := by
  funext s
  change ((q >>= f).run s, s) = ((liftM q : Change α) >>= fun a => liftM (f a)).run.run s
  have hrun : (liftM q : Change α).run.run s = (q.run s, s) := rfl
  rw [ExceptT.run_bind, StateT.run_bind, hrun, ReaderT.run_bind]
  cases q.run s with
  | ok a => rfl
  | error e => rfl

/-- The entries of a list that a query selects, found before a change. -/
theorem liftM_filterM {f : α → Query Bool} {xs : List α} :
    (liftM (xs.filterM f) : Change (List α)) = xs.filterM fun x => liftM (f x) := by
  have haux : ∀ kept, (liftM (List.filterAuxM f xs kept) : Change (List α)) =
      List.filterAuxM (fun x => liftM (f x)) xs kept := by
    induction xs with
    | nil => exact fun kept => rfl
    | cons x xs ih =>
      intro kept
      rw [List.filterAuxM, List.filterAuxM, liftM_bind]
      exact bind_congr fun b => ih _
  rw [List.filterM, List.filterM, liftM_bind, haux]
  rfl

theorem Ends.get {f : Session → Change β} (hf : ∀ s, s.Opens w st → (f s).Ends w st T E) :
    (get >>= f).Ends w st T E :=
  fun s hs => hf s hs s hs

theorem Ends.registry {f : Registry → Change β} (hf : (f Registry.project).Ends w st T E) :
    ((liftM Query.registry : Change Registry) >>= f).Ends w st T E := by
  have hregistry : Query.registry.Finds st True (· = Registry.project) := Query.finds_registry rfl
  refine Ends.query hregistry ?_ fun h => absurd trivial h
  rintro _ rfl
  exact hf

/-- A result that does not depend on the session. -/
theorem Ends.ofExcept {r : Except Failure α} (hok : ∀ a, r = .ok a → Q a st)
    (herror : ∀ e, r = .error e → E st) : (ofExcept r).Ends w st Q E := by
  intro s hs
  refine ⟨st, hs, ?_⟩
  cases r with
  | ok a => exact hok a rfl
  | error e => exact herror e rfl

theorem Ends.announce {Q : Unit → Store → Prop} {event : EventKind} (h : Q () st) :
    (announce event).Ends w st Q E :=
  fun _ hs => ⟨st, hs.announce event, h⟩

theorem Ends.setStore {Q : Unit → Store → Prop} {st' : Store} (h : Q () st') :
    (modify (·.setStore st') : Change Unit).Ends w st Q E :=
  fun _ hs => ⟨st', hs.setStore st', h⟩

/-- Statements end with the store that they give, unless they fail or nothing may be changed. -/
theorem Ends.mutate {f : Store → Except Failure (Store × α)}
    (hok : ∀ st' a, w = true → f st = .ok (st', a) → Q a st')
    (herror : w = false ∨ (∃ e, f st = .error e) → E st) : (mutate f).Ends w st Q E := by
  have hstore : Query.store.Finds st True (st = ·) := Query.finds_store rfl
  unfold Change.mutate Change.alter
  refine Ends.bind (Ends.query hstore ?_ fun h => absurd trivial h)
  rintro _ rfl
  refine Ends.get fun s hs => ?_
  rw [hs.isWritable_eq]
  cases hresult : f st with
  | error e =>
    -- The function refuses, whether or not writing is allowed.
    have hE := herror (Or.inr ⟨e, hresult⟩)
    simp only
    split
    · exact Ends.bind (Ends.throw hE)
    · exact Ends.bind (Ends.ofExcept (by simp) fun _ _ => hE)
  | ok r =>
    simp only [Bool.and_true]
    split
    · next hrefused => exact Ends.bind (Ends.throw (herror (Or.inl (by simpa using hrefused))))
    · next hallowed =>
      -- It returns a store, which is put back before the event.
      have hq := hok r.1 r.2 (by simpa using hallowed) hresult
      refine Ends.bind (Ends.ofExcept ?_ (by simp))
      rintro _ ⟨⟩
      exact Ends.bind (Ends.setStore (Ends.pure (Ends.bind (Ends.announce (Ends.pure hq)))))

theorem Ends.suppressing (hc : c.Ends w st Q E) : (suppressing c).Ends w st Q E := by
  intro s hs
  obtain ⟨st', hst', hq⟩ := hc _ (hs.withSuppressed true)
  exact ⟨st', hst'.withSuppressed _, hq⟩

theorem Ends.batch {event : EventKind} (hc : c.Ends w st Q E) : (batch event c).Ends w st Q E := by
  refine Ends.bind (hc.suppressing.mono (fun a st' h => ?_) fun _ h => h)
  exact Ends.bind (Ends.announce (Ends.pure h))

/-- A change for each entry of a list. `I` holds while some entries remain. -/
theorem Ends.forM {f : α → Change Unit} (I : List α → Store → Prop) {xs : List α}
    (hf : ∀ x rest st', I (x :: rest) st' → (f x).Ends w st' (fun _ => I rest) E) (h : I xs st) :
    (xs.forM f).Ends w st (fun _ => I []) E := by
  induction xs generalizing st with
  | nil => exact Ends.pure h
  | cons x xs ih =>
    change (f x >>= fun _ => xs.forM f).Ends w st (fun _ => I []) E
    exact Ends.bind ((hf x xs st h).mono (fun _ _ hrest => ih hrest) fun _ h => h)

/-- A change for each entry of a list, where `J` holds before and after each. -/
theorem Ends.forM_mem {f : α → Change Unit} {J : Store → Prop} {xs : List α}
    (hf : ∀ x ∈ xs, ∀ st', J st' → (f x).Ends w st' (fun _ => J) E) (h : J st) :
    (xs.forM f).Ends w st (fun _ => J) E := by
  let I (rest : List α) (st' : Store) : Prop := rest ⊆ xs ∧ J st'
  refine (Ends.forM I ?_ ⟨List.Subset.refl _, h⟩).mono (fun _ _ hI => hI.2) fun _ hE => hE
  rintro x rest st' ⟨hsubset, hJ⟩
  exact (hf x (hsubset List.mem_cons_self) st' hJ).mono
    (fun _ _ hJ' => ⟨fun y hy => hsubset (List.mem_cons_of_mem _ hy), hJ'⟩) fun _ hE => hE

/-- A fold of changes over a list. `I` holds while some entries remain. -/
theorem Ends.foldlM {f : β → α → Change β} (I : β → List α → Store → Prop) {xs : List α} {b : β}
    (hf : ∀ b x rest st', I b (x :: rest) st' → (f b x).Ends w st' (fun b => I b rest) E)
    (h : I b xs st) : (xs.foldlM f b).Ends w st (fun b => I b []) E := by
  induction xs generalizing b st with
  | nil => exact Ends.pure h
  | cons x xs ih =>
    rw [List.foldlM_cons]
    exact Ends.bind ((hf b x xs st h).mono (fun _ _ hrest => ih hrest) fun _ h => h)

end Change

/-! ### Changes through a view -/

namespace ViewChange

/-- Through a view of the row `r`, with the store open, a change gives a value and a store for which `Q`
holds, or fails and leaves a store for which `E` holds. The view stays one of `r`. -/
def Ends (c : ViewChange α) (w : Bool) (st : Store) (r : Row) (Q : α → Store → Prop)
    (E : Store → Prop) : Prop :=
  ∀ v s, v.row = r → s.Opens w st →
    (c.run.run (v, s)).2.1.row = r ∧ ∃ st', (c.run.run (v, s)).2.2.Opens w st' ∧
      match (c.run.run (v, s)).1 with
      | .ok a => Q a st'
      | .error _ => E st'

variable {r : Row} {c : ViewChange α} {Q : α → Store → Prop} {T : β → Store → Prop}
  {E : Store → Prop}

/-- A change that says more says less. -/
theorem Ends.mono (h : c.Ends w st r Q E) {Q' : α → Store → Prop} {E' : Store → Prop}
    (hQ : ∀ a st', Q a st' → Q' a st') (hE : ∀ st', E st' → E' st') : c.Ends w st r Q' E' := by
  intro v s hv hs
  obtain ⟨hrow, st', hst', hr⟩ := h v s hv hs
  refine ⟨hrow, st', hst', ?_⟩
  cases hresult : (c.run.run (v, s)).1 with
  | ok a =>
    rw [hresult] at hr
    exact hQ a st' hr
  | error e =>
    rw [hresult] at hr
    exact hE st' hr

theorem Ends.pure {a : α} (h : Q a st) : (pure a : ViewChange α).Ends w st r Q E :=
  fun _ _ hv hs => ⟨hv, st, hs, h⟩

theorem Ends.throw {e : Failure} (h : E st) : (throw e : ViewChange α).Ends w st r Q E :=
  fun _ _ hv hs => ⟨hv, st, hs, h⟩

/-- One change after another. -/
theorem Ends.bind {f : α → ViewChange β}
    (hc : c.Ends w st r (fun a st' => (f a).Ends w st' r T E) E) : (c >>= f).Ends w st r T E := by
  intro v s hv hs
  obtain ⟨hrow, st', hst', hr⟩ := hc v s hv hs
  cases hresult : c.run.run (v, s) with
  | mk result rest =>
    obtain ⟨v', s'⟩ := rest
    rw [hresult] at hrow hst' hr
    rw [ExceptT.run_bind, StateT.run_bind, hresult]
    cases result with
    | ok a => exact hr v' s' hrow hst'
    | error e => exact ⟨hrow, st', hst', hr⟩

theorem run_bind {f : α → ViewChange β} {v : View} {s : Session} :
    (c >>= f).run.run (v, s) = match c.run.run (v, s) with
      | (.ok a, v', s') => (f a).run.run (v', s')
      | (.error e, v', s') => (.error e, v', s') := by
  rw [ExceptT.run_bind, StateT.run_bind]
  rcases c.run.run (v, s) with ⟨_ | _, _, _⟩ <;> rfl

/-- What a query finds in one session, before a change. -/
theorem run_query {q : Query α} {f : α → ViewChange β} {v : View} {s : Session} {a : α}
    (hq : q.run s = .ok a) :
    ((liftM q : ViewChange α) >>= f).run.run (v, s) = (f a).run.run (v, s) := by
  have hrun : (liftM q : ViewChange α).run.run (v, s) = (q.run s, v, s) := rfl
  rw [run_bind, hrun, hq]

theorem Ends.lift {c : Change α} (hc : c.Ends w st Q E) :
    (liftM c : ViewChange α).Ends w st r Q E := by
  intro v s hv hs
  obtain ⟨st', hst', hr⟩ := hc s hs
  exact ⟨hv, st', hst', hr⟩

theorem Ends.query {sure : Prop} {R : α → Prop} {q : Query α} {f : α → ViewChange β}
    (hq : q.Finds st sure R) (hf : ∀ a, R a → (f a).Ends w st r T E) (hE : ¬ sure → E st) :
    ((liftM q : ViewChange α) >>= f).Ends w st r T E := by
  have hfound : ((liftM q : Change α) >>= Pure.pure).Ends w st
      (fun a st' => (f a).Ends w st' r T E) E :=
    Change.Ends.query hq (fun a ha => Change.Ends.pure (hf a ha)) hE
  rw [bind_pure] at hfound
  exact Ends.bind (Ends.lift hfound)

theorem Ends.row {Q : Row → Store → Prop} (h : Q r st) : row.Ends w st r Q E :=
  fun _ _ hv hs => ⟨hv, st, hs, by rw [← hv] at h; exact h⟩

/-- A change that gives the view anew. -/
theorem Ends.through {c : View → Change (α × View)}
    (hc : ∀ v, v.row = r → (c v).Ends w st (fun p st' => p.2.row = r ∧ Q p.1 st') E) :
    (through c).Ends w st r Q E := by
  intro v s hv hs
  obtain ⟨st', hst', hr⟩ := hc v hv s hs
  simp only [ExceptT.run, StateT.run, ViewChange.through, ExceptT.mk] at hst' hr ⊢
  split
  · next a v' s' hresult =>
    rw [hresult] at hst' hr
    exact ⟨hr.1, st', hst', hr.2⟩
  · next e s' hresult =>
    rw [hresult] at hst' hr
    exact ⟨hv, st', hst', hr⟩

theorem Ends.suppressing (hc : c.Ends w st r Q E) : (suppressing c).Ends w st r Q E := by
  intro v s hv hs
  obtain ⟨hrow, st', hst', hr⟩ := hc v _ hv (hs.withSuppressed true)
  exact ⟨hrow, st', hst'.withSuppressed _, hr⟩

theorem Ends.batch {event : EventKind} (hc : c.Ends w st r Q E) :
    (batch event c).Ends w st r Q E := by
  refine Ends.bind (hc.suppressing.mono (fun a st' h => ?_) fun _ h => h)
  exact Ends.bind (Ends.lift (Change.Ends.announce (Ends.pure h)))

/-- After a failure a change goes on where that left off. -/
theorem run_tryCatch {handler : Failure → ViewChange α} {v : View} {s : Session} :
    (tryCatch c handler).run.run (v, s) = match c.run.run (v, s) with
      | (.ok a, v', s') => (.ok a, v', s')
      | (.error e, v', s') => (handler e).run.run (v', s') := by
  -- Both layers below the exception are states, so the handler starts where the failure occurred.
  have hrun : (MonadExcept.tryCatch c handler).run = c.run >>= fun result =>
      match result with
      | .ok a => Pure.pure (Except.ok a)
      | .error e => (handler e).run := by
    change (ExceptT.tryCatch c handler).run = _
    rw [ExceptT.tryCatch, ExceptT.run_mk]
    congr
    funext result
    cases result <;> rfl
  rw [hrun, StateT.run_bind]
  rcases c.run.run (v, s) with ⟨_ | _, _, _⟩ <;> rfl

/-- A change that goes on after a failure. -/
theorem Ends.tryCatch {handler : Failure → ViewChange α} {E' : Store → Prop}
    (hc : c.Ends w st r Q E') (hhandler : ∀ e st', E' st' → (handler e).Ends w st' r Q E) :
    (tryCatch c handler).Ends w st r Q E := by
  intro v s hv hs
  obtain ⟨hrow, st', hst', hr⟩ := hc v s hv hs
  cases hresult : c.run.run (v, s) with
  | mk result rest =>
    obtain ⟨v', s'⟩ := rest
    rw [hresult] at hrow hst' hr
    rw [run_tryCatch, hresult]
    cases result with
    | ok a => exact ⟨hrow, st', hst', hr⟩
    | error e => exact hhandler e st' hr v' s' hrow hst'

/-- What is done through a view is done to the session; the view stays one of its row. -/
theorem Ends.on {v : View} (hc : c.Ends w st v.row Q E) :
    (c.on v).Ends w st (fun p st' => p.2.row = v.row ∧ Q p.1 st') E := by
  intro s hs
  obtain ⟨hrow, st', hst', hr⟩ := hc v s rfl hs
  refine ⟨st', hst', ?_⟩
  have hrun : ((ViewChange.on v c).run.run s).1 =
      (c.run.run (v, s)).1.map (·, (c.run.run (v, s)).2.1) := rfl
  rw [hrun]
  -- A failure hands the view back too, so the store is the same in both cases.
  cases hresult : (c.run.run (v, s)).1 with
  | ok a =>
    rw [hresult] at hr
    exact ⟨hrow, hr⟩
  | error e =>
    rw [hresult] at hr
    exact hr

end ViewChange

end SoarProject
