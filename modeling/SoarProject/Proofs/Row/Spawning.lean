import SoarProject.Proofs.Row.Appending
import SoarProject.Proofs.Schema.Automatic

/-!
# Creating rows of any registry

A new row gets its automatic children, and they theirs, each with a check that its table was declared as a
child table. This need not be so, and what was put in before such a check fails stays.

* `Registry.Spawning`: which rows are put in below a row, in their order, and what stops this.
* `Registry.Spawning.eq_none_iff`: nothing stops it exactly if all automatic tables are declared.
* `Row.run_createWithin`: creating a child of any registry puts these rows in.
* `Creation.ends`: what becomes of a row that is created below another one or joined below it.
-/

namespace SoarProject

open Registry

variable {α β : Type} {r : Registry} {s s' : Session} {st st' : Store} {sets : JoinSets} {p x : Row}
  {t a : Table} {tables : List Table} {news : List NewRow} {failure? : Option Failure} {f : Failure}
  {fuel k : Nat}

/-! ### Which rows are put in -/

/-- The row that a row gets as a child without being asked. -/
def NewRow.automatic (p : Row) (a : Table) (id : Int) : NewRow :=
  ⟨a, id, "New " ++ a.shortName, some p⟩

/-- Children of some tables are put in below a row, each followed by its automatic children: which rows these
are, in their order, and what stops this before all are there. -/
inductive Registry.Spawning (r : Registry) :
    Row → List Table → List NewRow → Option Failure → Prop
  /-- All are there. -/
  | done {p : Row} : Spawning r p [] [] none
  /-- A table was not declared as a child table. -/
  | undeclared {p : Row} {a : Table} {rest : List Table} (ha : a ∉ r.childrenOf p.table) :
    Spawning r p (a :: rest) [] (some (.noChildTable a p.table))
  /-- A child is there, and something stops what is below it. -/
  | stopped {p : Row} {a : Table} {rest : List Table} {id : Int} {below : List NewRow} {f : Failure}
    (ha : a ∈ r.childrenOf p.table)
    (hbelow : Spawning r (.ofId a id) (r.automaticChildrenOf a) below (some f)) :
    Spawning r p (a :: rest) (.automatic p a id :: below) (some f)
  /-- A child is there with everything below it, and then what follows. -/
  | child {p : Row} {a : Table} {rest : List Table} {id : Int} {below more : List NewRow}
    {failure? : Option Failure} (ha : a ∈ r.childrenOf p.table)
    (hbelow : Spawning r (.ofId a id) (r.automaticChildrenOf a) below none)
    (hrest : Spawning r p rest more failure?) :
    Spawning r p (a :: rest) (.automatic p a id :: below ++ more) failure?

namespace Registry.Spawning

/-- Where nothing stops it, all tables are declared, also those that follow. -/
theorem declared (h : r.Spawning p tables news none) :
    ∀ a ∈ tables, a ∈ r.childrenOf p.table ∧ r.DeclaredBelow a := by
  generalize hend : (none : Option Failure) = failure? at h
  induction h with
  | done => exact fun _ ha => absurd ha List.not_mem_nil
  | undeclared | stopped => cases hend
  | child ha _ _ ihbelow ihrest =>
    refine List.forall_mem_cons.mpr ⟨⟨ha, fun u hu b hb => ?_⟩, ihrest hend⟩
    rcases Relation.ReflTransGen.cases_head hu with rfl | ⟨c, hc, hcu⟩
    · exact (ihbelow rfl b hb).1
    · exact (ihbelow rfl c hc).2 u hcu b hb

/-- What stops it is a table that follows on the row and is not declared. -/
theorem undeclared_of_some (h : r.Spawning p tables news (some f))
    (htables : tables ⊆ r.automaticChildrenOf p.table) :
    ∃ u a, Relation.ReflTransGen r.Spawns p.table u ∧ a ∈ r.automaticChildrenOf u ∧
      a ∉ r.childrenOf u ∧ f = .noChildTable a u := by
  generalize hend : some f = failure? at h
  induction h with
  | done => cases hend
  | @undeclared p a rest ha =>
    cases hend
    exact ⟨p.table, a, .refl, htables List.mem_cons_self, ha, rfl⟩
  | stopped _ _ ih =>
    obtain ⟨u, b, hu, hb⟩ := ih (fun _ hb => hb) hend
    exact ⟨u, b, .head (htables List.mem_cons_self) hu, hb⟩
  | child _ _ _ _ ihrest => exact ihrest (fun b hb => htables (List.mem_cons_of_mem _ hb)) hend

/-- Nothing stops the automatic children of a row exactly if all that follow are declared. -/
theorem eq_none_iff (h : r.Spawning p (r.automaticChildrenOf p.table) news failure?) :
    failure? = none ↔ r.DeclaredBelow p.table := by
  constructor
  · rintro rfl u hu b hb
    rcases Relation.ReflTransGen.cases_head hu with rfl | ⟨c, hc, hcu⟩
    · exact (h.declared b hb).1
    · exact (h.declared c hc).2 u hcu b hb
  · intro hdeclared
    cases failure? with
    | none => rfl
    | some f =>
      obtain ⟨u, b, hu, hb, hnot, -⟩ := h.undeclared_of_some fun _ hb => hb
      exact absurd (hdeclared u hu b hb) hnot

end Registry.Spawning

/-! ### Creating them -/

/-- How something ends: as it should, or with what stopped it. -/
def ending (failure? : Option Failure) (a : α) : Except Failure α := failure?.elim (.ok a) .error

/-- A change that goes on unless something stops it. -/
theorem Change.run_bind_ending {c : Change α} {f : α → Change β} {a : α} {b : β}
    (hc : c.run.run s = (ending failure? a, s')) (hf : (f a).run.run s' = (.ok b, s')) :
    (c >>= f).run.run s = (ending failure? b, s') := by
  cases failure? with
  | none => exact (Change.run_bind hc).trans hf
  | some e => exact Change.run_bind_error hc

namespace Row

/-- The child tables are those of the registry. -/
theorem run_childTables {w : Bool} (hs : s.Follows r w st) :
    p.childTables.run s = .ok (r.childrenOf p.table) := Query.run_bind_ok hs.run_registry

/-- A child in a table that was not declared is refused. -/
theorem run_createWithin_undeclared {w : Bool} {name : Value} (hs : s.Follows r w st)
    (ht : t ∉ r.childrenOf p.table) :
    (createWithin (fuel + 1) p t name).run.run s = (.error (.noChildTable t p.table), s) := by
  rw [createWithin, Change.run_query (run_childTables hs), if_pos ht]
  rfl

/-- A record is inserted below a row. -/
theorem run_insertChild (hr : r.Coherent) (hs : s.Follows r true st) (h : st.LaidOut r) (hp : p.IsKey)
    (ht : t ∈ r.childrenOf p.table) (name : String) :
    let new : NewRow := ⟨t, nextId (st.rows t), name, some p⟩
    ∃ s', (p.insertChild t [("name", .text name)]).run.run s = (.ok new.id, s') ∧
      s'.Follows r true (st.append r new) := by
  intro new
  have hplace : new.HasPlace r := by
    rintro _ ⟨⟩
    exact ⟨(hr.children_iff _ _).mp ht, hp⟩
  obtain ⟨s', hrun, hs'⟩ := hs.run_insert h hplace rfl
  refine ⟨s', ?_, hs'⟩
  rw [insertChild, Change.run_query (run_childTables hs), if_neg (not_not.mpr ht)]
  exact hrun

/-- What is to be shown of creating a declared child for some fuel: it is put in, and then its automatic
children, until something stops this. -/
def Plants (r : Registry) (fuel : Nat) : Prop :=
  ∀ {s : Session} {st : Store} {sets : JoinSets} {p : Row} {t : Table} {name : String} {k : Nat},
    s.Follows r true st → st.Serves r sets (r.treeSize t + k) → p.IsKey → t ∈ r.childrenOf p.table →
    r.AcyclicBelow t → (r.tablesBelow t).ncard ≤ fuel →
      ∃ id news failure? s' st',
        (createWithin fuel p t (.text name)).run.run s = (ending failure? (.ofId t id), s') ∧
        s'.Follows r true st' ∧ st'.Serves r sets k ∧ st.Gains r st' (⟨t, id, name, some p⟩ :: news) ∧
        r.Spawning (.ofId t id) (r.automaticChildrenOf t) news failure?

/-- Automatic children are created one after the other, until something stops this. -/
theorem run_forM_automatic (hplants : Plants r fuel) (hs : s.Follows r true st)
    (h : st.Serves r sets ((tables.map r.treeSize).sum + k)) (hp : p.IsKey)
    (htables : ∀ a ∈ tables, r.AcyclicBelow a ∧ (r.tablesBelow a).ncard ≤ fuel) :
    ∃ news failure? s' st',
      (tables.forM fun a => do
        let _ ← createWithin fuel p a (automaticName a)).run.run s = (ending failure? (), s') ∧
      s'.Follows r true st' ∧ st'.Serves r sets k ∧ st.Gains r st' news ∧
      r.Spawning p tables news failure? := by
  induction tables generalizing s st with
  | nil => exact ⟨[], none, s, st, rfl, hs, h.mono (by simp), .refl st, .done⟩
  | cons a rest ih =>
    obtain ⟨⟨hacyclic, hfuel⟩, hrest⟩ := List.forall_mem_cons.mp htables
    rw [List.map_cons, List.sum_cons, Nat.add_assoc] at h
    -- A declared child is planted with its tree, and then the rest of the tables.
    by_cases ha : a ∈ r.childrenOf p.table
    · obtain ⟨id, below, failure?, s₁, st₁, hrun₁, hs₁, h₁, hgains₁, hspawning₁⟩ :=
        hplants hs h hp ha hacyclic hfuel
      -- Its tree stopped at an undeclared table, and so does the whole.
      cases failure? with
      | some f =>
        exact ⟨_, some f, s₁, st₁, Change.run_bind_error (Change.run_bind_error hrun₁), hs₁,
          h₁.mono (by omega), hgains₁, .stopped ha hspawning₁⟩
      | none =>
        have hchild : (do
            let _ ← createWithin fuel p a (automaticName a) : Change Unit).run.run s = (.ok (), s₁) :=
          Change.run_bind hrun₁
        obtain ⟨more, failure?, s', st', hrun, hs', h', hgains, hspawning⟩ := ih hs₁ h₁ hrest
        refine ⟨_, failure?, s', st', ?_, hs', h', hgains₁.trans hgains, .child ha hspawning₁ hspawning⟩
        exact (Change.run_bind hchild).trans hrun
    · -- The table is not declared below the parent: the recursion ends there.
      have hpos := r.ncard_tablesBelow_pos a
      obtain ⟨fuel, rfl⟩ : ∃ n, fuel = n + 1 := Nat.exists_eq_add_one.mpr (by omega)
      have hrun : (createWithin (fuel + 1) p a (automaticName a)).run.run s = _ :=
        run_createWithin_undeclared hs ha
      exact ⟨[], _, s, st, Change.run_bind_error (Change.run_bind_error hrun), hs, h.mono (by omega),
        .refl st, .undeclared ha⟩

/-- A declared child is put in with its automatic children, until something stops this. -/
theorem run_createWithin (hr : r.Coherent) (fuel : Nat) : Plants r fuel := by
  induction fuel with
  | zero =>
    intro _ _ _ _ t _ _ _ _ _ _ _ hfuel
    have hpos := r.ncard_tablesBelow_pos t
    omega
  | succ fuel ih =>
    intro s st sets p t name k hs h hp ht hacyclic hfuel
    -- The row is inserted, and its automatic children are planted with less fuel.
    let new : NewRow := ⟨t, nextId (st.rows t), name, some p⟩
    rw [hacyclic.treeSize_eq, Nat.add_assoc, Nat.add_comm 1] at h
    obtain ⟨s₁, hrun₁, hs₁⟩ := run_insertChild hr hs h.laidOut hp ht name
    have hnew : (Row.ofId t new.id).IsKey := ⟨new.id, rfl, h.room.fits_nextId t⟩
    have h₁ := h.append (show new.id = nextId (st.rows new.table) from rfl)
    obtain ⟨news, failure?, s', st', hrun, hs', h', hgains, hspawning⟩ :=
      run_forM_automatic ih hs₁ h₁ hnew fun a ha => ⟨hacyclic.of_spawns ha, by
        -- On the way down fewer tables are left, so the fuel is enough.
        have hlt := hacyclic.ncard_lt ha
        omega⟩
    refine ⟨new.id, news, failure?, s', st', ?_, hs', h', (h.laidOut.gains_append new).trans hgains,
      hspawning⟩
    rw [createWithin, Change.run_query (run_childTables hs), if_neg (not_not.mpr ht)]
    refine (Change.run_bind hrun₁).trans ((Change.run_query hs₁.run_registry).trans ?_)
    exact Change.run_bind_ending hrun rfl

/-! ### Creating a row -/

section Create

variable (hr : r.Coherent) (hs : s.Follows r true st) (h : st.Serves r sets (r.treeSize t))
  (hx : st.Has x) (hacyclic : r.AcyclicBelow t)

include hr hs h hx hacyclic

/-- A row that is created below another one is put in with its automatic children, until something stops
this. -/
theorem run_createChild (ht : t ∈ r.childrenOf x.table) (name : String) :
    ∃ id news failure? s' st',
      (x.createChild t (.text name)).run.run s =
        (ending failure? ((Row.ofId t id).named (.text name)), s') ∧
      s'.Follows r true st' ∧ st'.Serves r sets 0 ∧ st.Gains r st' (⟨t, id, name, some x⟩ :: news) ∧
      r.Spawning (.ofId t id) (r.automaticChildrenOf t) news failure? := by
  have hfuel : (r.tablesBelow t).ncard ≤ automaticDepth :=
    (r.tablesBelow_finite_and_le t).2.trans (Nat.le_succ _)
  obtain ⟨id, news, failure?, s', st', hrun, hend⟩ :=
    run_createWithin hr automaticDepth (k := 0) hs h (h.room.fits.isKey hx) ht hacyclic hfuel
  exact ⟨id, news, failure?, s', st', Change.run_bind_ending hrun rfl, hend⟩

/-- A row that is created and joined below another one is put in with its automatic children, until
something stops this. -/
theorem run_createJoinedChild (ht : r.areDirectedJoined x.table t = true) (name : String) :
    ∃ id news failure? s' st',
      (x.createJoinedChild t (.text name)).run.run s =
        (ending failure? ((Row.ofId t id).named (.text name)), s') ∧
      s'.Follows r true st' ∧
      st'.Serves r { sets with directed := insert (x, .ofId t id) sets.directed } 0 ∧
      st.Gains r st' (⟨t, id, name, none⟩ :: news) ∧
      r.Spawning (.ofId t id) (r.automaticChildrenOf t) news failure? := by
  -- The record is inserted without a key, and the join is recorded behind it.
  let new : NewRow := ⟨t, nextId (st.rows t), name, none⟩
  have hplace : new.HasPlace r := by
    rintro _ ⟨⟩
  rw [hacyclic.treeSize_eq, Nat.add_comm 1] at h
  obtain ⟨s₁, hrun₁, hs₁⟩ := hs.run_insert h.laidOut hplace rfl
  have h₁ := h.append (show new.id = nextId (st.rows new.table) from rfl)
  have hgains₁ := h.laidOut.gains_append new
  obtain ⟨s₂, st₂, hrun₂, hs₂, pairs, hst₂⟩ := run_directedJoin hr ⟨hs₁, h₁.carries, h₁.represents⟩
    h₁.room.fits (hgains₁.has hx) (hgains₁.has_new List.mem_cons_self) ht
  have hn := hr.declares_directed_iff.mpr (of_decide_eq_true ht)
  obtain ⟨h₂, hgains₂⟩ := h₁.of_pairs hn hst₂ hs₂.carries hs₂.represents
  have hnew : (Row.ofId t new.id).IsKey := ⟨new.id, rfl, h.room.fits_nextId t⟩
  -- From here on it is as below any other row.
  have hdepth := (r.tablesBelow_finite_and_le t).2
  obtain ⟨news, failure?, s', st', hrun, hs', h', hgains, hspawning⟩ :=
    run_forM_automatic (k := 0) (run_createWithin hr automaticDepth) hs₂.follows h₂ hnew fun a ha =>
      ⟨hacyclic.of_spawns ha, by
        have hlt := hacyclic.ncard_lt ha
        rw [automaticDepth]
        omega⟩
  refine ⟨new.id, news, failure?, s', st', ?_, hs', h', (hgains₁.trans hgains₂).trans hgains,
    hspawning⟩
  rw [createJoinedChild, Change.run_query hs.run_registry, ht]
  refine (Change.run_bind hrun₁).trans ((Change.run_bind hrun₂).trans ?_)
  refine Change.run_bind_ending ((Change.run_query hs₂.follows.run_registry).trans hrun) rfl

end Create

end Row

/-! ### A store with an agent -/

/-- A store with one agent. -/
def Store.agency (r : Registry) : Store :=
  Store.append { relations := r.layout.map fun e => (e.1, e.2.denoted) } r ⟨.agents, 1, "scout", none⟩

/-- A session in which it is open. -/
def Session.agency (r : Registry) : Session := { registry := r, connection := .memory (.agency r) }

/-- The store serves its registry, and has one agent and no other row. -/
theorem Store.serves_agency (hr : r.Coherent) (hk : (k + 1 : Nat) ≤ maxInteger) :
    (agency r).Serves r .empty k ∧ (agency r).Has (.ofId .agents 1) ∧
      ∀ t, t ≠ .agents → (agency r).rows t = [] := by
  -- The relations as declared, before the first row.
  let bare : Store := { relations := r.layout.map fun e => (e.1, e.2.denoted) }
  have hbare : bare.HasLayout r := rfl
  have hrows := hbare.rows_eq hr
  have hunjoined := hbare.unjoined hr
  have hroom : bare.Room (k + 1) := by
    refine ⟨fun t record hrecord => ?_, hk, fun t record hrecord => ?_⟩ <;>
    · rw [hrows] at hrecord
      cases hrecord
  have hid : (1 : Int) = nextId (bare.rows .agents) := by
    rw [hrows]
    rfl
  have hserves : bare.Serves r .empty (k + 1) :=
    ⟨hbare.laidOut hr, hunjoined.carries, hunjoined.represents, hroom⟩
  have hlaid := hserves.laidOut
  refine ⟨hserves.append hid, (hlaid.gains_append _).has_new List.mem_cons_self, fun t ht => ?_⟩
  exact (hlaid.rows_append _ t).trans ((if_neg ht).trans (hrows t))

/-! ### All that follows, or nothing -/

/-- A way to create a row by another one. -/
inductive Creation where
  /-- Below it. -/
  | child
  /-- On its own, and joined below it. -/
  | joined

namespace Creation

/-- Create a row by another one. -/
def perform : Creation → Row → Table → Value → Change View
  | child => Row.createChild
  | joined => Row.createJoinedChild

/-- The tables of the two rows are declared for this. -/
def IsAllowed (r : Registry) : Creation → Table → Table → Prop
  | child, u, t => t ∈ r.childrenOf u
  | joined, u, t => r.areDirectedJoined u t = true

instance (r : Registry) (how : Creation) (u t : Table) : Decidable (how.IsAllowed r u t) :=
  match how with
  | child => inferInstanceAs (Decidable (t ∈ r.childrenOf u))
  | joined => inferInstanceAs (Decidable (r.areDirectedJoined u t = true))

/-- What is reported where they are not. -/
def refusal : Creation → Table → Table → Failure
  | child, u, t => .noChildTable t u
  | joined, u, t => .notDirectedJoined t u

/-- The row that the new one is below. -/
def parent? : Creation → Row → Option Row
  | child, x => some x
  | joined, _ => none

/-- The joins with the new row. -/
def joins : Creation → Row → Row → JoinSets → JoinSets
  | child, _, _, sets => sets
  | joined, x, c, sets => { sets with directed := insert (x, c) sets.directed }

/-- Tables that are not declared are refused, and the session stays as it is. -/
theorem run_perform_refused (how : Creation) (hs : s.Follows r true st)
    (ht : ¬ how.IsAllowed r x.table t) (name : Value) :
    (how.perform x t name).run.run s = (.error (how.refusal x.table t), s) := by
  cases how with
  | child => exact Change.run_bind_error (Row.run_createWithin_undeclared hs ht)
  | joined =>
    rw [perform, Row.createJoinedChild, Change.run_query hs.run_registry, Bool.eq_false_of_not_eq_true ht]
    rfl

/-- A row that is created by another one is put in, with its join if it gets one. Its automatic children
follow, until something stops this. -/
theorem run_perform_allowed (how : Creation) (hr : r.Coherent) (hs : s.Follows r true st)
    (h : st.Serves r sets (r.treeSize t)) (hx : st.Has x) (hacyclic : r.AcyclicBelow t)
    (ht : how.IsAllowed r x.table t) (name : String) :
    ∃ id news failure? s' st',
      (how.perform x t (.text name)).run.run s =
        (ending failure? ((Row.ofId t id).named (.text name)), s') ∧
      s'.Follows r true st' ∧ st'.Serves r (how.joins x (.ofId t id) sets) 0 ∧
      st.Gains r st' (⟨t, id, name, how.parent? x⟩ :: news) ∧
      r.Spawning (.ofId t id) (r.automaticChildrenOf t) news failure? := by
  cases how with
  | child => exact Row.run_createChild hr hs h hx hacyclic ht name
  | joined => exact Row.run_createJoinedChild hr hs h hx hacyclic ht name

/-- Whatever is declared, as long as automatic children do not lead back to a table: tables that are not
declared for a new row are refused, and then nothing changes. Otherwise the row is put in, and its automatic
children with theirs, in their order. All of them are there if every table that follows is declared as a child
table. If one is not, it is reported; the rows before it stay, with the first one's join, and so does all that
was there. -/
theorem run_perform {ds : List Declaration} (how : Creation)
    (hs : s.Follows (.ofDeclarations ds) true st)
    (h : st.Serves (.ofDeclarations ds) sets ((Registry.ofDeclarations ds).treeSize t))
    (hx : st.Has x) (hacyclic : (Registry.ofDeclarations ds).AcyclicBelow t) (name : String) :
    let r := Registry.ofDeclarations ds
    (¬ how.IsAllowed r x.table t →
      (how.perform x t (.text name)).run.run s = (.error (how.refusal x.table t), s)) ∧
    (how.IsAllowed r x.table t → ∃ id news failure? s' st',
      (how.perform x t (.text name)).run.run s =
        (ending failure? ((Row.ofId t id).named (.text name)), s') ∧
      s'.Follows r true st' ∧ st'.Represents r (how.joins x (.ofId t id) sets) ∧
      st.Gains r st' (⟨t, id, name, how.parent? x⟩ :: news) ∧
      r.Spawning (.ofId t id) (r.automaticChildrenOf t) news failure? ∧
      (failure? = none ↔ r.DeclaredBelow t) ∧
      ∀ f, failure? = some f → ∃ u a, Relation.ReflTransGen r.Spawns t u ∧
        a ∈ r.automaticChildrenOf u ∧ a ∉ r.childrenOf u ∧ f = .noChildTable a u) := by
  intro r
  refine ⟨fun ht => how.run_perform_refused hs ht _, fun ht => ?_⟩
  obtain ⟨id, news, failure?, s', st', hrun, hs', h', hgains, hspawning⟩ :=
    how.run_perform_allowed (coherent_ofDeclarations ds) hs h hx hacyclic ht name
  -- Refused, or carried out; what stopped it is an undeclared table further down.
  refine ⟨id, news, failure?, s', st', hrun, hs', h'.represents, hgains, hspawning,
    hspawning.eq_none_iff, ?_⟩
  rintro f rfl
  exact hspawning.undeclared_of_some fun _ ha => ha

/-- Rules come with a condition, and conditions with a part, all of them declared as children. A rule may be
below an agent or joined below it. -/
def drafting : List Declaration :=
  [.parent .rules .agents, .directedJoin .agents .rules, .parent .conditions .rules,
    .parent .positiveConditions .conditions, .automatic .rules [.conditions],
    .automatic .conditions [.positiveConditions]]

/-- A store has one rule, with its condition and the part of that, each below the one before it. -/
structure Drafted (r : Registry) (st : Store) (id : Int) (parent? : Option Row) : Prop where
  rules : st.rows .rules = [NewRow.record r ⟨.rules, id, "draft", parent?⟩]
  below : ∃ id' id'',
    st.rows .conditions = [NewRow.record r (.automatic (.ofId .rules id) .conditions id')] ∧
    st.rows .positiveConditions =
      [NewRow.record r (.automatic (.ofId .conditions id') .positiveConditions id'')]

/-- The theorem for these declarations: a rule is created with its condition and the part of that, below the
agent or joined below it. -/
theorem run_perform_drafting :
    let r := Registry.ofDeclarations drafting
    let agent := Row.ofId .agents 1
    (∃ id s' st',
      (agent.createChild .rules (.text "draft")).run.run (.agency r) =
        (.ok ((Row.ofId .rules id).named (.text "draft")), s') ∧
      s'.Follows r true st' ∧ Drafted r st' id (some agent) ∧ st'.Represents r .empty) ∧
    ∃ id s' st',
      (agent.createJoinedChild .rules (.text "draft")).run.run (.agency r) =
        (.ok ((Row.ofId .rules id).named (.text "draft")), s') ∧
      s'.Follows r true st' ∧ Drafted r st' id none ∧
      st'.Represents r { JoinSets.empty with directed := insert (agent, .ofId .rules id) ∅ } := by
  intro r agent
  let rank (t : Table) : Nat := if t = .rules then 2 else if t = .conditions then 1 else 0
  have hspawns : ∀ t ∈ Table.all, ∀ a ∈ r.automaticChildrenOf t,
      rank a < rank t ∧ a ∈ r.childrenOf t := by
    decide +kernel
  have hacyclic : r.AcyclicBelow .rules :=
    acyclicBelow_of_rank (fun t a ha => (hspawns t (Table.mem_all t) a ha).1) .rules
  have hdeclared : r.DeclaredBelow .rules := fun t _ a ha => (hspawns t (Table.mem_all t) a ha).2
  have hrules : r.automaticChildrenOf .rules = [.conditions] := by decide
  have hconditions : r.automaticChildrenOf .conditions = [.positiveConditions] := by decide
  have hparts : r.automaticChildrenOf .positiveConditions = [] := by decide
  have hsize : ((r.treeSize .rules + 1 : Nat) : Int) ≤ maxInteger := by decide
  obtain ⟨hserves, hagent, hempty⟩ := Store.serves_agency (coherent_ofDeclarations drafting) hsize
  have hs : (Session.agency r).Follows r true (.agency r) := ⟨rfl, rfl, rfl⟩
  -- Both ways to create the rule put in the same tree.
  have hboth : ∀ how : Creation, how.IsAllowed r .agents .rules → ∃ id s' st',
      (how.perform agent .rules (.text "draft")).run.run (.agency r) =
        (.ok ((Row.ofId .rules id).named (.text "draft")), s') ∧
      s'.Follows r true st' ∧ Drafted r st' id (how.parent? agent) ∧
      st'.Represents r (how.joins agent (.ofId .rules id) .empty) := by
    intro how hallowed
    obtain ⟨id, news, failure?, s', st', hrun, hs', hrepresents, hgains, hspawning, hnone, -⟩ :=
      (how.run_perform hs hserves hagent hacyclic "draft").2 hallowed
    obtain rfl := hnone.mpr hdeclared
    rw [hrules] at hspawning
    -- The rule has a condition and nothing else, and the condition a part and nothing else.
    cases hspawning with
    | @child _ _ _ id' _ _ _ _ hcondition hrest =>
      cases hrest
      rw [hconditions] at hcondition
      cases hcondition with
      | @child _ _ _ id'' _ _ _ _ hpart hrest =>
        cases hrest
        rw [hparts] at hpart
        cases hpart
        refine ⟨id, s', st', hrun, hs', ⟨?_, id', id'', ?_, ?_⟩, hrepresents⟩ <;>
        · rw [hgains, hempty _ (by decide)]
          rfl
  exact ⟨hboth child (by decide), hboth joined (by decide)⟩

/-- Rules of agents come with an operator, which is not declared as their child. -/
def staffing : List Declaration := [.parent .rules .agents, .automatic .rules [.operators]]

/-- What fails may have put rows in: a rule is refused because of its operator, and is there. -/
theorem createChild_staffing :
    let r := Registry.ofDeclarations staffing
    r.AcyclicBelow .rules ∧ (Store.agency r).Has (.ofId .agents 1) ∧ (Store.agency r).rows .rules = [] ∧
    ∃ id s' st',
      ((Row.ofId .agents 1).createChild .rules (.text "draft")).run.run (.agency r) =
        (.error (.noChildTable .operators .rules), s') ∧
      s'.Follows r true st' ∧
      st'.rows .rules = [NewRow.record r ⟨.rules, id, "draft", some (.ofId .agents 1)⟩] := by
  intro r
  have hrules : r.automaticChildrenOf .rules = [.operators] := by decide
  have hundeclared : .operators ∉ r.childrenOf .rules := by decide
  let rank (t : Table) : Nat := if t = .rules then 1 else 0
  have hrank : ∀ t ∈ Table.all, ∀ a ∈ r.automaticChildrenOf t, rank a < rank t := by decide +kernel
  have hacyclic : r.AcyclicBelow .rules :=
    acyclicBelow_of_rank (fun t a ha => hrank t (Table.mem_all t) a ha) .rules
  have hr : r.Coherent := coherent_ofDeclarations staffing
  have hsize : ((r.treeSize .rules + 1 : Nat) : Int) ≤ maxInteger := by decide
  obtain ⟨hserves, hagent, hempty⟩ := Store.serves_agency hr hsize
  have hs : (Session.agency r).Follows r true (.agency r) := ⟨rfl, rfl, rfl⟩
  obtain ⟨id, news, failure?, s', st', hrun, hs', -, hgains, hspawning⟩ :=
    Row.run_createChild hr hs hserves hagent hacyclic (by decide) "draft"
  refine ⟨hacyclic, hagent, hempty _ (by decide), id, s', st', ?_⟩
  rw [hrules] at hspawning
  -- The only automatic table is undeclared, so it stops right there with the row inserted.
  cases hspawning with
  | undeclared =>
    refine ⟨hrun, hs', ?_⟩
    rw [hgains, hempty _ (by decide)]
    rfl
  | stopped ha => exact absurd ha hundeclared
  | child ha => exact absurd ha hundeclared

end Creation

end SoarProject
