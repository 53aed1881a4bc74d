import SoarProject.Proofs.Datamap.Generation
import SoarProject.Proofs.Project.Rules

/-!
# Histories of a project

A project starts with nothing in it. Whatever is then done to it, one operation after the other, its
store keeps its integrity. An operation may fail and leave its work half done; it only has to be called
on rows that exist.

* `Operation.keeps_perform`: what one operation keeps.
* `Reachable.integrity`: what all histories keep. A row that is inserted after any of them starts with no
  other join than the one that it is created with, and no other child than its automatic ones, even
  if its id is that of a row that was deleted.
-/

namespace SoarProject

open Registry

variable {w : Bool} {s : Session} {st st' : Store} {r p c : Row} {t : Table}

/-! ### Operations -/

/-- What can be done to a project. -/
inductive Operation where
  /-- Create an agent. -/
  | createAgent (name : Value)
  /-- Create a structural child with its automatic children. -/
  | createChild (parent : Row) (t : Table) (name : Value)
  /-- Create a row that is joined below another one. -/
  | createJoinedChild (parent : Row) (t : Table) (name : Value)
  /-- Join two rows. -/
  | join (a b : Row)
  /-- End a join. -/
  | unjoin (a b : Row)
  /-- Join a row below another one. -/
  | directedJoin (parent child : Row)
  /-- End a directed join. -/
  | directedUnjoin (parent child : Row)
  /-- Delete what is below a row, and also the row itself if it is its `own` deletion. -/
  | deleteChildren (r : Row) (own : Bool)
  /-- Give a rule a new text. -/
  | saveRule (rule : View) (text : Value)
  /-- Import the rules of a source for an agent. -/
  | importRules (agent : View) (source : Value)
  /-- Generate the datamap of a problem space, with the corrections that are selected. -/
  | generateDatamap (problemSpace : View) (select : List Correction → List Correction)

namespace Operation

/-- The rows that an operation is called on. -/
def rows : Operation → List Row
  | createAgent _ => []
  | createChild parent _ _ | createJoinedChild parent _ _ => [parent]
  | join a b | unjoin a b | directedJoin a b | directedUnjoin a b => [a, b]
  | deleteChildren r _ => [r]
  | saveRule v _ | importRules v _ | generateDatamap v _ => [v.row]

/-- Only corrections are selected that are proposed. -/
def SelectsProposed : Operation → Prop
  | generateDatamap _ select => ∀ cs, select cs ⊆ cs
  | _ => True

/-- An operation is called on existing rows, and selects from what is proposed. -/
def IsCalledOn (op : Operation) (st : Store) : Prop := (∀ r ∈ op.rows, st.Has r) ∧ op.SelectsProposed

/-- Do what an operation says. -/
def perform : Operation → Change Unit
  | .createAgent name => do let _ ← SoarProject.createAgent name
  | .createChild parent t name => do let _ ← parent.createChild t name
  | .createJoinedChild parent t name => do let _ ← parent.createJoinedChild t name
  | .join a b => a.join b
  | .unjoin a b => a.unjoin b
  | .directedJoin parent child => parent.directedJoin child
  | .directedUnjoin parent child => parent.directedUnjoin child
  | .deleteChildren r own => r.deleteChildren own
  | .saveRule rule text => do let _ ← (SoarProject.saveRule text).on rule
  | .importRules agent source => do let _ ← importFrom agent source
  | .generateDatamap problemSpace select => do
    let _ ← (SoarProject.generateDatamap select).on problemSpace

end Operation

namespace Operation

/-- Directed joins and their ends keep integrity. -/
theorem keeps_directed (h : st.Integral) (hp : st.Has p) (hc : st.Has c) :
    (p.directedJoin c).Ends w st (fun _ st' => st'.Integral) Store.Integral ∧
      (p.directedUnjoin c).Ends w st (fun _ st' => st'.Integral) Store.Integral := by
  obtain ⟨id, hid⟩ := hp.exists_id
  obtain ⟨key, hkey⟩ := hc.exists_id
  rw [hid] at hp ⊢
  rw [hkey] at hc ⊢
  refine ⟨(Row.ends_directedJoin h hp hc).mono (fun _ _ hQ => hQ.1.integral) ?_,
    Row.keeps_directedUnjoin h⟩
  rintro _ ⟨rfl, -⟩
  exact h

/-- Undirected joins and their ends keep integrity. -/
theorem keeps_undirected (h : st.Integral) (hp : st.Has p) (hc : st.Has c) :
    (p.join c).Ends w st (fun _ st' => st'.Integral) Store.Integral ∧
      (p.unjoin c).Ends w st (fun _ st' => st'.Integral) Store.Integral := by
  obtain ⟨id, hid⟩ := hp.exists_id
  obtain ⟨key, hkey⟩ := hc.exists_id
  rw [hid] at hp ⊢
  rw [hkey] at hc ⊢
  refine ⟨(Row.ends_join h hp hc).mono ?_ ?_, Row.keeps_unjoin h⟩
  · rintro - st' ⟨order, -, hjoins, -⟩
    exact hjoins.integral
  · rintro _ ⟨rfl, -⟩
    exact h

/-- A deletion keeps integrity. -/
theorem keeps_deleteChildren (h : st.Integral) (hr : st.Has r) {own : Bool} :
    (r.deleteChildren own).Ends w st (fun _ st' => st'.Integral) Store.Integral := by
  obtain ⟨id, hid⟩ := hr.exists_id
  rw [hid]
  exact (Row.ends_deleteChildren h.toSound).mono
    (fun _ _ hQ => h.of_within hQ.1.within hQ.1.sound) fun _ hE => h.of_within hE.1.within hE.1.sound

/-- Every operation keeps integrity, also if it fails. -/
theorem keeps_perform (op : Operation) (h : st.Integral) (hcalled : op.IsCalledOn st) :
    op.perform.Ends w st (fun _ st' => st'.Integral) Store.Integral := by
  obtain ⟨hrows, hselects⟩ := hcalled
  -- Whatever an operation returns is dropped, so only the stores it may leave matter.
  have hdiscard : ∀ {α : Type} {c : Change α} {Q : α → Store → Prop} {E : Store → Prop},
      c.Ends w st Q E → (∀ a st', Q a st' → st'.Integral) → (∀ st', E st' → st'.Integral) →
      (c >>= fun _ => pure ()).Ends w st (fun _ st' => st'.Integral) Store.Integral :=
    fun hc hQ hE => Change.Ends.bind (hc.mono (fun a st' hQ' => Change.Ends.pure (hQ a st' hQ')) hE)
  cases op with
  | createAgent name =>
    refine hdiscard (ends_createAgent h) (fun _ _ hQ => hQ.1.grows.integral) ?_
    rintro _ rfl
    exact h
  | createChild parent t name =>
    exact hdiscard (Row.ends_createChild h (hrows parent List.mem_cons_self))
      (fun _ _ hQ => hQ.2.1.grows.integral) fun _ hE => hE.integral
  | createJoinedChild parent t name =>
    exact hdiscard (Row.ends_createJoinedChild h (hrows parent List.mem_cons_self))
      (fun _ _ hQ => hQ.2.1.grows.integral) fun _ hE => hE.integral
  | join a b => exact (keeps_undirected h (hrows a (by simp [rows])) (hrows b (by simp [rows]))).1
  | unjoin a b => exact (keeps_undirected h (hrows a (by simp [rows])) (hrows b (by simp [rows]))).2
  | directedJoin a b => exact (keeps_directed h (hrows a (by simp [rows])) (hrows b (by simp [rows]))).1
  | directedUnjoin a b =>
    exact (keeps_directed h (hrows a (by simp [rows])) (hrows b (by simp [rows]))).2
  | deleteChildren r own => exact keeps_deleteChildren h (hrows r List.mem_cons_self)
  | saveRule rule text =>
    exact hdiscard (ViewChange.ends_saveRule h (hrows rule.row List.mem_cons_self)).on
      (fun _ _ hQ => hQ.2.1) fun _ hE => hE.1
  | importRules agent source =>
    exact hdiscard (keeps_importFrom h (hrows agent.row List.mem_cons_self))
      (fun _ _ hQ => hQ) fun _ hE => hE
  | generateDatamap problemSpace select =>
    exact hdiscard
      (ViewChange.ends_generateDatamap h (hrows problemSpace.row List.mem_cons_self) hselects).on
      (fun _ _ hQ => hQ.2.integral) fun _ hE => hE.integral

instance (r : Row) : Decidable (st.Has r) := by
  unfold Store.Has
  infer_instance

/-- Do one operation after the other, as long as the rows exist that they are called on. -/
def performAll : List Operation → Session → Option Session
  | [], s => some s
  | op :: rest, s =>
    match s.store with
    | .ok st => if ∀ r ∈ op.rows, st.Has r then performAll rest (op.perform.run.run s).2 else none
    | .error _ => none

end Operation

/-! ### Rows that are inserted -/

namespace Store

/-- A new row begins with some joins and with children in some tables, at most. -/
structure Begins (st st' : Store) (r : Row) (joins : List (RelationName × CellPair))
    (tables : List Table) : Prop where
  /-- The row did not exist. -/
  new : ¬ st.Has r
  has : st'.Has r
  /-- A pair that names the row is one of the joins. -/
  joins : ∀ n : RelationName, n.IsJoin → ∀ pair ∈ st'.pairsOf n, Names n pair r → (n, pair) ∈ joins
  /-- A child belongs to one of the tables. -/
  children : ∀ c, st'.IsParent r c → c.table ∈ tables

/-- A row that nothing names but its record begins without joins. -/
theorem Fresh.begins (h : st.Fresh st' r) (hs : st.Sound) {tables : List Table}
    (hchildren : ∀ c, st'.IsParent r c → c.table ∈ tables) : st.Begins st' r [] tables where
  new := h.new
  has := h.has
  joins _ hn _ hpair hnames := absurd hnames (h.not_names hs hn hpair)
  children := hchildren

end Store

/-- A joined child begins with its join only. -/
theorem Row.BearsJoined.begins (h : Row.BearsJoined st st' p c) (hs : st.Sound) :
    st.Begins st' c [(.directed p.table c.table, (p.id, c.id))]
      (project.automaticChildrenOf c.table) where
  new := h.new
  has := h.has
  joins n hn pair hpair hnames := by
    rcases h.pairs n hn pair hpair with hold | ⟨rfl, rfl⟩
    · obtain ⟨hfirst, hsecond⟩ := hs.pairs_exist n hn pair hold
      rcases hnames with rfl | rfl
      · exact absurd hfirst h.new
      · exact absurd hsecond h.new
    · exact List.mem_cons_self
  children := h.children

/-! ### Histories -/

/-- A session in which operations were done one after the other, from a project with nothing in it. -/
inductive Reachable (w : Bool) : Session → Prop
  | start {s : Session} : s.Opens w .blank → Reachable w s
  | step {s : Session} {st : Store} (op : Operation) : Reachable w s → s.Opens w st →
    op.IsCalledOn st → Reachable w (op.perform.run.run s).2

namespace Reachable

/-- After any history, the open store has integrity. -/
theorem exists_integral (h : Reachable w s) : ∃ st, s.Opens w st ∧ st.Integral := by
  induction h with
  | start hs => exact ⟨_, hs, Store.integral_blank⟩
  | @step s st op _ hs hcalled ih =>
    obtain ⟨st₁, hs₁, hst₁⟩ := ih
    -- The store of a session is unique, so the call starts from the integral one.
    obtain rfl : st = st₁ := Except.ok.inj (hs.store_eq.symm.trans hs₁.store_eq)
    obtain ⟨st', hst', hr⟩ := op.keeps_perform (w := w) hst₁ hcalled s hs
    refine ⟨st', hst', ?_⟩
    cases hresult : (op.perform.run.run s).1 with
    | ok a =>
      rw [hresult] at hr
      exact hr
    | error e =>
      rw [hresult] at hr
      exact hr

/-- A history goes on with any operations that are called on existing rows. -/
theorem performAll {ops : List Operation} (h : Reachable w s) {s' : Session}
    (hselects : ∀ op ∈ ops, op.SelectsProposed) (hs' : Operation.performAll ops s = some s') :
    Reachable w s' := by
  induction ops generalizing s with
  | nil => exact Option.some.inj hs' ▸ h
  | cons op rest ih =>
    obtain ⟨st, hs, -⟩ := h.exists_integral
    rw [Operation.performAll, hs.store_eq] at hs'
    dsimp only at hs'
    split at hs'
    · next hrows =>
      exact ih (.step op h hs ⟨hrows, hselects op List.mem_cons_self⟩)
        (fun op' hop => hselects op' (List.mem_cons_of_mem _ hop)) hs'
    · cases hs'

/-- After any history, the open store has integrity; and every row that is then inserted begins with no
other join than the one that it is created with, and no other child than its automatic ones. -/
theorem integrity (h : Reachable w s) :
    ∃ st, s.Opens w st ∧ st.Integral ∧
      (∀ t values, (∀ v ∈ values, IsAttribute v.1) →
        (Change.insert t values).Ends w st
          (fun id st' => st.Begins st' (.ofId t id) [] []) (fun st' => st' = st)) ∧
      ∀ p t, st.Has p →
        (∀ values, (∀ v ∈ values, IsAttribute v.1) →
          (p.insertChild t values).Ends w st
            (fun id st' => st.Begins st' (.ofId t id) [] []) (fun st' => st' = st)) ∧
        ∀ name,
          (p.createChild t name).Ends w st
            (fun v st' => st.Begins st' v.row [] (project.automaticChildrenOf t))
            (fun st' => st.Grows st') ∧
          (p.createJoinedChild t name).Ends w st
            (fun v st' => st.Begins st' v.row [(.directed p.table t, (p.id, v.row.id))]
              (project.automaticChildrenOf t))
            (fun st' => st.Grows st') := by
  obtain ⟨st, hs, hst⟩ := h.exists_integral
  refine ⟨st, hs, hst, fun t values hplain => ?_, fun p t hp => ⟨fun values hplain => ?_,
    fun name => ⟨?_, ?_⟩⟩⟩
  · -- A record without keys has no parent, and it has no child as its id is new.
    refine (Change.Ends.insertLoose hst hplain).mono ?_ fun _ hE => hE
    rintro id st' ⟨hfresh, hparents, -⟩
    exact hfresh.begins hst.toSound fun c hc =>
      absurd (hst.has_of_isParent (hparents _ c hc)) hfresh.new
  · -- With one key it has that parent, and again no child.
    refine (Row.ends_insertChild hst hp hplain).mono ?_ fun _ hE => hE.1
    rintro id st' ⟨hfresh, -, hparents, -⟩
    refine hfresh.begins hst.toSound fun c hc => ?_
    rcases hparents _ c hc with hold | ⟨rfl, -⟩
    · exact absurd (hst.has_of_isParent hold) hfresh.new
    · exact absurd hp hfresh.new
  · -- Besides the key there may be automatic children, which are not joined to anything.
    refine (Row.ends_createChild hst hp).mono ?_ fun _ hE => hE
    rintro v st' ⟨rfl, hbears, -⟩
    exact hbears.toFresh.begins hst.toSound hbears.children
  · -- The parent holds it by a directed join, and no key names it.
    refine (Row.ends_createJoinedChild hst hp).mono ?_ fun _ hE => hE
    rintro v st' ⟨rfl, hbears, -⟩
    exact hbears.begins hst.toSound

/-- A session with a project in memory that has nothing in it. -/
def newProject : Session where
  registry := project
  connection := .memory { relations := project.layout, indexes := Store.blank.indexes }

/-- A new project has nothing in it. -/
theorem opens_newProject : newProject.Opens true .blank where
  registry_eq := rfl
  isWritable_eq := rfl
  store_eq := congrArg Except.ok (Store.with_relations Store.relations_blank)

end Reachable

/-! ### An id that is used again -/

/-- A node of a datamap. -/
def node (id : Int) : Row := .ofId .datamapIdentifiers id

/-- A project with a rule and a datamap. The nodes 2 and 3 are joined, each of them is below the other one, and
nothing else is above them. -/
def knotted : List Operation :=
  [.createAgent (.text "agent"),
    .createChild (.ofId .agents 1) .problemSpaces (.text "space"),
    .createChild (.ofId .agents 1) .rules (.text "rule"),
    .join (.ofId .rules 1) (.ofId .problemSpaces 1),
    .createJoinedChild (node 1) .datamapIdentifiers (.text "x"),
    .createJoinedChild (node 2) .datamapIdentifiers (.text "y"),
    .directedJoin (node 3) (node 2),
    .join (node 2) (node 3),
    .directedUnjoin (node 1) (node 2)]

/-- The node 2 has joins, and is deleted with what is below it. The node that is then created has its id, and
begins with its join below the root only. -/
theorem Reachable.integrity_reused :
    (∃ s ∈ Operation.performAll knotted newProject, ∃ st, s.Opens true st ∧ st.Integral ∧ st.Has (node 2) ∧
      (.int 2, .int 3) ∈ st.pairsOf (.join .datamapIdentifiers .datamapIdentifiers) ∧
      (.int 3, .int 2) ∈ st.pairsOf (.directed .datamapIdentifiers .datamapIdentifiers)) ∧
    ∃ s ∈ Operation.performAll (knotted ++ [.deleteChildren (node 2) true]) newProject,
      ∃ st, s.Opens true st ∧ st.Integral ∧ ¬ st.Has (node 2) ∧
        ∃ v s' st', ((node 1).createJoinedChild .datamapIdentifiers (.text "z")).run.run s = (.ok v, s') ∧
          s'.Opens true st' ∧ v.row = node 2 ∧
          st.Begins st' v.row [(.directed .datamapIdentifiers .datamapIdentifiers, (.int 1, .int 2))] [] := by
  have hreachable : ∀ {ops : List Operation} {s : Session},
      ops ⊆ knotted ++ [.deleteChildren (node 2) true] →
      Operation.performAll ops newProject = some s → Reachable true s := by
    intro ops s hops hs
    refine (Reachable.start opens_newProject).performAll (fun op hop => ?_) hs
    have hop' := hops hop
    simp only [knotted, List.cons_append, List.nil_append, List.mem_cons, List.not_mem_nil, or_false] at hop'
    rcases hop' with rfl | rfl | rfl | rfl | rfl | rfl | rfl | rfl | rfl | rfl <;> trivial
  -- Before the deletion the node is in a join and in a cycle.
  have hbefore : ∃ s ∈ Operation.performAll knotted newProject,
      (s.store.toOption.any fun st => st.Has (node 2) &&
        (.int 2, .int 3) ∈ st.pairsOf (.join .datamapIdentifiers .datamapIdentifiers) &&
        (.int 3, .int 2) ∈ st.pairsOf (.directed .datamapIdentifiers .datamapIdentifiers)) = true := by
    decide +kernel
  -- After the deletion its id is free, and the next node takes it.
  have hafter : ∃ s ∈ Operation.performAll (knotted ++ [.deleteChildren (node 2) true]) newProject,
      (s.store.toOption.any fun st => st.Has (node 1) && !decide (st.Has (node 2))) = true ∧
      (((node 1).createJoinedChild .datamapIdentifiers (.text "z")).run.run s).1.toOption.map (·.row) =
        some (node 2) := by
    decide +kernel
  constructor
  · obtain ⟨s, hs, hstore⟩ := hbefore
    obtain ⟨st, hopen, hst, -⟩ := integrity (hreachable (List.subset_append_left _ _) hs)
    simp only [hopen.store_eq, Except.toOption, Option.any_some, Bool.and_eq_true, decide_eq_true_eq] at hstore
    obtain ⟨⟨hnode, hjoin⟩, hdirected⟩ := hstore
    exact ⟨s, hs, st, hopen, hst, hnode, hjoin, hdirected⟩
  · obtain ⟨s, hs, hstore, hcreated⟩ := hafter
    obtain ⟨st, hopen, hst, -, hinserts⟩ := integrity (hreachable (List.Subset.refl _) hs)
    simp only [hopen.store_eq, Except.toOption, Option.any_some, Bool.and_eq_true, decide_eq_true_eq,
      Bool.not_eq_true', decide_eq_false_iff_not] at hstore
    obtain ⟨hroot, hgone⟩ := hstore
    obtain ⟨st', hopen', hends⟩ := ((hinserts (node 1) .datamapIdentifiers hroot).2 (.text "z")).2 s hopen
    refine ⟨s, hs, st, hopen, hst, hgone, ?_⟩
    cases hrun : ((node 1).createJoinedChild .datamapIdentifiers (.text "z")).run.run s with
    | mk result s' =>
      rw [hrun] at hcreated hopen' hends
      cases result with
      | error e => cases hcreated
      | ok v =>
        have hv : v.row = node 2 := Option.some.inj hcreated
        refine ⟨v, s', st', rfl, hopen', hv, ?_⟩
        have hbegins : st.Begins st' v.row [(.directed .datamapIdentifiers .datamapIdentifiers,
          ((node 1).id, v.row.id))] (project.automaticChildrenOf .datamapIdentifiers) := hends
        rw [hv] at hbegins ⊢
        exact hbegins

end SoarProject
