import Mathlib.Logic.Relation
import SoarProject.Project.RuleGraph
import SoarProject.Proofs.Rule.Entry
import SoarProject.Proofs.Rule.Reader

/-!
# Storing what was read

The parts of a production that a text reads as have a description each, and the table of a part is a
child table of the one around it. So storing them below a rule can fail only in the store: where it is
closed, refuses a change or reports an error, or where an integer does not fit.

* `Failure.IsOfStore`: the failures of the store.
* `Change.FailsInStore`: where the registry is that of a project, a change has no other failures.
* `Rule.Outline.Storable.failsInStore`: storing an outline that fits below a row has none.
* `storable_of_parseProduction`: storing what a text reads as has none.
-/

namespace SoarProject

open Registry Rule

variable {α β : Type} {t : Table}

/-- A failure of the store: it is closed or reports an error, or an integer does not fit. -/
def Failure.IsOfStore : Failure → Prop
  | .closed | .integerOutOfRange | .storage _ => True
  | _ => False

/-! ### Failures of the store -/

/-- A result that fails only in the store. -/
def FailsInStore (r : Except Failure α) : Prop := ∀ e, r = .error e → e.IsOfStore

namespace FailsInStore

variable {r : Except Failure α} {f : α → Except Failure β}

/-- A value is no failure. -/
theorem ok {a : α} : FailsInStore (.ok a) := fun _ h => by cases h

/-- A failure of the store. -/
theorem error {e : Failure} (h : e.IsOfStore) : FailsInStore (.error e : Except Failure α) := by
  rintro _ ⟨⟩
  exact h

theorem bind (hr : FailsInStore r) (hf : ∀ a, FailsInStore (f a)) : FailsInStore (r >>= f) := by
  cases r with
  | error e => exact error (hr e rfl)
  | ok a => exact hf a

/-- A result for each entry of a list. -/
theorem mapM {xs : List α} (hf : ∀ x, FailsInStore (f x)) : FailsInStore (xs.mapM f) := by
  induction xs with
  | nil => exact ok
  | cons x xs ih =>
    rw [List.mapM_cons]
    exact bind (hf x) fun y => bind ih fun ys => ok

end FailsInStore

/-- A value has a cell, or the store refuses it. -/
theorem Value.failsInStore_toCell (v : Value) (place : Nat) : FailsInStore (v.toCell place) := by
  cases v with
  | int n =>
    rw [toCell]
    split
    · exact .ok
    · exact .error trivial
  | list | dictionary | part => exact .error trivial
  | _ => exact .ok

namespace Store

/-- Values are turned into cells. -/
theorem failsInStore_toCells (values : List (String × Value)) : FailsInStore (toCells values) :=
  .bind (.mapM fun x => Value.failsInStore_toCell x.1 (x.2 + 1)) fun _ => .ok

/-- The id of a new record is chosen. -/
theorem failsInStore_chooseId (rows : List Record) (c : Cell) : FailsInStore (chooseId rows c) := by
  unfold chooseId
  split
  · exact .ok
  · split
    · exact .ok
    · exact .error trivial

/-- A pair is added to a join. -/
theorem failsInStore_withPair (n : RelationName) (first second : String) (rows : List CellPair)
    (p : CellPair) : FailsInStore (Relation.withPair n first second rows p) := by
  have hcell : ∀ column c, FailsInStore (Relation.pairCell n column c) := by
    intro column c
    unfold Relation.pairCell
    split
    · exact .error trivial
    · exact .ok
  unfold Relation.withPair
  refine .bind (hcell first p.1) fun c => .bind (hcell second p.2) fun d => ?_
  dsimp only
  split
  · exact .error trivial
  · exact .ok

/-- Whatever is inserted, only the store may refuse it. -/
theorem failsInStore_insert (st : Store) (n : RelationName) (values : List (String × Value)) :
    FailsInStore (st.insert n values) := by
  -- Each step of an insertion fails in the store alone, or not at all.
  have hrelation : FailsInStore (st.relation n) := by
    unfold relation
    split
    · exact .ok
    · exact .error trivial
  unfold insert
  refine .bind hrelation fun r => ?_
  dsimp only
  split
  · exact .error trivial
  · refine .bind (failsInStore_toCells values) fun cells => ?_
    cases r with
    | records columns rows =>
      refine .bind (failsInStore_chooseId _ _) fun id => ?_
      split
      · exact .error trivial
      · exact .ok
    | pairs => exact .bind (failsInStore_withPair _ _ _ _ _) fun _ => .ok

end Store

/-! ### Changes that fail only in the store -/

namespace Change

/-- Where the registry is that of a project, a change leaves it and fails only in the store. -/
def FailsInStore (c : Change α) : Prop :=
  ∀ s : Session, s.registry = project →
    (c.run.run s).2.registry = project ∧ SoarProject.FailsInStore (c.run.run s).1

namespace FailsInStore

variable {c : Change α} {f : α → Change β}

theorem pure {a : α} : (pure a : Change α).FailsInStore := fun _ hs => ⟨hs, .ok⟩

/-- One change after another. -/
theorem bind (hc : c.FailsInStore) (hf : ∀ a, (f a).FailsInStore) : (c >>= f).FailsInStore := by
  intro s hs
  obtain ⟨hregistry, hfails⟩ := hc s hs
  rw [ExceptT.run_bind, StateT.run_bind]
  cases hrun : c.run.run s with
  | mk r s' =>
    rw [hrun] at hregistry hfails
    cases r with
    | ok a => exact hf a s' hregistry
    | error e => exact ⟨hregistry, .error (hfails e rfl)⟩

/-- Either of two changes. -/
theorem ite {P : Prop} [Decidable P] {d : Change α} (hc : c.FailsInStore) (hd : d.FailsInStore) :
    (if P then c else d).FailsInStore := by
  split
  · exact hc
  · exact hd

theorem registry {f : Registry → Change β} (hf : (f project).FailsInStore) :
    ((liftM Query.registry : Change Registry) >>= f).FailsInStore := by
  intro s hs
  have hrun : ((liftM Query.registry : Change Registry) >>= f).run.run s =
      (f s.registry).run.run s := rfl
  rw [hrun, hs]
  exact hf s hs

/-- A change that depends on the child tables of a row. -/
theorem childTables {r : Row} {f : List Table → Change β}
    (hf : (f (project.childrenOf r.table)).FailsInStore) :
    ((liftM r.childTables : Change (List Table)) >>= f).FailsInStore := by
  intro s hs
  have hrun : ((liftM r.childTables : Change (List Table)) >>= f).run.run s =
      (f (s.registry.childrenOf r.table)).run.run s := rfl
  rw [hrun, hs]
  exact hf s hs

end FailsInStore

/-- A statement fails only in the store if the change that it makes does. -/
theorem failsInStore_mutate {f : Store → Except Failure (Store × α)}
    (hf : ∀ st, SoarProject.FailsInStore (f st)) : (mutate f).FailsInStore := by
  -- The three pieces of an alteration: fetching the store, putting it back, announcing the event.
  have hstore : (liftM Query.store : Change Store).FailsInStore := by
    intro s hs
    refine ⟨hs, ?_⟩
    change SoarProject.FailsInStore s.store
    unfold Session.store
    split
    · exact .error trivial
    · exact .ok
    · exact .ok
    · split
      · exact .ok
      · exact .error trivial
  have hset : ∀ st, (modify (·.setStore st) : Change Unit).FailsInStore := by
    intro st s hs
    refine ⟨?_, .ok⟩
    change (s.setStore st).registry = project
    unfold Session.setStore
    split <;> exact hs
  have hannounce : ∀ event, (announce event).FailsInStore := by
    intro event s hs
    refine ⟨?_, .ok⟩
    change (s.announce event).registry = project
    unfold Session.announce
    split <;> exact hs
  unfold mutate alter
  refine .bind (.bind hstore fun st => ?_) fun a => .bind (hannounce _) fun _ => .pure
  have hget : (get : Change Session).FailsInStore := fun s hs => ⟨hs, .ok⟩
  refine .bind hget fun s => ?_
  have hresult : (do
      let made ← ofExcept (f st)
      modify (·.setStore made.1)
      return made.2 : Change α).FailsInStore :=
    .bind (fun s hs => ⟨hs, hf st⟩) fun found => .bind (hset _) fun _ => .pure
  exact .ite (fun s hs => ⟨hs, .error trivial⟩) hresult

/-- A record is inserted whose values the columns prepare. -/
theorem failsInStore_insert {values : List (String × Value)} (h : t.Prepares values) :
    (Change.insert t values).FailsInStore := by
  unfold Change.insert
  refine .registry (failsInStore_mutate fun st => ?_)
  rw [prepare_eq_ok h]
  dsimp only
  split
  · exact .error trivial
  · exact st.failsInStore_insert _ _

end Change

/-! ### Storing outlines -/

/-- The record of an admitted entry is inserted below a row of a parent table. -/
theorem failsInStore_insertEntry {kind : PartKind} {e : Entry} {p : Row} (he : e.Admitted kind)
    (hchild : e.table ∈ project.childrenOf p.table) :
    (p.insertChild e.table e.values).FailsInStore := by
  unfold Row.insertChild
  refine .childTables ?_
  rw [if_neg (not_not.mpr hchild)]
  refine Change.failsInStore_insert fun v hv => ?_
  rcases List.mem_append.mp hv with hv | hv
  · exact he.prepares v hv
  · rw [List.mem_singleton.mp hv]
    exact ⟨_, columnType?_idName (mem_childrenOf_iff.mp hchild), rfl⟩

/-- Outlines are stored one after the other. -/
theorem failsInStore_storeOutlines {p : Row} {os : List Outline}
    (hos : ∀ o ∈ os, (storeOutline p o).FailsInStore) : (storeOutlines p os).FailsInStore := by
  induction os with
  | nil => exact .pure
  | cons o rest ih =>
    rw [storeOutlines]
    rw [List.forall_mem_cons] at hos
    exact .bind hos.1 fun _ => ih hos.2

/-- Storing an outline below a row of a parent table fails only in the store. -/
theorem Rule.Outline.Storable.failsInStore {o : Outline} (ho : o.Storable) :
    ∀ {p : Row}, (∃ t ∈ project.childrenOf p.table, o.table? = some t) →
      (storeOutline p o).FailsInStore := by
  induction ho with
  | @entry kind e children he htables hchildren ih =>
    rintro p ⟨t, hchild, htable⟩
    obtain rfl : e.table = t := Option.some.inj htable
    rw [storeOutline]
    refine .childTables ?_
    rw [if_neg (not_not.mpr hchild)]
    refine .bind (failsInStore_insertEntry he hchild) fun id => ?_
    exact failsInStore_storeOutlines fun o ho => ih o ho (htables o ho)

/-- Storing a proper production as a rule fails only in the store. -/
theorem Rule.Production.Proper.failsInStore {p : Production} (h : p.Proper) {r : Row}
    (hr : r.table = .rules) : (storeProduction r p).FailsInStore := by
  unfold storeProduction
  rw [if_neg (not_not.mpr hr)]
  refine failsInStore_storeOutlines fun o ho => ?_
  obtain ⟨t, ht, htable, hstorable⟩ := Production.fitsIn_of_mem_parts h o ho
  exact hstorable.failsInStore ⟨t, hr ▸ ht, htable⟩

/-! ### Descriptions -/

namespace Rule

/-- A part comes directly below another one. -/
def Outline.HasPart (o part : Outline) : Prop := ∃ e parts, o.describe = .ok (e, parts) ∧ part ∈ parts

/-- A storable outline has a description, and so has each part below it. -/
theorem Outline.Storable.exists_describe {o part : Outline} (h : o.Storable)
    (hpart : Relation.ReflTransGen Outline.HasPart o part) :
    ∃ e parts, part.describe = .ok (e, parts) := by
  have hstorable : part.Storable := by
    induction hpart with
    | refl => exact h
    | tail _ hstep ih =>
      obtain ⟨e, parts, hdescribe, hmem⟩ := hstep
      cases ih with
      | entry _ _ hchildren =>
        cases hdescribe
        exact hchildren _ hmem
  cases hstorable
  exact ⟨_, _, rfl⟩

/-- The outline of a proper production is storable. -/
theorem Production.Proper.storable {p : Production} (h : p.Proper) : p.outline.Storable := by
  have haccepted : (Entry.production (.text p.name)).Accepted :=
    Entry.accepted_of ⟨_, rfl⟩ (by simp [Entry.production]) (by simp [Entry.production])
  exact (Outline.fitsIn_entry rfl (by decide) haccepted (fitsIn_of_mem_parts h)).2

end Rule

/-- What a text reads as is well-formed, every part of it has a description, and storing it as a rule
fails only in the store, whatever is stored there and whether the rule exists or not. -/
theorem storable_of_parseProduction {text : String} {p : Production}
    (h : parseProduction text = .ok p) :
    p.WellFormed ∧
      (∀ part, Relation.ReflTransGen Outline.HasPart p.outline part →
        ∃ e parts, part.describe = .ok (e, parts)) ∧
      ∀ (s s' : Session) (r : Row) (e : Failure), s.registry = project → r.table = .rules →
        (storeProduction r p).run.run s = (.error e, s') → e.IsOfStore := by
  have hproper := (wellFormed_of_parseProduction h).proper
  refine ⟨wellFormed_of_parseProduction h, fun part hpart => hproper.storable.exists_describe hpart, ?_⟩
  intro s s' r e hs hr hrun
  have hfails := (hproper.failsInStore hr s hs).2
  rw [hrun] at hfails
  exact hfails e rfl

/-- A production with a conjunction, a choice and preferences of each kind. -/
def preferredText : String :=
  "sp\x7bprefer :i-support -\x7b(<s> ^<a>.b << x 1 >>)\x7d --> (<s> ^<a> 1 - > (f 2), < =) (halt)\x7d"

/-- Such a production is read, and can be stored. -/
theorem storable_of_parseProduction_preferred :
    ∃ p, parseProduction preferredText = .ok p ∧ p.actions.length = 2 ∧ p.WellFormed ∧
      (∀ part, Relation.ReflTransGen Outline.HasPart p.outline part →
        ∃ e parts, part.describe = .ok (e, parts)) ∧
      ∀ (s s' : Session) (r : Row) (e : Failure), s.registry = project → r.table = .rules →
        (storeProduction r p).run.run s = (.error e, s') → e.IsOfStore := by
  -- The parse is evaluated once, and only the number of its actions is compared.
  have hparsed : ((parseProduction preferredText).toOption.any fun p => p.actions.length = 2) = true := by
    decide +kernel
  cases hparse : parseProduction preferredText with
  | error e =>
    rw [hparse] at hparsed
    exact absurd hparsed Bool.false_ne_true
  | ok p =>
    rw [hparse] at hparsed
    exact ⟨p, rfl, of_decide_eq_true hparsed, storable_of_parseProduction hparse⟩

end SoarProject
