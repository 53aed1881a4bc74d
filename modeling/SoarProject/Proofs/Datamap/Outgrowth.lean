import Mathlib.Data.Set.Function
import SoarProject.Proofs.Datamap.Placing

/-!
# What grows out of a datamap

Which nodes corrections add does not depend on the order in which they are applied. Each of their nodes has a
spot, which is told by the datamap before any of them was applied: a row that was there, or a key below another
spot. A key below a row that was there leads to the first row with that key, and to a new spot only if there is
none. A datamap that grew holds one row for each spot, with the name, the table and the edges of the spot.

* `Spot`, `Store.spotBelow`: spots, and where a key leads from a spot.
* `Store.Outgrowth`: a store grew out of another one by the rows of some spots.
* `Store.Outgrowth.settle`: to look for a key adds the row of one spot at most.
* `Correction.leads_applyInTurn_growsOn`: corrections add the rows of the spots that they pass.
-/

namespace SoarProject

open Registry

variable {w : Bool} {st st₁ st₂ st₃ : Store} {r p c d q : Row} {k : NodeKey} {e : Edge} {step : Triple}
  {path : List Triple} {name : String}

/-! ### Spots -/

/-- Where a row is or will be. -/
inductive Spot where
  /-- The spot of a row that is there. -/
  | row (r : Row)
  /-- The spot for a new row with a key. -/
  | under (x : Spot) (k : NodeKey)
  deriving DecidableEq

namespace Spot

variable {x y z : Spot}

/-- The row that was there, at a spot or above it. -/
def base : Spot → Row
  | .row r => r
  | .under x _ => x.base

/-- The table of the row at a spot. -/
def table : Spot → Table
  | .row r => r.table
  | .under _ k => k.table

/-- The row at a spot has a name. -/
def Named (st : Store) : Spot → String → Prop
  | .row r, name => st.Named r name
  | .under _ k, name => k.name = name

/-- The row at a spot is directly below that at another one. -/
def HasEdge (st : Store) (e : Edge) : Spot → Spot → Prop
  | .row p, .row c => st.HasEdge e p c
  | .under .., .row _ => False
  | x, .under y k => x = y ∧ e = k.edge

/-- Only a new row is below a new row. -/
theorem hasEdge_under : x.HasEdge st e (.under y k) ↔ x = y ∧ e = k.edge := by
  cases x <;> rfl

/-- Below the row at a spot, the row at another one has a key. -/
structure Keyed (st : Store) (x : Spot) (k : NodeKey) (y : Spot) : Prop where
  hasEdge : x.HasEdge st k.edge y
  table_eq : y.table = k.table
  named : y.Named st k.name

/-- A new row has one key. -/
theorem Keyed.eq_under {j : NodeKey} (h : Keyed st x k (.under y j)) : Spot.under y j = .under x k := by
  obtain ⟨rfl, -⟩ := hasEdge_under.mp h.hasEdge
  obtain ⟨table, name⟩ := j
  obtain rfl : table = k.table := h.table_eq
  obtain rfl : name = k.name := h.named
  rfl

end Spot

namespace Store

variable {x y z : Spot} {A B C : Set Spot} {place place' place'' : Spot → Row}

open Classical in
/-- The spot that a key leads to. -/
noncomputable def spotBelow (st : Store) : Spot → NodeKey → Spot
  | .row r, k => if h : ∃ c, st.IsFirst r k c then .row h.choose else .under (.row r) k
  | .under x j, k => .under (.under x j) k

/-- A key leads to the first row that has it, or to a new spot below one where no row has it. -/
theorem spotBelow_cases (st : Store) (x : Spot) (k : NodeKey) :
    (∃ r c, x = .row r ∧ st.IsFirst r k c ∧ st.spotBelow x k = .row c) ∨
      st.spotBelow x k = .under x k ∧ ∀ r, x = .row r → ∀ c, ¬ st.Keyed r k c := by
  cases x with
  | row r =>
    by_cases h : ∃ c, st.IsFirst r k c
    · exact .inl ⟨r, h.choose, rfl, h.choose_spec, dif_pos h⟩
    · refine .inr ⟨dif_neg h, fun r' hr c hc => h ?_⟩
      obtain rfl := Spot.row.inj hr
      exact hc.exists_isFirst
  | under x j => exact .inr ⟨rfl, fun r hr => by cases hr⟩

/-- A key leads to a spot of its table. -/
theorem table_spotBelow (st : Store) (x : Spot) (k : NodeKey) : (st.spotBelow x k).table = k.table := by
  rcases st.spotBelow_cases x k with ⟨r, c, -, hfirst, hstep⟩ | ⟨hstep, -⟩
  · rw [hstep]
    exact hfirst.table_eq
  · rw [hstep]
    rfl

/-- Some spots, and those of all rows that are there. -/
def spots (st : Store) (A : Set Spot) : Set Spot := A ∪ {x | ∃ r, st.Has r ∧ x = .row r}

/-- The row of an existing spot. -/
theorem row_mem_spots (hr : st.Has r) : Spot.row r ∈ st.spots A := .inr ⟨r, hr, rfl⟩

theorem spots_union_singleton (st : Store) (A : Set Spot) (x : Spot) :
    st.spots (A ∪ {x}) = st.spots A ∪ {x} := Set.union_right_comm _ _ _

theorem spots_mono (hsubset : A ⊆ B) : st.spots A ⊆ st.spots B := Set.union_subset_union_left _ hsubset

/-- A new spot is one of the given ones. -/
theorem mem_of_under_mem_spots (h : Spot.under x k ∈ st.spots A) : Spot.under x k ∈ A := by
  rcases h with h | ⟨r, -, hr⟩
  · exact h
  · cases hr

/-! ### Stores that grew -/

/-- The store `st₁` grew out of the store `st` by the rows of some spots. The row at each spot is told by
`place`. -/
structure Outgrowth (st st₁ : Store) (A : Set Spot) (place : Spot → Row) : Prop where
  grows : st.Grows st₁
  row : ∀ r, place (.row r) = r
  /-- A key leads to each spot. -/
  closed : ∀ x ∈ A, (∃ r, st.Has r ∧ x = .row r) ∨ ∃ y ∈ st.spots A, ∃ k, x = .under y k ∧ st.spotBelow y k = x
  bijOn : Set.BijOn place (st.spots A) {r | st₁.Has r}
  table_eq : ∀ x ∈ st.spots A, (place x).table = x.table
  named_iff : ∀ x ∈ st.spots A, ∀ name, st₁.Named (place x) name ↔ x.Named st name
  edge_iff : ∀ e, ∀ x ∈ st.spots A, ∀ y ∈ st.spots A,
    st₁.HasEdge e (place x) (place y) ↔ x.HasEdge st e y
  joins_eq : ∀ a b, st₁.pairsOf (.join a b) = st.pairsOf (.join a b)

/-- Without spots nothing grew. -/
theorem Integral.outgrowth (h : st.Integral) : st.Outgrowth st ∅ Spot.base := by
  -- At the beginning every spot is the row that stands there.
  have hmem : ∀ {x}, x ∈ st.spots ∅ → ∃ r, st.Has r ∧ x = .row r :=
    fun hx => hx.resolve_left (Set.notMem_empty _)
  refine
    { grows := .refl h
      row := fun _ => rfl
      closed := fun x hx => absurd hx (Set.notMem_empty x)
      bijOn := ⟨fun x hx => ?_, fun x hx y hy hxy => ?_, fun r hr => ?_⟩
      table_eq := fun x hx => ?_
      named_iff := fun x hx name => ?_
      edge_iff := fun e x hx y hy => ?_
      joins_eq := fun _ _ => rfl }
  · obtain ⟨r, hr, rfl⟩ := hmem hx
    exact hr
  · obtain ⟨r, -, rfl⟩ := hmem hx
    obtain ⟨r', -, rfl⟩ := hmem hy
    exact congrArg Spot.row hxy
  · exact ⟨.row r, row_mem_spots hr, rfl⟩
  · obtain ⟨r, -, rfl⟩ := hmem hx
    rfl
  · obtain ⟨r, -, rfl⟩ := hmem hx
    rfl
  · obtain ⟨r, -, rfl⟩ := hmem hx
    obtain ⟨r', -, rfl⟩ := hmem hy
    rfl

namespace Outgrowth

variable (h : st.Outgrowth st₁ A place)

include h

theorem has (hx : x ∈ st.spots A) : st₁.Has (place x) := h.bijOn.mapsTo hx

/-- Every existing row is at a spot. -/
theorem exists_place (hr : st₁.Has r) : ∃ x ∈ st.spots A, place x = r := h.bijOn.surjOn hr

/-- A row has a key if its spot has it. -/
theorem keyed_iff (hx : x ∈ st.spots A) (hy : y ∈ st.spots A) :
    st₁.Keyed (place x) k (place y) ↔ Spot.Keyed st x k y := by
  constructor
  · rintro ⟨hedge, htable, hname⟩
    exact ⟨(h.edge_iff _ x hx y hy).mp hedge, (h.table_eq y hy).symm.trans htable,
      (h.named_iff y hy _).mp hname⟩
  · rintro ⟨hedge, htable, hname⟩
    exact ⟨(h.edge_iff _ x hx y hy).mpr hedge, (h.table_eq y hy).trans htable,
      (h.named_iff y hy _).mpr hname⟩

/-- What has a key below a spot is at a spot that has it. -/
theorem exists_keyed (hx : x ∈ st.spots A) (hd : st₁.Keyed (place x) k d) :
    ∃ y ∈ st.spots A, place y = d ∧ Spot.Keyed st x k y := by
  obtain ⟨y, hy, rfl⟩ := h.exists_place hd.named.has
  exact ⟨y, hy, rfl, (h.keyed_iff hx hy).mp hd⟩

theorem spotBelow_eq_of_mem (hy : Spot.under x k ∈ st.spots A) : x ∈ st.spots A ∧ st.spotBelow x k = .under x k := by
  rcases h.closed _ (mem_of_under_mem_spots hy) with ⟨r, -, hr⟩ | ⟨y, hy, j, heq, hstep⟩
  · cases hr
  · obtain ⟨rfl, rfl⟩ := Spot.under.inj heq
    exact ⟨hy, hstep⟩

/-- The row at the spot that a key leads to is the first one with the key. -/
theorem isFirst (hx : x ∈ st.spots A) (hy : st.spotBelow x k ∈ st.spots A) :
    st₁.IsFirst (place x) k (place (st.spotBelow x k)) := by
  rcases st.spotBelow_cases x k with ⟨r, c, rfl, hfirst, hstep⟩ | ⟨hstep, hnone⟩
  · -- The first row of before is still the first: no new row has the key beside it.
    rw [hstep, h.row, h.row]
    refine ⟨h.grows.keyed hfirst.toKeyed, fun d hd => ?_⟩
    rw [← h.row r] at hd
    obtain ⟨y, hy, rfl, hkeyed⟩ := h.exists_keyed hx hd
    cases y with
    | row d =>
      rw [h.row]
      exact hfirst.le d ⟨hkeyed.hasEdge, hkeyed.table_eq, hkeyed.named⟩
    | under y j =>
      -- A new row would be where the key does not lead.
      have heq := hkeyed.eq_under
      rw [heq] at hy
      cases hstep.symm.trans (h.spotBelow_eq_of_mem hy).2
  · rw [hstep] at hy ⊢
    have hkeyed : Spot.Keyed st x k (.under x k) := ⟨Spot.hasEdge_under.mpr ⟨rfl, rfl⟩, rfl, rfl⟩
    refine ⟨(h.keyed_iff hx hy).mpr hkeyed, fun d hd => ?_⟩
    obtain ⟨z, -, rfl, hz⟩ := h.exists_keyed hx hd
    cases z with
    | row d =>
      cases x with
      | row r => exact absurd ⟨hz.hasEdge, hz.table_eq, hz.named⟩ (hnone r rfl d)
      | under x j => exact hz.hasEdge.elim
    | under z j => rw [hz.eq_under]

/-- No row has a key that leads to a spot without a row. -/
theorem not_keyed (hx : x ∈ st.spots A) (hy : st.spotBelow x k ∉ st.spots A) : ¬ st₁.Keyed (place x) k d := by
  intro hd
  obtain ⟨y, hymem, rfl, hkeyed⟩ := h.exists_keyed hx hd
  rcases st.spotBelow_cases x k with ⟨r, c, rfl, hfirst, hstep⟩ | ⟨hstep, hnone⟩
  · rw [hstep] at hy
    exact hy (row_mem_spots hfirst.named.has)
  · cases y with
    | row d =>
      cases x with
      | row r => exact hnone r rfl d ⟨hkeyed.hasEdge, hkeyed.table_eq, hkeyed.named⟩
      | under x j => exact hkeyed.hasEdge
    | under y j =>
      rw [hstep, ← hkeyed.eq_under] at hy
      exact hy hymem

/-- Between rows at spots no edge is new if a new row is put. -/
theorem edge_iff_of_puts (hputs : st₁.Puts st₂ p k c) (hx : x ∈ st.spots A) (hy : y ∈ st.spots A) :
    st₂.HasEdge e (place x) (place y) ↔ x.HasEdge st e y := by
  rw [hputs.edge_iff, h.edge_iff e x hx y hy]
  exact or_iff_left fun hnew => hputs.new (hnew.2.2 ▸ h.has hy)

/-- The new row is below the row at one spot, by one edge. -/
theorem edge_new_iff (hputs : st₁.Puts st₂ (place x) k c) (hx : x ∈ st.spots A) (hy : y ∈ st.spots A) :
    st₂.HasEdge e (place y) c ↔ y = x ∧ e = k.edge := by
  rw [hputs.edge_iff]
  constructor
  · rintro (hold | ⟨hedge, heq, -⟩)
    · exact absurd (h.grows.integral.has_of_hasEdge hold).2 hputs.new
    · exact ⟨h.bijOn.injOn hy hx heq, hedge⟩
  · rintro ⟨rfl, hedge⟩
    exact .inr ⟨hedge, rfl, rfl⟩

/-- Nothing is below the new row. -/
theorem not_edge_of_new (hputs : st₁.Puts st₂ (place x) k c) (hx : x ∈ st.spots A) : ¬ st₂.HasEdge e c d := by
  rw [hputs.edge_iff]
  rintro (hold | ⟨-, heq, -⟩)
  · exact hputs.new (h.grows.integral.has_of_hasEdge hold).1
  · exact hputs.new (heq ▸ h.has hx)

/-- No spot is below a spot that is not there. -/
theorem not_edge_of_notMem (hx : x ∉ st.spots A) (hxnew : ∀ r, x ≠ .row r) (hy : y ∈ st.spots A) :
    ¬ x.HasEdge st e y := by
  intro hedge
  cases y with
  | row r =>
    cases x with
    | row r' => exact hxnew r' rfl
    | under => exact hedge
  | under z j =>
    obtain ⟨rfl, -⟩ := Spot.hasEdge_under.mp hedge
    exact hx (h.spotBelow_eq_of_mem hy).1

/-- With the row of one new spot more. -/
theorem put (hx : x ∈ st.spots A) (hspot : st.spotBelow x k = .under x k)
    (hnew : Spot.under x k ∉ st.spots A) (hputs : st₁.Puts st₂ (place x) k c) :
    st.Outgrowth st₂ (A ∪ {.under x k}) (Function.update place (.under x k) c) := by
  have hself : Function.update place (.under x k) c (.under x k) = c := Function.update_self _ c place
  have hsame : Set.EqOn place (Function.update place (.under x k) c) (st.spots A) := by
    intro y hy
    have hne : y ≠ .under x k := fun heq => hnew (heq ▸ hy)
    exact (Function.update_of_ne hne c place).symm
  have hmore : st.spots A ⊆ st.spots (A ∪ {.under x k}) := spots_mono Set.subset_union_left
  have hcases : ∀ {y}, y ∈ st.spots (A ∪ {.under x k}) → y ∈ st.spots A ∨ y = .under x k := by
    intro y hy
    rwa [spots_union_singleton] at hy
  refine
    { grows := h.grows.trans hputs.grows
      row := fun r => ?_
      closed := fun y hy => ?_
      bijOn := ?_
      table_eq := fun y hy => ?_
      named_iff := fun y hy name => ?_
      edge_iff := fun e u hu v hv => ?_
      joins_eq := fun a b => (hputs.joins_eq a b).trans (h.joins_eq a b) }
  · rw [Function.update_of_ne (by simp), h.row]
  · rcases hy with hy | rfl
    · refine (h.closed y hy).imp_right fun hunder => ?_
      obtain ⟨u, hu, hrest⟩ := hunder
      exact ⟨u, hmore hu, hrest⟩
    · exact .inr ⟨x, hmore hx, k, rfl, hspot⟩
  · have hbij := (h.bijOn.congr hsame).insert (a := .under x k) (by rw [hself]; exact hputs.new)
    have hrows : {r | st₂.Has r} = Insert.insert c {r | st₁.Has r} := by
      ext r
      exact (hputs.has_iff r).trans or_comm
    rw [hself] at hbij
    rwa [spots_union_singleton, Set.union_singleton, hrows]
  · rcases hcases hy with hy | rfl
    · rw [← hsame hy]
      exact h.table_eq y hy
    · rw [hself]
      exact hputs.keyed.table_eq
  · rcases hcases hy with hy | rfl
    · rw [← hsame hy, ← h.named_iff y hy]
      refine ⟨fun hname => ?_, hputs.grows.named⟩
      obtain ⟨record, hrecord, hid⟩ := h.has hy
      have hfound : st₁.Named (place y) record.label := ⟨record, hrecord, hid, rfl⟩
      rwa [hputs.grows.integral.named_unique hname (hputs.grows.named hfound)]
    · rw [hself]
      show st₂.Named c name ↔ k.name = name
      refine ⟨hputs.grows.integral.named_unique hputs.keyed.named, ?_⟩
      rintro rfl
      exact hputs.keyed.named
  · -- An edge is one of before, or leads to the new row.
    have hnone : ∀ r, Spot.under x k ≠ .row r := fun r heq => by cases heq
    rcases hcases hu with hu | rfl
    · rw [← hsame hu]
      rcases hcases hv with hv | rfl
      · rw [← hsame hv]
        exact h.edge_iff_of_puts hputs hu hv
      · rw [hself, Spot.hasEdge_under]
        exact h.edge_new_iff hputs hx hu
    · rw [hself]
      rcases hcases hv with hv | rfl
      · exact iff_of_false (h.not_edge_of_new hputs hx) (h.not_edge_of_notMem hnew hnone hv)
      · refine iff_of_false (h.not_edge_of_new hputs hx) fun hedge => hnew ?_
        rwa [(Spot.hasEdge_under.mp hedge).1]

/-- Without a new spot nothing more grew. -/
theorem union_singleton (hy : y ∈ st.spots A) :
    st.Outgrowth st₁ (A ∪ {y}) place := by
  have hspots : st.spots (A ∪ {y}) = st.spots A := by
    rw [spots_union_singleton, Set.union_singleton, Set.insert_eq_of_mem hy]
  refine { h with closed := ?_, bijOn := ?_, table_eq := ?_, named_iff := ?_, edge_iff := ?_ }
  all_goals rw [hspots]
  · rintro z (hz | rfl)
    · exact h.closed z hz
    · exact hy.elim (h.closed z) .inl
  · exact h.bijOn
  · exact h.table_eq
  · exact h.named_iff
  · exact h.edge_iff

/-- A new row has no twin below its parent. -/
theorem eq_of_keyed (hnew : ¬ st.Has c) (hc : st₁.Keyed p k c) (hd : st₁.Keyed p k d) : d = c := by
  obtain ⟨x, hx, rfl⟩ := h.exists_place (h.grows.integral.has_of_hasEdge hc.hasEdge).1
  obtain ⟨y, hy, rfl, hykeyed⟩ := h.exists_keyed hx hc
  obtain ⟨z, hz, rfl, hzkeyed⟩ := h.exists_keyed hx hd
  cases y with
  | row r =>
    rw [h.row] at hnew hc
    rcases hy with hy | ⟨r', hr, heq⟩
    · rcases h.closed _ hy with ⟨r', hr, heq⟩ | ⟨_, _, _, heq, _⟩
      · exact absurd (Spot.row.inj heq ▸ hr) hnew
      · cases heq
    · exact absurd (Spot.row.inj heq ▸ hr) hnew
  | under y j =>
    have heq := hykeyed.eq_under
    rw [heq] at hy ⊢
    have hstep := (h.spotBelow_eq_of_mem hy).2
    cases z with
    | row d =>
      -- The key would lead to the other row.
      cases x with
      | row r =>
        have hkeyed : st.Keyed r k d := ⟨hzkeyed.hasEdge, hzkeyed.table_eq, hzkeyed.named⟩
        rcases st.spotBelow_cases (.row r) k with ⟨_, _, _, _, hrow⟩ | ⟨-, hnone⟩
        · cases hrow.symm.trans hstep
        · exact absurd hkeyed (hnone r rfl d)
      | under x i => exact hzkeyed.hasEdge.elim
    | under z i => rw [hzkeyed.eq_under]

end Outgrowth

/-! ### Growing on -/

/-- A store that grew by the rows of the spots `A` grew on by those of the spots `B`, of which at most `n` are
new. -/
structure GrowsOn (st st₁ : Store) (A : Set Spot) (place : Spot → Row) (st₂ : Store) (B : Set Spot)
    (place' : Spot → Row) (n : Nat) : Prop where
  outgrowth : st.Outgrowth st₂ (A ∪ B) place'
  grows : st₁.Grows st₂
  eqOn : Set.EqOn place' place (st.spots A)
  room : ∀ m, st₁.Room (n + m) → st₂.Room m

namespace GrowsOn

theorem refl (h : st.Outgrowth st₁ A place) : st.GrowsOn st₁ A place st₁ ∅ place 0 where
  outgrowth := by rwa [Set.union_empty]
  grows := .refl h.grows.integral
  eqOn _ _ := rfl
  room m hroom := hroom.mono (by omega)

/-- First some rows are new and then others. -/
theorem trans {n m : Nat} (h : st.GrowsOn st₁ A place st₂ B place' n)
    (h' : st.GrowsOn st₂ (A ∪ B) place' st₃ C place'' m) :
    st.GrowsOn st₁ A place st₃ (B ∪ C) place'' (n + m) where
  outgrowth := by
    rw [← Set.union_assoc]
    exact h'.outgrowth
  grows := h.grows.trans h'.grows
  eqOn := (h'.eqOn.mono (spots_mono Set.subset_union_left)).trans h.eqOn
  room l hroom := h'.room l (h.room _ (hroom.mono (by omega)))

end GrowsOn

/-- Looking for a key below the row at a spot finds or puts the row at the spot that the key leads to. -/
theorem Outgrowth.settle (h : st.Outgrowth st₁ A place) (hx : x ∈ st.spots A)
    (hsettles : st₁.Settles st₂ (place x) k c) :
    ∃ place', st.GrowsOn st₁ A place st₂ {st.spotBelow x k} place' 1 ∧ place' (st.spotBelow x k) = c := by
  have hroom : ∀ m, st₁.Room (1 + m) → st₂.Room m := fun m hm => hsettles.room (hm.mono (by omega))
  have hgrows := hsettles.grows h.grows.integral
  by_cases hy : st.spotBelow x k ∈ st.spots A
  · -- The spot has a row, which is the first one with the key, and so it was found.
    have hfirst := h.isFirst hx hy
    rcases hsettles with ⟨rfl, hfound⟩ | ⟨hnone, -⟩
    · exact ⟨place, ⟨h.union_singleton hy, hgrows, fun _ _ => rfl, hroom⟩, hfirst.unique hfound⟩
    · exact absurd hfirst.toKeyed (hnone _)
  · -- No row has the key, and so a new one was put.
    rcases hsettles with ⟨-, hfound⟩ | ⟨-, hputs⟩
    · exact absurd hfound.toKeyed (h.not_keyed hx hy)
    · rcases st.spotBelow_cases x k with ⟨r, d, -, hfirst, hspot⟩ | ⟨hspot, -⟩
      · rw [hspot] at hy
        exact absurd (row_mem_spots hfirst.named.has) hy
      · rw [hspot] at hy ⊢
        refine ⟨_, ⟨h.put hx hspot hy hputs, hgrows, fun y hy' => ?_, hroom⟩, Function.update_self _ _ _⟩
        have hne : y ≠ .under x k := fun heq => hy (heq ▸ hy')
        exact Function.update_of_ne hne _ _

/-! ### Spots along a path -/

/-- The spots that are passed for one triple. -/
def reached (st : Store) (x : Spot) (t : Triple) : Set Spot :=
  {st.spotBelow x t.nodeKey} ∪
    if t.kind = .string then {st.spotBelow (st.spotBelow x t.nodeKey) t.valueKey} else ∅

/-- The spots that are passed along a path. -/
def passed (st : Store) : Spot → List Triple → Set Spot
  | _, [] => ∅
  | x, t :: rest => st.reached x t ∪ st.passed (st.spotBelow x t.nodeKey) rest

/-- The spot that a path leads to. -/
noncomputable def follow (st : Store) (x : Spot) (path : List Triple) : Spot :=
  path.foldl (fun x t => st.spotBelow x t.nodeKey) x

/-- The spot of a triple is passed. -/
theorem spotBelow_mem_spots (st : Store) (A : Set Spot) (x : Spot) (t : Triple) :
    st.spotBelow x t.nodeKey ∈ st.spots (A ∪ st.reached x t) := .inl (.inr (.inl rfl))

/-- A path leads to a spot that is passed, or that it begins at. -/
theorem follow_mem_spots (hx : x ∈ st.spots A) : st.follow x path ∈ st.spots (A ∪ st.passed x path) := by
  induction path generalizing x A with
  | nil => exact spots_mono Set.subset_union_left hx
  | cons t rest ih =>
    have hrest := ih (st.spotBelow_mem_spots A x t)
    rwa [Set.union_assoc] at hrest

/-- The node for a triple is at the spot that its key leads to. -/
theorem Outgrowth.provide (h : st.Outgrowth st₁ A place) (hx : x ∈ st.spots A)
    (hprovides : st₁.Provides st₂ (place x) step c) :
    ∃ place', st.GrowsOn st₁ A place st₂ (st.reached x step) place' 2 ∧
      place' (st.spotBelow x step.nodeKey) = c := by
  obtain ⟨st', hnode, hvalue⟩ := hprovides
  obtain ⟨place₁, h₁, hc⟩ := h.settle hx hnode
  have hmem : st.spotBelow x step.nodeKey ∈ st.spots (A ∪ {st.spotBelow x step.nodeKey}) := .inl (.inr rfl)
  unfold reached
  split at hvalue
  · next hkind =>
    -- A string node gets its value as well, in a second step from its own spot.
    obtain ⟨v, hv⟩ := hvalue
    rw [← hc] at hv
    obtain ⟨place₂, h₂, -⟩ := h₁.outgrowth.settle hmem hv
    rw [if_pos hkind]
    exact ⟨place₂, h₁.trans h₂, (h₂.eqOn hmem).trans hc⟩
  · next hkind =>
    -- One step is enough; the room for a second one is left over.
    obtain rfl := hvalue
    rw [if_neg hkind]
    have h₂ := h₁.trans (.refl h₁.outgrowth)
    exact ⟨place₁, { h₂ with room := fun m hroom => h₂.room m (hroom.mono (by omega)) }, hc⟩

end Store

open Store (Outgrowth GrowsOn)

/-! ### Corrections -/

namespace Correction

variable {x : Spot} {A : Set Spot} {place : Spot → Row}

/-- A correction that can be applied: it begins at an existing identifier, its values are texts, and only the
last of them is no variable. -/
structure Applicable (st : Store) (c : Correction) : Prop where
  has : st.Has c.anchor.row
  table_eq : c.anchor.row.table = .datamapIdentifiers
  isText : ∀ t ∈ c.addition, t.IsText
  isLink : ∀ t ∈ c.addition.dropLast, t.isLink = true

/-- The spots that a correction passes. -/
def spots (st : Store) (c : Correction) : Set Spot := st.passed (.row c.anchor.row) c.addition

/-- The spots that some corrections pass. -/
def allSpots (st : Store) (cs : List Correction) : Set Spot := {x | ∃ c ∈ cs, x ∈ c.spots st}

/-- A correction that was applied. -/
noncomputable def placed (st : Store) (place : Spot → Row) (c : Correction) : Correction :=
  { c with tail := some (place (st.follow (.row c.anchor.row) c.addition)) }

/-- The last node of a correction is at a spot that it passes, or where it begins. -/
theorem Applicable.end_mem_spots {c : Correction} (hc : c.Applicable st) (hspots : c.spots st ⊆ A) :
    st.follow (.row c.anchor.row) c.addition ∈ st.spots A := by
  have hpassed : st.follow (.row c.anchor.row) c.addition ∈ st.spots (∅ ∪ c.spots st) :=
    Store.follow_mem_spots (Store.row_mem_spots hc.has)
  exact Store.spots_mono (Set.union_subset (Set.empty_subset A) hspots) hpassed

/-- The size of the parts of corrections. -/
def total (cs : List Correction) : Nat := (cs.flatMap (·.addition)).length

/-- The nodes along a path are found or put at the spots that it passes. This succeeds where there is room,
if the path leads through identifiers. -/
theorem ends_foldlM_ensureNode (h : st.Outgrowth st₁ A place) (hx : x ∈ st.spots A)
    (htexts : ∀ t ∈ path, t.IsText) (hlinks : ∀ t ∈ path.dropLast, t.isLink = true)
    (htable : path ≠ [] → x.table = .datamapIdentifiers) :
    (path.foldlM ensureNode (place x)).Ends w st₁
      (fun q st₂ => ∃ place', st.GrowsOn st₁ A place st₂ (st.passed x path) place' (2 * path.length) ∧
        place' (st.follow x path) = q)
      (fun st' => st₁.Grows st' ∧ ¬ (w = true ∧ st₁.Room (2 * path.length))) := by
  induction path generalizing st₁ A place x with
  | nil => exact Change.Ends.pure ⟨place, .refl h, rfl⟩
  | cons t rest ih =>
    have hlength : 2 * (t :: rest).length = 2 + 2 * rest.length := by
      rw [List.length_cons]
      omega
    rw [List.foldlM_cons, hlength]
    refine Change.Ends.bind ((ends_ensureNode_provides h.grows.integral (h.has hx)
      (htexts t List.mem_cons_self)).mono ?_ ?_)
    · intro c st' hprovides
      obtain ⟨place₁, h₁, rfl⟩ := h.provide hx hprovides
      -- If the path goes on, the value is a variable and its node an identifier.
      have hnode : rest ≠ [] → t.isLink = true ∧ ∀ u ∈ rest.dropLast, u.isLink = true := by
        intro hne
        rw [List.dropLast_cons_of_ne_nil hne] at hlinks
        exact List.forall_mem_cons.mp hlinks
      have hrest := ih h₁.outgrowth (st.spotBelow_mem_spots A x t)
        (fun u hu => htexts u (List.mem_cons_of_mem t hu)) ?_ ?_
      · refine hrest.mono ?_ ?_
        · rintro q st₂ ⟨place₂, h₂, hq⟩
          exact ⟨place₂, h₁.trans h₂, hq⟩
        · rintro st'' ⟨hgrows, hnot⟩
          exact ⟨h₁.grows.trans hgrows, fun hsure => hnot ⟨hsure.1, h₁.room _ hsure.2⟩⟩
      · by_cases hne : rest = []
        · rw [hne]
          exact fun u hu => absurd hu List.not_mem_nil
        · exact (hnode hne).2
      · intro hne
        rw [Store.table_spotBelow]
        have hkind : t.kind = .identifier := by simpa [Triple.isLink] using (hnode hne).1
        rw [Triple.nodeKey, hkind]
        rfl
    · rintro st' ⟨hgrows, hnot⟩
      refine ⟨hgrows, fun hsure => hnot ⟨hsure.1, hsure.2.mono (by omega), ?_⟩⟩
      rw [h.table_eq x hx]
      exact htable (List.cons_ne_nil t rest)

/-- A correction puts the nodes at the spots that its part passes. -/
theorem ends_apply_growsOn (h : st.Outgrowth st₁ A place) {c : Correction} (hc : c.Applicable st) :
    c.apply.Ends w st₁
      (fun applied st₂ => ∃ place', st.GrowsOn st₁ A place st₂ (c.spots st) place' (2 * c.addition.length) ∧
        applied = c.placed st place')
      (fun st' => st₁.Grows st' ∧ ¬ (w = true ∧ st₁.Room (2 * c.addition.length))) := by
  have hfold := ends_foldlM_ensureNode (w := w) h (Store.row_mem_spots hc.has) hc.isText hc.isLink
    fun _ => hc.table_eq
  rw [h.row] at hfold
  unfold apply
  refine Change.Ends.bind (hfold.mono ?_ fun _ hE => hE)
  rintro q st₂ ⟨place', h', rfl⟩
  exact Change.Ends.pure ⟨place', h', rfl⟩

/-- Corrections put the nodes at the spots that their parts pass. This succeeds where there is room. -/
theorem leads_applyInTurn_growsOn {cs : List Correction} (h : st.Outgrowth st₁ A place)
    (hcs : ∀ c ∈ cs, c.Applicable st) :
    Session.Leads (applyInTurn cs) w st₁ fun r st₂ =>
      (r.2 = none → ∃ place', st.GrowsOn st₁ A place st₂ (allSpots st cs) place' (2 * total cs) ∧
        r.1 = cs.map (placed st place')) ∧
      (r.2 ≠ none → st₁.Grows st₂ ∧ ¬ (w = true ∧ st₁.Room (2 * total cs))) := by
  induction cs generalizing st₁ A place with
  | nil =>
    have hnone : allSpots st [] = ∅ := by simp [allSpots]
    rw [hnone]
    exact Session.Leads.pure ⟨fun _ => ⟨place, .refl h, rfl⟩, fun hsome => absurd rfl hsome⟩
  | cons c rest ih =>
    have hlength : 2 * total (c :: rest) = 2 * c.addition.length + 2 * total rest := by
      unfold total
      rw [List.flatMap_cons, List.length_append]
      omega
    have hspots : allSpots st (c :: rest) = c.spots st ∪ allSpots st rest := by
      ext x
      simp [allSpots]
    have hc := hcs c List.mem_cons_self
    rw [applyInTurn, hlength, hspots]
    refine Session.Leads.bind (Session.Leads.mono (ends_apply_growsOn h hc) ?_)
    rintro (e | applied) st' hr
    · exact Session.Leads.pure ⟨fun hnone => absurd hnone (Option.some_ne_none e), fun _ =>
        ⟨hr.1, fun hsure => hr.2 ⟨hsure.1, hsure.2.mono (by omega)⟩⟩⟩
    · obtain ⟨place₁, h₁, rfl⟩ := hr
      refine Session.Leads.bind ((ih h₁.outgrowth fun c' hc' => hcs c' (List.mem_cons_of_mem c hc')).mono ?_)
      rintro ⟨others, failure⟩ st₂ ⟨hdone, hfailed⟩
      refine Session.Leads.pure ⟨fun hnone => ?_, fun hsome => ?_⟩
      · obtain ⟨place₂, h₂, rfl⟩ := hdone hnone
        refine ⟨place₂, h₁.trans h₂, ?_⟩
        -- The later corrections leave the last node of the first one where it is.
        have htail := h₂.eqOn (hc.end_mem_spots Set.subset_union_right)
        rw [List.map_cons, placed, placed, htail]
      · obtain ⟨hgrows, hnot⟩ := hfailed hsome
        exact ⟨h₁.grows.trans hgrows, fun hsure => hnot ⟨hsure.1, h₁.room _ hsure.2⟩⟩

end Correction

end SoarProject
