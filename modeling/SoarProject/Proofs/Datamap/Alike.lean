import SoarProject.Proofs.Datamap.Generation
import SoarProject.Proofs.Datamap.Outgrowth

/-!
# Datamaps that are alike

Two stores that grew out of one by the same spots have the same datamaps, up to the ids of the new rows: the
rows at each spot correspond, and what was there before corresponds to itself. The links of a correction
correspond too, since the way up from its anchor passes rows from before only.

* `Store.Alike`: a bijection between the rows of two stores that keeps names, tables, edges and joins.
* `Correction.exists_alike`: corrections that pass the same spots make stores that are alike.
* `Correction.ends_applyAll_outgrowth`: corrections add the rows at the spots that they pass.
-/

namespace SoarProject

open Registry

variable {w : Bool} {st st' st₁ st₂ st₁' st₂' : Store} {r p c d q root : Row} {t : Table} {k : NodeKey}
  {e : Edge} {step : Triple} {path : List Triple} {A : Set Spot} {place place₁ place₂ : Spot → Row}
  {φ : Row → Row} {x y : Spot} {visited : List Row}

namespace Store

/-! ### Rows of before -/

namespace Outgrowth

variable (h : st.Outgrowth st₁ A place)

include h

/-- No edge to a row of before is new. -/
theorem edge_iff_of_has (hc : st.Has c) : st₁.HasEdge e p c ↔ st.HasEdge e p c := by
  constructor
  · intro hedge
    obtain ⟨x, hx, rfl⟩ := h.exists_place (h.grows.integral.has_of_hasEdge hedge).1
    rw [← h.row c, h.edge_iff e x hx _ (row_mem_spots hc)] at hedge
    cases x with
    | row p =>
      rw [h.row]
      exact hedge
    | under => exact hedge.elim
  · exact h.grows.hasEdge

/-- The first child in a table is that of before, unless the children are values. -/
theorem head?_childrenIn_eq (hst : st.Integral) (hr : st.Has r) (ht : t ≠ .datamapEnumerationValues) :
    (st₁.childrenIn r t).head? = (st.childrenIn r t).head? := by
  obtain ⟨id, hid⟩ := hr.exists_id
  have hmem : ∀ {st : Store}, st.Sound → ∀ c, c ∈ st.childrenIn r t ↔ c.table = t ∧ st.IsParent r c := by
    intro st hst c
    rw [hid]
    exact hst.mem_childrenIn_iff
  cases hhead : (st.childrenIn r t).head? with
  | some c => exact h.grows.head?_childrenIn hhead
  | none =>
    rw [List.head?_eq_none_iff] at hhead ⊢
    refine List.eq_nil_iff_forall_not_mem.mpr fun c hc => ?_
    obtain ⟨htable, hparent⟩ := (hmem h.grows.integral.toSound c).mp hc
    -- The child is none of the new rows: those are values, or they have no parent.
    obtain ⟨y, hy, rfl⟩ := h.exists_place hparent.has
    rw [← h.row r] at hparent
    have hedge := (h.edge_iff .child _ (row_mem_spots hr) y hy).mp hparent
    cases y with
    | row c =>
      rw [h.row] at htable
      have hold := (hmem hst.toSound c).mpr ⟨htable, hedge⟩
      rw [hhead] at hold
      exact List.not_mem_nil hold
    | under y k =>
      rw [h.table_eq _ hy] at htable
      have hedge := (Spot.hasEdge_under.mp hedge).2
      unfold NodeKey.edge at hedge
      split at hedge
      · next hvalues => exact ht (htable.symm.trans hvalues)
      · cases hedge

/-- The rows that a row of before is joined below are those of before. -/
theorem isNext_iff (hst : st.Integral) (hr : st.Has r) : st₁.IsNext r q ↔ st.IsNext r q := by
  have hparent : ∀ p, st₁.IsParent p r ↔ st.IsParent p r := fun p => h.edge_iff_of_has (e := .child) hr
  have habove : ∀ p, st₁.IsAbove p r ↔ st.IsAbove p r := fun p => h.edge_iff_of_has (e := .join) hr
  simp only [IsNext, hparent, hst.joinedParents_congr h.grows.integral hr habove]

/-- A walk up from a row of before is one of before. -/
theorem climbs_iff (hst : st.Integral) (hr : st.Has r) :
    st₁.Climbs t visited r q ↔ st.Climbs t visited r q := by
  constructor
  · intro hclimbs
    induction hclimbs with
    | here hnew htable => exact .here hnew htable
    | up hnew htable hnext _ ih =>
      have hnext := (h.isNext_iff hst hr).mp hnext
      exact .up hnew htable hnext (ih (hst.has_of_isNext hr hnext))
  · intro hclimbs
    induction hclimbs with
    | here hnew htable => exact .here hnew htable
    | up hnew htable hnext _ ih =>
      exact .up hnew htable ((h.isNext_iff hst hr).mpr hnext) (ih (hst.has_of_isNext hr hnext))

/-- A spot whose row was there is that of the row. -/
theorem eq_row_of_has (hx : x ∈ st.spots A) (hr : st.Has (place x)) : x = .row (place x) :=
  h.bijOn.injOn hx (row_mem_spots hr) (h.row _).symm

/-- The undirected joins are those of before. -/
theorem isJoined_iff : st₁.IsJoined project p c ↔ st.IsJoined project p c := by
  simp only [IsJoined, h.joins_eq]

end Outgrowth

/-! ### Rows that correspond -/

/-- A row leads down to another one along some keys. -/
def LeadsBy (st : Store) : Row → List NodeKey → Row → Prop
  | p, [], q => p = q
  | p, k :: rest, q => ∃ c, st.Keyed p k c ∧ st.LeadsBy c rest q

/-- Two stores that grew out of one have the same nodes, up to the ids of the new ones. -/
structure NodesAlike (st st₁ st₂ : Store) (φ : Row → Row) : Prop where
  /-- What was there before corresponds to itself. -/
  fixes : ∀ r, st.Has r → φ r = r
  bijOn : Set.BijOn φ {r | st₁.Has r} {r | st₂.Has r}
  table_eq : ∀ r, st₁.Has r → (φ r).table = r.table
  named_iff : ∀ r, st₁.Has r → ∀ name, st₂.Named (φ r) name ↔ st₁.Named r name
  edge_iff : ∀ e p c, st₁.Has p → st₁.Has c → (st₂.HasEdge e (φ p) (φ c) ↔ st₁.HasEdge e p c)

/-- They have the same undirected joins as well, whichever way round these are recorded. -/
structure Alike (st st₁ st₂ : Store) (φ : Row → Row) : Prop extends NodesAlike st st₁ st₂ φ where
  isJoined_iff : ∀ p c, st₁.Has p → st₁.Has c →
    (st₂.IsJoined project (φ p) (φ c) ↔ st₁.IsJoined project p c)

/-- The edges are the same. -/
theorem SameNodes.hasEdge_iff (h : st.SameNodes st') : st'.HasEdge e p c ↔ st.HasEdge e p c := by
  cases e with
  | child => exact h.isParent_iff
  | join => exact h.isAbove_iff

theorem keyed_congr (hedge : st'.HasEdge k.edge q d ↔ st.HasEdge k.edge p c) (htable : d.table = c.table)
    (hname : st'.Named d k.name ↔ st.Named c k.name) : st'.Keyed q k d ↔ st.Keyed p k c :=
  ⟨fun h => ⟨hedge.mp h.hasEdge, htable.symm.trans h.table_eq, hname.mp h.named⟩,
    fun h => ⟨hedge.mpr h.hasEdge, htable.trans h.table_eq, hname.mpr h.named⟩⟩

theorem SameNodes.keyed_iff (h : st.SameNodes st') : st'.Keyed p k c ↔ st.Keyed p k c :=
  keyed_congr h.hasEdge_iff rfl h.named_iff

namespace NodesAlike

variable (h : st.NodesAlike st₁ st₂ φ)

include h

theorem has (hr : st₁.Has r) : st₂.Has (φ r) := h.bijOn.mapsTo hr

theorem exists_has (hr : st₂.Has r) : ∃ q, st₁.Has q ∧ φ q = r := h.bijOn.surjOn hr

theorem keyed_iff (hp : st₁.Has p) (hc : st₁.Has c) : st₂.Keyed (φ p) k (φ c) ↔ st₁.Keyed p k c :=
  keyed_congr (h.edge_iff _ p c hp hc) (h.table_eq c hc) (h.named_iff c hc _)

/-- The ways down are the same. -/
theorem leadsBy_iff {ks : List NodeKey} (hp : st₁.Has p) (hq : st₁.Has q) :
    st₂.LeadsBy (φ p) ks (φ q) ↔ st₁.LeadsBy p ks q := by
  induction ks generalizing p with
  | nil => exact h.bijOn.injOn.eq_iff hp hq
  | cons k rest ih =>
    constructor
    · rintro ⟨c, hc, hrest⟩
      obtain ⟨c, hhas, rfl⟩ := h.exists_has hc.named.has
      exact ⟨c, (h.keyed_iff hp hhas).mp hc, (ih hhas).mp hrest⟩
    · rintro ⟨c, hc, hrest⟩
      exact ⟨φ c, (h.keyed_iff hp hc.named.has).mpr hc, (ih hc.named.has).mpr hrest⟩

/-- The values of enumerations are the same. -/
theorem holds_iff {value : Cell} (hc : st₁.Has c) : st₂.Holds (φ c) value ↔ st₁.Holds c value := by
  constructor
  · rintro ⟨v, htable, hparent, name, hname, heq⟩
    obtain ⟨v, hv, rfl⟩ := h.exists_has hparent.has
    exact ⟨v, (h.table_eq v hv).symm.trans htable, (h.edge_iff .child c v hc hv).mp hparent, name,
      (h.named_iff v hv name).mp hname, heq⟩
  · rintro ⟨v, htable, hparent, name, hname, heq⟩
    have hv := hparent.has
    exact ⟨φ v, (h.table_eq v hv).trans htable, (h.edge_iff .child c v hc hv).mpr hparent, name,
      (h.named_iff v hv name).mpr hname, heq⟩

theorem stands (h₁ : st₁.Sound) (hstands : st₁.Stands p step c) : st₂.Stands (φ p) step (φ c) := by
  obtain ⟨⟨habove, hkind⟩, hname⟩ := hstands
  obtain ⟨hp, hc⟩ := h₁.has_of_isAbove habove
  refine ⟨⟨(h.edge_iff .join p c hp hc).mpr habove, ?_⟩, (h.named_iff c hc _).mpr hname⟩
  rwa [h.table_eq c hc, h.holds_iff hc]

theorem leads (h₁ : st₁.Sound) (hpath : st₁.Leads p path q) : st₂.Leads (φ p) path (φ q) := by
  induction hpath with
  | nil => exact .nil
  | cons hstands _ ih => exact .cons (h.stands h₁ hstands) ih

/-- Undirected joins do not matter. -/
theorem of_sameNodes (h₁ : st₁.SameNodes st₁') (h₂ : st₂.SameNodes st₂') : st.NodesAlike st₁' st₂' φ := by
  have hrows : {r | st₁'.Has r} = {r | st₁.Has r} := by
    ext r
    exact h₁.has_iff
  have hrows' : {r | st₂'.Has r} = {r | st₂.Has r} := by
    ext r
    exact h₂.has_iff
  -- Nodes, names and edges are the same with the joins as without them.
  refine
    { fixes := h.fixes
      bijOn := by rw [hrows, hrows']; exact h.bijOn
      table_eq := fun r hr => h.table_eq r (h₁.has_iff.mp hr)
      named_iff := fun r hr name => ?_
      edge_iff := fun e p c hp hc => ?_ }
  · rw [h₁.named_iff, h₂.named_iff]
    exact h.named_iff r (h₁.has_iff.mp hr) name
  · rw [h₁.hasEdge_iff, h₂.hasEdge_iff]
    exact h.edge_iff e p c (h₁.has_iff.mp hp) (h₁.has_iff.mp hc)

end NodesAlike

namespace Outgrowth

variable (h₁ : st.Outgrowth st₁ A place₁) (h₂ : st.Outgrowth st₂ A place₂)

include h₁ h₂

/-- The rows at the spots correspond. -/
theorem exists_nodesAlike : ∃ φ, st.NodesAlike st₁ st₂ φ ∧ ∀ x ∈ st.spots A, φ (place₁ x) = place₂ x := by
  have : Nonempty Spot := ⟨.row (.ofId .agents 1)⟩
  -- A row of the first store is sent where its spot is placed in the second; spots have places of their own.
  obtain ⟨φ, hφ⟩ : ∃ φ : Row → Row, ∀ x ∈ st.spots A, φ (place₁ x) = place₂ x :=
    ⟨fun r => place₂ (Function.invFunOn place₁ (st.spots A) r), fun x hx =>
      congrArg place₂ (h₁.bijOn.injOn.leftInvOn_invFunOn hx)⟩
  refine ⟨φ,
    { fixes := fun r hr => ?_
      bijOn := ⟨fun r hr => ?_, fun r hr q hq heq => ?_, fun r hr => ?_⟩
      table_eq := fun r hr => ?_
      named_iff := fun r hr name => ?_
      edge_iff := fun e p c hp hc => ?_ }, hφ⟩
  · have hrow := hφ (.row r) (row_mem_spots hr)
    rwa [h₁.row, h₂.row] at hrow
  · obtain ⟨x, hx, rfl⟩ := h₁.exists_place hr
    show st₂.Has (φ (place₁ x))
    rw [hφ x hx]
    exact h₂.has hx
  · obtain ⟨x, hx, rfl⟩ := h₁.exists_place hr
    obtain ⟨y, hy, rfl⟩ := h₁.exists_place hq
    rw [hφ x hx, hφ y hy] at heq
    rw [h₂.bijOn.injOn hx hy heq]
  · obtain ⟨x, hx, rfl⟩ := h₂.exists_place hr
    exact ⟨place₁ x, h₁.has hx, hφ x hx⟩
  · obtain ⟨x, hx, rfl⟩ := h₁.exists_place hr
    rw [hφ x hx, h₁.table_eq x hx, h₂.table_eq x hx]
  · obtain ⟨x, hx, rfl⟩ := h₁.exists_place hr
    rw [hφ x hx, h₁.named_iff x hx, h₂.named_iff x hx]
  · obtain ⟨x, hx, rfl⟩ := h₁.exists_place hp
    obtain ⟨y, hy, rfl⟩ := h₁.exists_place hc
    rw [hφ x hx, hφ y hy, h₁.edge_iff e x hx y hy, h₂.edge_iff e x hx y hy]

/-- Rows at spots are joined as before. -/
theorem isJoined_place (hst : st.Integral) (hx : x ∈ st.spots A) (hy : y ∈ st.spots A)
    (hjoined : st₁.IsJoined project (place₁ x) (place₁ y)) :
    st₂.IsJoined project (place₂ x) (place₂ y) := by
  rw [h₁.isJoined_iff] at hjoined
  -- Both rows were there before.
  obtain ⟨hp, hc⟩ := hst.has_of_isJoined hjoined
  rw [h₁.eq_row_of_has hx hp, h₁.eq_row_of_has hy hc, h₂.row, h₂.row, h₂.isJoined_iff]
  exact hjoined

end Outgrowth

end Store

open Store (Outgrowth GrowsOn NodesAlike Alike)

/-! ### Corrections -/

namespace Correction

section

variable (hst : st.Integral) (h₁ : st.Outgrowth st₁ A place₁) (h₂ : st.Outgrowth st₂ A place₂)

include hst h₁ h₂

/-- What a correction links corresponds. -/
theorem linksTo_placed {c : Correction} (hc : c.Applicable st) (hspots : c.spots st ⊆ A)
    (hx : x ∈ st.spots A) (hy : y ∈ st.spots A)
    (hlinks : (c.placed st place₁).LinksTo st₁ (place₁ x) (place₁ y)) :
    (c.placed st place₂).LinksTo st₂ (place₂ x) (place₂ y) := by
  obtain ⟨htail, space, root, hclimbs, hhead, path, hpath, hleads, hne, hdeclared⟩ := hlinks
  obtain ⟨φ, hφ, hplace⟩ := h₁.exists_nodesAlike h₂
  have hspot := h₁.bijOn.injOn (hc.end_mem_spots hspots) hy (Option.some.inj htail)
  -- The way up from the anchor passes rows of before, and so does the way down to the root.
  have hclimbs := (h₁.climbs_iff hst hc.has).mp hclimbs
  have hspace := hst.has_of_climbs hc.has hclimbs
  rw [h₁.head?_childrenIn_eq hst hspace (by decide)] at hhead
  have hroot : st.Has root := Store.has_of_mem_childrenIn (List.mem_of_mem_head? hhead)
  refine ⟨congrArg (fun x => some (place₂ x)) hspot, space, root, (h₂.climbs_iff hst hc.has).mpr hclimbs,
    (h₂.head?_childrenIn_eq hst hspace (by decide)).trans hhead, path, hpath, ?_, fun heq => hne ?_, ?_⟩
  · rw [← hplace x hx, ← hφ.fixes root hroot]
    exact hφ.leads h₁.grows.integral.toSound hleads
  · rw [h₂.bijOn.injOn hx hy heq]
  · rw [h₁.table_eq x hx, h₁.table_eq y hy] at hdeclared
    rw [h₂.table_eq x hx, h₂.table_eq y hy]
    exact hdeclared

/-- What some corrections link is linked by them in another order. -/
theorem exists_linksTo_place {cs cs' : List Correction}
    (hcs : ∀ c ∈ cs, c.Applicable st ∧ c.spots st ⊆ A) (hsubset : cs ⊆ cs')
    (hx : x ∈ st.spots A) (hy : y ∈ st.spots A)
    (hlinks : ∃ c ∈ cs.map (placed st place₁), c.LinksTo st₁ (place₁ x) (place₁ y)) :
    ∃ c ∈ cs'.map (placed st place₂), c.LinksTo st₂ (place₂ x) (place₂ y) := by
  obtain ⟨c', hc', hlinks⟩ := hlinks
  obtain ⟨c, hc, rfl⟩ := List.mem_map.mp hc'
  obtain ⟨happlicable, hspots⟩ := hcs c hc
  exact ⟨c.placed st place₂, List.mem_map_of_mem (hsubset hc),
    linksTo_placed hst h₁ h₂ happlicable hspots hx hy hlinks⟩

end

/-- The same corrections in another order add the same nodes and the same links. -/
theorem exists_alike (hst : st.Integral) (h₁ : st.Outgrowth st₁ A place₁)
    (h₂ : st.Outgrowth st₂ A place₂) {cs cs' : List Correction}
    (hcs : ∀ c ∈ cs, c.Applicable st ∧ c.spots st ⊆ A) (hmem : ∀ c, c ∈ cs ↔ c ∈ cs')
    (hlinks₁ : st₁.LinksBy st₁' fun x y => ∃ c ∈ cs.map (placed st place₁), c.LinksTo st₁ x y)
    (hlinks₂ : st₂.LinksBy st₂' fun x y => ∃ c ∈ cs'.map (placed st place₂), c.LinksTo st₂ x y) :
    ∃ φ, st.Alike st₁' st₂' φ := by
  obtain ⟨φ, hφ, hplace⟩ := h₁.exists_nodesAlike h₂
  refine ⟨φ, hφ.of_sameNodes hlinks₁.same hlinks₂.same, fun p c hp hc => ?_⟩
  -- Every row of a grown store is the place of a spot, so the joins are compared on spots.
  obtain ⟨x, hx, rfl⟩ := h₁.exists_place (hlinks₁.same.has_iff.mp hp)
  obtain ⟨y, hy, rfl⟩ := h₁.exists_place (hlinks₁.same.has_iff.mp hc)
  have hcs' : ∀ c ∈ cs', c.Applicable st ∧ c.spots st ⊆ A := fun c hc => hcs c ((hmem c).mpr hc)
  have hlinks : ∀ {x y}, x ∈ st.spots A → y ∈ st.spots A →
      ((∃ c ∈ cs'.map (placed st place₂), c.LinksTo st₂ (place₂ x) (place₂ y)) ↔
        ∃ c ∈ cs.map (placed st place₁), c.LinksTo st₁ (place₁ x) (place₁ y)) := fun hx hy =>
    ⟨exists_linksTo_place hst h₂ h₁ hcs' (fun c hc => (hmem c).mpr hc) hx hy,
      exists_linksTo_place hst h₁ h₂ hcs (fun c hc => (hmem c).mp hc) hx hy⟩
  -- A join was there before, or one of the corrections made it.
  rw [hplace x hx, hplace y hy, hlinks₁.isJoined_iff, hlinks₂.isJoined_iff]
  exact or_congr ⟨h₂.isJoined_place h₁ hst hx hy, h₁.isJoined_place h₂ hst hx hy⟩
    (or_congr (hlinks hx hy) (hlinks hy hx))

/-- Corrections add the rows at the spots that they pass, and then their links. This succeeds where there is
room. -/
theorem ends_applyAll_outgrowth (h : st.Integral) {cs : List Correction}
    (hcs : ∀ c ∈ cs, c.Applicable st) :
    (applyAll cs).Ends w st
      (fun applied st' => ∃ st₁ place, st.Outgrowth st₁ (allSpots st cs) place ∧
        applied = cs.map (placed st place) ∧
        st₁.LinksBy st' fun x y => ∃ c ∈ applied, c.LinksTo st₁ x y)
      (fun st' => st.Grows st' ∧ ¬ (w = true ∧ st.Room (2 * total cs))) := by
  -- While the paths are applied every correction is placed, and the links come after the last of them.
  let A (applied : List Correction) (st₁ : Store) : Prop :=
    ∃ place, st.GrowsOn st ∅ Spot.base st₁ (allSpots st cs) place (2 * total cs) ∧
      applied = cs.map (placed st place)
  refine (ends_applyAll_of (A := A) (leads_applyInTurn_growsOn h.outgrowth hcs) ?_ ?_).mono ?_
    fun _ hE => hE
  · rintro _ st₁ ⟨place, hgrown, rfl⟩
    refine ⟨hgrown.grows.integral, fun c' hc' => ?_⟩
    obtain ⟨c, hc, rfl⟩ := List.mem_map.mp hc'
    refine ⟨hgrown.grows.has (hcs c hc).has, fun q hq => ?_⟩
    obtain rfl := Option.some.inj hq
    apply hgrown.outgrowth.has
    exact (hcs c hc).end_mem_spots fun x hx => .inr ⟨c, hc, hx⟩
  · -- With room to begin with, the ids are still small enough when the links are made.
    rintro _ st₁ st' ⟨place, hgrown, -⟩ hgrows hnot
    exact ⟨hgrown.grows.trans hgrows, fun hsure => hnot ⟨hsure.1, (hgrown.room 0 hsure.2).fits⟩⟩
  · rintro applied st' ⟨st₁, ⟨place, hgrown, rfl⟩, hlinks⟩
    have houtgrowth := hgrown.outgrowth
    rw [Set.empty_union] at houtgrowth
    exact ⟨st₁, place, houtgrowth, rfl, hlinks⟩

end Correction

end SoarProject
