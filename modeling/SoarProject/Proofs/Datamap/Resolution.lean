import SoarProject.Datamap.Resolution
import SoarProject.Proofs.Datamap.Chain
import SoarProject.Proofs.Row.Naming

/-!
# What paths resolve to

The nodes that a path of triples leads to, stated on the records and pairs of the store. A growing store
loses none of them.

* `Store.Stands`: a node stands for a triple below another node.
* `Store.Leads`: a chain of such nodes leads from a node to another one.
* `finds_resolveFrom`: what a path resolves to is what chains lead to.
-/

namespace SoarProject

open Registry

variable {st st' : Store} {r p c q : Row} {t : Table} {id : Int} {name : String} {step : Triple}
  {path : List Triple}

namespace Store

/-- An enumeration has a child that is named like a value. -/
def Holds (st : Store) (r : Row) (value : Cell) : Prop :=
  ∃ c, c.table = .datamapEnumerationValues ∧ st.IsParent r c ∧
    ∃ name, st.Named c name ∧ Cell.text name = value

/-- Below the node `p`, the node `c` belongs to the right table for the value of a triple. -/
def IsCandidate (st : Store) (p : Row) (step : Triple) (c : Row) : Prop :=
  st.IsAbove p c ∧ (c.table = step.kind.nodeTable ∧ (step.kind = .string → st.Holds c step.value) ∨
    step.kind = .string ∧ c.table = .datamapStrings)

/-- Below the node `p`, the node `c` stands for a triple. -/
def Stands (st : Store) (p : Row) (step : Triple) (c : Row) : Prop :=
  st.IsCandidate p step c ∧ st.Named c step.attributeName

/-- A chain of nodes that stand for the triples of a path leads from a node to another one. -/
inductive Leads (st : Store) : Row → List Triple → Row → Prop
  | nil {r : Row} : Leads st r [] r
  | cons {p c q : Row} {step : Triple} {rest : List Triple} :
    st.Stands p step c → Leads st c rest q → Leads st p (step :: rest) q

/-! ### Growing stores -/

namespace Grows

variable (h : st.Grows st')

include h

theorem named (hr : st.Named r name) : st'.Named r name := by
  obtain ⟨record, hrecord, hid⟩ := hr
  exact ⟨record, h.rows_subset _ hrecord, hid⟩

theorem holds {value : Cell} (hr : st.Holds r value) : st'.Holds r value := by
  obtain ⟨c, htable, hparent, name, hname, hvalue⟩ := hr
  exact ⟨c, htable, h.isParent hparent, name, h.named hname, hvalue⟩

theorem stands (hc : st.Stands p step c) : st'.Stands p step c := by
  obtain ⟨⟨habove, hcandidate⟩, hname⟩ := hc
  exact ⟨⟨h.isAbove habove, hcandidate.imp_left fun hnode =>
    ⟨hnode.1, fun hkind => h.holds (hnode.2 hkind)⟩⟩, h.named hname⟩

theorem leads (hpath : st.Leads p path q) : st'.Leads p path q := by
  induction hpath with
  | nil => exact .nil
  | cons hc _ ih => exact .cons (h.stands hc) ih

end Grows

theorem Leads.append {path' : List Triple} (h : st.Leads p path c) (h' : st.Leads c path' q) :
    st.Leads p (path ++ path') q := by
  induction h with
  | nil => exact h'
  | cons hc _ ih => exact .cons hc (ih h')

/-- A chain leads through a node that its first part leads to. -/
theorem Leads.exists_of_append {path' : List Triple} (h : st.Leads p (path ++ path') q) :
    ∃ c, st.Leads p path c := by
  induction path generalizing p with
  | nil => exact ⟨p, .nil⟩
  | cons t path ih =>
    cases h with
    | cons hstands hrest =>
      obtain ⟨c, hpath⟩ := ih hrest
      exact ⟨c, .cons hstands hpath⟩

theorem leads_nil_iff : st.Leads p [] q ↔ q = p := by
  constructor
  · rintro ⟨⟩
    rfl
  · rintro rfl
    exact .nil

/-- A chain that ends with a triple leads to a node that stands for it. -/
theorem leads_concat_iff : st.Leads p (path ++ [step]) q ↔ ∃ c, st.Leads p path c ∧ st.Stands c step q := by
  constructor
  · -- The last step is split off where the path ends, below all its other steps.
    intro h
    induction path generalizing p with
    | nil =>
      cases h with
      | cons hstands hrest =>
        cases hrest
        exact ⟨p, .nil, hstands⟩
    | cons t path ih =>
      cases h with
      | cons hstands hrest =>
        obtain ⟨c, hpath, hlast⟩ := ih hrest
        exact ⟨c, .cons hstands hpath, hlast⟩
  · rintro ⟨c, hpath, hlast⟩
    exact hpath.append (.cons hlast .nil)

/-- A node stands for all triples of one shape. -/
theorem Stands.of_shape {step' : Triple} (h : st.Stands p step c) (hshape : step'.shape = step.shape) :
    st.Stands p step' c := by
  simp only [Triple.shape, Prod.mk.injEq] at hshape
  obtain ⟨hattribute, hkind, hvalue⟩ := hshape
  unfold Stands IsCandidate at h ⊢
  rwa [hattribute, hkind, hvalue]

/-- A path leads to a node if its triples have the shapes with which a chain begins. -/
theorem Leads.exists_of_shapes {path' : List Triple} (h : st.Leads p path q)
    (hshapes : path'.map Triple.shape <+: path.map Triple.shape) : ∃ c, st.Leads p path' c := by
  induction h generalizing path' with
  | @nil p =>
    rw [List.map_nil, List.prefix_nil, List.map_eq_nil_iff] at hshapes
    exact ⟨p, hshapes ▸ .nil⟩
  | @cons p c q step rest hstands _ ih =>
    cases path' with
    | nil => exact ⟨p, .nil⟩
    | cons step' rest' =>
      rw [List.map_cons, List.map_cons, List.cons_prefix_cons] at hshapes
      obtain ⟨d, hd⟩ := ih hshapes.2
      exact ⟨d, .cons (hstands.of_shape hshapes.1) hd⟩

/-- What a chain leads to exists. -/
theorem Sound.has_of_leads (h : st.Sound) (hp : st.Has p) (hpath : st.Leads p path q) : st.Has q := by
  induction hpath with
  | nil => exact hp
  | cons hc _ ih => exact ih (h.has_of_isAbove hc.1.1).2

end Store

namespace Row

/-! ### Nodes -/

/-- Whether an enumeration holds a value is found. -/
theorem finds_hasEnumerationValue (h : st.Sound) (hr : st.Has r) {value : Cell} :
    (r.hasEnumerationValue value).Finds st st.Fits (fun found => found = true ↔ st.Holds r value) := by
  obtain ⟨id, hid⟩ := hr.exists_id
  unfold hasEnumerationValue
  refine ((finds_childrenOfType h.shaped).mono_sure fun hfits => hfits.row hr).bind ?_
  rintro _ rfl
  have hmem : ∀ c, c ∈ st.childrenIn r .datamapEnumerationValues ↔
      c.table = .datamapEnumerationValues ∧ st.IsParent r c := by
    intro c
    rw [hid]
    exact h.mem_childrenIn_iff
  -- The search stops at the first value of the name, and there is one exactly when one stands below.
  refine (Query.Finds.anyM (P := fun c => ∃ name, st.Named c name ∧ Cell.text name = value)
    fun c hc => ?_).mono fun found hfound => ?_
  · refine (finds_name h ((hmem c).mp hc).2.has).bind fun name hname => Query.Finds.pure ?_
    rw [beq_iff_eq]
    refine ⟨fun heq => ⟨name, hname, heq⟩, ?_⟩
    rintro ⟨other, hother, rfl⟩
    rw [h.named_unique hname hother]
  · rw [hfound]
    simp only [hmem, Store.Holds, and_assoc]

/-- The rows of a table that are joined below an existing row are found. -/
theorem finds_joinedBelow (h : st.Sound) (hp : st.Has p) :
    (p.directedChildrenOfType t).Finds st st.Fits
      (fun found => ∀ c, c ∈ found ↔ c.table = t ∧ st.IsAbove p c) := by
  obtain ⟨id, hid⟩ := hp.exists_id
  refine ((finds_directedChildrenOfType h).mono_sure fun hfits => hfits.row hp).mono ?_
  rintro _ rfl c
  rw [hid]
  exact h.mem_joinedChildrenIn_iff

/-- The nodes are found that may stand for the value of a triple. -/
theorem finds_candidateNodes (h : st.Sound) (hp : st.Has p) :
    (p.candidateNodes step).Finds st st.Fits
      (fun found => ∀ c, c ∈ found ↔ st.IsCandidate p step c) := by
  unfold candidateNodes
  refine (finds_joinedBelow h hp).bind fun nodes hnodes => ?_
  split
  · next hkind =>
    -- A string step takes enumerations that hold the value, and string nodes besides.
    refine (Query.Finds.filterM (P := fun c => st.Holds c step.value) fun c hc =>
      finds_hasEnumerationValue h (h.has_of_isAbove ((hnodes c).mp hc).2).2).bind
      fun holding hholding => ?_
    refine (finds_joinedBelow h hp).bind fun strings hstrings => Query.Finds.pure fun c => ?_
    rw [List.mem_append, hholding, hnodes, hstrings, Store.IsCandidate]
    constructor
    · rintro (⟨⟨htable, habove⟩, hholds⟩ | ⟨htable, habove⟩)
      · exact ⟨habove, Or.inl ⟨htable, fun _ => hholds⟩⟩
      · exact ⟨habove, Or.inr ⟨hkind, htable⟩⟩
    · rintro ⟨habove, ⟨htable, hholds⟩ | ⟨-, htable⟩⟩
      · exact Or.inl ⟨⟨htable, habove⟩, hholds hkind⟩
      · exact Or.inr ⟨htable, habove⟩
  · next hkind =>
    refine Query.Finds.pure fun c => ?_
    rw [hnodes, Store.IsCandidate]
    constructor
    · rintro ⟨htable, habove⟩
      exact ⟨habove, Or.inl ⟨htable, fun hstring => absurd hstring hkind⟩⟩
    · rintro ⟨habove, ⟨htable, -⟩ | ⟨hstring, -⟩⟩
      · exact ⟨htable, habove⟩
      · exact absurd hstring hkind

/-- The nodes are found that stand for a triple. -/
theorem finds_matchingChildren (h : st.Sound) (hp : st.Has p) :
    (p.matchingChildren step).Finds st st.Fits
      (fun found => ∀ c, (∃ v ∈ found, v.row = c) ↔ st.Stands p step c) := by
  unfold matchingChildren
  refine (finds_candidateNodes h hp).bind fun nodes hnodes => ?_
  refine (Query.Finds.mapM_mem fun c hc =>
    finds_viewName h (h.has_of_isAbove ((hnodes c).mp hc).1).2).bind fun named hnamed => ?_
  refine Query.Finds.pure fun c => ?_
  obtain ⟨hleft, hright⟩ := hnamed
  simp only [List.mem_map, List.mem_filter]
  constructor
  · -- Names are unique, so a node that shows the attribute is one that is named by it.
    rintro ⟨_, ⟨⟨value, v⟩, ⟨hmem, htext⟩, rfl⟩, rfl⟩
    obtain ⟨c, hc, hrow, name, hname, hnamed⟩ := hright _ hmem
    simp only at hrow hname
    subst hrow hname
    rw [Value.isText, beq_iff_eq] at htext
    exact ⟨(hnodes _).mp hc, htext ▸ hnamed⟩
  · rintro ⟨hcandidate, hc⟩
    obtain ⟨found, hmem, hrow, name, hname, hnamed⟩ := hleft c ((hnodes c).mpr hcandidate)
    refine ⟨found.2, ⟨found, ⟨hmem, ?_⟩, rfl⟩, hrow⟩
    rw [hname, Value.isText, beq_iff_eq]
    exact h.named_unique hnamed hc

end Row

/-! ### Paths -/

/-- The nodes are found that stand for a triple below any of some nodes. -/
theorem finds_matchingBelow (h : st.Sound) {nodes : List View} (hnodes : ∀ v ∈ nodes, st.Has v.row) :
    (matchingBelow nodes step).Finds st st.Fits
      (fun found => ∀ c, (∃ v ∈ found, v.row = c) ↔ ∃ v ∈ nodes, st.Stands v.row step c) := by
  unfold matchingBelow
  refine (Query.Finds.mapM_mem fun v hv => Row.finds_matchingChildren h (hnodes v hv)).bind
    fun lists hlists => Query.Finds.pure fun c => ?_
  obtain ⟨hleft, hright⟩ := hlists
  simp only [List.mem_flatten]
  constructor
  · rintro ⟨v', ⟨found, hfound, hv'⟩, rfl⟩
    obtain ⟨v, hv, hstands⟩ := hright found hfound
    exact ⟨v, hv, (hstands _).mp ⟨v', hv', rfl⟩⟩
  · rintro ⟨v, hv, hc⟩
    obtain ⟨found, hfound, hstands⟩ := hleft v hv
    obtain ⟨v', hv', hrow⟩ := (hstands c).mpr hc
    exact ⟨v', ⟨found, hfound, hv'⟩, hrow⟩

/-- A path resolves to the nodes that chains lead to. -/
theorem finds_resolveFrom (h : st.Sound) {nodes : List View} (hnodes : ∀ v ∈ nodes, st.Has v.row) :
    (resolveFrom nodes path).Finds st st.Fits
      (fun found => ∀ q, (∃ v ∈ found, v.row = q) ↔ ∃ v ∈ nodes, st.Leads v.row path q) := by
  induction path generalizing nodes with
  | nil =>
    rw [resolveFrom]
    refine Query.Finds.pure fun q => exists_congr fun v => and_congr_right fun _ => ?_
    constructor
    · rintro rfl
      exact .nil
    · intro hpath
      cases hpath
      rfl
  | cons step rest ih =>
    -- One step from every node, and then the rest from what was reached.
    have hstep : ∀ {found : List View}, (∀ c, (∃ v ∈ found, v.row = c) ↔
        ∃ v ∈ nodes, st.Stands v.row step c) → ∀ q, (∃ v ∈ found, st.Leads v.row rest q) ↔
          ∃ v ∈ nodes, st.Leads v.row (step :: rest) q := by
      intro found hfound q
      constructor
      · rintro ⟨v, hv, hpath⟩
        obtain ⟨v', hv', hstands⟩ := (hfound v.row).mp ⟨v, hv, rfl⟩
        exact ⟨v', hv', .cons hstands hpath⟩
      · rintro ⟨v, hv, hpath⟩
        cases hpath with
        | cons hstands hpath =>
          obtain ⟨v', hv', rfl⟩ := (hfound _).mpr ⟨v, hv, hstands⟩
          exact ⟨v', hv', hpath⟩
    rw [resolveFrom]
    refine (finds_matchingBelow h hnodes).bind fun found hfound => ?_
    split
    · -- Nothing was reached, so the rest leads nowhere either.
      refine Query.Finds.pure fun q => ?_
      rw [← hstep hfound q]
      simp
    · refine (ih fun v hv => ?_).mono fun found' hfound' q => ?_
      · obtain ⟨v', -, hstands⟩ := (hfound v.row).mp ⟨v, hv, rfl⟩
        exact (h.has_of_isAbove hstands.1.1).2
      · rw [hfound', hstep hfound]

/-- A path resolves to the nodes that chains from the root lead to. -/
theorem Row.finds_resolvePath (h : st.Sound) (hr : st.Has r) :
    (r.resolvePath path).Finds st st.Fits (fun found => ∀ q, q ∈ found ↔ st.Leads r path q) := by
  unfold Row.resolvePath
  have hroot : ∀ v ∈ [r.view], st.Has v.row := by
    intro v hv
    rwa [List.mem_singleton.mp hv]
  refine (finds_resolveFrom h hroot).bind fun found hfound => Query.Finds.pure fun q => ?_
  rw [List.mem_map, hfound]
  simp [Row.view]

end SoarProject
