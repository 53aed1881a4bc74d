import SoarProject.Proofs.Datamap.Alike
import SoarProject.Proofs.Datamap.Footprint
import SoarProject.Proofs.Project.Completeness

/-!
# The order of corrections

Corrections are proposed against one datamap and then applied one after the other, so that later ones find the
nodes that earlier ones added. All the same, their order does not matter: it changes the ids of the new rows
only. What they add was missing, and nothing else changes.

* `Correction.Completes`, `Correction.finds_propose_completes`: the corrections that are proposed.
* `Store.Supplements`: only new rows were added, none of which was there already under its name.
* `applyAll_perm`: corrections in another order make the same of a datamap.
-/

namespace SoarProject

open Registry
open Network (Apart)

variable {w : Bool} {s s₁ s₂ : Session} {st st' st₁ st₂ : Store} {r p c q root : Row} {n : Network}
  {ns : List Network} {cs cs' : List Correction}

/-! ### Paths of rules -/

/-- On a path of linked triples only the last value is no variable. -/
theorem Network.WellLinked.isLink (h : n.WellLinked) {path : List Nat} (hlinked : n.Linked path) {t : Triple}
    (ht : t ∈ (n.steps path).dropLast) : t.isLink = true := by
  unfold Network.steps at ht
  rw [← List.map_dropLast] at ht
  obtain ⟨i, hi, rfl⟩ := List.mem_map.mp ht
  have hne : path ≠ [] := by
    rintro rfl
    exact absurd hi List.not_mem_nil
  -- Another triple of the path comes next.
  obtain ⟨front, rest, hsplit⟩ := List.append_of_mem hi
  obtain ⟨c, rest', hnext⟩ := List.exists_cons_of_ne_nil
    (List.append_ne_nil_of_right_ne_nil rest (List.cons_ne_nil (path.getLast hne) []))
  rw [← List.dropLast_append_getLast hne, hsplit, List.append_assoc, List.cons_append, hnext] at hlinked
  exact (Triple.leadsTo_iff.mp (h.leadsTo hlinked.parent)).1

/-- On a selected path of rules only the last value is no variable. -/
theorem isLink_of_mem_terminalPath (hns : ∀ n ∈ ns, ∃ ts, n = .link ts ∧ Apart ts ∧ ∀ t ∈ ts, t.IsText)
    {p : TerminalPath} (hp : p ∈ (Network.concat ns).terminalPaths) {t : Triple}
    (ht : t ∈ ((Network.concat ns).steps p.path).dropLast) : t.isLink = true := by
  obtain ⟨i, -, hpath⟩ := (Network.selected_terminalPaths _).exists_pathsTo hp
  obtain ⟨-, -, hlinked, -⟩ := Network.mem_pathsTo_iff.mp hpath
  exact (wellLinked_of_rules hns).isLink hlinked ht

/-- A path of variables leads from an identifier to an identifier. -/
theorem Store.Leads.table_eq {path : List Triple} (h : st.Leads p path q)
    (hlinks : ∀ t ∈ path, t.isLink = true) (hp : p.table = .datamapIdentifiers) :
    q.table = .datamapIdentifiers := by
  induction h with
  | nil => exact hp
  | @cons p c q step rest hstands _ ih =>
    refine ih (fun t ht => hlinks t (List.mem_cons_of_mem step ht)) ?_
    have hkind : step.kind = .identifier := by
      simpa [Triple.isLink] using hlinks step List.mem_cons_self
    rcases hstands.1.2 with ⟨htable, -⟩ | ⟨hstring, -⟩
    · rw [htable, hkind]
      rfl
    · cases hkind.symm.trans hstring

/-! ### What is proposed -/

namespace Correction

/-- A correction as it is proposed: it begins at an existing identifier, and goes on with the rest of a
selected path. -/
structure Completes (st : Store) (n : Network) (c : Correction) : Prop where
  has : st.Has c.anchor.row
  table_eq : c.anchor.row.table = .datamapIdentifiers
  isRest : ∃ p ∈ n.terminalPaths, c.addition <:+ n.steps p.path

variable (hns : ∀ n ∈ ns, ∃ ts, n = .link ts ∧ Apart ts ∧ ∀ t ∈ ts, t.IsText)

include hns

/-- A correction that adds something to fill a path of rules begins at an identifier. -/
theorem IsFor.completes {p : TerminalPath} {c : Correction} (h : c.IsFor st root (.concat ns) p)
    (hne : c.addition ≠ []) (hp : p ∈ (Network.concat ns).terminalPaths)
    (hroot : root.table = .datamapIdentifiers) : c.Completes st (.concat ns) := by
  obtain ⟨front, hsteps, hleads⟩ := h.fills
  refine ⟨h.has, hleads.table_eq (fun t ht => isLink_of_mem_terminalPath hns hp ?_) hroot,
    p, hp, front, hsteps.symm⟩
  rw [hsteps, List.dropLast_append_of_ne_nil hne]
  exact List.mem_append_left _ ht

/-- What is proposed below an identifier completes paths of rules. -/
theorem finds_propose_completes (h : st.Sound) {root : View} (hroot : st.Has root.row)
    (htable : root.row.table = .datamapIdentifiers) :
    (propose root (.concat ns) (Network.concat ns).terminalPaths).Finds st st.Fits
      (fun cs => ∀ c ∈ cs, c.Completes st (.concat ns)) := by
  refine (finds_propose h hroot).mono fun cs hcs c hc => ?_
  obtain ⟨hne, p, hp, hfor⟩ := hcs.1 c hc
  exact hfor.completes hns hne hp htable

/-- A correction that completes a path of rules can be applied. -/
theorem Completes.applicable {c : Correction} (h : c.Completes st (.concat ns)) : c.Applicable st := by
  obtain ⟨p, hp, front, hsteps⟩ := h.isRest
  refine ⟨h.has, h.table_eq, fun t ht => isText_of_mem_terminalPath hns hp ?_, fun t ht => ?_⟩
  · rw [← hsteps]
    exact List.mem_append_right front ht
  · have hne : c.addition ≠ [] := by
      intro hnil
      rw [hnil] at ht
      exact absurd ht List.not_mem_nil
    refine isLink_of_mem_terminalPath hns hp ?_
    rw [← hsteps, List.dropLast_append_of_ne_nil hne]
    exact List.mem_append_right front ht

end Correction

/-! ### What is added -/

namespace Store

/-- A datamap was supplemented: everything that was there is as it was, and what is new below a row was not
there under its name. -/
structure Supplements (st st' : Store) : Prop where
  grows : st.Grows st'
  keepsRules : st.KeepsRules st'
  /-- Rows of before are below the rows that they were below. -/
  edge_iff : ∀ e p c, st.Has c → (st'.HasEdge e p c ↔ st.HasEdge e p c)
  /-- No row of the same table and name is beside a new row. -/
  eq_of_keyed : ∀ p k c d, ¬ st.Has c → st'.Keyed p k c → st'.Keyed p k d → d = c

/-- To add rows at spots, and links between them, supplements a datamap. -/
theorem Outgrowth.supplements {A : Set Spot} {place : Spot → Row} (h : st.Outgrowth st₁ A place)
    (hlinks : st₁.Links st') (hkeeps : st.KeepsRules st') : st.Supplements st' where
  grows := h.grows.trans hlinks.grows
  keepsRules := hkeeps
  edge_iff _ _ _ hc := hlinks.same.hasEdge_iff.trans (h.edge_iff_of_has hc)
  eq_of_keyed _ _ _ _ hnew hc hd :=
    h.eq_of_keyed hnew (hlinks.same.keyed_iff.mp hc) (hlinks.same.keyed_iff.mp hd)

end Store

namespace Correction

/-- Applying corrections adds the rows at the spots that they pass, and then their links. The part of each
leads on to a node then. It succeeds where there is room. -/
theorem exists_outgrowth (hs : s.Opens w st) (h : st.Integral) (hcs : ∀ c ∈ cs, c.Applicable st)
    {r : Except Failure (List Correction)} {s' : Session} (hrun : (applyAll cs).run.run s = (r, s')) :
    ∃ st', s'.Opens w st' ∧ st.Grows st' ∧ (w = true → st.Room (2 * total cs) → r.isOk = true) ∧
      (r.isOk = true → st.KeepsRules st' ∧ (∀ c ∈ cs, ∃ q, st'.Leads c.anchor.row c.addition q) ∧
        ∃ st₁ place, st.Outgrowth st₁ (allSpots st cs) place ∧
          st₁.LinksBy st' fun x y => ∃ c ∈ cs.map (placed st place), c.LinksTo st₁ x y) := by
  -- What is known of the run comes from three sides, all of which speak of the one store that it leaves.
  obtain ⟨st', hs', hr⟩ := ends_applyAll_outgrowth h hcs s hs
  have hspares : (applyAll cs).SparesRules fun _ => True := sparesRules_applyAll
  obtain ⟨other, hother, hkeeps⟩ := hspares w st s hs
  obtain rfl := hs'.store_unique hother
  obtain ⟨other, hother, happlied⟩ := ends_applyAll h (fun c hc => (hcs c hc).has) s hs
  obtain rfl := hs'.store_unique hother
  rw [hrun] at hs' hr hkeeps happlied
  refine ⟨st', hs', ?_⟩
  cases r with
  | ok applied =>
    obtain ⟨st₁, place, houtgrowth, rfl, hlinks⟩ := hr
    refine ⟨houtgrowth.grows.trans hlinks.grows, fun _ _ => rfl, fun _ =>
      ⟨hkeeps.1, fun c hc => ?_, st₁, place, houtgrowth, hlinks⟩⟩
    obtain ⟨turn, hturn, hlinked, -⟩ := happlied
    obtain ⟨-, -, tail, -, -, hleads⟩ := (mem_of_forall₂ hturn.isApplied).1 c hc
    exact ⟨tail, hlinked.grows.leads (hleads (hcs c hc).isText)⟩
  | error e =>
    obtain ⟨hgrows, hnot⟩ := hr
    exact ⟨hgrows, fun hw hroom => absurd ⟨hw, hroom⟩ hnot, fun hok => by cases hok⟩

end Correction

/-- Applying corrections in another order makes the same of a datamap, up to the ids of the new rows: the rows
of both datamaps correspond, those of before to themselves, and so do the ways down from them, the values of
enumerations, the undirected joins and the nodes that the parts of the corrections lead to. Either way nothing
is lost or renamed, nothing but datamaps changes, and no new row is beside one of its table and name. Where
there is room for what is added, both succeed. -/
theorem applyAll_perm (hs : s.Opens w st) (h : st.Integral)
    (hns : ∀ n ∈ ns, ∃ ts, n = .link ts ∧ Apart ts ∧ ∀ t ∈ ts, t.IsText)
    (hcs : ∀ c ∈ cs, c.Completes st (.concat ns)) (hperm : cs.Perm cs')
    {r₁ r₂ : Except Failure (List Correction)} (hrun₁ : (Correction.applyAll cs).run.run s = (r₁, s₁))
    (hrun₂ : (Correction.applyAll cs').run.run s = (r₂, s₂)) :
    ∃ st₁ st₂, s₁.Opens w st₁ ∧ s₂.Opens w st₂ ∧ st.Grows st₁ ∧ st.Grows st₂ ∧
      (w = true → st.Room (2 * Correction.total cs) → r₁.isOk = true ∧ r₂.isOk = true) ∧
      (r₁.isOk = true → r₂.isOk = true →
        st.Supplements st₁ ∧ st.Supplements st₂ ∧ ∃ φ, st.Alike st₁ st₂ φ ∧
          (∀ r, st.Has r → ∀ ks q, st₁.Has q → (st₂.LeadsBy r ks (φ q) ↔ st₁.LeadsBy r ks q)) ∧
          (∀ c, st₁.Has c → ∀ value, st₂.Holds (φ c) value ↔ st₁.Holds c value) ∧
          ∀ c ∈ cs, ∃ q, st₁.Leads c.anchor.row c.addition q ∧ st₂.Leads c.anchor.row c.addition (φ q)) := by
  have happlicable : ∀ c ∈ cs, c.Applicable st := fun c hc => (hcs c hc).applicable hns
  have happlicable' : ∀ c ∈ cs', c.Applicable st := fun c hc => happlicable c (hperm.mem_iff.mpr hc)
  -- Each order grows the same spots over the old rows, though at places of its own.
  obtain ⟨st₁, hs₁, hgrows₁, hdone₁, hok₁⟩ := Correction.exists_outgrowth hs h happlicable hrun₁
  obtain ⟨st₂, hs₂, hgrows₂, hdone₂, hok₂⟩ := Correction.exists_outgrowth hs h happlicable' hrun₂
  refine ⟨st₁, st₂, hs₁, hs₂, hgrows₁, hgrows₂, fun hw hroom => ⟨hdone₁ hw hroom, hdone₂ hw ?_⟩,
    fun h₁ h₂ => ?_⟩
  · have htotal : Correction.total cs' = Correction.total cs :=
      (hperm.symm.flatMap_right _).length_eq
    rwa [htotal]
  obtain ⟨hkeeps₁, hleads, grown₁, place₁, houtgrowth₁, hlinks₁⟩ := hok₁ h₁
  obtain ⟨hkeeps₂, -, grown₂, place₂, houtgrowth₂, hlinks₂⟩ := hok₂ h₂
  have hspots : Correction.allSpots st cs' = Correction.allSpots st cs := by
    ext x
    exact exists_congr fun c => and_congr_left fun _ => hperm.mem_iff.symm
  rw [hspots] at houtgrowth₂
  -- The rows of a spot correspond, whatever ids they got.
  obtain ⟨φ, halike⟩ := Correction.exists_alike h houtgrowth₁ houtgrowth₂
    (fun c hc => ⟨happlicable c hc, fun x hx => ⟨c, hc, hx⟩⟩) (fun c => hperm.mem_iff) hlinks₁ hlinks₂
  refine ⟨houtgrowth₁.supplements hlinks₁.toLinks hkeeps₁, houtgrowth₂.supplements hlinks₂.toLinks hkeeps₂,
    φ, halike, fun r hr ks q hq => ?_, fun c hc value => halike.holds_iff hc, fun c hc => ?_⟩
  · rw [← halike.leadsBy_iff (hgrows₁.has hr) hq, halike.fixes r hr]
  · -- Where a correction leads in one store, it leads to the corresponding row in the other.
    obtain ⟨q, hq⟩ := hleads c hc
    have hq' := halike.leads hgrows₁.integral.toSound hq
    rw [halike.fixes _ (hcs c hc).has] at hq'
    exact ⟨q, hq, hq'⟩

/-! ### Two paths that meet -/

/-- A rule with two paths to the value `<c>`. -/
def meetingRule : List Triple :=
  [⟨"<s>", "a", .text "<a>", .identifier, true⟩, ⟨"<s>", "b", .text "<b>", .identifier, true⟩,
    ⟨"<a>", "x", .text "<c>", .identifier, false⟩, ⟨"<b>", "y", .text "<c>", .identifier, false⟩,
    ⟨"<c>", "color", .text "red", .string, false⟩]

/-- Its triples as a network. -/
def meetingNetwork : Network := .concat [.link meetingRule]

/-- A project with an empty datamap. -/
def emptyDatamap : List Operation :=
  [.createAgent (.text "agent"), .createChild (.ofId .agents 1) .problemSpaces (.text "space")]

/-- The root of the datamap. -/
def emptyRoot : View := (Row.ofId .datamapIdentifiers 1).view

/-- The triples of the rule are distinct texts. -/
theorem apart_meetingRule : Apart meetingRule ∧ ∀ t ∈ meetingRule, t.IsText := by
  constructor
  · have hsame : ∀ i : Fin 5, ∀ j : Fin 5, meetingRule[i].same meetingRule[j] = true → i = j := by decide
    intro i j hi hj h
    exact congrArg Fin.val (hsame ⟨i, hi⟩ ⟨j, hj⟩ h)
  · intro t ht
    simp only [meetingRule, List.mem_cons, List.not_mem_nil, or_false] at ht
    rcases ht with rfl | rfl | rfl | rfl | rfl <;> exact ⟨_, rfl⟩

/-- For each of the two paths a correction is proposed. In both orders they can be applied, and join the two
ends of the paths; the ids of these differ. -/
theorem checked_meeting :
    ∃ s ∈ Operation.performAll emptyDatamap Reachable.newProject,
      (s.store.toOption.any fun st => st.Has emptyRoot.row) = true ∧
      (((Correction.propose emptyRoot meetingNetwork meetingNetwork.terminalPaths).run s).toOption.any
        fun cs => cs.length = 2 && ((Correction.applyAll cs).run.run s).1.isOk &&
          ((Correction.applyAll cs.reverse).run.run s).1.isOk) = true := by
  decide +kernel

/-- The corrections for the two paths make the same of the datamap in both orders. -/
theorem applyAll_perm_meeting :
    ∃ s ∈ Operation.performAll emptyDatamap Reachable.newProject, ∃ cs,
      (Correction.propose emptyRoot meetingNetwork meetingNetwork.terminalPaths).run s = .ok cs ∧
      cs.length = 2 ∧ ∃ st st₁ st₂, s.Opens true st ∧ ((Correction.applyAll cs).run.run s).2.Opens true st₁ ∧
        ((Correction.applyAll cs.reverse).run.run s).2.Opens true st₂ ∧
        st.Supplements st₁ ∧ st.Supplements st₂ ∧ ∃ φ, st.Alike st₁ st₂ φ ∧
          ∀ c ∈ cs, ∃ q, st₁.Leads c.anchor.row c.addition q ∧ st₂.Leads c.anchor.row c.addition (φ q) := by
  obtain ⟨s, hs, hhas, hchecked⟩ := checked_meeting
  -- The project is reached by operations that ask for no hypothesis of their own.
  have hreachable : Reachable true s := by
    refine (Reachable.start Reachable.opens_newProject).performAll (fun op hop => ?_) hs
    simp only [emptyDatamap, List.mem_cons, List.not_mem_nil, or_false] at hop
    rcases hop with rfl | rfl <;> trivial
  obtain ⟨st, hopen, hst⟩ := hreachable.exists_integral
  have hroot : st.Has emptyRoot.row := by simpa [hopen.store_eq, Except.toOption] using hhas
  have hns : ∀ n ∈ [Network.link meetingRule], ∃ ts, n = .link ts ∧ Apart ts ∧ ∀ t ∈ ts, t.IsText := by
    intro n hn
    exact ⟨meetingRule, List.mem_singleton.mp hn, apart_meetingRule⟩
  cases hproposed : (Correction.propose emptyRoot meetingNetwork meetingNetwork.terminalPaths).run s with
  | error e => simp [hproposed, Except.toOption] at hchecked
  | ok cs =>
    simp only [hproposed, Except.toOption, Option.any_some, Bool.and_eq_true, decide_eq_true_eq] at hchecked
    obtain ⟨⟨hlength, hok₁⟩, hok₂⟩ := hchecked
    -- What is proposed completes a path, and so the theorem applies to it.
    have hcompletes := (Correction.finds_propose_completes hns hst.toSound hroot rfl).of_run hopen hproposed
    obtain ⟨st₁, st₂, hs₁, hs₂, -, -, -, hdone⟩ :=
      applyAll_perm hopen hst hns hcompletes cs.reverse_perm.symm rfl rfl
    obtain ⟨hsupplements₁, hsupplements₂, φ, halike, -, -, hleads⟩ := hdone hok₁ hok₂
    exact ⟨s, hs, cs, hproposed, hlength, st, st₁, st₂, hopen, hs₁, hs₂, hsupplements₁, hsupplements₂, φ, halike,
      hleads⟩

end SoarProject
