import Mathlib.Data.List.Nodup
import SoarProject.Datamap.Extraction
import SoarProject.Proofs.Datamap.Chain
import SoarProject.Proofs.Session.Effect

/-!
# What is read off a rule

Whatever the parts of a rule are, its triples have texts as their values, and no two of them are the same
access (`finds_extractTriples`). Before those that repeat an earlier one are left out, they are all accesses that
the rule makes (`Row.readAccesses`).
-/

namespace SoarProject

open Triple (IsText)

variable {st : Store} {ts kept : List Triple} {t : Triple}

/-! ### Values -/

/-- The triples along a path have texts as their values. -/
theorem isText_of_mem_pathTriples {subject : String} {values : List TypedValue}
    {names : List String} (ht : t ∈ pathTriples subject values names) : t.IsText := by
  induction names generalizing subject with
  | nil => cases ht
  | cons name rest ih =>
    cases rest with
    | nil =>
      obtain ⟨v, -, rfl⟩ := List.mem_map.mp ht
      exact ⟨v.2, rfl⟩
    | cons next rest =>
      rcases List.mem_cons.mp ht with rfl | ht
      · exact ⟨_, rfl⟩
      · exact ih ht

/-- The triples of one test or one make have texts as their values. -/
theorem finds_attributeTriples {subject : String} {path : List Row}
    {attribute? : Row → Query (Option String)} {values : Query (List TypedValue)} :
    (attributeTriples subject path attribute? values).Finds st False
      (fun ts => ∀ t ∈ ts, t.IsText) := by
  unfold attributeTriples
  refine Query.finds_any.bind fun names _ => ?_
  split
  · exact Query.Finds.pure (by simp)
  · exact Query.Finds.pure (by simp)
  · refine Query.finds_any.bind fun values _ => ?_
    split
    · exact Query.Finds.pure (by simp)
    · exact Query.Finds.pure fun t ht => isText_of_mem_pathTriples ht

/-- The entries of lists that are found have what all of them have. -/
theorem finds_flatten {α : Type} {f : α → Query (List Triple)} {xs : List α}
    (hf : ∀ x ∈ xs, (f x).Finds st False fun ts => ∀ t ∈ ts, t.IsText) :
    (do return (← xs.mapM f).flatten : Query (List Triple)).Finds st False
      (fun ts => ∀ t ∈ ts, t.IsText) := by
  refine (Query.Finds.mapM_mem hf).bind fun lists hlists => Query.Finds.pure fun t ht => ?_
  obtain ⟨ts, hts, ht⟩ := List.mem_flatten.mp ht
  obtain ⟨x, -, htexts⟩ := hlists.2 ts hts
  exact htexts t ht

/-- The triples of all rows below a rule have texts as their values. -/
theorem finds_triplesBelow {rule : Row} {holders parts : Table}
    {triples : String → Row → Query (List Triple)}
    (htriples : ∀ subject r, (triples subject r).Finds st False fun ts => ∀ t ∈ ts, t.IsText) :
    (triplesBelow rule holders parts triples).Finds st False (fun ts => ∀ t ∈ ts, t.IsText) := by
  unfold triplesBelow
  refine Query.finds_any.bind fun rows _ => finds_flatten fun r _ => ?_
  refine Query.finds_any.bind fun subject _ => ?_
  split
  · exact Query.Finds.pure (by simp)
  · exact Query.finds_any.bind fun parts _ => finds_flatten fun part _ => htriples _ part

/-! ### Distinct triples -/

/-- Among texts, an access is kept if its variable, attribute and value are. -/
theorem any_same_iff (ht : t.IsText) :
    (kept.any (·.same t)) = true ↔ t.access ∈ kept.map Triple.access := by
  simp [Triple.same_iff_access_eq ht]

/-- Of several triples with one access the first is kept. -/
theorem distinctTriples_spec (hts : ∀ t ∈ ts, t.IsText) :
    (∀ t ∈ distinctTriples ts, t.IsText) ∧ ((distinctTriples ts).map Triple.access).Nodup := by
  -- The invariant of the fold: what is kept is text and has no access twice.
  have hfold : ∀ kept : List Triple, (∀ t ∈ kept, t.IsText) → (kept.map Triple.access).Nodup →
      ∀ found, found = ts.foldl
        (fun kept t => if kept.any (·.same t) then kept else kept ++ [t]) kept →
      (∀ t ∈ found, t.IsText) ∧ (found.map Triple.access).Nodup := by
    induction ts with
    | nil =>
      rintro kept htexts hnodup _ rfl
      exact ⟨htexts, hnodup⟩
    | cons t ts ih =>
      rintro kept htexts hnodup _ rfl
      have ht := hts t List.mem_cons_self
      refine ih (fun s hs => hts s (List.mem_cons_of_mem _ hs)) _ ?_ ?_ _ (List.foldl_cons ..)
      · split
        · exact htexts
        · simpa using fun s hs => hs.elim (htexts s) fun heq => heq ▸ ht
      · split
        · exact hnodup
        · next hnew =>
          rw [any_same_iff ht] at hnew
          rw [List.map_append, List.map_singleton, List.nodup_append]
          exact ⟨hnodup, List.nodup_singleton _, by simpa using hnew⟩
  exact hfold [] (by simp) List.nodup_nil _ rfl

theorem apart_of_nodup (hts : ∀ t ∈ ts, t.IsText) (hnodup : (ts.map Triple.access).Nodup) :
    Network.Apart ts := by
  intro i j hi hj hsame
  rw [Triple.same_iff_access_eq (hts _ (List.getElem_mem hj))] at hsame
  have heq := List.inj_on_of_nodup_map hnodup (List.getElem_mem hi) (List.getElem_mem hj) hsame
  exact (List.Nodup.getElem_inj_iff (hnodup.of_map _)).mp heq

/-- Of the triples of a list the same ones are left out if the accesses are changed alike. -/
theorem distinctTriples_map {f : Triple → Triple} (hf : ∀ a b, (f a).same (f b) = a.same b) (ts : List Triple) :
    distinctTriples (ts.map f) = (distinctTriples ts).map f := by
  have hfold : ∀ kept : List Triple,
      (ts.map f).foldl (fun kept t => if kept.any (·.same t) then kept else kept ++ [t]) (kept.map f) =
        (ts.foldl (fun kept t => if kept.any (·.same t) then kept else kept ++ [t]) kept).map f := by
    induction ts with
    | nil => exact fun _ => rfl
    | cons t ts ih =>
      intro kept
      rw [List.map_cons, List.foldl_cons, List.foldl_cons, ← ih]
      -- Whether a triple is kept depends on the comparison only, which `f` leaves alone.
      congr 1
      simp only [List.any_map, Function.comp_def, hf]
      split
      · rfl
      · rw [List.map_append, List.map_singleton]
  exact hfold []

/-! ### All accesses of a rule -/

/-- The accesses of a rule as they are read, conditions before actions, also those that repeat an earlier one. -/
def Row.readAccesses (rule : Row) : Query (List Triple) := do
  let states ← stateVariables rule
  let tests ← triplesBelow rule .conditionForOneIdentifiers .attributeValueTests testTriples
  let makes ← triplesBelow rule .varAttrValMakes .attributeValueMakes makeTriples
  return (tests ++ makes).map fun t => { t with isState := states.contains t.subject }

/-- The triples of a rule are its accesses, of several that are the same only the first. -/
theorem extractTriples_eq_readAccesses (rule : View) : extractTriples rule = (do
    let read ← rule.row.readAccesses
    let found ← rule.name
    return (.link (distinctTriples read), found.2)) := by
  have hmap : ∀ (states : List String) (ts : List Triple),
      distinctTriples (ts.map fun t => { t with isState := states.contains t.subject }) =
        (distinctTriples ts).map fun t => { t with isState := states.contains t.subject } :=
    fun states ts => distinctTriples_map (f := fun t => { t with isState := states.contains t.subject })
      (fun _ _ => rfl) ts
  simp only [extractTriples, Row.readAccesses, bind_assoc, pure_bind, hmap]

/-- The accesses of a rule have texts as their values, and it depends on the variable whether one is on a state. -/
theorem finds_readAccesses {rule : Row} :
    rule.readAccesses.Finds st False (fun ts => ∃ states : List String, ∀ t ∈ ts,
      t.IsText ∧ t.isState = states.contains t.subject) := by
  unfold Row.readAccesses
  refine Query.finds_any.bind fun states _ => ?_
  refine (finds_triplesBelow fun subject r => ?_).bind fun tests htests => ?_
  · exact Query.finds_any.bind fun _ _ => finds_attributeTriples
  refine (finds_triplesBelow fun subject r => ?_).bind fun makes hmakes => ?_
  · exact Query.finds_any.bind fun _ _ => finds_attributeTriples
  refine Query.Finds.pure ⟨states, List.forall_mem_map.mpr fun t ht => ⟨?_, rfl⟩⟩
  exact (List.mem_append.mp ht).elim (htests t) (hmakes t)

/-- The triples of a rule are linked distinct triples with texts as their values. -/
theorem finds_extractTriples {rule : View} :
    (extractTriples rule).Finds st False (fun found => ∃ ts, found.1 = .link ts ∧
      Network.Apart ts ∧ ∀ t ∈ ts, t.IsText) := by
  rw [extractTriples_eq_readAccesses]
  refine finds_readAccesses.bind ?_
  rintro read ⟨states, hread⟩
  refine Query.finds_any.bind fun found _ => Query.Finds.pure ⟨_, rfl, ?_⟩
  obtain ⟨htexts, hnodup⟩ := distinctTriples_spec fun t ht => (hread t ht).1
  exact ⟨apart_of_nodup htexts hnodup, htexts⟩

end SoarProject
