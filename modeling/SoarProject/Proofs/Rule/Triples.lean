import SoarProject.Datamap.Extraction
import SoarProject.Proofs.Datamap.Chain
import SoarProject.Proofs.Rule.Shape
import SoarProject.Proofs.Store.Insertion

/-!
# The triples of a production

The accesses that a production makes, read off its parts without a store. Conditions come first, in the
order of the text: also negated ones, and those that are put together. Then come the new attribute values
of the actions. An attribute path gives one triple for each step; an attribute that is not one symbol, and
tests and makes without values, give none. Nothing here is read by the functions that read a stored rule;
what these functions do on the way is compared with it clause by clause.

* `Rule.Production.triples`: the triples, of several with the same access only the first.
* `Rule.pathTriples_eq_pathSteps`, `Rule.conjunctionValues_eq_firstVariable`,
  `Rule.distinctTriples_eq_firstOfEach`: the steps of a path, the value of several tests and what is left out
  are the same in a stored rule.
-/

namespace SoarProject.Rule

/-- A name, unless it is empty. -/
def nonEmpty? (name : String) : Option String := if name = "" then none else some name

/-! ### Values -/

/-- The value of a constant. A floating-point number is shown as its column keeps it. -/
def Constant.typedValue? (c : Constant) : Option TypedValue :=
  match c.value.kept with
  | .int n => some (.integer, toString n)
  | .float x => some (.float, Number.floatText x)
  | .text s => some (.string, s)
  | _ => none

/-- The variable or the constant. -/
def SingleTest.typedValue? (t : SingleTest) : Option TypedValue :=
  match t.constant with
  | some c => c.typedValue?
  | none => (t.variableName.bind nonEmpty?).map (.identifier, ·)

/-- The constants of a choice, each as a text. -/
def DisjunctionTest.typedValues (t : DisjunctionTest) : List TypedValue :=
  t.constants.filterMap fun c => c.typedValue?.map fun (_, text) => (.string, text)

/-- The constants of a choice, or what is compared with. -/
def SimpleTest.typedValues (t : SimpleTest) : List TypedValue :=
  match t.disjunction with
  | some d => d.typedValues
  | none => (t.relational.bind (·.single.typedValue?)).toList

/-- The first variable among some values; all of them if there is none. -/
def firstVariable (values : List TypedValue) : List TypedValue :=
  match values.filter (·.1 = .identifier) with
  | [] => values
  | first :: _ => [first]

/-- The first variable of several tests; all constants if there is none. -/
def ConjunctiveTest.typedValues (t : ConjunctiveTest) : List TypedValue :=
  firstVariable (t.simpleTests.flatMap (·.typedValues))

/-- The values of several tests or of a single one. -/
def Test.typedValues (t : Test) : List TypedValue :=
  match t.conjunctive with
  | some c => c.typedValues
  | none => t.simple.elim [] (·.typedValues)

/-- The attribute that a value names, if it is a symbol. -/
def symbol? : TypedValue → Option String
  | (.string, name) => some name
  | _ => none

/-- The attribute that a test names, if it is one symbol. -/
def Test.attribute? (t : Test) : Option String :=
  match t.typedValues with
  | [v] => symbol? v
  | _ => none

/-- The variable or the constant; nothing for a function call. -/
def RhsValue.typedValue? (v : RhsValue) : Option TypedValue :=
  match v.constant with
  | some c => c.typedValue?
  | none => (v.variableName.bind nonEmpty?).map (.identifier, ·)

/-! ### Accesses -/

/-- The variable behind some attributes of a path. -/
def intermediate (subject : String) (names : List String) : String :=
  names.foldl (fun v name => v ++ "*" ++ name) subject

/-- The triples of a path, one for each of its attributes but the last, and one for each of the values. A
triple begins with the variable behind the attributes before it, and leads to the variable behind its own one
or to a value. -/
def pathSteps (subject : String) (names : List String) (values : List TypedValue) : List Triple :=
  names.zipIdx.flatMap fun (name, i) =>
    let start := intermediate subject (names.take i)
    if i + 1 = names.length then values.map fun (kind, value) => ⟨start, name, .text value, kind, false⟩
    else [⟨start, name, .text (intermediate subject (names.take (i + 1))), .identifier, false⟩]

/-- The triples along a path of attributes to some values. There are none if a step has no attribute, or if
there are no values. -/
def accesses (subject : String) (path : List (Option String)) (values : List TypedValue) :
    List Triple :=
  match path.mapM id with
  | none => []
  | some names => if values = [] then [] else pathSteps subject names values

/-- The accesses that a test of an attribute path makes. -/
def AttributeValueTest.accesses (subject : String) (t : AttributeValueTest) : List Triple :=
  Rule.accesses subject (t.attributes.map (·.test.attribute?))
    (t.values.flatMap (·.test.typedValues))

/-- The accesses that the tests of one identifier make. -/
def IdentifierCondition.accesses (c : IdentifierCondition) : List Triple :=
  (nonEmpty? c.variableName).elim [] fun subject => c.tests.flatMap (·.accesses subject)

mutual

/-- The tests of identifiers, in the order of the text. -/
def PositiveCondition.identifiers : PositiveCondition → List IdentifierCondition
  | ⟨_, some conditions⟩ => Condition.allIdentifiers conditions
  | ⟨identifier, none⟩ => identifier.toList

/-- The tests of identifiers in a condition, whether it is negated or not. -/
def Condition.identifiers : Condition → List IdentifierCondition
  | ⟨positive, _⟩ => positive.identifiers

/-- The tests of identifiers in several conditions. -/
def Condition.allIdentifiers : List Condition → List IdentifierCondition
  | [] => []
  | c :: rest => c.identifiers ++ Condition.allIdentifiers rest

end

/-- The accesses that new values of an attribute path make. -/
def AttributeMake.accesses (subject : String) (m : AttributeMake) : List Triple :=
  Rule.accesses subject (m.path.map (·.typedValue?.bind symbol?))
    (m.values.filterMap (·.value.typedValue?))

/-- The accesses that the new attributes of an identifier make. -/
def VariableMake.accesses (m : VariableMake) : List Triple :=
  (nonEmpty? m.variableName).elim [] fun subject => m.makes.flatMap (·.accesses subject)

namespace Production

/-- The tests of identifiers, in the order of the text. -/
def identifiers (p : Production) : List IdentifierCondition := Condition.allIdentifiers p.conditions

/-- The new attributes of identifiers. -/
def makes (p : Production) : List VariableMake := p.actions.filterMap (·.make)

/-- All accesses, conditions first. -/
def accesses (p : Production) : List Triple :=
  p.identifiers.flatMap (·.accesses) ++ p.makes.flatMap (·.accesses)

/-- The variables that any condition binds to a state. -/
def stateVariables (p : Production) : List String :=
  (p.identifiers.filter (·.hasState)).filterMap fun c => nonEmpty? c.variableName

end Production

/-- The triples of a list, of several with one variable, attribute and value only the first. -/
def firstOfEach (ts : List Triple) : List Triple :=
  ts.eraseDupsBy fun later earlier => later.access = earlier.access

/-- The triples of a production. -/
def Production.triples (p : Production) : List Triple :=
  (firstOfEach p.accesses).map fun t => { t with isState := p.stateVariables.contains t.subject }

/-! ### Proper parts -/

mutual

/-- The tests of identifiers in a proper part of a condition are proper. -/
theorem PositiveCondition.proper_of_mem_identifiers : ∀ {c : PositiveCondition}, c.Proper →
    ∀ i ∈ c.identifiers, i.Proper
  | ⟨none, some _⟩, h => Condition.proper_of_mem_allIdentifiers h
  | ⟨some i, none⟩, h => fun j hj => by
    rw [PositiveCondition.identifiers, Option.toList_some, List.mem_singleton] at hj
    exact hj ▸ h
  | ⟨some _, some _⟩, h => h.elim
  | ⟨none, none⟩, h => h.elim

/-- The tests of identifiers in a proper condition are proper. -/
theorem Condition.proper_of_mem_identifiers : ∀ {c : Condition}, c.Proper →
    ∀ i ∈ c.identifiers, i.Proper
  | ⟨_, _⟩, h => PositiveCondition.proper_of_mem_identifiers h

/-- The tests of identifiers in several proper conditions are proper. -/
theorem Condition.proper_of_mem_allIdentifiers : ∀ {conditions : List Condition},
    Condition.AllProper conditions → ∀ i ∈ Condition.allIdentifiers conditions, i.Proper
  | [], _ => fun _ hi => absurd hi List.not_mem_nil
  | _ :: _, h => fun i hi => (List.mem_append.mp hi).elim
    (Condition.proper_of_mem_identifiers h.1 i) (Condition.proper_of_mem_allIdentifiers h.2 i)

end

namespace Production

variable {p : Production}

/-- The tests of identifiers in a proper production are proper. -/
theorem proper_of_mem_identifiers (h : p.Proper) : ∀ i ∈ p.identifiers, i.Proper :=
  Condition.proper_of_mem_allIdentifiers (Condition.allProper_iff.mpr h.1)

/-- The new attributes in a proper production are proper. -/
theorem proper_of_mem_makes (h : p.Proper) : ∀ m ∈ p.makes, m.Proper := by
  intro m hm
  obtain ⟨a, ha, hmake⟩ := List.mem_filterMap.mp hm
  have hproper := h.2 a ha
  obtain ⟨make, _ | call⟩ := a
  · obtain rfl : make = some m := hmake
    exact hproper
  · obtain rfl : make = some m := hmake
    exact hproper.elim

end Production

/-! ### What is done on the way -/

/-- The first variable among some values is the one that is found first. -/
theorem conjunctionValues_eq_firstVariable (values : List TypedValue) :
    Row.conjunctionValues values = firstVariable values := by
  have hfirst : values.find? (·.1 == .identifier) = (values.filter (·.1 = .identifier)).head? := by
    rw [List.head?_filter]
    rfl
  rw [Row.conjunctionValues, firstVariable, hfirst]
  cases values.filter (·.1 = .identifier) <;> rfl

/-- The steps of a path, one after the other, are the triples of the path. -/
theorem pathTriples_eq_pathSteps (subject : String) (names : List String) (values : List TypedValue) :
    pathTriples subject values names = pathSteps subject names values := by
  induction names generalizing subject with
  | nil => rfl
  | cons name rest ih =>
    -- Behind the first step, the path goes on from the variable of that step.
    have htail : (rest.zipIdx 1).flatMap (fun (next, i) =>
        if i + 1 = rest.length + 1 then values.map fun (kind, value) =>
          (⟨intermediate subject ((name :: rest).take i), next, .text value, kind, false⟩ : Triple)
        else [⟨intermediate subject ((name :: rest).take i), next,
          .text (intermediate subject ((name :: rest).take (i + 1))), .identifier, false⟩]) =
        pathSteps (subject ++ "*" ++ name) rest values := by
      rw [List.zipIdx_succ, List.flatMap_map]
      simp only [Nat.add_right_cancel_iff]
      rfl
    rw [pathSteps, List.zipIdx_cons, List.flatMap_cons, List.length_cons, htail, ← ih]
    cases rest with
    | nil => simp [pathTriples, intermediate]
    | cons next rest => simp [pathTriples, intermediate]

/-- The triples of a path have texts as their values. -/
theorem isText_of_mem_pathSteps {t : Triple} {subject : String} {names : List String}
    {values : List TypedValue} (ht : t ∈ pathSteps subject names values) : t.IsText := by
  obtain ⟨⟨name, i⟩, -, ht⟩ := List.mem_flatMap.mp ht
  dsimp only at ht
  split at ht
  · obtain ⟨v, -, rfl⟩ := List.mem_map.mp ht
    exact ⟨v.2, rfl⟩
  · obtain rfl := List.mem_singleton.mp ht
    exact ⟨_, rfl⟩

/-- All accesses along a path have texts as their values. -/
theorem isText_of_mem_accesses {t : Triple} {subject : String} {path : List (Option String)}
    {values : List TypedValue} (ht : t ∈ accesses subject path values) : t.IsText := by
  unfold accesses at ht
  split at ht
  · cases ht
  · split at ht
    · cases ht
    · exact isText_of_mem_pathSteps ht

/-- All accesses of a production have texts as their values. -/
theorem Production.isText_of_mem_accesses {p : Production} : ∀ t ∈ p.accesses, t.IsText := by
  intro t ht
  rcases List.mem_append.mp ht with ht | ht
  · obtain ⟨i, -, ht⟩ := List.mem_flatMap.mp ht
    unfold IdentifierCondition.accesses at ht
    -- Only a condition on a named variable has accesses.
    cases hname : nonEmpty? i.variableName with
    | none => simp [hname] at ht
    | some subject =>
      rw [hname] at ht
      obtain ⟨test, -, ht⟩ := List.mem_flatMap.mp ht
      exact Rule.isText_of_mem_accesses ht
  · obtain ⟨m, -, ht⟩ := List.mem_flatMap.mp ht
    unfold VariableMake.accesses at ht
    cases hname : nonEmpty? m.variableName with
    | none => simp [hname] at ht
    | some subject =>
      rw [hname] at ht
      obtain ⟨make, -, ht⟩ := List.mem_flatMap.mp ht
      exact Rule.isText_of_mem_accesses ht

/-- Of several triples with the same access the first is kept, and texts make the same access just if variable,
attribute and value are equal. -/
theorem distinctTriples_eq_firstOfEach {ts : List Triple} (hts : ∀ t ∈ ts, t.IsText) :
    distinctTriples ts = firstOfEach ts := by
  -- The triples that were kept come last first in the loop of `eraseDupsBy`.
  have hfold : ∀ kept : List Triple,
      ts.foldl (fun kept t => if kept.any (·.same t) then kept else kept ++ [t]) kept =
        List.eraseDupsBy.loop (fun later earlier => later.access = earlier.access) ts kept.reverse := by
    induction ts with
    | nil => simp [List.eraseDupsBy.loop]
    | cons t rest ih =>
      intro kept
      obtain ⟨ht, hrest⟩ := List.forall_mem_cons.mp hts
      have hsame : (·.same t) = fun earlier : Triple => decide (t.access = earlier.access) := by
        funext earlier
        rw [Bool.eq_iff_iff, Triple.same_iff_access_eq ht, decide_eq_true_iff, eq_comm]
      rw [List.foldl_cons, ih hrest, List.eraseDupsBy.loop, List.any_reverse, hsame]
      cases kept.any fun earlier => t.access = earlier.access <;> simp
  exact hfold []

end SoarProject.Rule
