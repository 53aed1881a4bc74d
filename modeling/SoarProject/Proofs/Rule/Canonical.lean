import SoarProject.Proofs.Rule.LeftSide
import SoarProject.Proofs.Rule.RightSide

/-!
# Reading canonical text

Every well-formed production has a text, and reading that text gives it back: its heading, its conditions
and its actions are read one after the other.

* `Rule.leads_heading`: from before the name of a production to its first condition.
* `Rule.Production.leads`: from the start to the end of a production.
* `Rule.parseProduction_canonicalText`: the reader inverts the canonical text.
-/

namespace SoarProject.Rule

variable {style : Style}

/-- The flags of a production are read. -/
theorem leads_flags (h : Heading) {flags : List String}
    (hw : ∀ s ∈ flags, (Word.flag s).Written style) :
    (State.heading h).Leads style Place.heading.expected (flags.map .flag)
      (.heading { h with flags := h.flags ++ flags }) Place.heading.expected := by
  rw [List.map_eq_flatMap]
  refine State.Leads.flatMap (f := fun before => .heading { h with flags := before })
    (fun before s hs => ?_) h.flags
  have hwelcome : Terminal.flag ∈ Place.heading.expected := by decide
  refine .word (q := .heading) (Word.readable_flag (hw s hs).1) hwelcome (fun _ => ?_)
    (List.Subset.refl _)
  exact congrArg (fun s => some (State.heading { h with flags := before ++ [s] }, Place.heading))
    String.ofList_toList

/-- The name, the documentation and the flags are read. The first condition begins as it does between
conditions. -/
theorem leads_heading {name : String} {documentation : Option String} {flags : List String}
    (hname : (Word.symbol name).Written style)
    (hdocumentation : ∀ s ∈ documentation, (Word.documentation s).Written style)
    (hflags : ∀ s ∈ flags, (Word.flag s).Written style) :
    State.start.Leads style [.symbol]
      (.symbol name :: (documentation.toList.map .documentation ++ flags.map .flag))
      (.clauses { heading := { name, documentation, flags } }) conditionFirst := by
  -- Without any flag the heading reads what the conditions would read.
  have hclauses : (State.heading { name, documentation, flags }).Leads style Place.heading.expected []
      (.clauses { heading := { name, documentation, flags } }) conditionFirst := by
    refine .of_alike (b := .clauses _) (by decide) (fun t ht => ?_) rfl .refl
    change Heading.step? _ t = _
    unfold Heading.step?
    split
    · next heq => exact absurd (heq ▸ ht) (by decide)
    · next heq => exact absurd (heq ▸ ht) (by decide)
    · rfl
  -- Documentation comes first, if there is any, and flags behind it.
  have hrest : (State.heading { name }).Leads style Place.name.expected
      (documentation.toList.map .documentation ++ flags.map .flag)
      (.clauses { heading := { name, documentation, flags } }) conditionFirst := by
    cases documentation with
    | none =>
      have hread := (leads_flags { name } hflags).trans hclauses
      rw [List.append_nil] at hread
      exact .of_subset (by decide) hread
    | some s =>
      have hread := (leads_flags { name, documentation := some s } hflags).trans hclauses
      rw [List.append_nil] at hread
      have hwelcome : Terminal.documentation ∈ Place.name.expected := by decide
      refine .cons (q := .heading) (Word.readable_documentation (hdocumentation s rfl).1) hwelcome
        (fun position => ?_) (List.Subset.refl _) hread
      have hinner : Token.inner ⟨.documentation, '"' :: (s.toList ++ ['"']), position⟩ = s := by
        simp [Token.inner]
      exact congrArg (fun s => some (State.heading { name, documentation := some s }, Place.heading))
        hinner
  have hwelcome : Terminal.symbol ∈ [Terminal.symbol] := by decide
  refine .cons (q := .name) (Word.readable_symbol hname.1) hwelcome (fun _ => ?_)
    (List.Subset.refl _) hrest
  exact congrArg (fun s => some (State.heading { name := s }, Place.name)) String.ofList_toList

/-- The words of a well-formed production lead from the start to its end. -/
theorem Production.leads (p : Production) (h : p.WellFormed)
    (hw : ∀ w ∈ p.words style, w.Written style) :
    State.start.Leads style [.symbol] (p.words style)
      (.actions ⟨⟨p.name, p.documentation, p.flags⟩, p.conditions, p.actions⟩)
      Place.actionEnd.expected := by
  obtain ⟨name, conditions, actions, documentation, flags⟩ := p
  obtain ⟨⟨hne, hconditions⟩, hactions⟩ := h
  simp only [words, List.forall_mem_cons, List.forall_mem_append, List.forall_mem_map] at hw
  obtain ⟨hname, ⟨⟨hdocumentation, hflags⟩, hleft⟩, hright⟩ := hw
  let heading : Heading := { name, documentation, flags }
  have hhead := leads_heading hname (fun s hs => hdocumentation s (Option.mem_toList.mpr hs)) hflags
  have hclauses := Condition.leads_allWords { heading } hne (Condition.allWellFormed_iff.mpr hconditions)
    hleft
  have harrow : (State.clauses { heading, conditions }).Leads style conditionFollow [.sign .arrow]
      (.actions { heading, conditions }) Place.arrow.expected := by
    refine .lastSign (q := .arrow) .arrow (by decide) (by decide) (fun _ => ?_) (List.Subset.refl _)
    -- A production needs a condition before its arrow.
    cases conditions with
    | nil => exact absurd rfl hne
    | cons first rest => rfl
  have hmake : (State.actions { heading, conditions }).Leads style Place.actionEnd.expected
      (actions.flatMap Action.words) (.actions { heading, conditions, actions })
      Place.actionEnd.expected :=
    State.Leads.flatMap (f := fun before => .actions { heading, conditions, actions := before })
      (fun before a ha => a.leads { heading, conditions, actions := before } (hactions a ha)
        fun w hmem => hright.2 w (List.mem_flatMap.mpr ⟨a, ha, hmem⟩)) []
  have hall := (hhead.trans hclauses).trans (harrow.trans hmake)
  simpa [words] using hall

/-- The reader inverts the canonical text of every well-formed production that is spelled right, in
every style that writes its floating-point numbers so that they are read back. -/
theorem parseProduction_canonicalText (style : Style) {p : Production} (h : p.WellFormed)
    (hspelled : ∀ w ∈ p.words style, w.Spelled)
    (hinverts : ∀ x, Word.constant (.floating x) ∈ p.words style → style.Inverts x) :
    parseProduction (p.canonicalText style) = .ok p := by
  have hname : (Word.symbol p.name).Spelled := hspelled _ List.mem_cons_self
  have hleads := p.leads h fun w hw => ⟨hspelled w hw, fun x hx => hinverts x (hx ▸ hw)⟩
  exact parseProduction_eq_of_leads rfl hname rfl hleads

/-- The floating-point number that a word writes. -/
def Word.float? : Word → Option Float
  | .constant ⟨_, .float x⟩ => some x
  | _ => none

/-- A style that writes the sign of an equality, for productions with no other number than 1.5. -/
def plainStyle : Style := ⟨true, fun _ => "1.5"⟩

/-- A production with a negated conjunction, tests of each kind, a number with a point and preferences
of each kind. -/
def weighing : Production :=
  let value : SingleTest := { variableName := some "<v>" }
  let several : Test := { conjunctive := some ⟨[{ relational := some ⟨0, value⟩ },
    { relational := some ⟨1, { constant := some (.symbolic "a b") }⟩ }]⟩ }
  let constants : List Constant := [.integer (-2), .floating (Number.ofDecimal false 15 (-1))]
  let choice : Test := { simple := some { disjunction := some ⟨constants⟩ } }
  let tested : IdentifierCondition :=
    { variableName := "<s>", hasState := true
      tests := [{ attributes := [⟨several⟩, ⟨choice⟩], values := [⟨several, true⟩], negated := true }] }
  let number : RhsValue := { constant := some (.integer 3) }
  let call : FunctionCall := ⟨"-", [{ variableName := some "<v>" }, number]⟩
  let weighed : ValueMake := ⟨number, [.ofNatural 0, .ofBinary 5 { call := some call }, .ofForced 7]⟩
  { name := "weigh", documentation := some "by weight", flags := ["o-support"]
    conditions := [{ positive := { conjunction := some [{ positive := { identifier := some tested } }] },
                     negated := true }]
    actions := [{ make := some ⟨"<s>", [⟨[number, number], [weighed, weighed]⟩]⟩ }, { call := some call }] }

/-- Such a production is read back. -/
theorem parseProduction_canonicalText_weighing :
    weighing.WellFormed ∧ (∀ w ∈ weighing.words plainStyle, w.Spelled) ∧
      (∀ x, Word.constant (.floating x) ∈ weighing.words plainStyle → plainStyle.Inverts x) ∧
      parseProduction (weighing.canonicalText plainStyle) = .ok weighing := by
  have hsymbolic : ∀ s, (Constant.symbolic s).Proper := fun s => .inr (.inr ⟨s, rfl⟩)
  have hinteger : ∀ n, (Constant.integer n).Proper := fun n => .inl ⟨n, rfl⟩
  have hfloating : ∀ x, (Constant.floating x).Proper := fun x => .inr (.inl ⟨x, rfl⟩)
  have hpreferences : IsPreferenceOf naturalSigns 0 ∧ IsPreferenceOf referentSigns 5 ∧
      IsPreferenceOf referentSigns 7 :=
    ⟨⟨"+", by decide, by decide⟩, ⟨">", by decide, by decide⟩, ⟨"<", by decide, by decide⟩⟩
  have hrelations : IsCodeOf relationSigns 0 ∧ IsCodeOf relationSigns 1 := by decide
  have hwellFormed : weighing.WellFormed := by
    simp [weighing, Production.WellFormed, Condition.WellFormed, PositiveCondition.WellFormed,
      Condition.AllWellFormed, IdentifierCondition.WellFormed, AttributeValueTest.WellFormed,
      AttributeTest.WellFormed, ValueTest.WellFormed, Test.WellFormed, ConjunctiveTest.WellFormed,
      SimpleTest.WellFormed, DisjunctionTest.WellFormed, DisjunctionTest.Proper, RelationalTest.Proper,
      SingleTest.Proper, Action.WellFormed, VariableMake.WellFormed, AttributeMake.WellFormed,
      ValueMake.WellFormed, PreferenceSpecifier.WellFormed, PreferenceSpecifier.ofNatural,
      PreferenceSpecifier.ofBinary, PreferenceSpecifier.ofForced, RhsValue.Proper, FunctionCall.Proper,
      RhsValue.AllProper, hsymbolic, hinteger, hfloating, hpreferences, hrelations]
  have hspelled : ∀ w ∈ weighing.words plainStyle, w.Spelled := by decide +kernel
  -- One number is written as a float, and the style inverts it.
  have hnumbers : (weighing.words plainStyle).filterMap Word.float? =
      [Number.ofDecimal false 15 (-1)] := rfl
  have hinverts : ∀ x, Word.constant (.floating x) ∈ weighing.words plainStyle →
      plainStyle.Inverts x := by
    intro x hx
    obtain rfl : x = Number.ofDecimal false 15 (-1) := by
      rw [← List.mem_singleton, ← hnumbers]
      exact List.mem_filterMap.mpr ⟨_, hx, rfl⟩
    exact ⟨by decide, rfl⟩
  exact ⟨hwellFormed, hspelled, hinverts,
    parseProduction_canonicalText plainStyle hwellFormed hspelled hinverts⟩

end SoarProject.Rule
