import SoarProject.Proofs.Rule.Progress

/-!
# Reading the words of a right side

The words of well-formed actions lead from the situation before them to the one behind them. A value is
read in the same way wherever it goes: into a path, to the values of an attribute, behind a preference or
among the arguments of a call. The last value of an attribute stays open until the attribute or the action
ends, so that more preferences can follow.

* `Rule.RhsValue.leads`: from before a value to behind it, however calls are nested.
* `Rule.PreferenceSpecifier.leads`: the same for a preference with its comma.
* `Rule.Action.leads`: the same for an action.
-/

namespace SoarProject.Rule

variable {style : Style}

/-! ### Values -/

/-- Put a complete value among the arguments of the innermost call, or where it goes without one. -/
def ValueSlot.fill? (slot : ValueSlot) (around : List OpenCall) (value : RhsValue) : Option State :=
  match around with
  | [] => slot.put? value
  | outer :: rest => some (.call slot rest { outer with arguments := outer.arguments ++ [value] })

/-- A token at which a value may begin begins one that goes there. -/
def State.Begins (a : State) (slot : ValueSlot) (around : List OpenCall) : Prop :=
  ∀ t : Token, t.terminal ∈ Place.values → a.step? t =
    if t.terminal = .leftParen then some (.callStart slot around, .callStart)
    else t.value?.bind fun made => (slot.fill? around made.1).map (·, made.2)

/-- A value of one token is read and put where it goes. -/
theorem State.Begins.step?_eq {a b : State} {slot : ValueSlot} {around : List OpenCall}
    (h : a.Begins slot around) {t : Token} (ht : t.terminal ∈ Place.singles) {v : RhsValue}
    {q : Place} (hv : t.value? = some (v, q)) (hb : slot.fill? around v = some b) :
    a.step? t = some (b, q) := by
  have hparen : t.terminal ≠ .leftParen := fun heq => absurd (heq ▸ ht) (by decide)
  rw [h t (List.mem_cons_of_mem _ ht), if_neg hparen, hv]
  dsimp only [Option.bind_some]
  rw [hb, Option.map_some]

/-- A value begins where it can be put. -/
theorem ValueSlot.start?_eq (slot : ValueSlot) (t : Token) : slot.start? t =
    if t.terminal = .leftParen then some (.callStart slot [], .callStart)
    else t.value?.bind fun made => (slot.fill? [] made.1).map (·, made.2) := by
  unfold start? fill?
  split
  · rfl
  · cases t.value? with
    | none => rfl
    | some made => cases hput : slot.put? made.1 <;> simp [hput]

/-- A step of a path begins. -/
theorem State.begins_makePath (a : OpenAttribute) : (State.makePath a).Begins (.path a) [] :=
  fun t _ => ValueSlot.start?_eq (.path a) t

/-- A value begins behind a path. -/
theorem State.begins_madePath (a : OpenAttribute) : (State.madePath a).Begins (.value a) [] := by
  intro t ht
  have hdot : t.terminal ≠ .dot := fun heq => absurd (heq ▸ ht) (by decide)
  exact (if_neg hdot).trans (ValueSlot.start?_eq (.value a) t)

/-- Another value begins behind a value. -/
theorem State.begins_value (a : OpenAttribute) (v : ValueMake) (comma : Bool)
    {t : Token} (ht : t.terminal ∈ Place.values) :
    (State.value a v comma).step? t = (State.madePath { a with values := a.values ++ [v] }).step? t := by
  have hnone : unaryPreferenceCode? t.terminal = none ∧ binaryPreferenceCode? t.terminal = none ∧
      t.terminal ≠ .comma ∧ t.terminal ≠ .caret ∧ t.terminal ≠ .rightParen ∧ t.terminal ≠ .dot := by
    revert ht
    cases t.terminal <;> decide
  obtain ⟨hunary, hbinary, hcomma, hcaret, hparen, hdot⟩ := hnone
  change OpenAttribute.step? a v comma t = if t.terminal = .dot then _ else _
  rw [OpenAttribute.step?, hunary, hbinary, if_neg hdot]
  dsimp only
  split <;> first | contradiction | rfl

/-- The referent of a preference begins. -/
theorem State.begins_preference (a : OpenAttribute) (v : ValueMake) (code : Int) :
    (State.preference a v code).Begins (.referent a v code) [] :=
  fun t ht => (if_pos ht).trans (ValueSlot.start?_eq (.referent a v code) t)

/-- An argument of a call begins. -/
theorem State.begins_call (slot : ValueSlot) (around : List OpenCall) (c : OpenCall) :
    (State.call slot around c).Begins slot (c :: around) := by
  intro t ht
  change c.step? slot around t = _
  unfold OpenCall.step?
  split
  · next heq => exact (if_pos heq).symm
  · next heq => exact absurd (heq ▸ ht) (by decide)
  · next hparen _ =>
    rw [if_neg hparen]
    cases t.value? <;> rfl

/-- The terminals that may follow a value. -/
def valueEnd : List Terminal := Place.callEnd.expected

/-- The name of a function is welcome at the beginning of a call. -/
theorem functionTerminal_mem (s : String) : functionTerminal s ∈ Place.callStart.expected := by
  unfold functionTerminal
  repeat' split
  all_goals decide

/-- The terminals at which a call begins are those of functions. -/
theorem isFunctionName_of_mem {t : Terminal} (h : t ∈ Place.callStart.expected) :
    isFunctionName t = true := by
  revert h
  cases t <;> decide

/-- A constant is a value. -/
theorem Token.value?_eq {t : Token} {c : Constant} (hmem : t.terminal ∈ Place.constants)
    (hc : t.constant? = some c) : t.value? = some ({ constant := some c }, .constant) := by
  have hvariable : t.terminal ≠ .variableName := fun heq => absurd (heq ▸ hmem) (by decide)
  rw [value?, if_neg hvariable, hc, Option.map_some]

mutual

/-- A value is read, and put where it goes. -/
theorem RhsValue.leads : ∀ {v : RhsValue}, v.Proper → (∀ w ∈ v.words, w.Written style) →
    ∀ {a b : State} {slot : ValueSlot} {around : List OpenCall}, a.Begins slot around →
      slot.fill? around v = some b → a.Leads style Place.values v.words b valueEnd
  -- By what the value is: a constant, a call, or a variable.
  | ⟨some c, none, none⟩, h, hw, a, b, slot, around, ha, hfill => by
    rw [RhsValue.words] at hw ⊢
    obtain ⟨hreadable, hconstant⟩ := (hw _ (List.mem_singleton.mpr rfl)).constant h
    have hwelcome := Word.terminal_constant_mem h
    have hmem := List.mem_cons_of_mem Terminal.variableName hwelcome
    exact .word (q := .constant) hreadable (List.mem_cons_of_mem _ hmem)
      (fun position => ha.step?_eq hmem (Token.value?_eq hwelcome (hconstant position)) hfill)
      (by decide)
  | ⟨none, some call, none⟩, h, hw, a, b, slot, around, ha, hfill => by
    rw [RhsValue.words] at hw ⊢
    have hmem : Terminal.leftParen ∈ Place.values := by decide
    exact FunctionCall.leads call h hw
      (.sign (q := .callStart) .leftParen (by decide) hmem (fun _ => ha _ hmem) (List.Subset.refl _))
      hfill
  | ⟨none, none, some v⟩, _, hw, a, b, slot, around, ha, hfill => by
    have hwritten := hw (.variableName v) (List.mem_singleton.mpr rfl)
    have hmem : Terminal.variableName ∈ Place.singles := by decide
    have hvalue : ∀ position, ((Word.variableName v).token style position).value? =
        some ({ variableName := some v }, .valueVariable) := fun _ =>
      congrArg (fun s => some (({ variableName := some s } : RhsValue), Place.valueVariable))
        String.ofList_toList
    exact .word (q := .valueVariable) (Word.readable_variableName hwritten.1)
      (List.mem_cons_of_mem _ hmem) (fun position => ha.step?_eq hmem (hvalue position) hfill)
      (by decide)
  | ⟨none, none, none⟩, h, _, _, _, _, _, _, _ => h.elim
  | ⟨some _, some _, _⟩, h, _, _, _, _, _, _, _ => h.elim
  | ⟨some _, none, some _⟩, h, _, _, _, _, _, _, _ => h.elim
  | ⟨none, some _, some _⟩, h, _, _, _, _, _, _, _ => h.elim

/-- A call is read, and put where it goes, wherever its parenthesis begins one. -/
theorem FunctionCall.leads : ∀ (call : FunctionCall), call.Proper →
    (∀ w ∈ call.words, w.Written style) →
      ∀ {a b : State} {slot : ValueSlot} {around : List OpenCall} {T : List Terminal},
        (∀ {ws : List Word} {c : State} {V : List Terminal},
          (State.callStart slot around).Leads style Place.callStart.expected ws c V →
            a.Leads style T (.sign .leftParen :: ws) c V) →
          slot.fill? around { call := some call } = some b → a.Leads style T call.words b valueEnd
  | ⟨functionName, arguments⟩, h, hw, a, b, slot, around, T, hopen, hfill => by
    rw [FunctionCall.words] at hw ⊢
    have hname := hw (.functionName functionName) (by simp)
    -- The arguments are read by the mutual claim about lists of values.
    have harguments := RhsValue.leads_allWords slot around ⟨functionName, []⟩ h fun w hmem =>
      hw w (List.mem_cons_of_mem _ (List.mem_cons_of_mem _ (List.mem_append_left _ hmem)))
    refine hopen (.cons (q := .functionName) (Word.readable_functionName hname.1)
      (functionTerminal_mem functionName) (fun position => ?_) (List.Subset.refl _)
      (harguments.trans (.lastSign (q := .callEnd) .rightParen (by decide) (by decide) (fun _ => ?_)
        (List.Subset.refl _))))
    · refine (if_pos (isFunctionName_of_mem (functionTerminal_mem functionName))).trans ?_
      exact congrArg (fun s => some (State.call slot around ⟨s, []⟩, Place.functionName))
        String.ofList_toList
    · -- The call ends where it began: in the slot, or among the arguments of another call.
      cases around with
      | nil => exact congrArg (Option.map (·, Place.callEnd)) hfill
      | cons outer rest => exact congrArg (Option.map (·, Place.callEnd)) hfill

/-- The arguments of a call are read. -/
theorem RhsValue.leads_allWords : ∀ (slot : ValueSlot) (around : List OpenCall) (c : OpenCall)
    {values : List RhsValue}, RhsValue.AllProper values →
      (∀ w ∈ RhsValue.allWords values, w.Written style) →
        (State.call slot around c).Leads style Place.functionName.expected (RhsValue.allWords values)
          (.call slot around { c with arguments := c.arguments ++ values }) Place.functionName.expected
  | slot, around, c, [], _, _ => by
    rw [List.append_nil]
    exact .refl
  | slot, around, c, v :: rest, h, hw => by
    rw [RhsValue.allWords] at hw ⊢
    have hfirst := RhsValue.leads h.1 (fun w hmem => hw w (List.mem_append_left _ hmem))
      (State.begins_call slot around c) rfl
    have hrest := RhsValue.leads_allWords slot around
      { c with arguments := c.arguments ++ [v] } h.2 fun w hmem => hw w (List.mem_append_right _ hmem)
    -- The arguments read first stand before the others.
    rw [List.append_assoc, List.singleton_append] at hrest
    exact .of_subset (by decide) (hfirst.trans (.of_subset (by decide) hrest))

end

/-! ### Preferences -/

section

variable (a : OpenAttribute) (v : ValueMake)

/-- The sign of a preference that never has a referent is read. -/
theorem unaryPreferenceCode?_terminalOf {code : Int} (h : IsPreferenceOf naturalSigns code) :
    unaryPreferenceCode? (terminalOf preferenceTerminals code) = some code ∧
      (terminalOf preferenceTerminals code).sign ≠ [] ∧
      terminalOf preferenceTerminals code ∈ Place.valueFollow := by
  obtain ⟨sign, hsign, rfl⟩ := h
  revert sign
  decide

/-- The sign of a preference that may have a referent is read. -/
theorem binaryPreferenceCode?_terminalOf {code : Int} (h : IsPreferenceOf referentSigns code) :
    (unaryPreferenceCode? (terminalOf preferenceTerminals code) = none ∧
      binaryPreferenceCode? (terminalOf preferenceTerminals code) = some code) ∧
      (terminalOf preferenceTerminals code).sign ≠ [] ∧
      terminalOf preferenceTerminals code ∈ Place.valueFollow := by
  obtain ⟨sign, hsign, rfl⟩ := h
  revert sign
  decide

/-- The sign of a preference that may have a referent leaves it open whether one follows. -/
theorem State.step?_value_referent {code : Int} (h : IsPreferenceOf referentSigns code)
    (position : Position) :
    (State.value a v false).step? ⟨terminalOf preferenceTerminals code,
      (terminalOf preferenceTerminals code).sign, position⟩ =
        some (.preference a v code, .preference) := by
  obtain ⟨⟨hunary, hbinary⟩, -, -⟩ := binaryPreferenceCode?_terminalOf h
  change OpenAttribute.step? a v false _ = _
  rw [OpenAttribute.step?, hunary, hbinary]

/-- A preference is read with its comma. -/
theorem PreferenceSpecifier.leads {p : PreferenceSpecifier} (h : p.WellFormed)
    (hw : ∀ w ∈ p.words, w.Written style) :
    (State.value a v false).Leads style Place.valueFollow p.words (.value a (v.push p) false)
      Place.valueFollow := by
  obtain ⟨code, _ | ⟨n⟩, _ | ⟨f⟩, _ | ⟨b, referent⟩⟩ := p
  · exact h.elim
  · -- A binary preference has its referent and a comma behind it.
    obtain ⟨rfl, hcode, hproper⟩ := h
    obtain ⟨-, hsign, hwelcome⟩ := binaryPreferenceCode?_terminalOf hcode
    have hwords : words ⟨b, none, none, some ⟨b, referent⟩⟩ =
        .sign (terminalOf preferenceTerminals b) :: (referent.words ++ [.sign .comma]) := by
      simp [words]
    rw [hwords] at hw ⊢
    have hreferent := RhsValue.leads hproper
      (fun w hmem => hw w (List.mem_cons_of_mem _ (List.mem_append_left _ hmem)))
      (State.begins_preference a v b) rfl
    exact .sign (q := .preference) _ hsign hwelcome (State.step?_value_referent a v hcode) (by decide)
      (hreferent.trans (.lastSign (q := .preferenceComma) .comma (by decide) (by decide)
        (fun _ => rfl) (List.Subset.refl _)))
  · -- A forced unary preference is a binary sign with a comma right behind it.
    obtain ⟨rfl, hcode⟩ := h
    obtain ⟨-, hsign, hwelcome⟩ := binaryPreferenceCode?_terminalOf hcode
    exact .sign (q := .preference) _ hsign hwelcome (State.step?_value_referent a v hcode)
      (U := [.comma]) (by decide) (.lastSign (q := .preferenceComma) .comma (by decide) (by decide)
        (fun _ => rfl) (List.Subset.refl _))
  · exact h.elim
  · -- A natural unary one is a sign of its own.
    obtain ⟨rfl, hcode⟩ := h
    obtain ⟨hunary, hsign, hwelcome⟩ := unaryPreferenceCode?_terminalOf hcode
    refine .sign (b := .value a (v.push (.ofNatural n.kind)) true) (q := .preference) _ hsign
      hwelcome (fun _ => ?_) (U := [.comma]) (by decide) (.lastSign (q := .preferenceComma)
        .comma (by decide) (by decide) (fun _ => rfl) (List.Subset.refl _))
    change OpenAttribute.step? a v false _ = _
    rw [OpenAttribute.step?, hunary]
  · exact h.elim
  · exact h.elim
  · exact h.elim

end

/-! ### Attributes -/

/-- A value is read with its preferences. -/
theorem ValueMake.leads (m : ValueMake) (h : m.WellFormed) (hw : ∀ w ∈ m.words, w.Written style)
    {s : State} {a : OpenAttribute} (hs : s.Begins (.value a) []) :
    s.Leads style Place.values m.words (.value a m false) Place.valueFollow := by
  obtain ⟨value, preferences⟩ := m
  have hvalue := RhsValue.leads h.1 (fun w hmem => hw w (List.mem_append_left _ hmem)) hs rfl
  have hpreferences : (State.value a ⟨value, []⟩ false).Leads style Place.valueFollow
      (preferences.flatMap PreferenceSpecifier.words) (.value a ⟨value, preferences⟩ false)
      Place.valueFollow :=
    State.Leads.flatMap (f := fun before => .value a ⟨value, before⟩ false)
      (fun before p hp => p.leads a ⟨value, before⟩ (h.2 p hp) fun w hmem =>
        hw w (List.mem_append_right _ (List.mem_flatMap.mpr ⟨p, hp, hmem⟩))) []
  exact hvalue.trans (.of_subset (by decide) hpreferences)

/-- The values of an attribute are read; the last one stays open. -/
theorem ValueMake.leads_flatMap {values : List ValueMake} (hne : values ≠ [])
    (hall : ∀ m ∈ values, m.WellFormed) (hw : ∀ m ∈ values, ∀ w ∈ m.words, w.Written style)
    {s : State} {a : OpenAttribute} (hs : s.Begins (.value a) []) :
    s.Leads style Place.values (values.flatMap ValueMake.words)
      (.value { a with values := a.values ++ values.dropLast } (values.getLast hne) false)
      Place.valueFollow := by
  induction values generalizing s a with
  | nil => exact absurd rfl hne
  | cons m rest ih =>
    have hfirst := m.leads (hall m List.mem_cons_self) (hw m List.mem_cons_self) hs
    cases rest with
    | nil => simpa using hfirst
    | cons m' rest =>
      -- The next value may begin where the last one ended, as if the path had just been read.
      have hnext : (State.value a m false).Begins (.value { a with values := a.values ++ [m] }) [] :=
        fun t ht => (State.begins_value a m false ht).trans (State.begins_madePath _ t ht)
      have hrest := ih (by simp) (fun x hx => hall x (List.mem_cons_of_mem _ hx))
        (fun x hx => hw x (List.mem_cons_of_mem _ hx)) hnext
      rw [List.flatMap_cons]
      rw [List.append_assoc, List.singleton_append] at hrest
      exact hfirst.trans (.of_subset (U := Place.values) (by decide) hrest)

/-- Closing an attribute behind its last value gives it all of its values. -/
theorem OpenAttribute.close_getLast (a : OpenAttribute) {values : List ValueMake}
    (hne : values ≠ []) :
    OpenAttribute.close { a with values := values.dropLast } (values.getLast hne) =
      { a.make with makes := a.make.makes ++ [⟨a.path, values⟩] } := by
  rw [close, List.dropLast_concat_getLast]

/-- An attribute is read with its values, the last of them open. -/
theorem AttributeMake.leads (m : AttributeMake) (h : m.WellFormed)
    (hw : ∀ w ∈ m.words, w.Written style) {s : State} {o : OpenMake} {T : List Terminal}
    (hT : .caret ∈ T) (hs : ∀ position, s.step? ⟨.caret, Terminal.caret.sign, position⟩ =
      some (.makePath { make := o }, .makePathStep)) :
    ∃ a v, s.Leads style T m.words (.value a v false) Place.valueFollow ∧
      a.close v = { o with makes := o.makes ++ [m] } := by
  obtain ⟨path, values⟩ := m
  obtain ⟨⟨hpath, hproper⟩, hvalues, hall⟩ := h
  have hw' : (∀ v ∈ path, ∀ w ∈ v.words, w.Written style) ∧
      ∀ m ∈ values, ∀ w ∈ m.words, w.Written style := by
    refine ⟨fun v hv w hmem => hw w (List.mem_cons_of_mem _ (List.mem_append_left _ ?_)),
      fun m hm w hmem => hw w (List.mem_cons_of_mem _ (List.mem_append_right _
        (List.mem_flatMap.mpr ⟨m, hm, hmem⟩)))⟩
    exact mem_dotted (List.mem_map_of_mem hv) hmem
  -- The path and then the values; the last value is still open at the end.
  have hsteps : (State.makePath { make := o }).Leads style Place.values
      (dotted (path.map RhsValue.words)) (.madePath { make := o, path }) valueEnd :=
    .dotted (f := fun before => .makePath { make := o, path := before })
      (h := fun before => .madePath { make := o, path := before }) (q := .makePathStep) (by decide)
      (fun before v hv => RhsValue.leads (hproper v hv) (hw'.1 v hv) (State.begins_makePath _) rfl)
      (fun _ _ => rfl) (List.Subset.refl _) hpath
  have hrest := ValueMake.leads_flatMap hvalues hall hw'.2
    (State.begins_madePath { make := o, path })
  refine ⟨_, _, .sign (q := .makePathStep) .caret (by decide) hT hs (List.Subset.refl _)
    (hsteps.trans (.of_subset (by decide) hrest)), ?_⟩
  exact OpenAttribute.close_getLast { make := o, path } hvalues

/-- The attributes of an action are read, the last value open. -/
theorem AttributeMake.leads_flatMap {makes : List AttributeMake} (hne : makes ≠ [])
    (hall : ∀ m ∈ makes, m.WellFormed) (hw : ∀ m ∈ makes, ∀ w ∈ m.words, w.Written style)
    {s : State} {o : OpenMake} {T : List Terminal} (hT : .caret ∈ T)
    (hs : ∀ position, s.step? ⟨.caret, Terminal.caret.sign, position⟩ =
      some (.makePath { make := o }, .makePathStep)) :
    ∃ a v, s.Leads style T (makes.flatMap AttributeMake.words) (.value a v false) Place.valueFollow ∧
      a.close v = { o with makes := o.makes ++ makes } := by
  induction makes generalizing s o T with
  | nil => exact absurd rfl hne
  | cons m rest ih =>
    obtain ⟨a, v, hfirst, hclose⟩ :=
      m.leads (hall m List.mem_cons_self) (hw m List.mem_cons_self) hT hs
    cases rest with
    | nil => exact ⟨a, v, by simpa using hfirst, hclose⟩
    -- The next attribute closes the value that was open.
    | cons m' rest =>
      obtain ⟨a', v', hrest, hclose'⟩ := ih (by simp)
        (fun x hx => hall x (List.mem_cons_of_mem _ hx))
        (fun x hx => hw x (List.mem_cons_of_mem _ hx)) (s := .value a v false) (o := a.close v)
        (T := Place.valueFollow) (by decide) fun _ => rfl
      refine ⟨a', v', hfirst.trans hrest, ?_⟩
      rw [hclose', hclose]
      simp

/-! ### Actions -/

/-- New attribute values are read. -/
theorem VariableMake.leads (side : RightSide) {m : VariableMake} (h : m.WellFormed)
    (hw : ∀ w ∈ m.words, w.Written style) :
    (State.actions side).Leads style Place.actionEnd.expected m.words
      (.actions { side with actions := side.actions ++ [{ make := some m }] })
      Place.actionEnd.expected := by
  obtain ⟨variableName, makes⟩ := m
  have hvariable := hw (.variableName variableName) (by simp [words])
  have hw' : ∀ m ∈ makes, ∀ w ∈ m.words, w.Written style := fun m hm w hmem =>
    hw w (List.mem_cons_of_mem _ (List.mem_cons_of_mem _ (List.mem_append_left _
      (List.mem_flatMap.mpr ⟨m, hm, hmem⟩))))
  -- The variable, its attributes, and the parenthesis that closes them all.
  obtain ⟨a, v, hmakes, hclose⟩ := AttributeMake.leads_flatMap h.1 h.2 hw'
    (s := .make { side, variableName }) (o := { side, variableName })
    (T := Place.makeVariable.expected) (by decide) fun _ => rfl
  have hend : (State.value a v false).Leads style Place.valueFollow [.sign .rightParen]
      (.actions (a.close v).close) Place.actionEnd.expected :=
    .lastSign (q := .actionEnd) .rightParen (by decide) (by decide) (fun _ => rfl)
      (List.Subset.refl _)
  rw [hclose] at hend
  have hwelcome : Terminal.variableName ∈ Place.actionStart.expected := by decide
  refine .sign (b := .actionStart side) (q := .actionStart) .leftParen (by decide) (by decide)
    (fun _ => rfl) (List.Subset.refl _) (.cons (q := .makeVariable)
      (Word.readable_variableName hvariable.1) hwelcome (fun _ => ?_) (List.Subset.refl _)
      (hmakes.trans hend))
  exact congrArg (fun name => some (State.make { side, variableName := name }, Place.makeVariable))
    String.ofList_toList

/-- An action is read. -/
theorem Action.leads (side : RightSide) {x : Action} (h : x.WellFormed)
    (hw : ∀ w ∈ x.words, w.Written style) :
    (State.actions side).Leads style Place.actionEnd.expected x.words
      (.actions { side with actions := side.actions ++ [x] }) Place.actionEnd.expected := by
  obtain ⟨_ | m, _ | call⟩ := x
  · exact h.elim
  · have hwords : words ⟨none, some call⟩ = call.words := by simp [words]
    rw [hwords] at hw ⊢
    have hcall : (State.actions side).Leads style Place.actionEnd.expected call.words
        (.actions { side with actions := side.actions ++ [{ call := some call }] }) valueEnd := by
      have hfill : (ValueSlot.action side).fill? [] { call := some call } =
          some (.actions { side with actions := side.actions ++ [{ call := some call }] }) := rfl
      refine FunctionCall.leads call h hw (fun hrest => ?_) hfill
      refine .sign (b := .actionStart side) (q := .actionStart) .leftParen (by decide) (by decide)
        (fun _ => rfl) (List.Subset.refl _) (.of_alike (b := .callStart (.action side) [])
          (U := Place.callStart.expected) (by decide) (fun t ht => ?_) rfl hrest)
      -- Only a variable tells an action from a call.
      have hvariable : t.terminal ≠ .variableName := fun heq => absurd (heq ▸ ht) (by decide)
      exact if_neg hvariable
    simpa using hcall.trans (.of_subset (U := Place.actionEnd.expected) (by decide) .refl)
  · have hwords : words ⟨some m, none⟩ = m.words := by simp [words]
    rw [hwords] at hw ⊢
    exact m.leads side h hw
  · exact h.elim

end SoarProject.Rule
