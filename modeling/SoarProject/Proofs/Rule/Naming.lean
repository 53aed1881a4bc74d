import SoarProject.Proofs.Rule.Layout
import SoarProject.Proofs.Rule.Source

/-!
# The name of a production

The name of a production is its first token. It is also read without its body, as what stands behind the
opening brace and its blanks; that is the name unless a comment stands in front of it, or documentation or a
comment touches it from behind.

* `Rule.State.name?`: the name of a production in the middle of which a reader is.
* `Rule.Reader.name_of_run`: what is read to its end keeps the name.
* `Rule.productionName?_eq_name_iff`: when the name that is read without the body is the right one.
-/

namespace SoarProject.Rule

open SoarProject.Text

/-! ### The name in the middle of a production -/

/-- The name of the production around the place of a value. -/
def ValueSlot.name : ValueSlot → String
  | .action side => side.heading.name
  | .path a | .value a | .referent a _ _ => a.make.side.heading.name

/-- The name of the production, once it has been read. -/
def State.name? : State → Option String
  | .start => none
  | .heading h => h.name
  | .clauses c | .negation c | .conditionStart c _ | .conditionClass c _ _ => c.heading.name
  | .condition o | .testNegation o => o.clauses.heading.name
  | .test o _ _ | .testedPath o | .testedValue o _ | .acceptable o => o.condition.clauses.heading.name
  | .actions side | .actionStart side => side.heading.name
  | .make m => m.side.heading.name
  | .makePath a | .madePath a | .value a _ _ | .preference a _ _ => a.make.side.heading.name
  | .callStart slot _ | .call slot _ _ => slot.name

/-- If reading goes on, the production has a certain name. -/
def Keeps (name : String) (found : Option Progress) : Prop := ∀ next ∈ found, next.1.name? = some name

section Steps

variable {name : String} (t : Token)

/-- A token that is refused. -/
@[simp]
theorem keeps_none : Keeps name none := fun _ hnext => by cases hnext

/-- A token that is taken. -/
@[simp]
theorem keeps_some {state : State} {place : Place} :
    Keeps name (some (state, place)) ↔ state.name? = some name := by
  simp [Keeps]

/-- What is taken depends on something that a token may stand for. -/
theorem keeps_map {α : Type} {found : Option α} {f : α → Progress}
    (h : ∀ a, (f a).1.name? = some name) : Keeps name (found.map f) := by
  intro next hnext
  obtain ⟨a, -, rfl⟩ := Option.map_eq_some_iff.mp hnext
  exact h a

/-- Between conditions. -/
theorem Clauses.keeps_step? (c : Clauses) : Keeps c.heading.name (c.step? t) := by
  unfold step?
  repeat' split
  all_goals simp [State.name?]

/-- In the heading. -/
theorem Heading.keeps_step? (h : Heading) : Keeps h.name (h.step? t) := by
  unfold step?
  repeat' split
  · simp [State.name?]
  · simp
  · simp [State.name?]
  · exact Clauses.keeps_step? t { heading := h }

/-- After the minus sign of a condition. -/
theorem Clauses.keeps_stepNegated? (c : Clauses) : Keeps c.heading.name (c.stepNegated? t) := by
  unfold stepNegated?
  split <;> simp [State.name?]

/-- Between attribute tests. -/
theorem OpenCondition.keeps_step? (o : OpenCondition) :
    Keeps o.clauses.heading.name (o.step? t) := by
  unfold step?
  split <;> simp [State.name?, close, Clauses.push]

section Tests

variable (o : OpenTest) (slot : TestSlot)

/-- A complete simple test is put into its production. -/
theorem OpenTest.name?_putSimple (around : Option (List SimpleTest)) (simple : SimpleTest) :
    (o.putSimple slot around simple).name? = some o.condition.clauses.heading.name := by
  cases around <;> cases slot <;> rfl

/-- After a relation. -/
theorem OpenTest.keeps_single? (around : Option (List SimpleTest)) (code : Int) :
    Keeps o.condition.clauses.heading.name (o.single? slot around code t) := by
  unfold single?
  split
  · exact keeps_some.mpr (o.name?_putSimple slot around _)
  · exact keeps_map fun c => o.name?_putSimple slot around _

/-- Before a simple test. -/
theorem OpenTest.keeps_startSimple? (around : Option (List SimpleTest)) :
    Keeps o.condition.clauses.heading.name (o.startSimple? slot around t) := by
  unfold startSimple?
  repeat' split
  · simp [State.name?]
  · simp [State.name?]
  · exact o.keeps_single? t slot around 0

/-- Before a test. -/
theorem OpenTest.keeps_start? : Keeps o.condition.clauses.heading.name (o.start? slot t) := by
  unfold start?
  split
  · simp [State.name?]
  · exact o.keeps_startSimple? t slot none

/-- Inside a test. -/
theorem OpenTest.keeps_step? (part : TestPart) :
    Keeps o.condition.clauses.heading.name (o.step? slot part t) := by
  cases part with
  | start => exact o.keeps_start? t slot
  | conjunctive tests =>
    simp only [step?]
    -- Whatever the token opens or closes, the heading is carried along.
    repeat' split
    · simp
    · cases slot <;> exact keeps_some.mpr rfl
    · exact o.keeps_startSimple? t slot (some tests)
  | relation around code => exact o.keeps_single? t slot around code
  | disjunction around constants =>
    simp only [step?]
    repeat' split
    · simp
    · exact keeps_some.mpr (o.name?_putSimple slot around _)
    · exact keeps_map fun c => rfl

/-- After the test of a value. -/
theorem OpenTest.keeps_next? : Keeps o.condition.clauses.heading.name (o.next? t) := by
  unfold next?
  split
  all_goals first | exact o.close.keeps_step? t | exact o.keeps_start? t .value

end Tests

/-- A complete value is put into its production. -/
theorem ValueSlot.name?_put? {slot : ValueSlot} {value : RhsValue} {state : State}
    (h : slot.put? value = some state) : state.name? = some slot.name := by
  cases slot with
  | action side =>
    obtain ⟨call, -, rfl⟩ := Option.map_eq_some_iff.mp h
    rfl
  | path a => cases h; rfl
  | value a => cases h; rfl
  | referent a v code => cases h; rfl

/-- Before a value. -/
theorem ValueSlot.keeps_start? (slot : ValueSlot) : Keeps slot.name (slot.start? t) := by
  unfold start?
  split
  · simp [State.name?]
  · intro next hnext
    obtain ⟨made, -, hnext⟩ := Option.bind_eq_some_iff.mp hnext
    obtain ⟨state, hstate, heq⟩ := Option.bind_eq_some_iff.mp hnext
    cases heq
    exact name?_put? hstate

/-- Before an action. -/
theorem RightSide.keeps_start? (side : RightSide) : Keeps side.heading.name (side.start? t) := by
  unfold start?
  repeat' split
  all_goals simp [State.name?, ValueSlot.name]

/-- After a value or a preference. -/
theorem OpenAttribute.keeps_step? (a : OpenAttribute) (v : ValueMake) (comma : Bool) :
    Keeps a.make.side.heading.name (a.step? v comma t) := by
  unfold step?
  repeat' split
  all_goals first
    | exact keeps_some.mpr rfl
    | exact keeps_none
    | exact ValueSlot.keeps_start? t (.value _)

/-- After a preference that may have a referent. -/
theorem OpenAttribute.keeps_stepPreference? (a : OpenAttribute) (v : ValueMake) (code : Int) :
    Keeps a.make.side.heading.name (a.stepPreference? v code t) := by
  unfold stepPreference?
  split
  · exact ValueSlot.keeps_start? t (.referent a v code)
  · exact a.keeps_step? t _ true

/-- Inside a function call. -/
theorem OpenCall.keeps_step? (c : OpenCall) (slot : ValueSlot) (around : List OpenCall) :
    Keeps slot.name (c.step? slot around t) := by
  unfold step?
  split
  · exact keeps_some.mpr rfl
  · dsimp only
    split
    · intro next hnext
      obtain ⟨state, hstate, rfl⟩ := Option.map_eq_some_iff.mp hnext
      exact ValueSlot.name?_put? hstate
    · exact keeps_some.mpr rfl
  · exact keeps_map fun made => rfl

/-- Reading a token keeps the name, once it has been read. -/
theorem State.keeps_step? {state : State} (h : state.name? = some name) : Keeps name (state.step? t) := by
  -- No state behind the heading changes the name in it.
  unfold step?
  split
  · cases h
  · cases h; exact Heading.keeps_step? t _
  · cases h; exact Clauses.keeps_step? t _
  · cases h; exact Clauses.keeps_stepNegated? t _
  · cases h; split <;> simp [name?]
  · cases h; split <;> simp [name?]
  · cases h; exact OpenCondition.keeps_step? t _
  · cases h; split <;> simp [name?]
  · cases h; exact OpenTest.keeps_step? t _ _ _
  · cases h
    split
    · simp [name?]
    · exact OpenTest.keeps_next? t _
  · cases h
    split
    · exact keeps_some.mpr rfl
    · exact OpenTest.keeps_next? t (OpenTest.pushValue _ _ false)
  · cases h; exact OpenTest.keeps_next? t _
  · cases h; split <;> simp [name?]
  · cases h; exact RightSide.keeps_start? t _
  · cases h; split <;> simp [name?]
  · cases h; exact ValueSlot.keeps_start? t (.path _)
  · cases h
    split
    · simp [name?]
    · exact ValueSlot.keeps_start? t (.value _)
  · cases h; exact OpenAttribute.keeps_step? t _ _ _
  · cases h; exact OpenAttribute.keeps_stepPreference? t _ _ _
  · cases h; split <;> simp [name?]
  · cases h; exact OpenCall.keeps_step? t _ _ _

end Steps

/-- What is read to its end keeps the name. -/
theorem Reader.name_of_run {r : Reader} {p : Position} {s : List Char} {production : Production}
    {name : String} (h : r.run p s = .ok production) (hname : r.state.name? = some name) :
    production.name = name := by
  fun_induction Reader.run r p s with
  -- At the end of the text the name is read off the state.
  | case1 r p s p' hlayout =>
    unfold finish at h
    split at h
    · next hproduction =>
      cases h
      cases hstate : r.state with
      | actions side =>
        rw [hstate] at hname hproduction
        cases hname
        cases hproduction
        rfl
      | _ =>
        rw [hstate] at hproduction
        cases hproduction
    · cases h
  | case2 => cases h
  | case3 => cases h
  -- One token further, the name is still that of the state.
  | case4 r p s p' c rest hlayout t piece rest' hscan r' haccept ih =>
    refine ih h ?_
    unfold accept at haccept
    split at haccept
    · cases haccept
    · split at haccept
      · next hstep =>
        cases haccept
        exact State.keeps_step? _ hname _ hstep
      · cases haccept

/-! ### The first token -/

/-- What may stand behind the name of a production: layout, a comment, documentation or a condition. A flag
or a minus sign behind it would belong to the name. -/
def MayFollowName (c : Char) : Prop := isSeparator c = true ∨ c ∈ ['"', '(', '\x7b']

/-- What stands behind the name of a production that is read to its end. -/
theorem exists_cons_of_run {r : Reader} {p : Position} {s : List Char} {production : Production}
    {heading : Heading} (h : r.run p s = .ok production) (hplace : r.place = .name)
    (hstate : r.state = .heading heading) (hstops : Stops isSymbolChar s) :
    ∃ c rest, s = c :: rest ∧ MayFollowName c := by
  rw [Reader.run_eq] at h
  cases s with
  | nil =>
    change r.finish = _ at h
    rw [Reader.finish, hstate] at h
    cases h
  | cons c rest =>
    refine ⟨c, rest, rfl, ?_⟩
    -- If no layout separates the name from what follows, the next token begins right here.
    by_cases hseparator : isSeparator c = true
    · exact .inl hseparator
    have hskip : skipLayout false p (c :: rest) = (p, c :: rest) := by
      obtain ⟨hlayout, hsign⟩ : isLayout c = false ∧ c ≠ '#' := by simpa [isSeparator] using hseparator
      simp [skipLayout, hlayout, hsign]
    rw [hskip, hplace] at h
    dsimp only at h
    split at h
    · cases h
    · next t piece rest' hscan =>
      obtain ⟨-, -, -, hwelcome, hmatch, -⟩ := scan_eq_some_iff.mp hscan
      have hsymbol := stops_cons.mp hstops
      refine .inr ?_
      simp only [Place.expected, List.mem_cons, List.not_mem_nil, or_false] at hwelcome
      -- Of the tokens allowed behind a name, some cannot touch it, as they would be part of it.
      rcases hwelcome with rfl | rfl | rfl | rfl | rfl
      · obtain ⟨rfl, hsplit⟩ := sign?_eq_some_iff.mp hmatch
        cases hsplit
        decide
      · obtain ⟨rfl, hsplit⟩ := sign?_eq_some_iff.mp hmatch
        cases hsplit
        exact absurd hsymbol (by decide)
      · obtain ⟨y, rfl, -, hsplit⟩ := (Terminal.match?_eq_some_iff_of_quote? rfl).mp hmatch
        cases hsplit
        decide
      · obtain ⟨w, -, hsplit, -⟩ := flag?_eq_some_iff.mp hmatch
        cases hsplit
        exact absurd hsymbol (by decide)
      · obtain ⟨rfl, hsplit⟩ := sign?_eq_some_iff.mp hmatch
        cases hsplit
        decide

/-- The name of a production is its first token. -/
theorem exists_name_of_parseBody {body : String} {production : Production}
    (h : parseBody body = .ok production) :
    ∃ g c rest, body.toList = g ++ (production.name.toList ++ c :: rest) ∧ IsGap g ∧
      Terminal.symbol.Matches production.name.toList ∧ MayFollowName c := by
  rw [parseBody, Reader.run_eq] at h
  split at h
  · cases h
  · next p' d rest hlayout =>
    obtain ⟨g, htext, hg⟩ := exists_gap_of_token hlayout
    split at h
    · cases h
    · next t piece rest' hscan =>
      obtain ⟨-, -, -, hwelcome, hmatch, -⟩ := scan_eq_some_iff.mp hscan
      -- Only a symbol may stand first, and it is the name.
      obtain rfl : t = .symbol := List.mem_singleton.mp hwelcome
      have hstep : Reader.accept {} ⟨.symbol, piece, p'⟩ =
          .ok ⟨.heading { name := String.ofList piece }, .name, p', none⟩ := rfl
      rw [hstep] at h
      dsimp only at h
      have hname : production.name.toList = piece := by
        rw [Reader.name_of_run h rfl, String.toList_ofList]
      -- The name is as long as it can be, so what follows is no part of a name.
      have hword : word? isLetter isSymbolChar (d :: rest) = some (piece, rest') := hmatch
      obtain ⟨-, -, -, -, -, hstops, hsplit⟩ := word?_eq_some_iff.mp hword
      obtain ⟨c, rest'', rfl, hc⟩ := exists_cons_of_run h rfl rfl hstops
      refine ⟨g, c, rest'', ?_, hg, ?_, hc⟩
      · rw [htext, hname, hsplit]
      · rw [hname]
        exact Terminal.symbol.greedy_match?.fits hmatch

/-! ### The name without the body -/

/-- A gap is blank up to its first comment. -/
theorem IsGap.exists_blanks {g : List Char} (hg : IsGap g) :
    ∃ blanks comments, g = blanks ++ comments ∧ (∀ c ∈ blanks, isLayout c = true) ∧
      (comments = [] ∨ ∃ s, comments = '#' :: s) := by
  induction hg with
  | nil => exact ⟨[], [], rfl, fun _ hc => (List.not_mem_nil hc).elim, .inl rfl⟩
  | @layout c s hc _ ih =>
    obtain ⟨blanks, comments, rfl, hblanks, hcomments⟩ := ih
    exact ⟨c :: blanks, comments, rfl, List.forall_mem_cons.mpr ⟨hc, hblanks⟩, hcomments⟩
  | comment => exact ⟨[], _, rfl, fun _ hc => (List.not_mem_nil hc).elim, .inr ⟨_, rfl⟩⟩

/-- Trimming at the start leaves what trimming at both ends leaves, with blanks behind it. -/
theorem exists_trimLeft_eq (s : List Char) : ∃ u, trimLeft s = trim s ++ u := by
  refine ⟨((trimLeft s).reverse.takeWhile isBlank).reverse, ?_⟩
  rw [trim, trimRight, ← List.reverse_append, List.takeWhile_append_dropWhile, List.reverse_reverse]

theorem trimLeft_append {blanks s : List Char} (hblanks : ∀ c ∈ blanks, isBlank c = true)
    (hs : Stops isBlank s) : trimLeft (blanks ++ s) = s :=
  (takeWhile_append_of_stops hblanks hs).2

/-- The name that is read without the body stands behind the opening brace of the frame. -/
theorem productionName?_of_stripFraming {text body : String} (h : stripFraming text = .ok body) :
    ∃ u, ∀ name : String, name.toList ≠ [] → (productionName? text = some name ↔
      (trimLeft (body.toList ++ '\x7d' :: u)).takeWhile isNameChar = name.toList) := by
  -- The frame is taken off from both sides in the same way.
  obtain ⟨blanks, lead, hblanks, hlead, htrim⟩ := exists_frame h
  obtain ⟨u, hu⟩ := exists_trimLeft_eq text.toList
  have htext : trimLeft text.toList =
      's' :: 'p' :: (blanks ++ '\x7b' :: (lead ++ (body.toList ++ '\x7d' :: u))) := by
    rw [hu, htrim]
    simp
  have hbrace : trimLeft (blanks ++ '\x7b' :: (lead ++ (body.toList ++ '\x7d' :: u))) =
      '\x7b' :: (lead ++ (body.toList ++ '\x7d' :: u)) :=
    trimLeft_append (List.all_eq_true.mp hblanks) (stops_cons.mpr (by decide))
  have hinner : trimLeft (lead ++ (body.toList ++ '\x7d' :: u)) =
      trimLeft (body.toList ++ '\x7d' :: u) := by
    rw [trimLeft, List.dropWhile_append_of_pos (List.all_eq_true.mp hlead), trimLeft]
  refine ⟨u, fun name hne => ?_⟩
  simp only [productionName?, htext, hbrace, hinner]
  split
  · next hnil => simpa [hnil] using Ne.symm hne
  · rw [Option.some.injEq, ← String.toList_inj, String.toList_ofList]

/-- A character of a symbol may stand in a name that is read without the body. -/
theorem isNameChar_of_isSymbolChar {c : Char} (h : isSymbolChar c = true) : isNameChar c = true := by
  have hblank : isBlank c = false := by
    simp only [isSymbolChar, isVariableChar, Char.isAlphanum, Bool.or_eq_true, beq_iff_eq] at h
    rcases h with ((((((((((halpha | hdigit) | rfl) | rfl) | rfl) | rfl) | rfl) | rfl) | rfl) | rfl) | rfl)
    · exact isBlank_of_isLetter halpha
    · have hbounds := toNat_of_isDigit hdigit
      simp only [isBlank, Bool.or_eq_false_iff, Bool.and_eq_false_iff, decide_eq_false_iff_not,
        beq_eq_false_iff_ne]
      omega
    all_goals decide
  have hbrace : c ≠ '\x7b' ∧ c ≠ '\x7d' ∧ c ≠ '(' ∧ c ≠ ')' := by
    refine ⟨?_, ?_, ?_, ?_⟩ <;> rintro rfl <;> exact absurd h (by decide)
  simp [isNameChar, hblank, hbrace]

/-- What may stand behind the name of a production ends the name that is read without the body, unless
it is a comment or documentation. -/
theorem MayFollowName.isNameChar_iff {c : Char} (h : MayFollowName c) :
    isNameChar c = false ↔ c ≠ '"' ∧ c ≠ '#' := by
  simp only [MayFollowName, isSeparator, isLayout, Bool.or_eq_true, beq_iff_eq, List.mem_cons,
    List.not_mem_nil, or_false] at h
  rcases h with (((((rfl | rfl) | rfl) | rfl) | rfl) | rfl) | rfl | rfl | rfl <;> decide

/-- Every character of a symbol may stand in a name that is read without the body. -/
theorem isNameChar_of_matches_symbol {x : List Char} (h : Terminal.symbol.Matches x) :
    ∀ c ∈ x, isNameChar c = true := by
  obtain ⟨d, y, rfl, hd, hy, -⟩ := word?_eq_some_iff.mp h
  have hletter : isSymbolChar d = true := by
    have halpha : d.isAlpha = true := hd
    simp [isSymbolChar, isVariableChar, Char.isAlphanum, halpha]
  exact List.forall_mem_cons.mpr
    ⟨isNameChar_of_isSymbolChar hletter, fun c hc => isNameChar_of_isSymbolChar (hy c hc)⟩

/-- A symbol begins with a character that is neither white space nor the sign of a comment. -/
theorem exists_cons_of_matches_symbol {x : List Char} (h : Terminal.symbol.Matches x) :
    ∃ d y, x = d :: y ∧ isBlank d = false ∧ d ≠ '#' := by
  obtain ⟨d, y, rfl, hd⟩ := Terminal.exists_cons_of_match? h
  have hchar := isNameChar_of_matches_symbol h d List.mem_cons_self
  simp only [isNameChar, Bool.not_eq_true', Bool.or_eq_false_iff] at hchar
  refine ⟨d, y, rfl, hchar.1.1.1.1, ?_⟩
  rintro rfl
  exact absurd hd (by decide)

/-- Characters that satisfy a condition are cut out whole just if the one behind them does not satisfy it. -/
theorem takeWhile_append_cons_eq_iff {p : Char → Bool} {x s : List Char} {c : Char}
    (hx : ∀ d ∈ x, p d = true) : (x ++ c :: s).takeWhile p = x ↔ p c = false := by
  rw [List.takeWhile_append_of_pos hx]
  cases hc : p c <;> simp [hc]

/-- Behind the white space at its beginning, a body is read from its first other character on. -/
theorem trimLeft_layout_append {blanks s : List Char} {c : Char} (hblanks : ∀ b ∈ blanks, isLayout b = true)
    (hc : isBlank c = false) : trimLeft (blanks ++ c :: s) = c :: s :=
  trimLeft_append (fun b hb => isBlank_of_isLayout (hblanks b hb)) (stops_cons.mpr hc)

/-- The name that is read without the body is the name of the production just if there is nothing but white
space in front of it, and neither documentation nor a comment touches it from behind. -/
theorem productionName?_eq_name_iff {text : String} {production : Production}
    (h : parseProduction text = .ok production) :
    ∃ body, stripFraming text = .ok body ∧
      (productionName? text = some production.name ↔
        ∃ blanks c rest, body.toList = blanks ++ (production.name.toList ++ c :: rest) ∧
          (∀ b ∈ blanks, isLayout b = true) ∧ c ≠ '"' ∧ c ≠ '#') := by
  unfold parseProduction at h
  split at h
  · cases h
  · next body hbody =>
    obtain ⟨g, c, rest, htext, hg, hmatch, hc⟩ := exists_name_of_parseBody h
    obtain ⟨blanks, comments, rfl, hblanks, hcomments⟩ := hg.exists_blanks
    obtain ⟨u, hread⟩ := productionName?_of_stripFraming hbody
    refine ⟨body, hbody, ?_⟩
    generalize production.name = name at *
    obtain ⟨d, y, hname, hd, hsign⟩ := exists_cons_of_matches_symbol hmatch
    -- With only white space in front of it, the name is where reading without the body begins.
    have hnamed {blanks rest : List Char} {c : Char}
        (htext : body.toList = blanks ++ (name.toList ++ c :: rest))
        (hblanks : ∀ b ∈ blanks, isLayout b = true) :
        trimLeft (body.toList ++ '\x7d' :: u) = name.toList ++ c :: (rest ++ '\x7d' :: u) := by
      rw [hname] at htext ⊢
      rw [htext]
      simpa using trimLeft_layout_append hblanks hd
    rw [hread name (by simp [hname])]
    rcases hcomments with rfl | ⟨s, rfl⟩
    · rw [List.append_nil] at htext
      rw [hnamed htext hblanks, takeWhile_append_cons_eq_iff (isNameChar_of_matches_symbol hmatch),
        hc.isNameChar_iff]
      constructor
      · exact fun hne => ⟨blanks, c, rest, htext, hblanks, hne⟩
      · rintro ⟨blanks', c', rest', htext', hblanks', hne⟩
        have hsame := (hnamed htext hblanks).symm.trans (hnamed htext' hblanks')
        obtain ⟨rfl, -⟩ := List.cons.inj (List.append_cancel_left hsame)
        exact hne
    · have hcomment : trimLeft (body.toList ++ '\x7d' :: u) =
          '#' :: (s ++ (name.toList ++ c :: rest) ++ '\x7d' :: u) := by
        rw [htext]
        simpa using trimLeft_layout_append hblanks (by decide)
      constructor
      · intro heq
        rw [hcomment, List.takeWhile_cons_of_pos (by decide), hname] at heq
        exact absurd (List.cons.inj heq).1.symm hsign
      · rintro ⟨blanks', c', rest', htext', hblanks', -⟩
        have hsame := hcomment.symm.trans (hnamed htext' hblanks')
        rw [hname] at hsame
        exact absurd (List.cons.inj hsame).1.symm hsign

/-- A comment in front of the name is taken for the name. -/
example : productionName? "sp \x7b# c\nname (state <s> ^a 1) --> \x7d" = some "#" ∧
    (parseProduction "sp \x7b# c\nname (state <s> ^a 1) --> \x7d").toOption.map (·.name) =
      some "name" := by
  decide +kernel

end SoarProject.Rule
