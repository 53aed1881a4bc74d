import SoarProject.Proofs.Rule.Munch
import SoarProject.Proofs.Rule.Source

/-!
# Braces of a production

A reader keeps count of braces: each that it takes opens or closes a conjunction of conditions or a
conjunctive test, and a production is complete only when all of them are closed. A scan for braces that
knows nothing but quotes and comments counts the same, since no other token contains a brace, a quote or
the sign of a comment.

* `Rule.State.braces`: the number of braces that are open in the middle of a production.
* `Rule.State.counts_step?`: reading a token counts its brace.
* `Rule.Reader.passes_run`: the scan comes through whatever a reader reads to its end.
* `Rule.splitProductions_of_parseBody`: a text that reads as a production is cut out of a source as a whole,
  unless its last brace stands in a comment.
-/

namespace SoarProject.Rule

open SoarProject.Text

/-! ### Open braces -/

/-- The number of braces that are open around a simple test inside a test. -/
def bracesAround (around : Option (List SimpleTest)) : Nat := if around.isSome then 1 else 0

/-- The number of braces that are open inside a test. -/
def TestPart.braces : TestPart → Nat
  | .start => 0
  | .conjunctive _ => 1
  | .relation around _ | .disjunction around _ => bracesAround around

/-- The number of conjunctions that are open on the left side. -/
def Clauses.braces (c : Clauses) : Nat := c.enclosing.length

/-- The number of braces that are open in the middle of a production. -/
def State.braces : State → Nat
  | .clauses c | .negation c | .conditionStart c _ | .conditionClass c _ _ => c.braces
  | .condition o | .testNegation o => o.clauses.braces
  | .test o _ part => o.condition.clauses.braces + part.braces
  | .testedPath o | .testedValue o _ | .acceptable o => o.condition.clauses.braces
  | _ => 0

/-- The number of braces that a token opens. -/
def Terminal.opened : Terminal → Nat
  | .leftBrace => 1
  | _ => 0

/-- The number of braces that a token closes. -/
def Terminal.closed : Terminal → Nat
  | .rightBrace => 1
  | _ => 0

/-- If reading goes on where some braces are open, it counts the brace of the token. -/
def Counts (braces : Nat) (t : Terminal) (found : Option Progress) : Prop :=
  ∀ next ∈ found, next.1.braces + t.closed = braces + t.opened

variable {braces : Nat} {t : Token} {terminal : Terminal}

/-- A token that is refused. -/
theorem counts_none : Counts braces terminal none := fun _ hnext => by cases hnext

/-- A token that is taken. -/
theorem counts_some {state : State} {place : Place} :
    Counts braces terminal (some (state, place)) ↔
      state.braces + terminal.closed = braces + terminal.opened := by
  simp [Counts]

/-- A token without a brace leaves the number of open braces. -/
theorem counts_of_plain {found : Option Progress} (ht : terminal.opened = 0 ∧ terminal.closed = 0)
    (h : ∀ next ∈ found, next.1.braces = braces) : Counts braces terminal found := by
  intro next hnext
  rw [ht.1, ht.2, h next hnext]

/-- A relational sign is no brace. -/
theorem plain_of_relationCode? {code : Int} (h : relationCode? terminal = some code) :
    terminal.opened = 0 ∧ terminal.closed = 0 := by
  unfold relationCode? at h
  split at h <;> first | exact ⟨rfl, rfl⟩ | cases h

/-- A preference that never has a referent is no brace. -/
theorem plain_of_unaryPreferenceCode? {code : Int} (h : unaryPreferenceCode? terminal = some code) :
    terminal.opened = 0 ∧ terminal.closed = 0 := by
  unfold unaryPreferenceCode? at h
  split at h <;> first | exact ⟨rfl, rfl⟩ | cases h

/-- A preference that may have a referent is no brace. -/
theorem plain_of_binaryPreferenceCode? {code : Int} (h : binaryPreferenceCode? terminal = some code) :
    terminal.opened = 0 ∧ terminal.closed = 0 := by
  unfold binaryPreferenceCode? at h
  split at h <;> first | exact ⟨rfl, rfl⟩ | cases h

/-- The name of a function is no brace. -/
theorem plain_of_isFunctionName (h : isFunctionName terminal = true) :
    terminal.opened = 0 ∧ terminal.closed = 0 := by
  unfold isFunctionName at h
  split at h <;> first | exact ⟨rfl, rfl⟩ | cases h

/-- A constant is no brace. -/
theorem Token.plain_of_constant? {c : Constant} (h : t.constant? = some c) :
    t.terminal.opened = 0 ∧ t.terminal.closed = 0 := by
  unfold constant? at h
  split at h <;> first | cases h; done | next heq => rw [heq]; exact ⟨rfl, rfl⟩

/-- A value is no brace. -/
theorem Token.plain_of_value? {made : RhsValue × Place} (h : t.value? = some made) :
    t.terminal.opened = 0 ∧ t.terminal.closed = 0 := by
  unfold value? at h
  split at h
  · next hvariable =>
    rw [hvariable]
    exact ⟨rfl, rfl⟩
  · obtain ⟨c, hc, -⟩ := Option.map_eq_some_iff.mp h
    exact plain_of_constant? hc

/-! ### Reading a token -/

section LeftSide

variable (t : Token)

/-- Between conditions. -/
theorem Clauses.counts_step? (c : Clauses) : Counts c.braces t.terminal (c.step? t) := by
  unfold step?
  split
  · next h => rw [h]; exact counts_some.mpr rfl
  · next h => rw [h]; exact counts_some.mpr rfl
  · next h => rw [h]; exact counts_some.mpr rfl
  · -- A conjunction is closed.
    next h =>
    rw [h]
    split
    · next henclosing _ =>
      refine counts_some.mpr ?_
      rw [braces, henclosing]
      rfl
    · exact counts_none
  · -- The left side ends outside of conjunctions.
    next h =>
    rw [h]
    split
    · next hends =>
      have hempty : c.enclosing = [] := List.isEmpty_iff.mp (Bool.and_eq_true_iff.mp hends).1
      refine counts_some.mpr ?_
      rw [braces, hempty]
      rfl
    · exact counts_none
  · exact counts_none

/-- In the heading. -/
theorem Heading.counts_step? (h : Heading) : Counts 0 t.terminal (h.step? t) := by
  unfold step?
  split
  · next hdocumentation =>
    rw [hdocumentation]
    split
    · exact counts_some.mpr rfl
    · exact counts_none
  · next hflag =>
    rw [hflag]
    exact counts_some.mpr rfl
  · exact Clauses.counts_step? t { heading := h }

/-- After the minus sign of a condition. -/
theorem Clauses.counts_stepNegated? (c : Clauses) : Counts c.braces t.terminal (c.stepNegated? t) := by
  unfold stepNegated?
  split
  · next h => rw [h]; exact counts_some.mpr rfl
  · next h => rw [h]; exact counts_some.mpr rfl
  · exact counts_none

/-- Between attribute tests. -/
theorem OpenCondition.counts_step? (o : OpenCondition) :
    Counts o.clauses.braces t.terminal (o.step? t) := by
  unfold step?
  split
  · next h => rw [h]; exact counts_some.mpr rfl
  · next h => rw [h]; exact counts_some.mpr rfl
  · next h => rw [h]; exact counts_some.mpr rfl
  · exact counts_none

variable (o : OpenTest) (slot : TestSlot)

/-- A complete test leaves no braces open of its own. -/
theorem OpenTest.braces_put (test : Test) : (o.put slot test).braces = o.condition.clauses.braces := by
  cases slot <;> rfl

/-- A complete simple test leaves the braces open that are around it. -/
theorem OpenTest.braces_putSimple (around : Option (List SimpleTest)) (simple : SimpleTest) :
    (o.putSimple slot around simple).braces = o.condition.clauses.braces + bracesAround around := by
  cases around with
  | none => exact o.braces_put slot _
  | some tests => rfl

/-- After a relation. -/
theorem OpenTest.counts_single? (around : Option (List SimpleTest)) (code : Int) :
    Counts (o.condition.clauses.braces + bracesAround around) t.terminal
      (o.single? slot around code t) := by
  unfold single?
  split
  · next h =>
    rw [h]
    exact counts_some.mpr (o.braces_putSimple slot around _)
  · intro next hnext
    obtain ⟨c, hc, rfl⟩ := Option.map_eq_some_iff.mp hnext
    rw [(Token.plain_of_constant? hc).1, (Token.plain_of_constant? hc).2, o.braces_putSimple]

/-- Before a simple test. -/
theorem OpenTest.counts_startSimple? (around : Option (List SimpleTest)) :
    Counts (o.condition.clauses.braces + bracesAround around) t.terminal
      (o.startSimple? slot around t) := by
  unfold startSimple?
  split
  · next code hcode =>
    exact counts_of_plain (plain_of_relationCode? hcode) (by simp [State.braces, TestPart.braces])
  · split
    · next h =>
      rw [h]
      exact counts_some.mpr rfl
    · exact o.counts_single? t slot around 0

/-- Before a test. -/
theorem OpenTest.counts_start? : Counts o.condition.clauses.braces t.terminal (o.start? slot t) := by
  unfold start?
  split
  · next h =>
    rw [h]
    exact counts_some.mpr rfl
  · exact o.counts_startSimple? t slot none

/-- Inside a test. -/
theorem OpenTest.counts_step? (part : TestPart) :
    Counts (o.condition.clauses.braces + part.braces) t.terminal (o.step? slot part t) := by
  cases part with
  | start => exact o.counts_start? t slot
  | conjunctive tests =>
    simp only [step?]
    split
    · next h =>
      rw [h]
      split
      · exact counts_none
      · exact counts_some.mpr (congrArg (· + 1) (o.braces_put slot _))
    · exact o.counts_startSimple? t slot (some tests)
  | relation around code => exact o.counts_single? t slot around code
  -- A closing sign needs a constant before it; anything else is a constant, without a brace.
  | disjunction around constants =>
    simp only [step?]
    split
    · next h =>
      rw [h]
      split
      · exact counts_none
      · exact counts_some.mpr (o.braces_putSimple slot around _)
    · intro next hnext
      obtain ⟨c, hc, rfl⟩ := Option.map_eq_some_iff.mp hnext
      rw [(Token.plain_of_constant? hc).1, (Token.plain_of_constant? hc).2]
      rfl

/-- After the test of a value. -/
theorem OpenTest.counts_next? : Counts o.condition.clauses.braces t.terminal (o.next? t) := by
  unfold next?
  split
  · exact o.close.counts_step? t
  · exact o.close.counts_step? t
  · exact o.close.counts_step? t
  · exact o.counts_start? t .value

end LeftSide

section RightSide

variable (t : Token)

/-- On the right side no braces are open. -/
theorem ValueSlot.braces_put? {slot : ValueSlot} {value : RhsValue} {state : State}
    (h : slot.put? value = some state) : state.braces = 0 := by
  cases slot with
  | action side =>
    obtain ⟨call, -, rfl⟩ := Option.map_eq_some_iff.mp h
    rfl
  | path a => cases h; rfl
  | value a => cases h; rfl
  | referent a v code => cases h; rfl

/-- Before a value. -/
theorem ValueSlot.counts_start? (slot : ValueSlot) : Counts 0 t.terminal (slot.start? t) := by
  unfold start?
  split
  · next h =>
    rw [h]
    exact counts_some.mpr rfl
  · intro next hnext
    obtain ⟨made, hmade, hnext⟩ := Option.bind_eq_some_iff.mp hnext
    obtain ⟨state, hstate, heq⟩ := Option.bind_eq_some_iff.mp hnext
    cases heq
    rw [(Token.plain_of_value? hmade).1, (Token.plain_of_value? hmade).2, braces_put? hstate]

/-- Before an action. -/
theorem RightSide.counts_start? (side : RightSide) : Counts 0 t.terminal (side.start? t) := by
  unfold start?
  split
  · next h =>
    rw [h]
    exact counts_some.mpr rfl
  · split
    · next h => exact counts_of_plain (plain_of_isFunctionName h) (by simp [State.braces])
    · exact counts_none

/-- After a value or a preference. -/
theorem OpenAttribute.counts_step? (a : OpenAttribute) (v : ValueMake) (comma : Bool) :
    Counts 0 t.terminal (a.step? v comma t) := by
  unfold step?
  split
  · next code hcode =>
    exact counts_of_plain (plain_of_unaryPreferenceCode? hcode) (by simp [State.braces])
  · next code _ hcode =>
    exact counts_of_plain (plain_of_binaryPreferenceCode? hcode) (by simp [State.braces])
  · -- A comma, a caret and a bracket are no braces; anything else has to begin a value.
    split
    · next h =>
      rw [h]
      split
      · exact counts_some.mpr rfl
      · exact counts_none
    · next h => rw [h]; exact counts_some.mpr rfl
    · next h => rw [h]; exact counts_some.mpr rfl
    · exact ValueSlot.counts_start? t _

/-- After a preference that may have a referent. -/
theorem OpenAttribute.counts_stepPreference? (a : OpenAttribute) (v : ValueMake) (code : Int) :
    Counts 0 t.terminal (a.stepPreference? v code t) := by
  unfold stepPreference?
  split
  · exact ValueSlot.counts_start? t _
  · exact a.counts_step? t _ true

/-- Inside a function call. -/
theorem OpenCall.counts_step? (c : OpenCall) (slot : ValueSlot) (around : List OpenCall) :
    Counts 0 t.terminal (c.step? slot around t) := by
  unfold step?
  split
  · next h => rw [h]; exact counts_some.mpr rfl
  · next h =>
    rw [h]
    dsimp only
    split
    · intro next hnext
      obtain ⟨state, hstate, rfl⟩ := Option.map_eq_some_iff.mp hnext
      exact congrArg (· + 0) (ValueSlot.braces_put? hstate)
    · exact counts_some.mpr rfl
  · -- Anything else has to be a value, and no value is a brace.
    intro next hnext
    obtain ⟨made, hmade, rfl⟩ := Option.map_eq_some_iff.mp hnext
    rw [(Token.plain_of_value? hmade).1, (Token.plain_of_value? hmade).2]
    rfl

end RightSide

/-- Reading a token counts its brace. -/
theorem State.counts_step? (state : State) (t : Token) :
    Counts state.braces t.terminal (state.step? t) := by
  -- One case for each kind of state; most of them are steps of what is open there.
  unfold step?
  split
  · split
    · next h => rw [h]; exact counts_some.mpr rfl
    · exact counts_none
  · exact Heading.counts_step? t _
  · exact Clauses.counts_step? t _
  · exact Clauses.counts_stepNegated? t _
  · split
    · next h => rw [h]; exact counts_some.mpr rfl
    · next h => rw [h]; exact counts_some.mpr rfl
    · exact counts_none
  · split
    · next h => rw [h]; exact counts_some.mpr rfl
    · exact counts_none
  · exact OpenCondition.counts_step? t _
  · split
    · next h => rw [h]; exact counts_some.mpr rfl
    · exact counts_none
  · exact OpenTest.counts_step? t _ _ _
  · split
    · next h => rw [h]; exact counts_some.mpr rfl
    · exact OpenTest.counts_next? t _
  · split
    · next h => rw [h]; exact counts_some.mpr rfl
    · exact OpenTest.counts_next? t (OpenTest.pushValue _ _ false)
  · exact OpenTest.counts_next? t _
  · split
    · next h => rw [h]; exact counts_some.mpr rfl
    · exact counts_none
  · exact RightSide.counts_start? t _
  · split
    · next h => rw [h]; exact counts_some.mpr rfl
    · exact counts_none
  · exact ValueSlot.counts_start? t _
  · split
    · next h => rw [h]; exact counts_some.mpr rfl
    · exact ValueSlot.counts_start? t _
  · exact OpenAttribute.counts_step? t _ _ _
  · exact OpenAttribute.counts_stepPreference? t _ _ _
  · split
    · next h => exact counts_of_plain (plain_of_isFunctionName h) (by simp [braces])
    · exact counts_none
  · exact OpenCall.counts_step? t _ _ _

/-! ### Scanning a token -/

section Scanning

variable {s : List Char} {m : Match}

/-- A token that is neither between quotes nor a brace has no mark. -/
theorem Terminal.isUnmarked_of_match? {terminal : Terminal} (h : terminal.match? s = some m)
    (hquote : terminal.quote? = none) (hsign : terminal.sign.all isUnmarked = true) :
    m.1.all isUnmarked = true := by
  refine List.all_eq_true.mpr fun c hc => ?_
  rcases isTokenChar_of_match? h hquote hc with hchar | hmem
  · exact isUnmarked_of_class (by decide) hchar
  · exact List.all_eq_true.mp hsign c hmem

/-- What is scanned is matched by its terminal. -/
theorem match?_of_scan {welcome : List Terminal} {terminal : Terminal}
    (h : scan welcome s = some (terminal, m)) : terminal.match? s = some m := by
  obtain ⟨-, -, -, -, hmatch, -⟩ := scan_eq_some_iff.mp h
  exact hmatch

/-- A scan for braces comes through a token and counts its brace. -/
theorem Terminal.passes_of_match? {terminal : Terminal} (h : terminal.match? s = some m) {d d' : Nat}
    (hcount : d' + terminal.closed = d + terminal.opened) : Passes .code (d + 1) m.1 .code (d' + 1) := by
  cases hquote : terminal.quote? with
  -- Quoted text: the braces inside do not count.
  | some quote =>
    obtain ⟨piece, rest⟩ := m
    obtain ⟨y, rfl, hy, -⟩ := (match?_eq_some_iff_of_quote? hquote).mp h
    have hmark : quote = '|' ∨ quote = '"' := by
      cases terminal <;> cases hquote <;> simp
    obtain rfl : d' = d := by
      cases terminal <;> cases hquote <;> exact hcount
    have hinner : y.all (· != quote) = true :=
      List.all_eq_true.mpr fun c hc => bne_iff_ne.mpr fun heq => hy (heq ▸ hc)
    exact passes_enclosed hmark hinner _
  | none =>
    have hunmarked (hd : d' = d) (hsign : terminal.sign.all isUnmarked = true) :
        Passes .code (d + 1) m.1 .code (d' + 1) :=
      hd ▸ passes_unmarked (isUnmarked_of_match? h hquote hsign) (d + 1)
    -- Two of the other tokens are braces themselves, and no other has a mark in it.
    cases terminal
    case leftBrace =>
      obtain rfl : d' = d + 1 := hcount
      exact (sign?_append h).1 ▸ passes_opening (d + 1)
    case rightBrace =>
      obtain rfl : d' + 1 = d := hcount
      exact (sign?_append h).1 ▸ passes_closing d'
    all_goals exact hunmarked hcount rfl

end Scanning

/-! ### Reading a text -/

/-- The mode of a scan for braces inside or outside of a comment. -/
def ScanMode.ofLayout (inComment : Bool) : ScanMode := if inComment then .comment else .code

/-- A scan for braces comes through layout and comments. If something follows them, it stands in code. -/
theorem exists_passes_skipLayout (inComment : Bool) (p : Position) (s : List Char) (depth : Nat) :
    ∃ skipped ends, s = skipped ++ (skipLayout inComment p s).2 ∧
      Passes (.ofLayout inComment) depth skipped (.ofLayout ends) depth ∧
      ((skipLayout inComment p s).2 ≠ [] → ends = false) := by
  induction s generalizing inComment p with
  | nil => exact ⟨[], inComment, rfl, .nil _ depth, fun hne => absurd rfl hne⟩
  | cons c rest ih =>
    -- A character that is skipped.
    have hskip (after : Bool) (hchar : Passes (.ofLayout inComment) depth [c] (.ofLayout after) depth)
        (hlayout : skipLayout inComment p (c :: rest) = skipLayout after (p.next c) rest) :
        ∃ skipped ends, c :: rest = skipped ++ (skipLayout inComment p (c :: rest)).2 ∧
          Passes (.ofLayout inComment) depth skipped (.ofLayout ends) depth ∧
          ((skipLayout inComment p (c :: rest)).2 ≠ [] → ends = false) := by
      obtain ⟨skipped, ends, heq, hpasses, hends⟩ := ih after (p.next c)
      rw [hlayout]
      exact ⟨c :: skipped, ends, congrArg (c :: ·) heq, hchar.append hpasses, hends⟩
    cases inComment with
    | true =>
      have hchar : Passes .comment depth [c] (ScanMode.next .comment c) depth :=
        passes_char (fun hcode => by cases hcode) depth
      have hnext : ScanMode.next .comment c = .ofLayout (c != '\n') := by
        by_cases hc : c = '\n' <;> simp [ScanMode.next, ScanMode.ofLayout, hc]
      rw [hnext] at hchar
      exact hskip _ hchar (by simp [skipLayout])
    | false =>
      by_cases hlayout : isLayout c = true
      · have hunmarked : [c].all isUnmarked = true := by
          simpa using isUnmarked_of_class (by decide) hlayout
        exact hskip false (passes_unmarked hunmarked depth) (by simp [skipLayout, hlayout])
      by_cases hsign : c = '#'
      · subst hsign
        exact hskip true (passes_sign depth) (by simp [skipLayout, hlayout])
      · exact ⟨[], false, by simp [skipLayout, hlayout, hsign], .nil _ depth, fun _ => rfl⟩

/-- A reader that takes a token counts its brace. -/
theorem Reader.counts_accept {r r' : Reader} {t : Token} (h : r.accept t = .ok r') :
    r'.state.braces + t.terminal.closed = r.state.braces + t.terminal.opened := by
  unfold accept at h
  split at h
  · cases h
  · split at h
    · next state place hstep =>
      cases h
      exact r.state.counts_step? t _ hstep
    · cases h

/-- Outside of braces the production may be complete. -/
theorem State.braces_of_production? {state : State} {production : Production}
    (h : state.production? = some production) : state.braces = 0 := by
  cases state with
  | actions side => rfl
  | _ => cases h

/-- A scan for braces comes through whatever a reader reads to its end, and ends in code or in a comment
with no brace open but the one that it began with. -/
theorem Reader.passes_run {r : Reader} {p : Position} {s : List Char} {production : Production}
    (h : r.run p s = .ok production) :
    ∃ inComment, Passes .code (r.state.braces + 1) s (.ofLayout inComment) 1 := by
  fun_induction Reader.run r p s with
  -- The text is used up; a finished production has no open brace.
  | case1 r p s p' hlayout =>
    obtain ⟨skipped, ends, heq, hpasses, -⟩ := exists_passes_skipLayout false p s (r.state.braces + 1)
    rw [hlayout, List.append_nil] at heq
    have hbraces : r.state.braces = 0 := by
      unfold Reader.finish at h
      split at h
      · next hproduction => exact State.braces_of_production? hproduction
      · cases h
    rw [hbraces] at hpasses ⊢
    exact ⟨ends, heq ▸ hpasses⟩
  | case2 => cases h
  | case3 => cases h
  -- Layout, a token, and the rest from the state behind it.
  | case4 r p s p' c rest hlayout terminal piece rest' hscan r' haccept ih =>
    obtain ⟨skipped, ends, heq, hpasses, hends⟩ := exists_passes_skipLayout false p s (r.state.braces + 1)
    rw [hlayout] at heq hends
    obtain rfl : ends = false := hends (List.cons_ne_nil c rest)
    have hpiece : piece ++ rest' = c :: rest := (scan_splits hscan).2
    have hcount := r.counts_accept haccept
    have htoken := Terminal.passes_of_match? (match?_of_scan hscan) hcount
    obtain ⟨inComment, hrest⟩ := ih h
    rw [heq, ← hpiece]
    exact ⟨inComment, hpasses.append (htoken.append hrest)⟩

/-- A text that reads as a production is cut out of a source as a whole, unless its last brace stands in a
comment; then its braces are not balanced. -/
theorem splitProductions_of_parseBody {text body : String} {p : Production}
    (hbody : stripFraming text = .ok body) (hp : parseBody body = .ok p) :
    splitProductions (trimmed text) =
      if endsInComment body.toList then
        .error (.unbalanced (1 + lineBreaks ((trim text.toList).takeWhile (· != '\x7b'))))
      else .ok [trimmed text] := by
  obtain ⟨inComment, hpasses⟩ := Reader.passes_run hp
  refine splitProductions_trimmed hbody hpasses ?_
  cases inComment
  · exact .inl rfl
  · exact .inr rfl

end SoarProject.Rule
