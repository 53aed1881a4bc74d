import SoarProject.Proofs.Rule.Scanning
import SoarProject.Rule.Framing

/-!
# Reading words

Where reading some words leads to, stated on the situations of the reader alone. Two situations that take
the same tokens in the same way are as good as one: after the test of a value, for example, the test is
either closed or still to be marked, and whatever follows but the mark is read alike.

* `Rule.State.Leads`: reading words leads from one situation to another.
* `Rule.State.Leads.flatMap`: reading a list part by part.
* `Rule.parseProduction_eq_of_leads`: the words of a production, in its frame, are read as it if they lead
  from the start to its end.
-/

namespace SoarProject.Rule

open SoarProject.Text

variable {style : Style} {g g₁ g₂ : Progress} {w : Word} {ws ws' : List Word}
  {T U V : List Terminal} {a b c : State} {q : Place}

/-! ### Situations of the reader -/

/-- Reading words one by one leads from a place to another one. -/
inductive Reads (style : Style) : Progress → List Word → Progress → Prop
  | nil (g : Progress) : Reads style g [] g
  | cons {g g₁ g₂ : Progress} {w : Word} {ws : List Word} (hw : w.Readable style)
    (hwelcome : w.terminal ∈ g.2.expected)
    (hstep : ∀ position, g.1.step? (w.token style position) = some g₁) (hrest : Reads style g₁ ws g₂) :
    Reads style g (w :: ws) g₂

theorem Reads.append (h : Reads style g ws g₁) (h' : Reads style g₁ ws' g₂) :
    Reads style g (ws ++ ws') g₂ := by
  induction h with
  | nil => exact h'
  | cons hw hwelcome hstep _ ih => exact .cons hw hwelcome hstep (ih h')

/-- At a place some terminals are welcome, and their tokens are read as in the state `a`. -/
structure StandsFor (g : Progress) (T : List Terminal) (a : State) : Prop where
  welcome : T ⊆ g.2.expected
  step?_eq : ∀ t : Token, t.terminal ∈ T → g.1.step? t = a.step? t
  production?_eq : g.1.production? = a.production?

namespace State

/-- From a place that stands for `a`, where the terminals `T` are welcome, reading words leads to one that
stands for `b`, where the terminals `U` are welcome. -/
def Leads (style : Style) (a : State) (T : List Terminal) (ws : List Word) (b : State)
    (U : List Terminal) : Prop :=
  ∀ g, StandsFor g T a → ∃ g₁, Reads style g ws g₁ ∧ StandsFor g₁ U b

namespace Leads

theorem trans (h : a.Leads style T ws b U) (h' : b.Leads style U ws' c V) :
    a.Leads style T (ws ++ ws') c V := by
  intro g hg
  obtain ⟨g₁, hreads, hg₁⟩ := h g hg
  obtain ⟨g₂, hreads', hg₂⟩ := h' g₁ hg₁
  exact ⟨g₂, hreads.append hreads', hg₂⟩

/-- What stands for `a` stands for a state that reads the tokens that still matter alike. -/
theorem of_alike (hT : U ⊆ T) (hstep : ∀ t : Token, t.terminal ∈ U → a.step? t = b.step? t)
    (hends : a.production? = b.production?) (h : b.Leads style U ws c V) :
    a.Leads style T ws c V := fun g hg =>
  h g ⟨fun _ ht => hg.welcome (hT ht), fun t ht => (hg.step?_eq t (hT ht)).trans (hstep t ht),
    hg.production?_eq.trans hends⟩

theorem of_subset (hT : U ⊆ T) (h : a.Leads style U ws b V) : a.Leads style T ws b V :=
  h.of_alike hT (fun _ _ => rfl) rfl

theorem refl : a.Leads style T [] a T := fun g hg => ⟨g, .nil g, hg⟩

theorem cons (hw : w.Readable style) (hwelcome : w.terminal ∈ T)
    (hstep : ∀ position, a.step? (w.token style position) = some (b, q))
    (hT : U ⊆ q.expected) (h : b.Leads style U ws c V) : a.Leads style T (w :: ws) c V := by
  intro g hg
  have hread : ∀ position, g.1.step? (w.token style position) = some (b, q) := fun position =>
    (hg.step?_eq _ hwelcome).trans (hstep position)
  obtain ⟨g₂, hreads, hg₂⟩ := h (b, q) ⟨hT, fun _ _ => rfl, rfl⟩
  exact ⟨g₂, .cons hw (hg.welcome hwelcome) hread hreads, hg₂⟩

/-- A word is read. -/
theorem word (hw : w.Readable style) (hwelcome : w.terminal ∈ T)
    (hstep : ∀ position, a.step? (w.token style position) = some (b, q))
    (hT : U ⊆ q.expected) : a.Leads style T [w] b U :=
  cons hw hwelcome hstep hT refl

/-- A fixed sign is read wherever its terminal is welcome. -/
theorem sign (t : Terminal) (hsign : t.sign ≠ []) (hwelcome : t ∈ T)
    (hstep : ∀ position, a.step? ⟨t, t.sign, position⟩ = some (b, q))
    (hT : U ⊆ q.expected) (h : b.Leads style U ws c V) :
    a.Leads style T (.sign t :: ws) c V :=
  .cons (Word.readable_sign hsign) hwelcome hstep hT h

/-- A fixed sign is read. -/
theorem lastSign (t : Terminal) (hsign : t.sign ≠ []) (hwelcome : t ∈ T)
    (hstep : ∀ position, a.step? ⟨t, t.sign, position⟩ = some (b, q)) (hT : U ⊆ q.expected) :
    a.Leads style T [.sign t] b U :=
  .sign t hsign hwelcome hstep hT .refl

/-- The parts of a list are read one after the other; after the first one more may be welcome. -/
theorem flatMap_of_ne_nil {α : Type} {words : α → List Word} {f : List α → State} {xs : List α}
    (hT : T ⊆ U) (hstep : ∀ before, ∀ x ∈ xs,
      (f before).Leads style T (words x) (f (before ++ [x])) U) (hne : xs ≠ [])
    (before : List α) :
    (f before).Leads style T (xs.flatMap words) (f (before ++ xs)) U := by
  induction xs generalizing before with
  | nil => exact absurd rfl hne
  | cons x xs ih =>
    have hfirst := hstep before x List.mem_cons_self
    cases xs with
    | nil => simpa using hfirst
    | cons y ys =>
      rw [List.flatMap_cons, List.append_cons]
      -- Behind the first words `U` is expected, which admits what the next ones begin with.
      refine hfirst.trans (of_subset hT ?_)
      exact ih (fun before z hz => hstep before z (List.mem_cons_of_mem _ hz)) (by simp) _

/-- The parts of a list are read one after the other. -/
theorem flatMap {α : Type} {words : α → List Word} {f : List α → State} {xs : List α}
    (hstep : ∀ before, ∀ x ∈ xs,
      (f before).Leads style T (words x) (f (before ++ [x])) T) (before : List α) :
    (f before).Leads style T (xs.flatMap words) (f (before ++ xs)) T := by
  cases xs with
  | nil => simpa using refl
  | cons x xs => exact flatMap_of_ne_nil (List.Subset.refl T) hstep (by simp) before

/-- Parts with a dot between each two are read one after the other. -/
theorem dotted {α : Type} {words : α → List Word} {f h : List α → State} {xs : List α}
    (hdot : .dot ∈ U) (hstep : ∀ before, ∀ x ∈ xs,
      (f before).Leads style T (words x) (h (before ++ [x])) U)
    (hnext : ∀ before position, (h before).step? ⟨.dot, Terminal.dot.sign, position⟩ = some (f before, q))
    (hT : T ⊆ q.expected) (hne : xs ≠ []) :
    (f []).Leads style T (dotted (xs.map words)) (h xs) U := by
  cases xs with
  | nil => exact absurd rfl hne
  | cons first rest =>
    rw [List.map_cons, Rule.dotted, List.flatMap_map]
    refine (hstep [] first List.mem_cons_self).trans (flatMap (f := h) (fun before x hx => ?_) [first])
    exact sign .dot (by decide) hdot (hnext before) hT (hstep before x (List.mem_cons_of_mem _ hx))

end Leads

end State

/-! ### Words that are written -/

/-- The words of each part are words of the whole. -/
theorem mem_dotted {parts : List (List Word)} (hpart : ws ∈ parts) (hw : w ∈ ws) : w ∈ dotted parts := by
  cases parts with
  | nil => cases hpart
  | cons first rest =>
    rw [dotted, List.mem_append, List.mem_flatMap]
    rcases List.mem_cons.mp hpart with rfl | hrest
    · exact Or.inl hw
    · exact Or.inr ⟨ws, hrest, List.mem_cons_of_mem _ hw⟩

/-- A word that is spelled right, and that the style can write. -/
def Word.Written (style : Style) (w : Word) : Prop :=
  w.Spelled ∧ ∀ x, w = .constant (.floating x) → style.Inverts x

theorem Word.terminal_constant_mem {c : Constant} (hc : c.Proper) :
    (Word.constant c).terminal ∈ Place.constants := by
  obtain ⟨n, rfl⟩ | ⟨x, rfl⟩ | ⟨s, rfl⟩ := hc
  · exact (by decide : Terminal.integer ∈ Place.constants)
  · exact (by decide : Terminal.float ∈ Place.constants)
  · exact (by decide : Terminal.quoted ∈ Place.constants)

/-- A constant that is written is read as it is. -/
theorem Word.Written.constant {c : Constant} (h : (Word.constant c).Written style) (hc : c.Proper) :
    (Word.constant c).Readable style ∧
      ∀ position, ((Word.constant c).token style position).constant? = some c :=
  Word.readable_constant hc h.1 fun x hx => h.2 x (by rw [hx])

/-! ### Running the reader -/

/-- One turn of the reader. -/
theorem Reader.run_eq (r : Reader) (p : Position) (s : List Char) :
    r.run p s = match skipLayout false p s with
      | (_, []) => r.finish
      | (p', c :: rest) => match scan r.place.expected (c :: rest) with
        | none => .error (.parse (unwelcome p' c rest))
        | some (terminal, piece, rest') => match r.accept ⟨terminal, piece, p'⟩ with
          | .error e => .error e
          | .ok r' => r'.run (p'.after piece) rest' := by
  rw [Reader.run]
  split
  · next hlayout => rw [hlayout]
  · next hlayout =>
    rw [hlayout]
    dsimp only
    split
    · next hscan => rw [hscan]
    · next hscan =>
      rewrite [hscan]
      rfl

theorem Reader.run_blank (r : Reader) (p : Position) (s : List Char) :
    r.run p (' ' :: s) = r.run (p.next ' ') s := by
  rw [run_eq, run_eq r (p.next ' ')]
  rfl

/-- The words between single spaces, with one behind the last. -/
def spaced (style : Style) (ws : List Word) : List Char := ws.flatMap fun w => w.chars style ++ [' ']

/-- A reader takes words between spaces one by one. -/
theorem Reads.run_eq (h : Reads style g ws g₁) {r : Reader} (hr : (r.state, r.place) = g)
    (hexcess : r.excess = none) (p : Position) :
    ∃ r' : Reader, (r'.state, r'.place) = g₁ ∧ r.run p (spaced style ws) = r'.finish := by
  induction h generalizing r p with
  | nil =>
    refine ⟨r, hr, ?_⟩
    rw [Reader.run_eq]
    rfl
  | @cons g g₁ g₂ w ws hw hwelcome hstep _ ih =>
    -- The word is scanned up to the blank behind it, and accepted in the state of the reader.
    subst hr
    obtain ⟨c, s, hchars, hlayout, hcomment⟩ := hw.begins
    let next : Reader := ⟨g₁.1, g₁.2, p, none⟩
    have haccept : r.accept (w.token style p) = .ok next := by
      simp only [Reader.accept, hexcess, hstep p, hw.excess?_eq p]
      rfl
    have hscan := scan_eq_of_scan_all (hw.scan_eq (spaced style ws)) hwelcome
    obtain ⟨r', hr', hrun⟩ := ih (r := next) rfl rfl ((p.after (w.chars style)).next ' ')
    refine ⟨r', hr', ?_⟩
    have htext : spaced style (w :: ws) = w.chars style ++ ' ' :: spaced style ws := by
      simp [spaced]
    -- A word begins neither with layout nor with a comment.
    have hskip : skipLayout false p (c :: (s ++ ' ' :: spaced style ws)) =
        (p, c :: (s ++ ' ' :: spaced style ws)) := by
      simp [skipLayout, hlayout, hcomment]
    rw [hchars, List.cons_append] at hscan htext
    have haccept' : r.accept ⟨w.terminal, c :: s, p⟩ = .ok next := hchars ▸ haccept
    rw [htext, Reader.run_eq, hskip]
    dsimp only
    rw [hscan]
    dsimp only
    rw [haccept']
    dsimp only
    rw [Reader.run_blank, ← hchars]
    exact hrun

/-! ### The frame of a production -/

/-- The frame of a production is taken off piece by piece. -/
theorem stripFraming_eq_ok {text : String} {rest inner body : List Char}
    (hframe : trim text.toList = 's' :: 'p' :: rest) (hopening : trim rest = '\x7b' :: inner)
    (hclosing : (trim inner).reverse = '\x7d' :: body) :
    stripFraming text = .ok (String.ofList body.reverse) := by
  unfold stripFraming
  -- The three cuts of the function are the given ones; the other branches contradict them.
  split
  · next heq =>
    rw [hframe] at heq
    cases heq
    split
    · next heq =>
      rw [hopening] at heq
      cases heq
      split
      · next heq =>
        rw [hclosing] at heq
        cases heq
        rfl
      · next hnone => exact absurd hclosing (hnone _)
    · next hnone => exact absurd hopening (hnone _)
  · next hnone => exact absurd hframe (hnone _)

/-- A framed text has its body in the frame. -/
theorem stripFraming_eq {first : Char} (hfirst : isBlank first = false) (s : List Char) :
    stripFraming (String.ofList (['s', 'p', ' ', '\x7b', ' '] ++ (first :: s ++ ['\x7d']))) =
      .ok (String.ofList (first :: s)) := by
  -- The blanks around the body are taken off, and its own ends are no blanks.
  have hbody : trim (' ' :: (first :: s ++ ['\x7d'])) = first :: (s ++ ['\x7d']) :=
    (trim_blank _).trans (trim_eq hfirst (by decide))
  have hopening : trim (' ' :: '\x7b' :: ' ' :: (first :: s ++ ['\x7d'])) =
      '\x7b' :: ' ' :: (first :: s ++ ['\x7d']) :=
    (trim_blank _).trans (trim_eq (s := ' ' :: first :: s) (by decide) (by decide))
  have hframe : trim (String.ofList (['s', 'p', ' ', '\x7b', ' '] ++ (first :: s ++ ['\x7d']))).toList =
      's' :: 'p' :: ' ' :: '\x7b' :: ' ' :: (first :: s ++ ['\x7d']) := by
    rw [String.toList_ofList]
    exact trim_eq (s := 'p' :: ' ' :: '\x7b' :: ' ' :: first :: s) (by decide) (by decide)
  have hclosing : (trim (' ' :: (first :: s ++ ['\x7d']))).reverse =
      '\x7d' :: (first :: s).reverse := by
    rw [hbody]
    simp
  rw [stripFraming_eq_ok hframe hopening hclosing, List.reverse_reverse]

/-- The words of a production are read as it if they lead from the start to its end. -/
theorem parseProduction_eq_of_leads {p : Production} {s : String} {rest : List Word}
    (hwords : p.words style = .symbol s :: rest) (hname : (Word.symbol s).Spelled)
    (hb : b.production? = some p) (h : State.start.Leads style [.symbol] (p.words style) b T) :
    parseProduction (p.canonicalText style) = .ok p := by
  -- Reading the words one after the other ends in a state like the last one.
  obtain ⟨g₁, hreads, hg₁⟩ := h (.start, .start) ⟨by decide, fun _ _ => rfl, rfl⟩
  obtain ⟨r', hr', hrun⟩ := hreads.run_eq (r := {}) rfl rfl .start
  have hspaced : (p.words style).flatMap (fun w => ' ' :: w.chars style) ++ [' '] =
      ' ' :: spaced style (p.words style) := by
    generalize p.words style = ws
    induction ws with
    | nil => rfl
    | cons w ws ih =>
      rw [List.flatMap_cons, List.append_assoc, ih]
      simp [spaced]
  -- The first word is the name, and so nothing is trimmed from the front.
  obtain ⟨first, chars, hchars, hletter⟩ : ∃ first chars,
      spaced style (p.words style) = first :: chars ∧ isBlank first = false := by
    have hmatch : word? isLetter isSymbolChar s.toList = some (s.toList, []) := hname
    cases hs : s.toList with
    | nil => rw [hs] at hmatch; cases hmatch
    | cons c cs =>
      refine ⟨c, cs ++ ' ' :: spaced style rest, by simp [spaced, hwords, Word.chars, hs], ?_⟩
      cases hletter : isLetter c with
      | false => rw [hs, word?, hletter] at hmatch; cases hmatch
      | true => exact isBlank_of_isLetter hletter
  have htext : p.canonicalText style =
      String.ofList (['s', 'p', ' ', '\x7b', ' '] ++ (first :: chars ++ ['\x7d'])) := by
    have hframe : (p.words style).flatMap (fun w => ' ' :: w.chars style) ++ [' ', '\x7d'] =
        ' ' :: (first :: chars) ++ ['\x7d'] := by
      rw [← hchars, ← hspaced]
      simp
    rw [Production.canonicalText, List.append_assoc, hframe]
    rfl
  -- States that are alike hold the same production.
  have hfinish : r'.finish = .ok p := by
    have hends : r'.state.production? = some p := by
      rw [← hb, ← hg₁.production?_eq, ← hr']
    rw [Reader.finish, hends]
  rw [parseProduction, htext, stripFraming_eq hletter]
  dsimp only
  rw [parseBody, String.toList_ofList, ← hchars, hrun, hfinish]

end SoarProject.Rule
