import SoarProject.Proofs.Rule.Progress
import SoarProject.Proofs.Rule.Source

/-!
# Cutting out productions

What is cut out of a source ends with the brace that closes it, so it does not depend on what stands behind.
And a comment on a line of its own keeps apart what stands before and behind it: the first text cannot end in
the middle of a production, and a word that it ends with has no brace behind it.

* `Rule.IsBlock`: a text that is one production from its first character to its last.
* `Rule.CutsInto`: what is cut out of a text, whatever the number of its first line is.
* `Rule.splitProductions_compositional`: what is cut out stands in the source, has a frame, and is cut out
  again; texts with a comment between them are cut one by one.
-/

namespace SoarProject.Rule

open SoarProject.Text

variable {mode : ScanMode} {depth line : Nat} {c : Char} {wordStart : Bool}
  {s t opening body piece more block : List Char} {blocks blocks' : List (List Char)}

/-! ### A single production -/

/-- A character that does not close the outermost brace is passed. -/
theorem exists_passes_char (h : ¬ (mode = .code ∧ c = '\x7d' ∧ depth ≤ 1)) :
    ∃ mode₁ depth₁, Passes mode depth [c] mode₁ depth₁ := by
  by_cases hbrace : mode = .code ∧ (c = '\x7b' ∨ c = '\x7d')
  · obtain ⟨rfl, rfl | rfl⟩ := hbrace
    · exact ⟨_, _, passes_opening depth⟩
    · obtain ⟨d, rfl⟩ : ∃ d, depth = d + 2 := by
        have hdepth : ¬ depth ≤ 1 := fun hle => h ⟨rfl, rfl, hle⟩
        exact ⟨depth - 2, by omega⟩
      exact ⟨_, _, passes_closing d⟩
  · exact ⟨_, _, passes_char (fun hcode => not_or.mp fun hor => hbrace ⟨hcode, hor⟩) depth⟩

/-- The scan for braces comes through a piece up to its last character, the brace that it looks for. -/
theorem exists_passes_of_balanced? (h : balanced? mode depth s = some (piece, more)) :
    ∃ front depth₁, Passes mode depth front .code depth₁ ∧ depth₁ ≤ 1 ∧ piece = front ++ ['\x7d'] := by
  induction s generalizing mode depth piece more with
  | nil => simp [balanced?] at h
  | cons c s ih =>
    -- Either the brace closes here, or this character passes and the rest is cut by induction.
    by_cases hcloses : mode = .code ∧ c = '\x7d' ∧ depth ≤ 1
    · obtain ⟨rfl, rfl, hdepth⟩ := hcloses
      have hfound : balanced? .code depth ('\x7d' :: s) = some (['\x7d'], s) := by
        simp [balanced?, hdepth]
      obtain ⟨rfl, -⟩ := Prod.mk.inj (Option.some.inj (h.symm.trans hfound))
      exact ⟨[], depth, .nil .code depth, hdepth, rfl⟩
    · obtain ⟨mode₁, depth₁, hpasses⟩ := exists_passes_char hcloses
      rw [← List.singleton_append, hpasses.balanced?_append] at h
      obtain ⟨⟨piece', more'⟩, hrest, heq⟩ := Option.map_eq_some_iff.mp h
      obtain ⟨front, depth₂, hfront, hdepth, rfl⟩ := ih hrest
      obtain ⟨rfl, -⟩ := Prod.mk.inj heq
      exact ⟨c :: front, depth₂, hpasses.append hfront, hdepth, rfl⟩

/-- A piece is cut out whatever stands behind it. -/
theorem balanced?_piece_append (h : balanced? mode depth s = some (piece, more)) (t : List Char) :
    balanced? mode depth (piece ++ t) = some (piece, t) := by
  obtain ⟨front, depth₁, hpasses, hdepth, rfl⟩ := exists_passes_of_balanced? h
  have hlast : balanced? .code depth₁ ('\x7d' :: t) = some (['\x7d'], t) := by
    simp [balanced?, hdepth]
  rw [List.append_assoc, hpasses.balanced?_append, List.singleton_append, hlast, Option.map_some]

/-- More text behind a piece is left. -/
theorem balanced?_append (h : balanced? mode depth s = some (piece, more)) (t : List Char) :
    balanced? mode depth (s ++ t) = some (piece, more ++ t) := by
  rw [← (balanced?_splits h).2, List.append_assoc]
  exact balanced?_piece_append h _

/-- A production begins with its word and its opening brace, and only blanks stand between them. -/
theorem opening?_eq_some_iff : opening? s = some (opening, body) ↔
    ∃ blanks, blanks.all isBlank = true ∧ opening = 's' :: 'p' :: (blanks ++ ['\x7b']) ∧
      s = 's' :: 'p' :: (blanks ++ '\x7b' :: body) := by
  constructor
  · intro h
    unfold opening? at h
    split at h
    · next rest =>
      split at h
      · next inner hinner =>
        -- The blanks are those that were dropped before the brace.
        obtain ⟨rfl, rfl⟩ := Prod.mk.inj (Option.some.inj h)
        refine ⟨rest.takeWhile isBlank, List.all_takeWhile, rfl, ?_⟩
        rw [← hinner, List.takeWhile_append_dropWhile]
      · cases h
    · cases h
  · rintro ⟨blanks, hblanks, rfl, rfl⟩
    exact opening?_eq hblanks body

/-- More text behind the start of a production belongs to its body. -/
theorem opening?_append (h : opening? s = some (opening, body)) (t : List Char) :
    opening? (s ++ t) = some (opening, body ++ t) := by
  obtain ⟨blanks, hblanks, rfl, rfl⟩ := opening?_eq_some_iff.mp h
  exact opening?_eq_some_iff.mpr ⟨blanks, hblanks, rfl, by simp⟩

/-- A text that does not begin a production does not do so with a comment on the next line. -/
theorem opening?_append_comment (h : opening? s = none) (t : List Char) :
    opening? (s ++ '\n' :: '#' :: t) = none := by
  by_contra hsome
  obtain ⟨⟨opening, body⟩, hfound⟩ := Option.ne_none_iff_exists'.mp hsome
  obtain ⟨blanks, hblanks, -, heq⟩ := opening?_eq_some_iff.mp hfound
  rcases s with _ | ⟨c, _ | ⟨d, rest⟩⟩
  · cases (List.cons.inj heq).1
  · cases (List.cons.inj (List.cons.inj heq).2).1
  have hbehind : rest ++ '\n' :: '#' :: t = blanks ++ '\x7b' :: body :=
    (List.cons.inj (List.cons.inj heq).2).2
  rcases List.append_eq_append_iff.mp hbehind with ⟨u, rfl, hu⟩ | ⟨u, rfl, hu⟩
  · -- The sign of the comment would be a blank or the brace.
    rcases u with _ | ⟨_, _ | ⟨e, u⟩⟩
    · cases (List.cons.inj hu).1
    · cases (List.cons.inj (List.cons.inj hu).2).1
    · obtain rfl := (List.cons.inj (List.cons.inj hu).2).1
      have hblank := List.all_eq_true.mp hblanks '#' (by simp)
      exact absurd hblank (by decide)
  · rcases u with _ | ⟨e, u⟩
    · cases (List.cons.inj hu).1
    · obtain rfl := (List.cons.inj hu).1
      have hword : c = 's' ∧ d = 'p' :=
        ⟨(List.cons.inj heq).1, (List.cons.inj (List.cons.inj heq).2).1⟩
      obtain ⟨rfl, rfl⟩ := hword
      rw [opening?_eq_some_iff.mpr ⟨blanks, hblanks, rfl, rfl⟩] at h
      cases h

/-- A text that is one production from its first character to its last. -/
def IsBlock (block : List Char) : Prop :=
  ∃ opening piece, opening? block = some (opening, piece) ∧ balanced? .code 1 piece = some (piece, [])

/-- What is cut out of a text is one production. -/
theorem isBlock_of_balanced? (hopening : opening? s = some (opening, body))
    (hpiece : balanced? .code 1 body = some (piece, more)) : IsBlock (opening ++ piece) := by
  obtain ⟨blanks, hblanks, rfl, -⟩ := opening?_eq_some_iff.mp hopening
  refine ⟨_, piece, opening?_eq_some_iff.mpr ⟨blanks, hblanks, rfl, by simp⟩, ?_⟩
  have hclosed := balanced?_piece_append hpiece []
  rwa [List.append_nil] at hclosed

/-- Trimming leaves a last character that is no blank. -/
theorem exists_reverse_trim {last : Char} (hlast : isBlank last = false) (s : List Char) :
    ∃ rest, (trim (s ++ [last])).reverse = last :: rest := by
  have hleft : ∃ u, trimLeft (s ++ [last]) = u ++ [last] := by
    rw [trimLeft, List.dropWhile_append]
    split
    · exact ⟨[], by rw [List.dropWhile_cons_of_neg (by simp [hlast]), List.nil_append]⟩
    · exact ⟨_, rfl⟩
  obtain ⟨u, hu⟩ := hleft
  refine ⟨u.reverse, ?_⟩
  rw [trim, hu, trimRight, List.reverse_reverse, List.reverse_append, List.reverse_singleton,
    List.singleton_append, List.dropWhile_cons_of_neg (by simp [hlast])]

/-- The frame of a production can be taken off. -/
theorem IsBlock.exists_body (h : IsBlock block) :
    ∃ body, stripFraming (String.ofList block) = .ok body := by
  obtain ⟨opening, piece, hopening, hpiece⟩ := h
  obtain ⟨blanks, hblanks, -, rfl⟩ := opening?_eq_some_iff.mp hopening
  obtain ⟨front, -, -, -, rfl⟩ := exists_passes_of_balanced? hpiece
  -- A block begins and ends with marks that are no blanks, so trimming leaves it.
  have hframe : trim (String.ofList ('s' :: 'p' :: (blanks ++ '\x7b' :: (front ++ ['\x7d'])))).toList =
      's' :: 'p' :: (blanks ++ '\x7b' :: (front ++ ['\x7d'])) := by
    rw [String.toList_ofList]
    have htrim : trim ('s' :: ('p' :: (blanks ++ '\x7b' :: front) ++ ['\x7d'])) =
        's' :: ('p' :: (blanks ++ '\x7b' :: front) ++ ['\x7d']) :=
      trim_eq (by decide) (by decide)
    simpa using htrim
  have hinner : trim (blanks ++ '\x7b' :: (front ++ ['\x7d'])) = '\x7b' :: (front ++ ['\x7d']) := by
    have hleft : trimLeft (blanks ++ '\x7b' :: (front ++ ['\x7d'])) = '\x7b' :: (front ++ ['\x7d']) := by
      rw [trimLeft, List.dropWhile_append_of_pos (List.all_eq_true.mp hblanks)]
      rfl
    have htrim : trim ('\x7b' :: (front ++ ['\x7d'])) = '\x7b' :: (front ++ ['\x7d']) :=
      trim_eq (by decide) (by decide)
    rw [trim, hleft]
    exact htrim
  obtain ⟨rest, hclosing⟩ := exists_reverse_trim (show isBlank '\x7d' = false by decide) front
  exact ⟨_, stripFraming_eq_ok hframe hinner hclosing⟩

/-! ### Cutting -/

/-- What is cut out of a text. A production may begin at its first character if a word does. -/
inductive CutsInto : Bool → List Char → List (List Char) → Prop where
  | nil {wordStart : Bool} : CutsInto wordStart [] []
  | comment {wordStart : Bool} {s : List Char} {blocks : List (List Char)} :
    CutsInto true (afterComment s) blocks → CutsInto wordStart ('#' :: s) blocks
  | skip {wordStart : Bool} {c : Char} {s : List Char} {blocks : List (List Char)} :
    c ≠ '#' → (wordStart = true → opening? (c :: s) = none) →
    CutsInto (isBlank c || c == ';') s blocks → CutsInto wordStart (c :: s) blocks
  | block {s opening body piece more : List Char} {blocks : List (List Char)} :
    opening? s = some (opening, body) → balanced? .code 1 body = some (piece, more) →
    CutsInto false more blocks → CutsInto true s ((opening ++ piece) :: blocks)

/-- A character that begins neither a comment nor a production is passed over. -/
theorem splitFrom_skip (hc : c ≠ '#') (hopening : wordStart = true → opening? (c :: s) = none) :
    splitFrom wordStart line (c :: s) =
      splitFrom (isBlank c || c == ';') (line + if c = '\n' then 1 else 0) s := by
  rw [splitFrom, if_neg hc]
  split
  · rfl
  · next hsome =>
    split at hsome
    · next hword =>
      rw [hopening hword] at hsome
      cases hsome
    · cases hsome

/-- What is found in a text is what is cut out of it. -/
theorem exists_cutsInto {texts : List String} (h : splitFrom wordStart line s = .ok texts) :
    ∃ blocks, CutsInto wordStart s blocks ∧ texts = blocks.map String.ofList := by
  fun_induction splitFrom wordStart line s generalizing texts with
  | case1 => exact ⟨[], .nil, (Except.ok.inj h).symm⟩
  | case2 wordStart line rest ih =>
    obtain ⟨blocks, hcuts, rfl⟩ := ih h
    exact ⟨blocks, .comment hcuts, rfl⟩
  | case3 wordStart line c rest hc hnone ih =>
    have hopening : wordStart = true → opening? (c :: rest) = none := by
      rintro rfl
      exact hnone
    split at h
    · -- Neither a comment nor a production begins here, and one character is skipped.
      obtain ⟨blocks, hcuts, rfl⟩ := ih h
      exact ⟨blocks, .skip hc hopening hcuts, rfl⟩
    · next hsome =>
      exact absurd (hnone.symm.trans hsome) (by simp)
  | case4 wordStart line c rest hc opening body hpiece hsome =>
    split at h
    · next hnone => exact absurd (hsome.symm.trans hnone) (by simp)
    · next hsome' =>
      cases hsome.symm.trans hsome'
      split at h
      · cases h
      · next hpiece' => exact absurd (hpiece.symm.trans hpiece') (by simp)
  | case5 wordStart line c rest hc opening body piece more hpiece hsome ih =>
    split at h
    · next hnone => exact absurd (hsome.symm.trans hnone) (by simp)
    · next hsome' =>
      cases hsome.symm.trans hsome'
      split at h
      · cases h
      · next hpiece' =>
        cases hpiece.symm.trans hpiece'
        -- A production begins only at the start of a word.
        obtain ⟨rfl, hopening⟩ : wordStart = true ∧ opening? (c :: rest) = some (opening, body) := by
          split at hsome
          · next hword => exact ⟨hword, hsome⟩
          · cases hsome
        cases hfound : splitFrom false (line + lineBreaks (opening ++ piece)) more with
        | error e =>
          rw [hfound] at h
          cases h
        | ok found =>
          rw [hfound] at h
          obtain ⟨blocks, hcuts, rfl⟩ := ih hfound
          exact ⟨(opening ++ piece) :: blocks, .block hopening hpiece hcuts, (Except.ok.inj h).symm⟩

/-- What is cut out of a text is found in it, wherever it stands in a file. -/
theorem CutsInto.splitFrom_eq (h : CutsInto wordStart s blocks) (line : Nat) :
    splitFrom wordStart line s = .ok (blocks.map String.ofList) := by
  induction h generalizing line with
  | nil => rw [splitFrom, List.map_nil]
  | comment hcuts ih => rw [splitFrom, if_pos rfl, ih]
  | skip hc hopening _ ih => rw [splitFrom_skip hc hopening, ih]
  | @block s opening body piece more blocks hopening hpiece _ ih =>
    obtain ⟨blanks, -, -, rfl⟩ := opening?_eq_some_iff.mp hopening
    rw [splitFrom_eq_of_opening? hopening, hpiece]
    dsimp only
    rw [ih]
    rfl

/-- What is cut out of a text does not depend on where it stands in a file. -/
theorem splitFrom_eq_ok_iff {texts : List String} : splitFrom wordStart line s = .ok texts ↔
    ∃ blocks, CutsInto wordStart s blocks ∧ texts = blocks.map String.ofList := by
  refine ⟨exists_cutsInto, ?_⟩
  rintro ⟨blocks, hcuts, rfl⟩
  exact hcuts.splitFrom_eq line

/-- Whatever is cut out is one production. -/
theorem CutsInto.isBlock (h : CutsInto wordStart s blocks) : ∀ block ∈ blocks, IsBlock block := by
  induction h with
  | nil => simp
  | comment _ ih => exact ih
  | skip _ _ _ ih => exact ih
  | block hopening hpiece _ ih => exact List.forall_mem_cons.mpr ⟨isBlock_of_balanced? hopening hpiece, ih⟩

/-- A production at the start of a word is cut out. -/
theorem IsBlock.cutsInto (h : IsBlock block) (hrest : CutsInto false t blocks) :
    CutsInto true (block ++ t) (block :: blocks) := by
  obtain ⟨opening, piece, hopening, hpiece⟩ := h
  have hblock : block = opening ++ piece := (opening?_splits hopening).2.symm
  have hcuts := CutsInto.block (opening?_append hopening t) (balanced?_piece_append hpiece t) hrest
  rwa [← hblock] at hcuts

/-- A comment on a line of its own keeps texts apart. -/
theorem CutsInto.append_comment (h : CutsInto wordStart s blocks) (ht : CutsInto true t blocks') :
    CutsInto wordStart (s ++ '\n' :: '#' :: '\n' :: t) (blocks ++ blocks') := by
  have hcomment {wordStart : Bool} : CutsInto wordStart ('#' :: '\n' :: t) blocks' := .comment ht
  induction h with
  | nil => exact .skip (by decide) (fun _ => rfl) hcomment
  | @comment wordStart s blocks hcuts ih =>
    show CutsInto wordStart ('#' :: (s ++ '\n' :: '#' :: '\n' :: t)) (blocks ++ blocks')
    refine .comment ?_
    unfold afterComment at hcuts ih ⊢
    rw [List.dropWhile_append]
    split
    · -- The comment that the first text ends with goes on to the end of the line.
      next hall =>
      rw [List.isEmpty_iff.mp hall, List.drop_nil] at hcuts
      cases hcuts with
      | nil => exact hcomment
      | block hopening _ _ => cases hopening
    · next hline =>
      rw [List.isEmpty_iff] at hline
      rwa [List.drop_append_of_le_length (List.length_pos_iff.mpr hline)]
  | skip hc hopening _ ih =>
    exact .skip hc (fun hword => opening?_append_comment (hopening hword) _) ih
  | block hopening hpiece _ ih =>
    exact .block (opening?_append hopening _) (balanced?_append hpiece _) ih

/-- Productions with line breaks between them are cut apart. -/
theorem cutsInto_intercalate (h : ∀ block ∈ blocks, IsBlock block) :
    CutsInto true (['\n'].intercalate blocks) blocks := by
  induction blocks with
  | nil => exact .nil
  | cons block rest ih =>
    obtain ⟨hblock, hrest⟩ := List.forall_mem_cons.mp h
    cases rest with
    | nil => simpa using hblock.cutsInto .nil
    | cons next rest =>
      have hjoined : ['\n'].intercalate (block :: next :: rest) =
          block ++ '\n' :: ['\n'].intercalate (next :: rest) := by
        simp [List.intercalate]
      rw [hjoined]
      exact hblock.cutsInto (.skip (by decide) (fun hword => by cases hword) (ih hrest))

/-! ### Sources -/

/-- Texts stand in a text, each behind the one before. -/
inductive StandIn : List String → String → Prop where
  | nil {source : String} : StandIn [] source
  | cons {gap text rest : String} {texts : List String} :
    StandIn texts rest → StandIn (text :: texts) (gap ++ text ++ rest)

/-- Texts stand in a text with more in front. -/
theorem StandIn.append_left {texts : List String} {source : String} (h : StandIn texts source)
    (front : String) : StandIn texts (front ++ source) := by
  cases h with
  | nil => exact .nil
  | @cons gap text rest texts h =>
    rw [String.append_assoc, ← String.append_assoc, ← String.append_assoc]
    exact .cons h

/-- What is cut out of a text stands in the text. -/
theorem CutsInto.standIn (h : CutsInto wordStart s blocks) :
    StandIn (blocks.map String.ofList) (String.ofList s) := by
  induction h with
  | nil => exact .nil
  | @comment wordStart s blocks _ ih =>
    -- The text behind the comment is the end of the source.
    obtain ⟨front, hfront⟩ : afterComment s <:+ s :=
      (List.drop_suffix 1 _).trans (List.dropWhile_suffix _)
    rw [← hfront, ← List.cons_append, String.ofList_append]
    exact ih.append_left _
  | @skip wordStart c s blocks _ _ _ ih =>
    rw [← List.singleton_append, String.ofList_append]
    exact ih.append_left _
  | @block s opening body piece more blocks hopening hpiece _ ih =>
    have hs : s = [] ++ (opening ++ piece) ++ more := by
      rw [List.nil_append, List.append_assoc, (balanced?_splits hpiece).2, (opening?_splits hopening).2]
    rw [hs, String.ofList_append, String.ofList_append]
    exact .cons ih

/-- A source is cut into productions just if its characters are. -/
theorem splitProductions_eq_ok_iff {source : String} {texts : List String} :
    splitProductions source = .ok texts ↔
      ∃ blocks, CutsInto true source.toList blocks ∧ texts = blocks.map String.ofList :=
  splitFrom_eq_ok_iff

/-- The productions that are cut out of a source stand in it one behind the other, have a frame, and are cut
out again if they are written with line breaks between them. Two sources with a comment between them are cut
into the productions of the first and those of the second. -/
theorem splitProductions_compositional {source other : String} {texts texts' : List String}
    (h : splitProductions source = .ok texts) (h' : splitProductions other = .ok texts') :
    StandIn texts source ∧ (∀ text ∈ texts, ∃ body, stripFraming text = .ok body) ∧
      splitProductions ("\n".intercalate texts) = .ok texts ∧
      splitProductions (source ++ "\n#\n" ++ other) = .ok (texts ++ texts') := by
  obtain ⟨blocks, hcuts, rfl⟩ := splitProductions_eq_ok_iff.mp h
  obtain ⟨blocks', hcuts', rfl⟩ := splitProductions_eq_ok_iff.mp h'
  refine ⟨?_, List.forall_mem_map.mpr fun block hblock => (hcuts.isBlock block hblock).exists_body,
    splitProductions_eq_ok_iff.mpr ⟨blocks, ?_, rfl⟩,
    splitProductions_eq_ok_iff.mpr ⟨blocks ++ blocks', ?_, List.map_append.symm⟩⟩
  · have hstand := hcuts.standIn
    rwa [String.ofList_toList] at hstand
  · -- Joined by line breaks the blocks are cut as before.
    have hjoined : ("\n".intercalate (blocks.map String.ofList)).toList = ['\n'].intercalate blocks := by
      rw [String.toList_intercalate, List.map_map]
      simp [Function.comp_def]
    rw [hjoined]
    exact cutsInto_intercalate hcuts.isBlock
  · -- The comment between the sources ends with its own line.
    have hchars : (source ++ "\n#\n" ++ other).toList =
        source.toList ++ '\n' :: '#' :: '\n' :: other.toList := by
      simp [String.toList_append]
    rw [hchars]
    exact hcuts.append_comment hcuts'

/-- A source that ends with a word with which a production may begin. -/
def openSource : String := "quit; sp \x7bfirst # \x7d\n(<s> ^note |\x7d|) --> \x7dsp\x7b;sp \x7b\"\x7d\"\x7d sp"

/-- A source that begins with a brace. -/
def braceSource : String := "\x7b sp\n\x7bsecond\x7d #sp \x7bthird\x7d"

/-- The word and the brace do not make a production. -/
theorem splitProductions_compositional_open :
    ∃ texts texts', splitProductions openSource = .ok texts ∧ splitProductions braceSource = .ok texts' ∧
      texts.length = 2 ∧ texts' = ["sp\n\x7bsecond\x7d"] ∧ StandIn texts openSource ∧
      (∀ text ∈ texts, ∃ body, stripFraming text = .ok body) ∧
      splitProductions ("\n".intercalate texts) = .ok texts ∧
      splitProductions (openSource ++ "\n#\n" ++ braceSource) = .ok (texts ++ texts') := by
  -- Only the number of blocks is evaluated; what they are follows from the theorem.
  have hblocks : ((splitProductions openSource).toOption.any fun texts => texts.length = 2) = true := by
    decide +kernel
  have hbraces : splitProductions braceSource = .ok ["sp\n\x7bsecond\x7d"] := by
    decide +kernel
  cases htexts : splitProductions openSource with
  | error e =>
    rw [htexts] at hblocks
    cases hblocks
  | ok texts =>
    rw [htexts] at hblocks
    exact ⟨texts, _, rfl, hbraces, of_decide_eq_true hblocks, rfl,
      splitProductions_compositional htexts hbraces⟩

end SoarProject.Rule
