import SoarProject.Store.Identifier

/-!
# Names that a store tells apart

A store compares names without regard to capitals. Names in small letters are the same only if they
are equal, and of these no word that a statement writes without quotes is a keyword, but for two.
-/

namespace SoarProject.Identifier

variable {name a b : String}

theorem toLower_eq_self {c : Char} (h : ¬ c.isUpper) : c.toLower = c := by
  exact dif_neg fun hupper => h (decide_eq_true hupper)

/-- A character of a name without quotes is no capital letter. -/
theorem not_isUpper_of_isPlainChar {c : Char} (h : isPlainChar c) : ¬ c.isUpper := by
  intro hupper
  -- Characters are compared by their code points.
  have hcapital : c.val.toNat ≤ 90 ∧ 65 ≤ c.val.toNat :=
    (of_decide_eq_true hupper).symm.imp UInt32.le_iff_toNat_le.mp UInt32.le_iff_toNat_le.mp
  have hrange : ∀ {a b : Char}, (decide (c.val ≥ a.val) && decide (c.val ≤ b.val)) = true →
      a.val.toNat ≤ c.val.toNat ∧ c.val.toNat ≤ b.val.toNat := fun hab =>
    ((Bool.and_eq_true _ _).mp hab).imp (UInt32.le_iff_toNat_le.mp <| of_decide_eq_true ·)
      (UInt32.le_iff_toNat_le.mp <| of_decide_eq_true ·)
  simp only [isPlainChar, Bool.or_eq_true, beq_iff_eq] at h
  rcases h with ((((h | h) | rfl) | rfl) | rfl) | rfl
  · have hsmall : 97 ≤ c.val.toNat := (hrange (a := 'a') (b := 'z') h).1
    omega
  · have hdigit : c.val.toNat ≤ 57 := (hrange (a := '0') (b := '9') h).2
    omega
  all_goals revert hupper; decide

/-- A name without capitals. -/
def IsSmall (name : String) : Prop := name.toList.all fun c => !c.isUpper

instance (name : String) : Decidable (IsSmall name) := by
  unfold IsSmall
  infer_instance

/-- No character of such a name is a capital letter. -/
theorem isSmall_iff : IsSmall name ↔ ∀ c ∈ name.toList, ¬ c.isUpper := by simp [IsSmall]

/-- A name without capitals is its own writing in small letters. -/
theorem IsSmall.map_toLower (h : IsSmall name) : name.map Char.toLower = name := by
  have hchars : name.toList.map Char.toLower = name.toList.map id :=
    List.map_congr_left fun c hc => toLower_eq_self (isSmall_iff.mp h c hc)
  rw [← String.toList_inj, String.toList_map, hchars, List.map_id]

/-- Names without capitals stand for the same only if they are equal. -/
theorem IsSmall.eq_of_same (ha : IsSmall a) (hb : IsSmall b) (h : same a b) : a = b := by
  simpa [same, ha.map_toLower, hb.map_toLower] using h

/-- A name that a statement can write so that it is read as a name. -/
structure Readable (name : String) : Prop where
  ne_empty : name ≠ ""
  not_keyword : ¬ (isPlain name ∧ isKeyword (denoted name))

theorem same_self (name : String) : same name name := by simp [same]

/-- Among names that are told apart, the first that is the same as one of them is that one. -/
theorem find?_same {names : List String} (h : names.Pairwise fun a b => ¬ same b a)
    (hname : name ∈ names) : names.find? (same name) = some name := by
  induction names with
  | nil => cases hname
  | cons other names ih =>
    obtain ⟨hother, hrest⟩ := List.pairwise_cons.mp h
    rcases List.mem_cons.mp hname with rfl | hname
    · exact List.find?_cons_of_pos (same_self _)
    · rw [List.find?_cons_of_neg (hother name hname), ih hrest hname]

/-- All keywords are reserved but for two. -/
theorem mem_reservedWords_of_mem_keywords (h : name ∈ keywords) :
    name ∈ reservedWords ∨ name = "nothing" ∨ name = "returning" := by
  -- Both lists are in order, so that one pass over them tells.
  have hsublist : (keywords.filter (· ∉ ["nothing", "returning"])).Sublist reservedWords := by
    decide
  by_cases hrest : name ∈ ["nothing", "returning"]
  · exact .inr (by simpa using hrest)
  · exact .inl (hsublist.subset (List.mem_filter.mpr ⟨h, by simpa using hrest⟩))

/-- A name that is written without quotes is a keyword only if it is one of two. -/
theorem eq_of_isKeyword (hplain : isPlain name) (hunbroken : unbroken name = name)
    (hkeyword : isKeyword name) : name = "nothing" ∨ name = "returning" := by
  simp only [isPlain, hunbroken, isPlainWord, Bool.and_eq_true, Bool.not_eq_true',
    List.all_eq_true, List.contains_eq_mem, decide_eq_false_iff_not] at hplain
  have hsmall : IsSmall name :=
    isSmall_iff.mpr fun c hc => not_isUpper_of_isPlainChar (hplain.1.1 c hc)
  rw [isKeyword, hsmall.map_toLower, List.contains_eq_mem, decide_eq_true_eq] at hkeyword
  exact (mem_reservedWords_of_mem_keywords hkeyword).resolve_left hplain.2

end SoarProject.Identifier
