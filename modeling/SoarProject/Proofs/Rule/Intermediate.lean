import SoarProject.Proofs.Rule.Braces
import SoarProject.Proofs.Rule.Triples
import SoarProject.Proofs.Rule.Word

/-!
# Variables between the steps of a path

An attribute path with dots stands for a chain of single steps through variables of its own. Such a variable is
called after the one that the path begins with and the attributes so far, each behind a star. What is written as
a variable ends with its only closing bracket, so that the first variable can be told from the attributes, and no
variable of a path is one that is written. The attributes can be told apart if there is no star in them. If there
is one, `a*b` alone and `a` before `b` lead to one variable.

* `Rule.intermediate_eq_iff`: when two of them are one.
* `Rule.exists_renaming`: without stars, paths are chains that are written out with other variables.
-/

namespace SoarProject.Rule

variable {u v x : String} {p q names done : List String} {values : List TypedValue}

/-! ### What the variables are called -/

/-- Some attributes, each behind a star. -/
def starred (names : List String) : List Char := names.flatMap fun name => '*' :: name.toList

theorem intermediate_concat (subject : String) (names : List String) (name : String) :
    intermediate subject (names ++ [name]) = intermediate subject names ++ "*" ++ name := by
  rw [intermediate, List.foldl_append]
  rfl

/-- A variable is spelled as the first one and the attributes behind it. -/
theorem toList_intermediate (subject : String) (names : List String) :
    (intermediate subject names).toList = subject.toList ++ starred names := by
  induction names using List.reverseRecOn with
  | nil => simp [intermediate, starred]
  | append_singleton names name ih =>
    rw [intermediate_concat, String.toList_append, String.toList_append, ih]
    simp [starred]

/-- Before the first closing sign, two texts with one in each agree. -/
theorem eq_of_append_cons_eq {c : Char} {s s' rest rest' : List Char} (hs : c ∉ s) (hs' : c ∉ s')
    (h : s ++ c :: rest = s' ++ c :: rest') : s = s' ∧ rest = rest' := by
  -- The first `c` ends both words at the same place.
  induction s generalizing s' with
  | nil =>
    cases s' with
    | nil => exact ⟨rfl, (List.cons.inj h).2⟩
    | cons d s' =>
      obtain ⟨rfl, -⟩ := List.cons.inj h
      exact absurd List.mem_cons_self hs'
  | cons d s ih =>
    cases s' with
    | nil =>
      obtain ⟨rfl, -⟩ := List.cons.inj h
      exact absurd List.mem_cons_self hs
    | cons d' s' =>
      obtain ⟨rfl, htail⟩ := List.cons.inj h
      obtain ⟨rfl, hrest⟩ := ih (fun hmem => hs (List.mem_cons_of_mem _ hmem))
        (fun hmem => hs' (List.mem_cons_of_mem _ hmem)) htail
      exact ⟨rfl, hrest⟩

/-- What is written as a variable has its only closing bracket at its end. -/
theorem exists_of_matches_variableName (h : Terminal.variableName.Matches u.toList) :
    ∃ s, '>' ∉ s ∧ u.toList = s ++ ['>'] := by
  obtain ⟨s, hu, -, hs, -⟩ := angled?_eq_some_iff.mp h
  refine ⟨'<' :: s, fun hmem => ?_, hu⟩
  rcases List.mem_cons.mp hmem with hopening | hinner
  · exact absurd hopening (by decide)
  · exact absurd (hs _ hinner) (by decide)

/-- The variable at the front of a text and what follows it can be told apart. -/
theorem eq_of_variable_append_eq (hu : Terminal.variableName.Matches u.toList)
    (hv : Terminal.variableName.Matches v.toList) {rest rest' : List Char}
    (h : u.toList ++ rest = v.toList ++ rest') : u = v ∧ rest = rest' := by
  obtain ⟨s, hs, hus⟩ := exists_of_matches_variableName hu
  obtain ⟨s', hs', hvs⟩ := exists_of_matches_variableName hv
  rw [hus, hvs, List.append_assoc, List.append_assoc] at h
  obtain ⟨rfl, hrest⟩ := eq_of_append_cons_eq hs hs' h
  exact ⟨String.toList_inj.mp (hus.trans hvs.symm), hrest⟩

/-- Two variables of paths are one just if the paths begin with one variable and their attributes are spelled
alike, each behind a star. -/
theorem intermediate_eq_iff (hu : Terminal.variableName.Matches u.toList)
    (hv : Terminal.variableName.Matches v.toList) :
    intermediate u p = intermediate v q ↔ u = v ∧ starred p = starred q := by
  rw [← String.toList_inj, toList_intermediate, toList_intermediate]
  constructor
  · exact eq_of_variable_append_eq hu hv
  · rintro ⟨rfl, hstarred⟩
    rw [hstarred]

/-- No variable of a path is one that is written. -/
theorem intermediate_ne (hu : Terminal.variableName.Matches u.toList)
    (hx : Terminal.variableName.Matches x.toList) (hp : p ≠ []) : intermediate u p ≠ x := by
  intro h
  have hspelled : u.toList ++ starred p = x.toList ++ [] := by
    rw [← toList_intermediate, h, List.append_nil]
  obtain ⟨-, hnone⟩ := eq_of_variable_append_eq hu hx hspelled
  obtain ⟨name, rest, rfl⟩ := List.exists_cons_of_ne_nil hp
  simp [starred] at hnone

/-! ### Stars in attributes -/

/-- An attribute with a star in it leads to the variable of two attributes. -/
theorem intermediate_star (subject : String) (front : List String) (a b : String) :
    intermediate subject (front ++ [a ++ "*" ++ b]) = intermediate subject (front ++ [a] ++ [b]) := by
  rw [intermediate_concat, intermediate_concat, intermediate_concat]
  simp only [String.append_assoc]

/-- So a rule may take what is behind `a*b` for what is behind `b` behind `a`. -/
example : (parseProduction "sp \x7bp (state <s> ^a*b.c 1 ^a.b.d 2) --> \x7d").toOption.map (fun rule =>
    rule.triples.map fun t => (t.subject, t.attributeName, t.value)) =
      some [("<s>", "a*b", .text "<s>*a*b"), ("<s>*a*b", "c", .text "1"), ("<s>", "a", .text "<s>*a"),
        ("<s>*a", "b", .text "<s>*a*b"), ("<s>*a*b", "d", .text "2")] := by
  decide +kernel

/-- No attribute has a star in it. -/
def Starless (names : List String) : Prop := ∀ name ∈ names, '*' ∉ name.toList

/-- With a star at the end, each attribute stands before a star. -/
theorem starred_append_star (names : List String) :
    starred names ++ ['*'] = '*' :: names.flatMap fun name => name.toList ++ ['*'] := by
  induction names with
  | nil => rfl
  | cons name names ih => simpa [starred] using ih

/-- Attributes without stars can be told apart. -/
theorem starred_eq_iff (hp : Starless p) (hq : Starless q) : starred p = starred q ↔ p = q := by
  refine ⟨fun h => ?_, congrArg starred⟩
  -- Compared with a star behind each name instead of before it, the first name ends at the first star.
  have hbefore : (p.flatMap fun name => name.toList ++ ['*']) = q.flatMap fun name => name.toList ++ ['*'] := by
    have hstar := starred_append_star p
    rw [h, starred_append_star] at hstar
    exact (List.cons.inj hstar).2.symm
  clear h
  induction p generalizing q with
  | nil =>
    cases q with
    | nil => rfl
    | cons b q => simp at hbefore
  | cons a p ih =>
    cases q with
    | nil => simp at hbefore
    | cons b q =>
      rw [List.flatMap_cons, List.flatMap_cons, List.append_assoc, List.append_assoc] at hbefore
      obtain ⟨hname, hrest⟩ := eq_of_append_cons_eq (hp a List.mem_cons_self) (hq b List.mem_cons_self) hbefore
      rw [String.toList_inj.mp hname, ih (fun name hmem => hp name (List.mem_cons_of_mem _ hmem))
        (fun name hmem => hq name (List.mem_cons_of_mem _ hmem)) hrest]

/-- Without stars in the attributes, two variables of paths are one just if they are behind the same attributes of
paths that begin with the same variable. -/
theorem intermediate_eq_iff_of_starless (hu : Terminal.variableName.Matches u.toList)
    (hv : Terminal.variableName.Matches v.toList) (hp : Starless p) (hq : Starless q) :
    intermediate u p = intermediate v q ↔ u = v ∧ p = q := by
  rw [intermediate_eq_iff hu hv, starred_eq_iff hp hq]

/-! ### Chains that are written out -/

/-- The triples of single steps, one after the other, with a variable behind each part of a path. -/
def chainTriples (variableOf : List String → String) (values : List TypedValue) :
    List String → List String → List Triple
  | _, [] => []
  | done, [name] => pathTriples (variableOf done) values [name]
  | done, name :: rest =>
    pathTriples (variableOf done) [(.identifier, variableOf (done ++ [name]))] [name] ++
      chainTriples variableOf values (done ++ [name]) rest

/-- A value with another name for its variable. -/
def renameValue (rename : String → String) : TypedValue → TypedValue
  | (.identifier, name) => (.identifier, rename name)
  | value => value

/-- A triple with other names for its variables. -/
def renameTriple (rename : String → String) (t : Triple) : Triple :=
  { t with subject := rename t.subject, value := match t.kind, t.value with
    | .identifier, .text name => .text (rename name)
    | _, value => value }

/-- The triples of one step, with other names for their variables. -/
theorem map_renameTriple_step (rename : String → String) (subject name : String) :
    (pathTriples subject values [name]).map (renameTriple rename) =
      pathTriples (rename subject) (values.map (renameValue rename)) [name] := by
  simp only [pathTriples, List.map_map]
  refine List.map_congr_left fun value _ => ?_
  obtain ⟨kind, text⟩ := value
  cases kind <;> rfl

/-- The triples of a path are a chain of single steps, with other names for their variables. -/
theorem map_renameTriple_pathTriples {rename : String → String} {variableOf : List String → String}
    (hrename : ∀ front, front <+: done ++ names → front ≠ done ++ names →
      rename (intermediate u front) = variableOf front) :
    (pathTriples (intermediate u done) values names).map (renameTriple rename) =
      chainTriples variableOf (values.map (renameValue rename)) done names := by
  induction names generalizing done with
  | nil => rfl
  | cons name rest ih =>
    have hdone : rename (intermediate u done) = variableOf done :=
      hrename done (List.prefix_append _ _) (by simp)
    cases rest with
    | nil => rw [map_renameTriple_step, hdone, chainTriples]
    -- The step in between ends at the variable that the next one starts from.
    | cons next rest =>
      have hnext : rename (intermediate u (done ++ [name])) = variableOf (done ++ [name]) := by
        refine hrename _ ?_ (by simp)
        exact ⟨next :: rest, by simp⟩
      have hfurther : ∀ front, front <+: (done ++ [name]) ++ next :: rest →
          front ≠ (done ++ [name]) ++ next :: rest → rename (intermediate u front) = variableOf front := by
        intro front hfront hne
        rw [List.append_assoc] at hfront hne
        exact hrename front hfront hne
      have hrest := ih hfurther
      rw [intermediate_concat] at hnext hrest
      rw [pathTriples, List.map_cons, hrest]
      · simp only [renameTriple, hdone, hnext]
        rfl
      · exact List.cons_ne_nil next rest

/-- Without stars in the attributes, the paths of a rule are chains that are written out with other variables, which
may be chosen freely: one renaming, which keeps all written variables, takes the triples of each path to those of
its chain. -/
theorem exists_renaming (fresh : String → List String → String) :
    ∃ rename : String → String, (∀ x : String, Terminal.variableName.Matches x.toList → rename x = x) ∧
      ∀ u values names, Terminal.variableName.Matches u.toList → Starless names →
        (∀ value ∈ values, value.1 = TripleKind.identifier → Terminal.variableName.Matches value.2.toList) →
        (pathTriples u values names).map (renameTriple rename) =
          chainTriples (fun front => if front = [] then u else fresh u front) values [] names := by
  classical
  -- A variable behind an attribute is renamed by the path it was made for; all others stay.
  let IsBehind (x : String) (path : String × List String) : Prop :=
    Terminal.variableName.Matches path.1.toList ∧ path.2 ≠ [] ∧ Starless path.2 ∧
      x = intermediate path.1 path.2
  let rename (x : String) : String := if h : ∃ path, IsBehind x path then fresh h.choose.1 h.choose.2 else x
  have hwritten : ∀ x : String, Terminal.variableName.Matches x.toList → rename x = x := by
    intro x hx
    refine dif_neg ?_
    rintro ⟨path, hpath, hne, -, rfl⟩
    exact intermediate_ne hpath hx hne rfl
  -- The path is determined by the variable, so the choice does not matter.
  have hbehind : ∀ u front, Terminal.variableName.Matches u.toList → front ≠ [] → Starless front →
      rename (intermediate u front) = fresh u front := by
    intro u front hu hne hfront
    have h : ∃ path, IsBehind (intermediate u front) path := ⟨(u, front), hu, hne, hfront, rfl⟩
    obtain ⟨hv, -, hstarless, heq⟩ := h.choose_spec
    obtain ⟨hsubject, hpath⟩ := (intermediate_eq_iff_of_starless hu hv hfront hstarless).mp heq
    refine (dif_pos h).trans ?_
    rw [← hsubject, ← hpath]
  refine ⟨rename, hwritten, fun u values names hu hnames hvalues => ?_⟩
  have hkept : values.map (renameValue rename) = values := by
    refine (List.map_congr_left fun value hvalue => ?_).trans (List.map_id values)
    obtain ⟨kind, name⟩ := value
    cases kind with
    | identifier => exact congrArg _ (hwritten name (hvalues _ hvalue rfl))
    | _ => rfl
  let variableOf (front : List String) : String := if front = [] then u else fresh u front
  have hpath : (pathTriples (intermediate u []) values names).map (renameTriple rename) =
      chainTriples variableOf (values.map (renameValue rename)) [] names := by
    refine map_renameTriple_pathTriples fun front hfront _ => ?_
    by_cases hne : front = []
    · rw [hne]
      exact hwritten u hu
    · rw [hbehind u front hu hne fun name hname => hnames name (hfront.subset hname)]
      exact (if_neg hne).symm
  rwa [hkept] at hpath

end SoarProject.Rule
