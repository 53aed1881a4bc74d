import SoarProject.Proofs.Project.Saving

/-!
# Importing a source

Importing a source makes a rule of each production that is cut out of it, one after the other. A production
that does not read leaves its rule with nothing but the text, and neither it nor any other production changes
what was there before.

* `Store.Imports`: what importing makes of a rule.
* `ends_createRule_added`, `ends_saveNewRule_imported`: one production.
* `ends_importProductions_imported`: one production after the other.
* `importRules_isolates`: importing succeeds, and all that is new are the rules and their parts.
-/

namespace SoarProject

open Registry Rule
open ViewChange (Gives)

variable {st st₁ st₂ : Store} {a r c : Row} {v : View} {name text : String} {texts : List String}
  {p : Production} {k count : Nat} {added : List Row} {column : String}

/-! ### Productions of a source -/

/-- A text without overlong integers. If it reads as a production, the integers among the constants fit. -/
structure Importable (text : String) : Prop where
  ne_integerTooLong : ∀ digits, parseProduction text ≠ .error (.integerTooLong digits)
  integersFit : ∀ p, parseProduction text = .ok p → IntegersFit p.constants

instance (values : List Value) : Decidable (IntegersFit values) :=
  decidable_of_iff ((values.all fun | .int n => fitsInteger n | _ => true) = true) <| by
    rw [List.all_eq_true]
    refine ⟨fun h n hn => h _ hn, fun h value hvalue => ?_⟩
    cases value with
    | int n => exact h n hvalue
    | _ => rfl

instance (text : String) : Decidable (Importable text) :=
  match hparse : parseProduction text with
  | .ok p => decidable_of_iff (IntegersFit p.constants)
      ⟨fun hfit => ⟨by simp [hparse], by simpa [hparse] using hfit⟩, fun h => h.integersFit p hparse⟩
  | .error (.parse _) => .isTrue ⟨by simp [hparse], by simp [hparse]⟩
  | .error (.integerTooLong digits) => .isFalse fun h => h.ne_integerTooLong digits hparse

/-- The number of rows below a rule with a text. -/
def partsSize (text : String) : Nat :=
  match parseProduction text with
  | .ok p => Outline.sizes p.parts
  | .error _ => 0

/-- The number of rows for the rules of a source. -/
def importSize (texts : List String) : Nat := (texts.map fun text => partsSize text + 1).sum

/-- The name with which the rule of the `n`-th production of a source is created. -/
def importedName (text : String) (n : Nat) : String :=
  (productionName? text).getD ("rule-" ++ toString n)

namespace Store

/-! ### New children -/

/-- A new child is still the only one that is new once it was named. -/
theorem Extends.naming (h : st.Extends st₁ a [c]) (ha : st.Has a) (hc : ¬ st.Has c) (shown : Value) :
    st.Extends (st₁.naming c shown name) a [c] := by
  unfold Store.naming
  split
  · exact h
  · exact h.setCell ha hc (by decide) _

/-- A new child without children is still the only one that is new once parts were stored below it. -/
theorem Rebuilds.extends (hs : st₁.Rebuilds st₂ v p) (h : st.Extends st₁ a [v.row]) (ha : st.Has a)
    (hnew : ¬ st.Has v.row) (hchildless : ∀ c, ¬ st₁.IsParent v.row c) : st.Extends st₂ a [v.row] := by
  obtain ⟨st₃, shown, rows, hclears, -, hextends, -⟩ := hs
  have hcleared : st.Extends st₃ a [v.row] :=
    h.of_rows_eq hclears.integral (hclears.rows_eq h.grows.integral hchildless) hclears.pairs_eq
  exact (hcleared.naming ha hnew shown).trans_below ha hnew hextends

/-- All that is new are the new children and what is below them. -/
theorem Extends.below_added (h : st.Extends st₁ a added) (ha : st.Has a) (hr : st₁.Has r) :
    st.Has r ∨ ∃ c ∈ added, Relation.ReflTransGen st₁.IsParent c r := by
  -- On a way down from an old row, the first row that is new is a new child, since only the agent has such.
  have hleads : ∀ q, Relation.ReflTransGen st₁.IsParent q r → st.Has q →
      st.Has r ∨ ∃ c ∈ added, Relation.ReflTransGen st₁.IsParent c r := by
    intro q hq
    induction hq using Relation.ReflTransGen.head_induction_on with
    | refl => exact Or.inl
    | @head q c hparent hbelow ih =>
      intro hq
      have hc : c ∈ st₁.childrenIn q c.table := by
        obtain ⟨id, hid⟩ := hq.exists_id
        rw [hid] at hparent ⊢
        exact h.grows.integral.mem_childrenIn_iff.mpr ⟨rfl, hparent⟩
      rw [h.childrenIn_eq q hq, List.mem_append] at hc
      rcases hc with hold | hnew
      · exact ih (has_of_mem_childrenIn hold)
      · split at hnew
        · exact Or.inr ⟨c, (List.mem_filter.mp hnew).1, hbelow⟩
        · exact absurd hnew List.not_mem_nil
  rcases h.below r hr with hold | hbelow
  · exact Or.inl hold
  · exact hleads a hbelow.to_reflTransGen ha

/-- Where only other rows get new children, a row keeps its cells. -/
theorem Extends.cell_eq (h : st.Extends st₁ a added) (hst : st.Sound) (hr : st.Has r) :
    st₁.cell r = st.cell r :=
  (h.grows.integral.cell_eq_of_subset hr hst (h.grows.rows_subset _)).symm

/-- Where only a row above gets new children, a row holds below it what it held. -/
theorem StoresBelow.of_extends {os : List Outline} (hs : st.StoresBelow r os) (h : st.Extends st₁ a added)
    (hst : st.Integral) (har : st.IsParent a r) : st₁.StoresBelow r os := by
  obtain ⟨rows, hrows, hchildren⟩ := hs
  have hr := har.has
  have hne : r ≠ a := by
    rintro rfl
    exact hst.acyclic r (.single har)
  refine ⟨rows, Stores.all_of_grows hst h.grows h.childrenIn_of_ne os rows (fun c hc => ?_) hrows, ?_⟩
  · have hmem : c ∈ st.childrenIn r c.table := by
      rw [hchildren, List.mem_filter]
      exact ⟨hc, by simp⟩
    exact .head har (.single (hst.isParent_of_mem_childrenIn hr hmem))
  · exact fun t => (h.childrenIn_of_ne r hr hne t).trans (hchildren t)

/-! ### Imported rules -/

/-- The row `r` is the rule that importing makes of a text. If the text reads as a production, the rule has
its name, and its parts, as they are kept, are what is below the rule. If not, the rule has the name with which
it was created, and nothing is below it. -/
structure Imports (st : Store) (r : Row) (name text : String) : Prop where
  table_eq : r.table = .rules
  has : st.Has r
  text_eq : st.cell r "raw_text" = .text text
  name_eq : st.cell r "name" = .text (match parseProduction text with
    | .ok p => p.name
    | .error _ => name)
  stores : st.StoresBelow r (match parseProduction text with
    | .ok p => Outline.allKept p.parts
    | .error _ => [])

/-- Where only the agent gets new children, a rule stays as it was imported. -/
theorem Imports.of_extends (h : st.Imports r name text) (hextends : st.Extends st₁ a added)
    (hst : st.Integral) (har : st.IsParent a r) : st₁.Imports r name text where
  table_eq := h.table_eq
  has := hextends.grows.has h.has
  text_eq := by rw [hextends.cell_eq hst.toSound h.has, h.text_eq]
  name_eq := by rw [hextends.cell_eq hst.toSound h.has, h.name_eq]
  stores := h.stores.of_extends hextends hst har

/-- The parts of a production are below its rule as they are if their constants are kept. -/
theorem Imports.readRule_eq (hi : st.Imports r name text) (h : st.Integral)
    (hparse : parseProduction text = .ok p) (hkept : AreKept p.constants) :
    st.StoresBelow r p.parts ∧ st.readRule r = some (p.conditions, p.actions) := by
  have hproper := proper_of_parseProduction hparse
  have hstores : st.StoresBelow r (Outline.allKept p.parts) := by
    have hstored := hi.stores
    rwa [hparse] at hstored
  have hstorable : ∀ o ∈ p.parts, o.Storable := fun o ho =>
    (p.fitsIn_of_mem_parts hproper o ho).choose_spec.2.2
  rw [Outline.allKept_eq_self hstorable hkept] at hstores
  exact ⟨hstores, hstores.readRule_eq h hproper⟩

/-- A view of a rule that was just created below an agent with a name and a text. -/
structure AddsRule (st st₁ : Store) (a : Row) (v : View) (name text : String) : Prop where
  table_eq : v.row.table = .rules
  memo_eq : v.memo = some (.text name)
  new : ¬ st.Has v.row
  extends_of : st.Extends st₁ a [v.row]
  childless : ∀ c, ¬ st₁.IsParent v.row c
  complete : st₁.Complete v.row
  name_eq : st₁.cell v.row "name" = .text name
  text_eq : st₁.cell v.row "raw_text" = .text text

end Store

/-! ### One production -/

/-- A rule is created below an agent. -/
theorem ends_createRule_added (h : st.Integral) (ha : st.Has a) (htable : a.table = .agents)
    (hroom : st.Room (k + 1)) :
    (createRule a (.text name) (.text text)).Ends true st
      (fun v st₁ => st.AddsRule st₁ a v name text ∧ st₁.Room k) (fun _ => False) := by
  have hchild : Table.rules ∈ project.childrenOf a.table := by
    rw [htable]
    decide
  have hraw : IsAttribute "raw_text" := by decide
  have hcolumn : project.columnType? .rules "raw_text" = some .text := by decide
  unfold createRule
  refine Change.Ends.bind ((Row.ends_createLeaf h ha hchild (by decide)).mono ?_ ?_)
  · rintro _ st₁ ⟨record, hrecord, rfl, hfresh, hparent, hparents, hmade, hid, rfl, hfills⟩
    have h₁ := hfresh.grows.integral
    have hroom₁ := hroom.withRecord h.toSound hid
    -- The record is made with its name, and the text is written into it right behind.
    have hrenews := h₁.renews_setCell (r := .ofId .rules record.id) hraw (.text text)
    have hcomplete : (st.withRecord .rules record).Complete (.ofId .rules record.id) := by
      intro other hother heq
      rw [h₁.eq_of_id_eq hother hrecord (Cell.int.inj heq).symm]
      exact hfills
    have hname : record.get "name" = .text name := by
      refine hmade.get_eq_store (by decide) (columnType?_name _) StoredType.keeps_text.2.takes ?_
      simp [List.lookup_cons, beq_eq_false_iff_ne.mpr (name_ne_idName a.table)]
    refine (View.ends_update_kept h₁ (hroom₁.fits.row hfresh.has) hraw (by decide) hcolumn
      StoredType.keeps_text.1).mono ?_ fun _ hE => hE
    rintro _ _ ⟨rfl, rfl⟩
    refine ⟨⟨rfl, rfl, hfresh.new, ?_, fun c hc => ?_, h₁.complete_setCell hcomplete hfresh.has, ?_, ?_⟩,
      hroom₁.of_has fun q hq => (hrenews.has_iff q).mp hq⟩
    · -- The new rule hangs below the agent, and nothing below the rule.
      exact (h.extends_withRecord ha hid hfresh hparent hparents).setCell ha hfresh.new hraw _
    · rcases hparents _ c ((hrenews.isParent_iff _ c).mp hc) with hold | ⟨rfl, -⟩
      · exact hfresh.new (h.has_of_isParent hold)
      · exact hfresh.new ha
    · -- Name and text are columns of their own, so the second write keeps the first.
      refine (h₁.cell_setCell_of_ne hfresh.has hraw (by decide)).trans ?_
      exact (h₁.cell_eq hrecord rfl "name").trans hname
    · exact h₁.cell_setCell hcomplete hfresh.has hraw (mem_columnNamesOf_of_columnType? hcolumn)
  · rintro st' ⟨-, hnot⟩
    exact hnot ⟨rfl, hroom.fits.row ha⟩

section Saving

variable (hadds : st.AddsRule st₁ a v name text) (ha : st.Has a)

include hadds ha

/-- The text of a new rule is saved if it reads as a production. -/
theorem gives_saveRuleText_imported (hparse : parseProduction text = .ok p) (hfit : IntegersFit p.constants)
    (hroom : st₁.Room (Outline.sizes p.parts + k)) :
    (saveRuleText text).Gives st₁ v fun _ v' st₂ => v'.row = v.row ∧ st.Extends st₂ a [v.row] ∧
      st₂.Imports v.row name text ∧ st₂.Room k := by
  have h₁ := hadds.extends_of.grows.integral
  have hr : st₁.Has v.row := (hadds.extends_of.isParent ha List.mem_cons_self).has
  have hraw : IsAttribute "raw_text" := by decide
  have hrenews := h₁.renews_setCell (r := v.row) hraw (.text text)
  refine (ViewChange.gives_saveRuleText h₁ hr hadds.table_eq hparse hfit hroom).mono ?_
  rintro - _ st₂ ⟨rfl, hrebuilds, hroom₂⟩
  have hrevises := hrebuilds.revises h₁ hadds.complete hr hadds.table_eq
  refine ⟨rfl, hrebuilds.extends (hadds.extends_of.setCell ha hadds.new hraw _) ha hadds.new
      fun c hc => hadds.childless c ((hrenews.isParent_iff _ c).mp hc),
    { table_eq := hadds.table_eq, has := hrevises.has, text_eq := hrevises.text_eq
      name_eq := ?_, stores := ?_ }, hroom₂⟩
  · rw [hparse]
    obtain ⟨shown, hshows, hname⟩ := hrevises.name_eq
    -- The view remembers the name with which the rule was created.
    obtain rfl : shown = .text name := by
      rcases hshows with hmemo | ⟨hforgot, -⟩
      · exact Option.some.inj (hmemo.symm.trans hadds.memo_eq)
      · exact absurd (hforgot.symm.trans hadds.memo_eq) (by simp)
    split at hname
    · next hsame =>
      have heq : name = p.name := Value.text.inj (Value.isText_eq_true_iff.mp hsame)
      rw [hname, hadds.name_eq, heq]
    · exact hname
  · rw [hparse]
    exact hrevises.stores

/-- The text of a new rule that does not read as a production is kept, and its failure is caught. -/
theorem gives_tryCatch_saveRuleText {e : Rule.ParseError} {handler : Failure → ViewChange Unit}
    (hparse : parseProduction text = .error (.parse e)) (hhandler : handler (.parse e) = pure ())
    (hroom : st₁.Room k) :
    (tryCatch (saveRuleText text) handler).Gives st₁ v fun _ v' st₂ => v'.row = v.row ∧
      st.Extends st₂ a [v.row] ∧ st₂.Imports v.row name text ∧ st₂.Room k := by
  have h₁ := hadds.extends_of.grows.integral
  have hr : st₁.Has v.row := (hadds.extends_of.isParent ha List.mem_cons_self).has
  have hraw : IsAttribute "raw_text" := by decide
  have hcolumn : project.columnType? v.row.table "raw_text" = some .text := by
    rw [hadds.table_eq]
    decide
  have hrenews := h₁.renews_setCell (r := v.row) hraw (.text text)
  -- When the failure is thrown, nothing was written but the text.
  have hsave : saveRuleText text = (do
      ViewChange.suppressing (ViewChange.update "raw_text" (.text text))
      (Change.announce .databaseChanged : Change Unit)) >>= fun _ => throw (.parse e) := by
    rw [saveRuleText, hparse, bind_assoc]
  rw [hsave]
  refine Gives.tryCatch_throw (Gives.bind ((Gives.suppressing (ViewChange.gives_update_kept h₁
    (hroom.fits.row hr) hraw (by decide) hcolumn StoredType.keeps_text.1)).mono ?_))
  rintro - _ _ ⟨rfl, rfl⟩
  refine Gives.lift (Change.Ends.announce ?_)
  rw [hhandler]
  refine Gives.pure ⟨rfl, hadds.extends_of.setCell ha hadds.new hraw _,
    { table_eq := hadds.table_eq, has := (hrenews.has_iff _).mpr hr, text_eq := ?_, name_eq := ?_
      stores := ?_ }, hroom.of_has fun q hq => (hrenews.has_iff q).mp hq⟩
  · exact h₁.cell_setCell hadds.complete hr hraw (mem_columnNamesOf_of_columnType? hcolumn)
  · rw [hparse]
    exact (h₁.cell_setCell_of_ne hr hraw (by decide)).trans hadds.name_eq
  · rw [hparse]
    refine ⟨[], trivial, fun t => List.eq_nil_iff_forall_not_mem.mpr fun c hc => ?_⟩
    rw [h₁.childrenIn_setCell hraw] at hc
    exact hadds.childless c (h₁.isParent_of_mem_childrenIn hr hc)

/-- The text of a new rule is saved. If it does not read as a production, the rule keeps nothing but the
text. -/
theorem ends_saveNewRule_imported (htext : Importable text) (hroom : st₁.Room (partsSize text + k)) :
    (saveNewRule v text).Ends true st₁
      (fun v' st₂ => v'.row = v.row ∧ st.Extends st₂ a [v.row] ∧ st₂.Imports v.row name text ∧ st₂.Room k)
      (fun _ => False) := by
  unfold saveNewRule
  refine Change.Ends.bind ((Gives.on (Q := fun _ v' st₂ => v'.row = v.row ∧ st.Extends st₂ a [v.row] ∧
    st₂.Imports v.row name text ∧ st₂.Room k) ?_).mono (fun _ _ hsaved => Change.Ends.pure hsaved)
    fun _ hE => hE)
  cases hparse : parseProduction text with
  | ok p =>
    rw [partsSize, hparse] at hroom
    exact (gives_saveRuleText_imported hadds ha hparse (htext.integersFit p hparse) hroom).tryCatch
  | error e =>
    cases e with
    | parse e =>
      -- This is the failure that is caught.
      rw [partsSize, hparse, Nat.zero_add] at hroom
      exact gives_tryCatch_saveRuleText hadds ha hparse rfl hroom
    | integerTooLong digits => exact absurd hparse (htext.ne_integerTooLong digits)

end Saving

/-! ### All productions -/

/-- Rules are made of productions, one after the other. -/
theorem ends_importProductions_imported (h : st.Integral) (ha : st.Has a) (htable : a.table = .agents)
    (htexts : ∀ text ∈ texts, Importable text) (hroom : st.Room (importSize texts + k)) :
    (importProductions a count texts).Ends true st
      (fun rules st₁ => st.Extends st₁ a (rules.map (·.row)) ∧ (∀ rule ∈ rules, ¬ st.Has rule.row) ∧
        List.Forall₂ (fun rule entry => st₁.Imports rule.row (importedName entry.1 entry.2) entry.1) rules
          (texts.zipIdx (count + 1)) ∧ st₁.Room k)
      (fun _ => False) := by
  -- By induction on the productions, from any store: each finds what those before it left.
  induction texts generalizing st count with
  | nil =>
    rw [importProductions]
    rw [importSize, List.map_nil, List.sum_nil, Nat.zero_add] at hroom
    exact Change.Ends.pure ⟨.refl h, fun _ hrule => absurd hrule List.not_mem_nil, .nil, hroom⟩
  | cons text texts ih =>
    obtain ⟨htext, htexts⟩ := List.forall_mem_cons.mp htexts
    have hroom : st.Room (partsSize text + (importSize texts + k) + 1) := by
      have hsum : importSize (text :: texts) + k = partsSize text + (importSize texts + k) + 1 := by
        rw [importSize, List.map_cons, List.sum_cons, ← importSize]
        omega
      rwa [hsum] at hroom
    rw [importProductions]
    refine Change.Ends.bind ((ends_createRule_added h ha htable hroom).mono ?_ fun _ hE => hE)
    rintro v st₁ ⟨hadds, hroom₁⟩
    refine Change.Ends.bind ((ends_saveNewRule_imported hadds ha htext hroom₁).mono ?_ fun _ hE => hE)
    rintro v' st₂ ⟨hrow, hextends, himports, hroom₂⟩
    have h₂ := hextends.grows.integral
    refine Change.Ends.bind ((ih h₂ (hextends.grows.has ha) htexts hroom₂).mono ?_ fun _ hE => hE)
    rintro rules st₃ ⟨hextends', hnew, hrules, hroom₃⟩
    refine Change.Ends.pure ⟨?_, List.forall_mem_cons.mpr ⟨?_, fun rule hrule hold => ?_⟩,
      .cons ?_ hrules, hroom₃⟩
    · rw [List.map_cons, hrow]
      exact hextends.trans hextends'
    · rw [hrow]
      exact hadds.new
    · exact hnew rule hrule (hextends.grows.has hold)
    -- The rules after this one are new children of the agent too, so that this one stays as it is.
    · rw [hrow]
      exact himports.of_extends hextends' h₂ (hextends.isParent ha List.mem_cons_self)

/-- Importing a source that can be cut into productions succeeds, whether they read or not. The agent gets one
new rule for each of them, in order, and each is what importing makes of its text: of one that does not read
there is only the rule. All that is new are these rules and what is below them. The integers of the productions
that read must fit, and there must be ids for the rules and their parts. -/
theorem importRules_isolates {s : Session} {agent : View} {source : String} (hopen : s.Opens true st)
    (h : st.Integral) (ha : st.Has agent.row) (htable : agent.row.table = .agents)
    (hsplit : splitProductions source = .ok texts) (htexts : ∀ text ∈ texts, Importable text)
    (hroom : st.Room (importSize texts)) :
    ∃ rules agent' s' st', (importRules agent source).run.run s = (.ok (rules, agent'), s') ∧
      agent'.row = agent.row ∧ s'.Opens true st' ∧ st.Extends st' agent.row (rules.map (·.row)) ∧
      (∀ rule ∈ rules, ¬ st.Has rule.row) ∧
      (∀ q, st'.Has q → st.Has q ∨ ∃ rule ∈ rules, Relation.ReflTransGen st'.IsParent rule.row q) ∧
      List.Forall₂ (fun rule entry => st'.Imports rule.row (importedName entry.1 entry.2) entry.1 ∧
        ∀ p, parseProduction entry.1 = .ok p → AreKept p.constants →
          st'.StoresBelow rule.row p.parts ∧ st'.readRule rule.row = some (p.conditions, p.actions))
        rules (texts.zipIdx 1) := by
  -- The import itself: every block becomes a rule, in the order of the blocks.
  have hends : (importRules agent source).Ends true st (fun found st' => found.2.row = agent.row ∧
      st.Extends st' agent.row (found.1.map (·.row)) ∧ (∀ rule ∈ found.1, ¬ st.Has rule.row) ∧
      List.Forall₂ (fun rule entry => st'.Imports rule.row (importedName entry.1 entry.2) entry.1) found.1
        (texts.zipIdx 1)) fun _ => False := by
    unfold importRules
    rw [hsplit]
    refine Change.Ends.bind ((Change.Ends.batch (ends_importProductions_imported (k := 0) h ha htable htexts
      hroom)).mono ?_ fun _ hE => hE)
    rintro rules st₁ ⟨hextends, hnew, hrules, hroom₁⟩
    have h₁ := hextends.grows.integral
    -- Only the name of the agent is read afterwards.
    refine Change.Ends.query (View.finds_name h₁.toSound) (fun found hrow => ?_) fun hnot => ?_
    · exact Change.Ends.pure ⟨hrow, hextends, hnew, hrules⟩
    · exact hnot (hroom₁.fits.row (hextends.grows.has ha))
  obtain ⟨⟨rules, agent'⟩, s', st', hrun, hopen', hrow, hextends, hnew, hrules⟩ :=
    hends.exists_ok (fun _ hE => hE) hopen
  -- Everything new hangs below one of the rules.
  refine ⟨rules, agent', s', st', hrun, hrow, hopen', hextends, hnew, fun q hq => ?_, ?_⟩
  · refine (hextends.below_added ha hq).imp_right ?_
    rintro ⟨c, hc, hbelow⟩
    obtain ⟨rule, hrule, rfl⟩ := List.mem_map.mp hc
    exact ⟨rule, hrule, hbelow⟩
  · -- What was stored for a parsed text is read back as its conditions and actions.
    exact hrules.imp fun rule entry himports =>
      ⟨himports, fun p hparse hkept => himports.readRule_eq hextends.grows.integral hparse hkept⟩

/-! ### A source with productions that do not read -/

/-- An agent. -/
def Store.onlyAgent : Record := ⟨1, newCells (project.columnsOf .agents) [("name", .text "agent")]⟩

/-- A project with an agent and nothing else. -/
def Store.agentOnly : Store := blank.withRecord .agents onlyAgent

/-- The store of the agent has integrity, and its only row is the agent. -/
theorem Store.integral_agentOnly : agentOnly.Integral ∧ ∀ t record, record ∈ agentOnly.rows t ↔
    t = .agents ∧ record = onlyAgent := by
  have hid : onlyAgent.id = nextId (blank.rows .agents) := by rw [rows_blank]; rfl
  have hparents : ∀ q, q ∉ project.parentsOf .agents := by decide
  refine ⟨integral_blank.withRecord hid (fun q hq => absurd hq (hparents q))
    fun q hq => absurd hq (hparents q), fun t record => ?_⟩
  rw [agentOnly, integral_blank.mem_rows_withRecord hid, rows_blank]
  simp

/-- A source whose second production reads. The others do not, and the last one has no name. -/
def mixedSource : String :=
  "sp \x7bbad (state <s> ^a --> \x7d # stops\nsp \x7bgood (<s> ^size 3)-->(<s> ^done yes)\x7d sp\x7b\x7d"

/-- The productions of that source. -/
def mixedTexts : List String :=
  ["sp \x7bbad (state <s> ^a --> \x7d", "sp \x7bgood (<s> ^size 3)-->(<s> ^done yes)\x7d", "sp\x7b\x7d"]

/-- The rule of the production that reads is among those of the others. -/
theorem importRules_isolates_mixed :
    mixedTexts.map (fun text => (parseProduction text).toOption.isSome) = [false, true, false] ∧
    (mixedTexts.zipIdx 1).map (fun entry => importedName entry.1 entry.2) = ["bad", "good", "rule-3"] ∧
    ∃ rules agent' s' st', (importRules (Row.ofId .agents 1).view mixedSource).run.run
        { registry := project, connection := .memory Store.agentOnly } = (.ok (rules, agent'), s') ∧
      agent'.row = .ofId .agents 1 ∧ s'.Opens true st' ∧
      Store.agentOnly.Extends st' (.ofId .agents 1) (rules.map (·.row)) ∧
      (∀ rule ∈ rules, ¬ Store.agentOnly.Has rule.row) ∧
      (∀ q, st'.Has q → Store.agentOnly.Has q ∨
        ∃ rule ∈ rules, Relation.ReflTransGen st'.IsParent rule.row q) ∧
      List.Forall₂ (fun rule entry => st'.Imports rule.row (importedName entry.1 entry.2) entry.1 ∧
        ∀ p, parseProduction entry.1 = .ok p → AreKept p.constants →
          st'.StoresBelow rule.row p.parts ∧ st'.readRule rule.row = some (p.conditions, p.actions))
        rules (mixedTexts.zipIdx 1) := by
  obtain ⟨hagent, hrows⟩ := Store.integral_agentOnly
  -- The source is cut and measured by evaluation; the import comes from the theorem.
  have hsplit : splitProductions mixedSource = .ok mixedTexts := by decide +kernel
  have htexts : ∀ text ∈ mixedTexts, Importable text := by decide +kernel
  have hsize : importSize mixedTexts < 100 := by decide +kernel
  have hid : ∀ t, ∀ record ∈ Store.agentOnly.rows t, record.id = 1 := by
    intro t record hrecord
    obtain ⟨-, rfl⟩ := (hrows t record).mp hrecord
    rfl
  have hroom : Store.agentOnly.Room (importSize mixedTexts) := by
    have hmax : maxInteger = 0x7fffffffffffffff := rfl
    refine ⟨fun t record hrecord => ?_, by omega, fun t record hrecord => ?_⟩
    · rw [hid t record hrecord]
      decide
    · have := hid t record hrecord
      omega
  have hopen : ({ registry := project, connection := .memory Store.agentOnly } : Session).Opens true
      Store.agentOnly := ⟨rfl, rfl, rfl⟩
  have hhas : Store.agentOnly.Has (Row.ofId .agents 1).view.row :=
    Store.has_ofId_of_mem ((hrows _ Store.onlyAgent).mpr ⟨rfl, rfl⟩)
  exact ⟨by decide +kernel, by decide +kernel,
    importRules_isolates hopen hagent hhas rfl hsplit htexts hroom⟩

end SoarProject
