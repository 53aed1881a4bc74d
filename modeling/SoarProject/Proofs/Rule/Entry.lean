import SoarProject.Proofs.Rule.Outline
import SoarProject.Proofs.Rule.Shape
import SoarProject.Proofs.Store.Insertion

/-!
# Entries that the tables keep

Every entry in the outline of a proper production fits its table: the columns exist and keep their
values as they are, and the entries below it go to child tables. Only integer constants may be too
large, and only floating-point constants may be converted.

* `Rule.Outline.Storable`: an outline that can be stored, if the integers among its constants fit.
* `Rule.Production.fitsIn_of_mem_parts`: the parts of a proper production are such outlines.
* `Rule.Outline.kept`: what is kept of an outline; all of it if its constants are kept.
-/

namespace SoarProject.Rule

open Registry

/-! ### Entries -/

/-- All columns of an entry, with its name. -/
def Entry.values (e : Entry) : List (String × Value) := e.columns ++ [("name", e.name)]

/-- An entry whose table keeps its columns, each of them given once. -/
structure Entry.Accepted (e : Entry) : Prop where
  keeps : e.table.Keeps e.values
  attributes : ∀ v ∈ e.values, IsAttribute v.1
  distinct : (e.values.map (·.1)).Nodup

/-- An accepted entry, or that of a constant with a value of its kind. The value may be an integer
that is too large, or a floating-point number that is converted. -/
inductive Entry.Admitted : PartKind → Entry → Prop
  | accepted {kind : PartKind} {e : Entry} (hkind : kind ≠ .constant) (he : e.Accepted) :
    Admitted kind e
  | constant (type : ColumnType) {s column : String} {n : Int} {v : Value} (hn : 0 ≤ n ∧ n < 3)
    (hcolumn : (column, type) ∈ Table.constants.columns) (hne : column ≠ "constant_type")
    (hv : (StoredType.ofColumnType type).Matches v) :
    Admitted .constant (remarked .constants s [("constant_type", .int n), (column, v)])

/-- The table of the first entry of an outline. -/
def Outline.table? : Outline → Option Table
  | .entry _ e _ => some e.table
  | .faulty .. | .foreign _ => none

/-- An outline whose entries are admitted, each below one of a table that it can be a child of. -/
inductive Outline.Storable : Outline → Prop
  | entry {kind : PartKind} {e : Entry} {children : List Outline} (he : e.Admitted kind)
      (htables : ∀ o ∈ children, ∃ t ∈ project.childrenOf e.table, o.table? = some t)
      (hchildren : ∀ o ∈ children, Outline.Storable o) : Outline.Storable (.entry kind e children)

/-- A storable outline whose first entry belongs to the table `t`. -/
def Outline.FitsIn (t : Table) (o : Outline) : Prop := o.table? = some t ∧ o.Storable

/-- An outline is storable if its first entry is accepted and the others fit in child tables. -/
theorem Outline.fitsIn_entry {kind : PartKind} {e : Entry} {children : List Outline} {t : Table}
    (ht : e.table = t) (hkind : kind ≠ .constant) (he : e.Accepted)
    (hchildren : ∀ o ∈ children, ∃ u ∈ project.childrenOf t, o.FitsIn u) :
    (Outline.entry kind e children).FitsIn t := by
  subst ht
  refine ⟨rfl, .entry (.accepted hkind he) (fun o ho => ?_) fun o ho => ?_⟩
  · obtain ⟨t, ht, hfits⟩ := hchildren o ho
    exact ⟨t, ht, hfits.1⟩
  · obtain ⟨t, -, hfits⟩ := hchildren o ho
    exact hfits.2

mutual

/-- The number of entries in an outline. -/
def Outline.size : Outline → Nat
  | .entry _ _ children => Outline.sizes children + 1
  | .faulty .. | .foreign _ => 0

/-- The number of entries in several outlines. -/
def Outline.sizes : List Outline → Nat
  | [] => 0
  | o :: rest => o.size + Outline.sizes rest

end

/-! ### Constants -/

mutual

/-- What the entries of constants hold, each time the code of the kind and the value. -/
def Outline.constants : Outline → List Value
  | .entry kind e children =>
    (if kind = .constant then e.columns.map (·.2) else []) ++ Outline.allConstants children
  | .faulty .. | .foreign _ => []

/-- What the entries of constants hold in several outlines. -/
def Outline.allConstants : List Outline → List Value
  | [] => []
  | o :: rest => o.constants ++ Outline.allConstants rest

end

/-- What is stored for the constants of a production. -/
def Production.constants (p : Production) : List Value := Outline.allConstants p.parts

/-- Integers can be stored. -/
def IntegersFit (values : List Value) : Prop := ∀ n, .int n ∈ values → fitsInteger n = true

/-- Integers fit, and the column for floating-point constants keeps the others as they are. -/
def AreKept (values : List Value) : Prop :=
  (∀ n, .int n ∈ values → fitsInteger n = true) ∧
    ∀ x, .float x ∈ values → StoredType.float.Keeps (.float x)

/-- Whether a value is an integer that fits, or no number. -/
def isExact : Value → Bool
  | .int n => fitsInteger n
  | .float _ => false
  | _ => true

/-- Values without floating-point numbers are kept if the integers fit. -/
theorem areKept_of_isExact {values : List Value} (h : values.all isExact = true) :
    AreKept values := by
  rw [List.all_eq_true] at h
  exact ⟨fun n hn => h _ hn, fun x hx => absurd (h _ hx) Bool.false_ne_true⟩

theorem AreKept.of_subset {values others : List Value} (h : AreKept values)
    (hsubset : others ⊆ values) :
    AreKept others :=
  ⟨fun n hn => h.1 n (hsubset hn), fun x hx => h.2 x (hsubset hx)⟩

/-- The constants of one of some outlines are among those of all. -/
theorem Outline.constants_subset {os : List Outline} {o : Outline} (ho : o ∈ os) :
    o.constants ⊆ Outline.allConstants os := by
  induction os with
  | nil => exact absurd ho List.not_mem_nil
  | cons first rest ih =>
    rw [Outline.allConstants]
    rcases List.mem_cons.mp ho with rfl | ho
    · exact List.subset_append_left _ _
    · exact List.Subset.trans (ih ho) (List.subset_append_right _ _)

/-- The constants below an entry are among those of its outline. -/
theorem Outline.allConstants_subset (kind : PartKind) (e : Entry) (children : List Outline) :
    Outline.allConstants children ⊆ (Outline.entry kind e children).constants := by
  rw [Outline.constants]
  exact List.subset_append_right _ _

/-! ### Accepted entries -/

/-- A column of integers keeps flags. -/
theorem keeps_flag {b : Bool} : StoredType.integer.Keeps (.flag b) := by
  cases b <;> exact StoredType.keeps_int (by decide)

/-- A column of integers keeps codes that have a sign. -/
theorem IsCodeOf.keeps {signs : List String} {code : Int} (h : IsCodeOf signs code)
    (hsigns : signs.length ≤ 9) : StoredType.integer.Keeps (.int code) := by
  refine StoredType.keeps_int ?_
  obtain ⟨hlower, hupper⟩ := h
  have hmin : minInteger ≤ code := Int.le_trans (by decide) hlower
  have hnine : code ≤ 9 := by omega
  have hmax : code ≤ maxInteger := Int.le_trans hnine (by decide)
  simp [fitsInteger, hmin, hmax]

/-- A code has its sign. -/
theorem IsCodeOf.exists_sign {signs : List String} {code : Int} (h : IsCodeOf signs code) :
    ∃ sign, Entry.signOf signs (.int code) = .ok sign := by
  have hlt : code.toNat < signs.length := by
    obtain ⟨hlower, hupper⟩ := h
    omega
  refine ⟨signs[code.toNat], ?_⟩
  simp [Entry.signOf, Value.toIndex?, atIndex?, h.1, List.getElem?_eq_getElem hlt]

namespace Entry

/-- An entry is accepted if its columns are fixed for its table and keep their values. -/
theorem accepted_of {e : Entry} (hname : ∃ s, e.name = .text s)
    (hcolumns : ∀ v ∈ e.columns, ∃ type, (v.1, type) ∈ e.table.columns ∧
      (StoredType.ofColumnType type).Keeps v.2)
    (hdistinct : (e.columns.map (·.1)).Nodup) : e.Accepted := by
  obtain ⟨s, hs⟩ := hname
  -- The columns of the entry and its name are values of different columns.
  refine ⟨fun v hv => ?_, fun v hv => ?_, ?_⟩
  · rcases List.mem_append.mp hv with hv | hv
    · obtain ⟨type, htype, hkeeps⟩ := hcolumns v hv
      exact ⟨_, columnType?_of_mem_columns htype, hkeeps⟩
    · rw [List.mem_singleton.mp hv, hs]
      exact ⟨_, columnType?_name _, StoredType.keeps_text.2⟩
  · rcases List.mem_append.mp hv with hv | hv
    · obtain ⟨type, htype, -⟩ := hcolumns v hv
      exact (isAttribute_of_mem_columns htype).1
    · exact isAttribute_of_mem_name v hv
  · rw [values, List.map_append, List.nodup_append]
    refine ⟨hdistinct, by simp, ?_⟩
    rintro name hname other hother rfl
    obtain ⟨v, hv, rfl⟩ := List.mem_map.mp hname
    obtain ⟨type, htype, -⟩ := hcolumns v hv
    rw [List.map_singleton, List.mem_singleton] at hother
    exact (isAttribute_of_mem_columns htype).2 hother

/-- An entry without columns is accepted. -/
theorem accepted_plain (t : Table) : (plain t).Accepted :=
  accepted_of ⟨_, rfl⟩ (by simp [plain]) (by simp [plain])

/-- An entry with one flag is accepted. -/
theorem accepted_flagged {t : Table} {column : String} (h : (column, .integer) ∈ t.columns)
    (b : Bool) (s : String) : (flagged t column b s).Accepted := by
  refine accepted_of ⟨_, rfl⟩ (fun v hv => ?_) (List.nodup_singleton _)
  rw [List.mem_singleton.mp hv]
  exact ⟨_, h, keeps_flag⟩

/-- An entry with one column is accepted if the column keeps its value. -/
theorem accepted_remarked_singleton {t : Table} {column : String} (type : ColumnType) {v : Value}
    (h : (column, type) ∈ t.columns) (hkeeps : (StoredType.ofColumnType type).Keeps v)
    (s : String) :
    (remarked t s [(column, v)]).Accepted := by
  refine accepted_of ⟨_, rfl⟩ (fun x hx => ?_) (List.nodup_singleton _)
  rw [List.mem_singleton.mp hx]
  exact ⟨_, h, hkeeps⟩

/-- An entry with two columns is accepted if both keep their values. -/
theorem accepted_pair {t : Table} {s c d : String} {v w : Value} (type type' : ColumnType)
    (hne : c ≠ d) (hc : (c, type) ∈ t.columns) (hd : (d, type') ∈ t.columns)
    (hv : (StoredType.ofColumnType type).Keeps v) (hw : (StoredType.ofColumnType type').Keeps w) :
    Accepted ⟨t, .text s, [(c, v), (d, w)]⟩ := by
  refine accepted_of ⟨_, rfl⟩ ?_ (by simpa using hne)
  simp only [List.forall_mem_cons]
  exact ⟨⟨_, hc, hv⟩, ⟨_, hd, hw⟩, by simp⟩

end Entry

/-! ### What is kept -/

/-- What is kept of a value in the entry of a part. -/
def keptIn (kind : PartKind) (v : Value) : Value := if kind = .constant then v.kept else v

/-- An entry as its table keeps it. -/
def Entry.kept (kind : PartKind) (e : Entry) : Entry :=
  ⟨e.table, keptIn kind e.name, e.columns.map fun v => (v.1, keptIn kind v.2)⟩

/-- The columns of an entry as its table keeps them. -/
theorem Entry.values_kept {kind : PartKind} {e : Entry} :
    (e.kept kind).values = e.values.map fun v => (v.1, keptIn kind v.2) := by
  simp [values, kept]

/-- Only the values of constants may be converted. -/
theorem Entry.kept_eq_self {kind : PartKind} {e : Entry}
    (h : ∀ v ∈ e.values, keptIn kind v.2 = v.2) : e.kept kind = e := by
  have hcolumns : e.columns.map (fun v => (v.1, keptIn kind v.2)) = e.columns := by
    refine (List.map_congr_left fun v hv => ?_).trans (List.map_id e.columns)
    exact Prod.ext rfl (h v (List.mem_append_left _ hv))
  rw [kept, h ("name", e.name) (by simp [values]), hcolumns]

mutual

/-- An outline as the tables keep it. -/
def Outline.kept : Outline → Outline
  | .entry kind e children => .entry kind (e.kept kind) (Outline.allKept children)
  | .faulty kind failure => .faulty kind failure
  | .foreign kind => .foreign kind

/-- Several outlines as the tables keep them. -/
def Outline.allKept : List Outline → List Outline
  | [] => []
  | o :: rest => o.kept :: Outline.allKept rest

end

theorem Outline.allKept_eq_map (os : List Outline) : Outline.allKept os = os.map Outline.kept := by
  induction os with
  | nil => rfl
  | cons o rest ih => rw [allKept, ih, List.map_cons]

/-- What is kept of an outline is stored in the same table. -/
@[simp] theorem Outline.table?_kept (o : Outline) : o.kept.table? = o.table? := by
  cases o <;> rfl

/-- The table of an admitted entry takes its columns if the integers of constants fit. -/
theorem Entry.Admitted.takes {kind : PartKind} {e : Entry} {children : List Outline}
    (h : e.Admitted kind) (hfit : IntegersFit (Outline.entry kind e children).constants) :
    ∀ v ∈ e.values, ∃ type, project.columnType? e.table v.1 = some type ∧ type.Takes v.2 ∧
      type.store v.2.bound = (keptIn kind v.2).cell := by
  cases h with
  | accepted hkind he =>
    intro v hv
    obtain ⟨type, htype, hkeeps⟩ := he.keeps v hv
    refine ⟨type, htype, hkeeps.takes, ?_⟩
    rw [keptIn, if_neg hkind, ← Value.eq_bound_of_toCell (hkeeps.2.1 0), hkeeps.2.2]
  -- A constant has its type as a code, its value, and its name.
  | @constant type s column n v hn hcolumn hne hv =>
    have hvalue := hv.takes fun m hm => hfit m (by simp [Outline.constants, remarked, hm])
    have hcode : StoredType.integer.Keeps (.int n) :=
      (show IsCodeOf ["", "", ""] n from hn).keeps (by decide)
    simp only [keptIn, if_pos, values, remarked, List.cons_append, List.nil_append,
      List.forall_mem_cons]
    refine ⟨⟨_, columnType?_of_mem_columns (t := .constants) (c := ("constant_type", .integer))
        (by decide), hcode.takes, rfl⟩,
      ⟨_, columnType?_of_mem_columns hcolumn, hvalue, hv.store_bound⟩,
      ⟨_, columnType?_name _, StoredType.keeps_text.2.takes, rfl⟩, by simp⟩

/-- The table of an admitted entry prepares its columns. -/
theorem Entry.Admitted.prepares {kind : PartKind} {e : Entry} (h : e.Admitted kind) :
    e.table.Prepares e.values := by
  cases h with
  | accepted _ he => exact he.keeps.takes.prepares
  | constant type hn hcolumn hne hv =>
    simp only [Table.Prepares, values, remarked, List.cons_append, List.nil_append,
      List.forall_mem_cons]
    exact ⟨⟨_, columnType?_of_mem_columns (t := .constants) (c := ("constant_type", .integer))
        (by decide), rfl⟩,
      ⟨_, columnType?_of_mem_columns hcolumn, hv.prepare⟩, ⟨_, columnType?_name _, rfl⟩, by simp⟩

/-- The columns of an admitted entry are attributes, each of them given once. -/
theorem Entry.Admitted.attributes {kind : PartKind} {e : Entry} (h : e.Admitted kind) :
    (∀ v ∈ e.values, IsAttribute v.1) ∧ (e.values.map (·.1)).Nodup := by
  cases h with
  | accepted _ he => exact ⟨he.attributes, he.distinct⟩
  | @constant type s column n v hn hcolumn hne hv =>
    have hattribute := isAttribute_of_mem_columns hcolumn
    constructor
    · simp only [values, remarked, List.cons_append, List.nil_append, List.forall_mem_cons]
      exact ⟨by decide, hattribute.1, by decide, by simp⟩
    · simp [values, remarked, hne.symm, hattribute.2]

/-- All of an outline is kept if its constants are. -/
theorem Outline.Storable.kept_eq_self {o : Outline} (h : o.Storable) (hkept : AreKept o.constants) :
    o.kept = o := by
  induction h with
  | @entry kind e children he _ _ ih =>
    -- Only the value of a constant may be stored as another, and this one is kept.
    have hentry : e.kept kind = e := by
      refine Entry.kept_eq_self fun v hv => ?_
      cases he with
      | accepted hkind _ => rw [keptIn, if_neg hkind]
      | @constant type s column n v hn hcolumn hne hmatches =>
        rw [keptIn, if_pos rfl]
        have hkept : v.kept = v := by
          cases v with
          | float x =>
            obtain ⟨-, hcell, hstore⟩ := hkept.2 x (by simp [Outline.constants, Entry.remarked])
            rw [Value.kept, ← Value.eq_bound_of_toCell (hcell 0), hstore]
            rfl
          | _ => rfl
        simp only [Entry.values, Entry.remarked, List.cons_append, List.nil_append,
          List.mem_cons, List.not_mem_nil, or_false] at hv
        rcases hv with rfl | rfl | rfl
        · rfl
        · exact hkept
        · rfl
    -- The constants of a child are among those of the outline.
    have hchildren : children.map kept = children := by
      refine (List.map_congr_left fun o ho => ih o ho (hkept.of_subset ?_)).trans
        (List.map_id children)
      exact List.Subset.trans (constants_subset ho) (allConstants_subset kind e children)
    rw [kept, hentry, allKept_eq_map, hchildren]

theorem Outline.allKept_eq_self {os : List Outline} (h : ∀ o ∈ os, o.Storable)
    (hkept : AreKept (Outline.allConstants os)) : Outline.allKept os = os := by
  rw [allKept_eq_map]
  refine (List.map_congr_left fun o ho => ?_).trans (List.map_id os)
  exact (h o ho).kept_eq_self (hkept.of_subset (constants_subset ho))

/-! ### Left side -/

namespace Outline

theorem fits_map {α : Type} {t u : Table} {outline : α → Outline} {parts : List α}
    (hu : .parent u t ∈ Declaration.ofRules) (h : ∀ a ∈ parts, (outline a).FitsIn u) :
    ∀ o ∈ parts.map outline, ∃ u ∈ project.childrenOf t, o.FitsIn u := by
  intro o ho
  obtain ⟨a, ha, rfl⟩ := List.mem_map.mp ho
  exact ⟨u, mem_childrenOf_of_mem_ofRules hu, h a ha⟩

theorem fits_singleton {t u : Table} {o : Outline} (hu : .parent u t ∈ Declaration.ofRules)
    (h : o.FitsIn u) : ∀ o' ∈ [o], ∃ u ∈ project.childrenOf t, o'.FitsIn u := by
  intro o' ho'
  rw [List.mem_singleton.mp ho']
  exact ⟨u, mem_childrenOf_of_mem_ofRules hu, h⟩

theorem fits_append {t : Table} {os os' : List Outline}
    (h : ∀ o ∈ os, ∃ u ∈ project.childrenOf t, o.FitsIn u)
    (h' : ∀ o ∈ os', ∃ u ∈ project.childrenOf t, o.FitsIn u) :
    ∀ o ∈ os ++ os', ∃ u ∈ project.childrenOf t, o.FitsIn u :=
  fun o ho => (List.mem_append.mp ho).elim (h o) (h' o)

end Outline

open Outline (fitsIn_entry fits_map fits_singleton fits_append)

/-- A constant. -/
theorem Constant.fitsIn_outline {c : Constant} (h : c.Proper) : c.outline.FitsIn .constants := by
  rcases h with ⟨n, rfl⟩ | ⟨x, rfl⟩ | ⟨s, rfl⟩
  · exact ⟨rfl, .entry (.constant .integer (n := 0) (by decide) (by decide) (by decide) trivial)
      (by simp) (by simp)⟩
  · exact ⟨rfl, .entry (.constant .float (n := 1) (by decide) (by decide) (by decide) trivial)
      (by simp) (by simp)⟩
  · exact ⟨rfl, .entry (.constant .string (n := 2) (by decide) (by decide) (by decide) trivial)
      (by simp) (by simp)⟩

/-- A test for a variable or a constant. -/
theorem SingleTest.fitsIn_outline {t : SingleTest} (h : t.Proper) :
    t.outline.FitsIn .singleTests := by
  obtain ⟨_ | v, _ | c⟩ := t
  · exact h.elim
  · exact fitsIn_entry rfl (by decide) (Entry.accepted_remarked_singleton .integer (by decide)
      (StoredType.keeps_int (by decide)) _)
      (fits_singleton (by simp [Declaration.ofRules]) (c.fitsIn_outline h))
  · exact fitsIn_entry rfl (by decide) (Entry.accepted_pair .integer .string (by decide)
      (by decide) (by decide) (StoredType.keeps_int (by decide)) StoredType.keeps_text.1) (by simp)
  · exact h.elim

/-- A comparison is stored with its code. -/
theorem Entry.exists_relationalTest {code : Int} (h : IsCodeOf relationSigns code) :
    ∃ e, Entry.relationalTest (.int code) = .ok e ∧ e.table = .relationalTests ∧
      e.columns = [("relation", .int code)] ∧ e.Accepted := by
  obtain ⟨sign, hsign⟩ := h.exists_sign
  refine ⟨remarked .relationalTests sign [("relation", .int code)], ?_, rfl, rfl, ?_⟩
  · rw [relationalTest, hsign]
    rfl
  · exact accepted_remarked_singleton .integer (by decide) (h.keeps (by decide)) sign

/-- A comparison. -/
theorem RelationalTest.fitsIn_outline {t : RelationalTest} (h : t.Proper) :
    t.outline.FitsIn .relationalTests := by
  obtain ⟨e, he, htable, -, haccepted⟩ := Entry.exists_relationalTest h.1
  rw [outline, he]
  exact fitsIn_entry htable (by decide) haccepted (fits_singleton (by simp [Declaration.ofRules])
    (t.single.fitsIn_outline h.2))

/-- A choice between constants. -/
theorem DisjunctionTest.fitsIn_outline {t : DisjunctionTest} (h : t.Proper) :
    t.outline.FitsIn .disjunctionTests :=
  fitsIn_entry rfl (by decide) (Entry.accepted_plain _)
    (fits_map (by simp [Declaration.ofRules]) fun c hc => c.fitsIn_outline (h c hc))

/-- A choice or a comparison. -/
theorem SimpleTest.fitsIn_outline {t : SimpleTest} (h : t.Proper) :
    t.outline.FitsIn .simpleTests := by
  refine fitsIn_entry rfl (by decide) (Entry.accepted_remarked_singleton .integer (by decide)
    keeps_flag _) ?_
  obtain ⟨_ | d, _ | r⟩ := t
  · exact h.elim
  · exact fits_singleton (by simp [Declaration.ofRules]) (r.fitsIn_outline h)
  · exact fits_singleton (by simp [Declaration.ofRules]) (d.fitsIn_outline h)
  · exact h.elim

/-- Several tests together. -/
theorem ConjunctiveTest.fitsIn_outline {t : ConjunctiveTest} (h : t.Proper) :
    t.outline.FitsIn .conjunctiveTests :=
  fitsIn_entry rfl (by decide) (Entry.accepted_plain _)
    (fits_map (by simp [Declaration.ofRules]) fun s hs => s.fitsIn_outline (h s hs))

/-- One simple test or several together. -/
theorem Test.fitsIn_outline {t : Test} (h : t.Proper) :
    t.outline.FitsIn .tests := by
  refine fitsIn_entry rfl (by decide) (Entry.accepted_remarked_singleton .integer (by decide)
    keeps_flag _) ?_
  obtain ⟨_ | c, _ | s⟩ := t
  · exact h.elim
  · exact fits_singleton (by simp [Declaration.ofRules]) (s.fitsIn_outline h)
  · exact fits_singleton (by simp [Declaration.ofRules]) (c.fitsIn_outline h)
  · exact h.elim

/-- One step of an attribute path. -/
theorem AttributeTest.fitsIn_outline {t : AttributeTest} (h : t.Proper) :
    t.outline.FitsIn .attributeTests :=
  fitsIn_entry rfl (by decide) (Entry.accepted_plain _)
    (fits_singleton (by simp [Declaration.ofRules]) (t.test.fitsIn_outline h))

/-- The test of a value. -/
theorem ValueTest.fitsIn_outline {t : ValueTest} (h : t.Proper) : t.outline.FitsIn .valueTests :=
  fitsIn_entry rfl (by decide) (Entry.accepted_flagged (by decide) _ _)
    (fits_singleton (by simp [Declaration.ofRules]) (t.test.fitsIn_outline h))

/-- The test of an attribute path and its values. -/
theorem AttributeValueTest.fitsIn_outline {t : AttributeValueTest} (h : t.Proper) :
    t.outline.FitsIn .attributeValueTests := by
  refine fitsIn_entry rfl (by decide) (Entry.accepted_flagged (by decide) _ _) (fits_append ?_ ?_)
  · exact fits_map (by simp [Declaration.ofRules]) fun a ha => a.fitsIn_outline (h.1 a ha)
  · exact fits_map (by simp [Declaration.ofRules]) fun v hv => v.fitsIn_outline (h.2 v hv)

/-- The tests of one identifier. -/
theorem IdentifierCondition.fitsIn_outline {c : IdentifierCondition} (h : c.Proper) :
    c.outline.FitsIn .conditionForOneIdentifiers :=
  fitsIn_entry rfl (by decide) (Entry.accepted_pair .integer .string (by decide)
    (by decide) (by decide) keeps_flag
    StoredType.keeps_text.1) (fits_map (by simp [Declaration.ofRules]) fun t ht =>
      t.fitsIn_outline (h t ht))

mutual

/-- The tests of one identifier, or several conditions together. -/
theorem PositiveCondition.fitsIn_outline : ∀ {c :
    PositiveCondition}, c.Proper → c.outline.FitsIn .positiveConditions
  | ⟨none, some conditions⟩, h =>
    fitsIn_entry rfl (by decide) (Entry.accepted_flagged (by decide) _ _)
      (Condition.fits_outlines h (by simp [Declaration.ofRules]))
  | ⟨some i, none⟩, h =>
    fitsIn_entry rfl (by decide) (Entry.accepted_flagged (by decide) _ _)
      (fits_singleton (by simp [Declaration.ofRules]) (i.fitsIn_outline h))
  | ⟨some _, some _⟩, h => h.elim
  | ⟨none, none⟩, h => h.elim

/-- A condition that may be negated. -/
theorem Condition.fitsIn_outline : ∀ {c : Condition}, c.Proper →
    c.outline.FitsIn .conditions
  | ⟨_, _⟩, h =>
    fitsIn_entry rfl (by decide) (Entry.accepted_flagged (by decide) _ _)
      (fits_singleton (by simp [Declaration.ofRules]) (PositiveCondition.fitsIn_outline h))

/-- Several conditions. -/
theorem Condition.fits_outlines : ∀ {conditions : List Condition} {t : Table},
    Condition.AllProper conditions →
      .parent .conditions t ∈ Declaration.ofRules →
        ∀ o ∈ Condition.outlines conditions, ∃ u ∈ project.childrenOf t, o.FitsIn u
  | [], _, _, _ => fun _ ho => absurd ho List.not_mem_nil
  | c :: rest, t, h, ht => by
    intro o ho
    rcases List.mem_cons.mp ho with rfl | ho
    · exact ⟨_, mem_childrenOf_of_mem_ofRules ht, Condition.fitsIn_outline h.1⟩
    · exact Condition.fits_outlines h.2 ht o ho

end

/-! ### Right side -/

/-- A value on the right side that is a constant or a call. -/
theorem Entry.accepted_rhsValue_null (isConstant isCall : Bool) (hone : isConstant || isCall) :
    (Entry.rhsValue isConstant isCall .null).Accepted := by
  have hcolumns : ∀ s, (Entry.remarked .rhsValues s
      [("is_constant", .flag isConstant), ("is_function_call", .flag isCall),
        ("is_variable", .flag false)]).Accepted := by
    intro s
    -- Whatever the remark, only the three flags are stored.
    refine accepted_of ⟨_, rfl⟩ ?_ (by simp [remarked])
    simp only [remarked, List.forall_mem_cons]
    exact ⟨⟨.integer, by decide, keeps_flag⟩, ⟨.integer, by decide, keeps_flag⟩,
      ⟨.integer, by decide, keeps_flag⟩, by simp⟩
  cases isConstant with
  | true => exact hcolumns _
  | false =>
    cases isCall with
    | true => exact hcolumns _
    | false => exact absurd hone (by decide)

/-- A variable on the right side. -/
theorem Entry.accepted_rhsValue_variable (v : String) :
    (Entry.rhsValue false false (.text v)).Accepted := by
  refine accepted_of ⟨_, rfl⟩ ?_ (by simp [rhsValue, remarked])
  simp only [rhsValue, remarked, Bool.false_eq_true, if_false, List.cons_append, List.nil_append,
    List.forall_mem_cons]
  exact ⟨⟨.integer, by decide, keeps_flag⟩, ⟨.integer, by decide, keeps_flag⟩,
    ⟨.integer, by decide, keeps_flag⟩, ⟨.string, by decide, StoredType.keeps_text.1⟩, by simp⟩

mutual

/-- A value on the right side. -/
theorem RhsValue.fitsIn_outline : ∀ {v : RhsValue}, v.Proper →
    v.outline.FitsIn .rhsValues
  | ⟨some c, none, none⟩, h =>
    fitsIn_entry rfl (by decide) (Entry.accepted_rhsValue_null true false rfl)
      (fits_singleton (by simp [Declaration.ofRules]) (c.fitsIn_outline h))
  | ⟨none, some call, none⟩, h =>
    fitsIn_entry rfl (by decide) (Entry.accepted_rhsValue_null false true rfl)
      (fits_singleton (by simp [Declaration.ofRules]) (FunctionCall.fitsIn_outline h))
  | ⟨none, none, some v⟩, _ =>
    fitsIn_entry rfl (by decide) (Entry.accepted_rhsValue_variable v) (by simp)
  | ⟨some _, some _, _⟩, h => h.elim
  | ⟨some _, none, some _⟩, h => h.elim
  | ⟨none, some _, some _⟩, h => h.elim
  | ⟨none, none, none⟩, h => h.elim

/-- A function call with its arguments. -/
theorem FunctionCall.fitsIn_outline : ∀ {c :
    FunctionCall}, c.Proper → c.outline.FitsIn .functionCalls
  | ⟨_, _⟩, h =>
    fitsIn_entry rfl (by decide) (Entry.accepted_remarked_singleton .string (by decide)
      StoredType.keeps_text.1 _) (RhsValue.fits_outlines h (by simp [Declaration.ofRules]))

/-- Several values. -/
theorem RhsValue.fits_outlines : ∀ {values : List RhsValue} {t : Table},
    RhsValue.AllProper values →
      .parent .rhsValues t ∈ Declaration.ofRules →
        ∀ o ∈ RhsValue.outlines values, ∃ u ∈ project.childrenOf t, o.FitsIn u
  | [], _, _, _ => fun _ ho => absurd ho List.not_mem_nil
  | v :: rest, t, h, ht => by
    intro o ho
    rcases List.mem_cons.mp ho with rfl | ho
    · exact ⟨_, mem_childrenOf_of_mem_ofRules ht, RhsValue.fitsIn_outline h.1⟩
    · exact RhsValue.fits_outlines h.2 ht o ho

end

namespace Entry

/-- A preference is stored in its table. -/
theorem exists_preference {t : Table} {code : Int} (h : IsCodeOf preferenceSigns code)
    (ht : ("preference_specifier_type", .integer) ∈ t.columns) :
    ∃ e, preference t (.int code) = .ok e ∧ e.table = t ∧
      e.columns = [("preference_specifier_type", .int code)] ∧ e.Accepted := by
  obtain ⟨sign, hsign⟩ := h.exists_sign
  refine ⟨remarked t sign [("preference_specifier_type", .int code)], ?_, rfl, rfl, ?_⟩
  · rw [preference, hsign]
    rfl
  · exact accepted_remarked_singleton .integer ht (h.keeps (by decide)) sign

/-- The preference of a value is stored with its code and whether it has a referent. -/
theorem exists_preferenceSpecifier {code : Int} (h : IsCodeOf preferenceSigns code)
    (isUnary : Bool) :
    ∃ e, preferenceSpecifier isUnary (.int code) = .ok e ∧ e.table = .preferenceSpecifiers ∧
      e.columns = [("is_unary_preference", .flag isUnary), ("preference_specifier_type", .int code)] ∧
      e.Accepted := by
  obtain ⟨sign, hsign⟩ := h.exists_sign
  have hmade : preferenceSpecifier isUnary (.int code) = .ok ⟨.preferenceSpecifiers,
      .text (Table.preferenceSpecifiers.shortName ++ (if isUnary then remark "unary preference" else "") ++
        remark ("preference: " ++ sign)),
      [("is_unary_preference", .flag isUnary), ("preference_specifier_type", .int code)]⟩ := by
    rw [preferenceSpecifier, hsign]
    rfl
  exact ⟨_, hmade, rfl, rfl, accepted_pair .integer .integer (by decide) (by decide) (by decide)
    keeps_flag (h.keeps (by decide))⟩

end Entry

/-- A preference without a referent. -/
theorem fitsIn_ofEntry_preference {kind : PartKind} (hkind : kind ≠ .constant) {t : Table} {code :
    Int}
    (h : IsCodeOf preferenceSigns code) (ht : ("preference_specifier_type", .integer) ∈ t.columns) :
    (Outline.ofEntry kind (Entry.preference t (.int code)) []).FitsIn t := by
  obtain ⟨e, he, htable, -, haccepted⟩ := Entry.exists_preference h ht
  rw [he]
  exact fitsIn_entry htable hkind haccepted (by simp)

/-- A preference with its referent. -/
theorem BinaryPreference.fitsIn_outline {b : BinaryPreference} (h : IsCodeOf preferenceSigns b.kind)
    (hreferent : b.referent.Proper) :
    b.outline.FitsIn .binaryPreferences := by
  obtain ⟨e, he, htable, -, haccepted⟩ :=
    Entry.exists_preference h (t := .binaryPreferences) (by decide)
  rw [outline, he]
  exact fitsIn_entry htable (by decide) haccepted (fits_singleton (by simp [Declaration.ofRules])
    (b.referent.fitsIn_outline hreferent))

/-- The code of a proper preference has a sign. -/
theorem PreferenceSpecifier.Proper.isCodeOf {p : PreferenceSpecifier} (h : p.Proper) :
    IsCodeOf preferenceSigns p.kind := by
  obtain ⟨code, _ | n, _ | f, _ | b⟩ := p <;> first | exact h.1 | exact h.elim

/-- The preference of a value with what it consists of. -/
theorem PreferenceSpecifier.fitsIn_outline {p : PreferenceSpecifier} (h : p.Proper) :
    p.outline.FitsIn .preferenceSpecifiers := by
  obtain ⟨e, he, htable, -, haccepted⟩ :=
    Entry.exists_preferenceSpecifier h.isCodeOf p.binary.isNone
  rw [outline, he]
  refine fitsIn_entry htable (by decide) haccepted ?_
  -- Exactly one of the three parts is there in a proper specifier.
  obtain ⟨code, _ | n, _ | f, _ | b⟩ := p
  · exact h.elim
  · exact fits_singleton (by simp [Declaration.ofRules]) (b.fitsIn_outline h.2.1 h.2.2)
  · exact fits_singleton (by simp [Declaration.ofRules])
      (fitsIn_ofEntry_preference (by decide) h.2 (by decide))
  · exact h.elim
  · exact fits_singleton (by simp [Declaration.ofRules])
      (fitsIn_ofEntry_preference (by decide) h.2 (by decide))
  · exact h.elim
  · exact h.elim
  · exact h.elim

/-- A value with its preferences. -/
theorem ValueMake.fitsIn_outline {m : ValueMake} (h : m.Proper) : m.outline.FitsIn .valueMakes := by
  have hvalue := fits_singleton (t := .valueMakes) (by simp [Declaration.ofRules])
    (m.value.fitsIn_outline h.1)
  refine fitsIn_entry rfl (by decide) (Entry.accepted_plain _) (fits_append hvalue ?_)
  exact fits_map (by simp [Declaration.ofRules]) fun p hp => p.fitsIn_outline (h.2 p hp)

/-- The values that an attribute path gets. -/
theorem AttributeMake.fitsIn_outline {m : AttributeMake} (h : m.Proper) :
    m.outline.FitsIn .attributeValueMakes := by
  refine fitsIn_entry rfl (by decide) (Entry.accepted_plain _) (fits_append ?_ ?_)
  · exact fits_map (by simp [Declaration.ofRules]) fun v hv => v.fitsIn_outline (h.1 v hv)
  · exact fits_map (by simp [Declaration.ofRules]) fun v hv => v.fitsIn_outline (h.2 v hv)

/-- The attributes that an identifier gets. -/
theorem VariableMake.fitsIn_outline {m : VariableMake} (h : m.Proper) :
    m.outline.FitsIn .varAttrValMakes :=
  fitsIn_entry rfl (by decide) (Entry.accepted_remarked_singleton .string (by decide)
    StoredType.keeps_text.1 _) (fits_map (by simp [Declaration.ofRules]) fun a ha =>
      a.fitsIn_outline (h a ha))

/-- New attribute values, or a function call. -/
theorem Action.fitsIn_outline {a : Action} (h : a.Proper) :
    a.outline.FitsIn .actions := by
  refine fitsIn_entry rfl (by decide) (Entry.accepted_remarked_singleton .integer (by decide)
    keeps_flag _) ?_
  obtain ⟨_ | m, _ | call⟩ := a
  · exact h.elim
  · exact fits_singleton (by simp [Declaration.ofRules]) (call.fitsIn_outline h)
  · exact fits_singleton (by simp [Declaration.ofRules]) (m.fitsIn_outline h)
  · exact h.elim

/-- The parts of a proper production fit below a rule. -/
theorem Production.fitsIn_of_mem_parts {p : Production} (h : p.Proper) :
    ∀ o ∈ p.parts, ∃ t ∈ project.childrenOf .rules, o.FitsIn t := by
  refine fits_append ?_ ?_
  · exact fits_map (by simp [Declaration.ofRules]) fun c hc => Condition.fitsIn_outline (h.1 c hc)
  · exact fits_map (by simp [Declaration.ofRules]) fun a ha => a.fitsIn_outline (h.2 a ha)

end SoarProject.Rule
