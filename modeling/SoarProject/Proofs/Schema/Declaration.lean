import Mathlib.Data.Sym.Sym2
import SoarProject.Failure
import SoarProject.Proofs.Schema.Registry

/-!
# What a registry says about its declarations

The answers of a registry, read off the list of declarations that made it, with repetitions and in any
order. A join is kept under the table that was declared first, and the answers about joins make up for
that: they agree with each other whichever of the two tables is asked about.

* `Registry.Reflects`: what the answers of a registry say about the declarations.
* `Registry.reflects_ofDeclarations`: every list of declarations makes a registry that reflects it.
* `RegistryBuilder.answerAll_declarations`: the first call that builds a registry hands out the one of the
  declarations before it; all later calls are refused.
-/

namespace SoarProject

/-! ### Declarations -/

namespace Declaration

/-- The order in which a declaration joins two tables, which are given without an order. -/
def joinOf? (pair : Sym2 Table) : Declaration → Option (Table × Table)
  | .join first second => if s(first, second) = pair then some (first, second) else none
  | _ => none

variable {d : Declaration} {a b : Table}

/-- A declaration joins two tables in either order. -/
theorem isSome_joinOf?_iff : (d.joinOf? s(a, b)).isSome ↔ d = .join a b ∨ d = .join b a := by
  cases d <;> simp [joinOf?, Option.isSome_iff_exists]

end Declaration

namespace Registry

variable {r : Registry} {ds : List Declaration} {a b p c t : Table}

/-! ### Undirected joins -/

/-- Joined tables have an order. -/
theorem areJoined_iff : r.areJoined a b = true ↔ b ∈ r.joins.get a ∨ a ∈ r.joins.get b := by
  unfold areJoined orderJoined?
  split_ifs <;> simp [*]

/-- Tables without a join have no order. -/
theorem orderJoined?_eq_none_iff :
    r.orderJoined? a b = none ↔ b ∉ r.joins.get a ∧ a ∉ r.joins.get b := by
  rw [← not_or, ← areJoined_iff, areJoined, Option.not_isSome_iff_eq_none]

/-- A declaration orders two tables that had no order before. -/
theorem orderJoined?_declare (r : Registry) (d : Declaration) (a b : Table) :
    (r.declare d).orderJoined? a b = (r.orderJoined? a b).or (d.joinOf? s(a, b)) := by
  cases d with
  | join first second =>
    have hpair : s(first, second) = s(a, b) ↔ first = a ∧ second = b ∨ first = b ∧ second = a :=
      Sym2.eq_iff
    rw [Declaration.joinOf?, declare]
    split_ifs with hold hp hp
    · -- The pair is declared already, and keeps its order.
      have hjoined : (r.orderJoined? a b).isSome := by
        rw [← areJoined, areJoined_iff]
        rcases hpair.mp hp with ⟨rfl, rfl⟩ | ⟨rfl, rfl⟩
        · exact hold
        · exact hold.symm
      rw [Option.or_of_isSome hjoined]
    · exact Option.or_none.symm
    · -- The pair is new, and gets the order of this declaration.
      have hnone : r.orderJoined? a b = none := by
        rw [orderJoined?_eq_none_iff, ← not_or]
        rcases hpair.mp hp with ⟨rfl, rfl⟩ | ⟨rfl, rfl⟩
        · exact hold
        · exact mt Or.symm hold
      rw [hnone, Option.none_or, orderJoined?]
      simp only [Index.mem_get_add]
      rw [orderJoined?_eq_none_iff] at hnone
      rcases hpair.mp hp with ⟨rfl, rfl⟩ | ⟨rfl, rfl⟩ <;> grind
    · -- Another pair is new.
      rw [Option.or_none, orderJoined?, orderJoined?]
      simp only [Index.mem_get_add]
      grind
  | _ => exact Option.or_none.symm

/-- Two tables have the order of the first declaration that joins them. -/
theorem orderJoined?_ofDeclarations (ds : List Declaration) (a b : Table) :
    (ofDeclarations ds).orderJoined? a b = ds.findSome? (·.joinOf? s(a, b)) := by
  induction ds using List.reverseRecOn with
  | nil => rfl
  | append_singleton ds d ih =>
    rw [ofDeclarations_concat, orderJoined?_declare, ih, List.findSome?_append, List.findSome?_singleton]

/-- Two tables are joined just if they are declared to be, in either order. -/
theorem areJoined_ofDeclarations_iff (ds : List Declaration) (a b : Table) :
    (ofDeclarations ds).areJoined a b = true ↔ .join a b ∈ ds ∨ .join b a ∈ ds := by
  rw [areJoined, orderJoined?_ofDeclarations, List.findSome?_isSome_iff]
  simp only [Declaration.isSome_joinOf?_iff]
  grind

namespace Coherent

/-- Tables are partners just if they are joined. -/
theorem mem_joinPartnersOf_iff_areJoined (h : r.Coherent) :
    b ∈ r.joinPartnersOf a ↔ r.areJoined a b = true := by
  rw [h.mem_joinPartnersOf_iff, areJoined_iff]
  by_cases heq : b = a
  · simp [heq]
  · simp [heq]

/-- Tables that are appended to partners without repetition repeat none. -/
theorem nodup_foldl_append {values partners : List Table} (h : partners.Nodup) :
    (values.foldl (fun ps v => if v ∈ ps then ps else ps ++ [v]) partners).Nodup := by
  induction values generalizing partners with
  | nil => exact h
  | cons v rest ih =>
    rw [List.foldl_cons]
    split
    · exact ih h
    · next hv => exact ih (by simpa using h.concat hv)

/-- A group adds partners without repetition. -/
theorem nodup_addPartners {partners : List Table} (h : partners.Nodup) (g : Table × List Table) :
    (addPartners t partners g).Nodup := by
  unfold addPartners
  split_ifs with hkey hnew
  · exact nodup_foldl_append h
  · simpa using h.concat hnew.2
  · exact h

/-- No table is listed twice among the partners of a table. -/
theorem nodup_joinPartnersOf (r : Registry) (t : Table) : (r.joinPartnersOf t).Nodup := by
  have hrun : ∀ (groups : List (Table × List Table)) (partners : List Table), partners.Nodup →
      (groups.foldl (addPartners t) partners).Nodup := by
    intro groups
    induction groups with
    | nil => exact fun _ h => h
    | cons g rest ih => exact fun partners h => ih _ (nodup_addPartners h g)
  exact hrun r.joins.groups [] List.nodup_nil

/-- A pair is listed in the order of its tables. -/
theorem mem_joinedPairs_iff (h : r.Coherent) :
    (a, b) ∈ r.joinedPairs ↔ r.orderJoined? a b = some (a, b) := by
  rw [joinedPairs, h.joins.mem_pairs_iff]
  refine ⟨fun hb => (h.orderJoined?_of_mem hb).1, fun ho => (mem_of_orderJoined? ho).1⟩

/-- No pair of tables is listed twice, not even in the other order. -/
theorem nodup_joinedPairs (h : r.Coherent) : (r.joinedPairs.map fun q => s(q.1, q.2)).Nodup := by
  refine List.Nodup.map_on ?_ h.joins.nodup_pairs
  rintro ⟨a, b⟩ hab ⟨c, d⟩ hcd heq
  rw [joinedPairs, h.joins.mem_pairs_iff] at hab hcd
  rcases Sym2.eq_iff.mp heq with ⟨rfl, rfl⟩ | ⟨rfl, rfl⟩
  · rfl
  · rw [h.joins_antisymm a b hab hcd]

/-- The pairs that are listed are those of joined tables. -/
theorem mem_map_joinedPairs_iff (h : r.Coherent) :
    s(a, b) ∈ r.joinedPairs.map (fun q => s(q.1, q.2)) ↔ r.areJoined a b = true := by
  rw [areJoined_iff, List.mem_map]
  constructor
  · rintro ⟨⟨c, d⟩, hcd, heq⟩
    rw [joinedPairs, h.joins.mem_pairs_iff] at hcd
    rcases Sym2.eq_iff.mp heq with ⟨rfl, rfl⟩ | ⟨rfl, rfl⟩
    · exact .inl hcd
    · exact .inr hcd
  · rintro (hb | ha)
    · exact ⟨(a, b), h.joins.mem_pairs_iff.mpr hb, rfl⟩
    · exact ⟨(b, a), h.joins.mem_pairs_iff.mpr ha, Sym2.eq_swap⟩

end Coherent

/-! ### Directed joins -/

/-- A declaration puts at most one more table below another one by a directed join. -/
theorem mem_directedChildrenOf_ofDeclarations_iff (ds : List Declaration) (p c : Table) :
    c ∈ (ofDeclarations ds).directedChildrenOf p ↔ .directedJoin p c ∈ ds := by
  induction ds using List.reverseRecOn with
  | nil => simp [ofDeclarations, directedChildrenOf, Index.get, Index.empty]
  | append_singleton ds d ih =>
    -- Only a directed join adds a child, and it does not matter whether it was declared before.
    have hstep : c ∈ ((ofDeclarations ds).declare d).directedChildrenOf p ↔
        c ∈ (ofDeclarations ds).directedChildrenOf p ∨ d = .directedJoin p c := by
      cases d with
      | directedJoin parent child =>
        rw [directedChildrenOf, declare, Index.mem_get_add, directedChildrenOf]
        simp [eq_comm]
      | join first second =>
        unfold declare
        dsimp only
        split <;> simp [directedChildrenOf]
      | _ => simp [declare, directedChildrenOf]
    rw [ofDeclarations_concat, hstep, ih, List.mem_append, List.mem_singleton, eq_comm]

/-! ### All answers -/

/-- The answers of a registry as its declarations call for them. -/
structure Reflects (r : Registry) (ds : List Declaration) : Prop where
  /-- Two tables have the order of the first declaration that joins them, or none. -/
  order_eq : ∀ a b, r.orderJoined? a b = ds.findSome? (·.joinOf? s(a, b))
  /-- The order does not depend on which of the tables is named first. -/
  order_comm : ∀ a b, r.orderJoined? a b = r.orderJoined? b a
  /-- Tables are joined just if they are declared to be. -/
  joined_iff : ∀ a b, r.areJoined a b = true ↔ .join a b ∈ ds ∨ .join b a ∈ ds
  /-- The partners of a table are the tables that are joined to it. -/
  partner_iff : ∀ a b, b ∈ r.joinPartnersOf a ↔ r.areJoined a b = true
  /-- A table is a partner of its partners. -/
  partner_comm : ∀ a b, b ∈ r.joinPartnersOf a ↔ a ∈ r.joinPartnersOf b
  partners_nodup : ∀ a, (r.joinPartnersOf a).Nodup
  /-- The listed pairs are those that are declared, in the order of their tables. -/
  pair_iff : ∀ a b, (a, b) ∈ r.joinedPairs ↔ r.orderJoined? a b = some (a, b)
  /-- Each pair that is declared is listed, in one order or the other. -/
  unordered_iff : ∀ a b, s(a, b) ∈ r.joinedPairs.map (fun q => s(q.1, q.2)) ↔
    .join a b ∈ ds ∨ .join b a ∈ ds
  /-- No pair is listed twice, not even in the other order. -/
  pairs_nodup : (r.joinedPairs.map fun q => s(q.1, q.2)).Nodup
  /-- The child tables are listed in the order in which they were first declared. -/
  children_eq : ∀ p, r.childrenOf p = (ds.filterMap (·.childOf? p)).eraseDups
  child_iff : ∀ p c, c ∈ r.childrenOf p ↔ .parent c p ∈ ds
  /-- Parents and children are converse. -/
  parent_iff : ∀ p c, p ∈ r.parentsOf c ↔ c ∈ r.childrenOf p
  directed_child_iff : ∀ p c, c ∈ r.directedChildrenOf p ↔ .directedJoin p c ∈ ds
  /-- Parents and children by directed joins are converse. -/
  directed_parent_iff : ∀ p c, p ∈ r.directedParentsOf c ↔ c ∈ r.directedChildrenOf p

/-- Every list of declarations makes a registry that reflects it. -/
theorem reflects_ofDeclarations (ds : List Declaration) : (ofDeclarations ds).Reflects ds := by
  have h := coherent_ofDeclarations ds
  have hcomm : ∀ a b, (ofDeclarations ds).orderJoined? a b = (ofDeclarations ds).orderJoined? b a := by
    -- The order is that of the unordered pair.
    intro a b
    rw [orderJoined?_ofDeclarations, orderJoined?_ofDeclarations, Sym2.eq_swap]
  have hpartner : ∀ a b, b ∈ (ofDeclarations ds).joinPartnersOf a ↔
      (ofDeclarations ds).areJoined a b = true := fun _ _ => h.mem_joinPartnersOf_iff_areJoined
  exact {
    order_eq := orderJoined?_ofDeclarations ds
    order_comm := hcomm
    joined_iff := areJoined_ofDeclarations_iff ds
    partner_iff := hpartner
    partner_comm := fun a b => by rw [hpartner, hpartner, areJoined, areJoined, hcomm]
    partners_nodup := Coherent.nodup_joinPartnersOf _
    pair_iff := fun _ _ => h.mem_joinedPairs_iff
    unordered_iff := fun a b => by rw [h.mem_map_joinedPairs_iff, areJoined_ofDeclarations_iff]
    pairs_nodup := h.nodup_joinedPairs
    children_eq := childrenOf_ofDeclarations ds
    child_iff := fun _ _ => mem_childrenOf_ofDeclarations_iff
    parent_iff := fun p c => (h.children_iff p c).symm
    directed_child_iff := mem_directedChildrenOf_ofDeclarations_iff ds
    directed_parent_iff := fun _ _ => h.mem_directedParentsOf_iff }

end Registry

/-! ### Builders -/

namespace RegistryBuilder

/-- A call of a builder. -/
inductive Call where
  | declare (d : Declaration)
  | build

variable {b : RegistryBuilder}

/-- The answer to a call, with the builder afterwards. A call that is refused leaves the builder as it is. -/
def answer (b : RegistryBuilder) : Call → Except Failure (Option Registry) × RegistryBuilder
  | .declare d =>
    match b.declare? d with
    | some b' => (.ok none, b')
    | none => (.error .registrySealed, b)
  | .build =>
    match b.build? with
    | some (r, b') => (.ok (some r), b')
    | none => (.error .registrySealed, b)

/-- The answers to calls one after the other. -/
def answerAll (b : RegistryBuilder) : List Call → List (Except Failure (Option Registry)) × RegistryBuilder
  | [] => ([], b)
  | call :: rest =>
    let (answers, last) := (b.answer call).2.answerAll rest
    ((b.answer call).1 :: answers, last)

/-- An open builder takes declarations. -/
theorem answerAll_declare (hopen : b.isSealed = false) (ds : List Declaration) (rest : List Call) :
    b.answerAll (ds.map .declare ++ rest) =
      let (answers, last) := { b with registry := ds.foldl Registry.declare b.registry }.answerAll rest
      (ds.map (fun _ => .ok none) ++ answers, last) := by
  induction ds generalizing b with
  | nil => rfl
  | cons d ds ih =>
    have hanswer : b.answer (.declare d) = (.ok none, { b with registry := b.registry.declare d }) := by
      simp [answer, declare?, hopen]
    have hrest := ih (b := { b with registry := b.registry.declare d }) hopen
    rw [List.map_cons, List.cons_append, answerAll, hanswer, hrest]
    rfl

/-- A builder that has handed out its registry refuses every call. -/
theorem answerAll_sealed (hsealed : b.isSealed = true) (calls : List Call) :
    b.answerAll calls = (calls.map fun _ => .error .registrySealed, b) := by
  induction calls with
  | nil => rfl
  | cons call rest ih =>
    have hanswer : b.answer call = (.error .registrySealed, b) := by
      cases call <;> simp [answer, declare?, build?, hsealed]
    rw [answerAll, hanswer, ih]
    rfl

/-- Declarations are taken up to the first call that builds the registry, which hands out one that
reflects them. All later calls are refused, and leave that registry in place. -/
theorem answerAll_declarations (ds : List Declaration) (later : List Call) :
    ∃ r, ({} : RegistryBuilder).answerAll (ds.map .declare ++ .build :: later) =
        (ds.map (fun _ => .ok none) ++ .ok (some r) :: later.map (fun _ => .error .registrySealed),
          { registry := r, isSealed := true }) ∧
      r.Reflects ds := by
  refine ⟨.ofDeclarations ds, ?_, Registry.reflects_ofDeclarations ds⟩
  have hbuild : answer { registry := .ofDeclarations ds } .build =
      (.ok (some (.ofDeclarations ds)), { registry := .ofDeclarations ds, isSealed := true }) := rfl
  rw [answerAll_declare rfl, ← Registry.ofDeclarations, answerAll, hbuild]
  dsimp only
  rw [answerAll_sealed rfl]

end RegistryBuilder

end SoarProject
