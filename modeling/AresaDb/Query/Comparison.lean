import AresaDb.Lib.Rounding
import AresaDb.Query.Ordering

/-! # The comparison of a sort

`compare_values` (`query/executor.rs`) is its own reverse on all values, but transitive only as long
as no value that it calls equal to everything, or to both of two integers, comes between two values
the wrong way round (`sort_order_iff`). -/

namespace AresaDb.Query

open AresaDb.Store StableSort

/-! ### What a sort asks of its comparison -/

/-- The comparison is a total preorder on the values. -/
structure TotalPreorderOn (S : Set Value) : Prop where
  reverse : ∀ a ∈ S, ∀ b ∈ S, compareValues a b = (compareValues b a).swap
  trans : ∀ a ∈ S, ∀ b ∈ S, ∀ c ∈ S, compareValues a b ≠ .gt → compareValues b c ≠ .gt →
    compareValues a c ≠ .gt

/-- Nodes whose column holds the values are sorted by it, in either direction. -/
def SortsOn (S : Set Value) : Prop :=
  ∀ (field : String) (descending : Bool) (nodes : List Node),
    (∀ n ∈ nodes, n.properties[field]?.getD .null ∈ S) →
    (sortNodes field descending nodes).Pairwise fun a b => compareNodes field descending a b ≠ .gt

/-! ### Values in the wrong order -/

/-- Values that have an order among themselves. -/
inductive SortClass where
  | number
  | text
  | truth
deriving DecidableEq

/-- The class of a value, if it has one; a NaN has none. -/
def sortClass : Value → Option SortClass
  | .int _ => some .number
  | .float f => if f.isNaN then none else some .number
  | .string _ => some .text
  | .bool _ => some .truth
  | _ => none

/-- The first value is less than the second one of its class. -/
def Below : Value → Value → Prop
  | .int i, .int j => i < j
  | .int i, .float g => Binary64.lt (.ofInt i) g
  | .float f, .int j => Binary64.lt f (.ofInt j)
  | .float f, .float g => f.lt g
  | .string s, .string t => s < t
  | .bool x, .bool y => x < y
  | _, _ => False

/-- Two integers and a float to which both of them are rounded. -/
def RoundedTo : Value → Value → Value → Prop
  | .int i, .float g, .int k => (Binary64.ofInt i).rank = g.rank ∧ (Binary64.ofInt k).rank = g.rank
  | _, _, _ => False

/-- The last value is less than the first, and the one between them, which is not null, is of no
class or another one, or a float to which both are rounded. -/
def Misordered (a b c : Value) : Prop :=
  Below c a ∧ b ≠ .null ∧ (sortClass b ≠ sortClass a ∨ RoundedTo a b c)

/-! ### The comparison in terms of classes -/

theorem orderOf_ne_gt {lt gt : Bool} (h : lt = true → gt = false) :
    orderOf lt gt ≠ .gt ↔ ¬ gt := by
  unfold orderOf
  cases lt <;> cases gt <;> simp_all

theorem lt_asymm {f g : Binary64} (h : f.lt g) : g.lt f = false := by
  unfold Binary64.lt at h ⊢
  simp only [Bool.and_eq_true, decide_eq_true_eq] at h
  simp [h.2.le]

/-- A value is put after another one when the other is less, or null. -/
theorem compareValues_ne_gt {a b : Value} :
    compareValues a b ≠ .gt ↔ ¬ Below b a ∧ (b = .null → a = .null) := by
  cases a <;> cases b <;>
    simp only [compareValues, Below, ne_eq, reduceCtorEq, not_false_eq_true, not_true_eq_false,
      false_imp_iff, and_true, and_false, imp_self, imp_false, compare_gt_iff_gt]
  all_goals exact orderOf_ne_gt lt_asymm

theorem compareValues_swap (a b : Value) : compareValues a b = (compareValues b a).swap := by
  have horder : ∀ f g : Binary64, orderOf (f.lt g) (g.lt f) = (orderOf (g.lt f) (f.lt g)).swap := by
    intro f g
    have hasymm := @lt_asymm f g
    unfold orderOf
    cases hfg : f.lt g <;> cases hgf : g.lt f <;> simp_all
  cases a <;> cases b <;> first
    | rfl
    | exact horder _ _
    | (change compare _ _ = (compare _ _).swap
       exact Std.OrientedCmp.eq_swap)

/-! ### Numbers -/

/-- The rank of a number among the floats. -/
def rankOf : Value → ℤ
  | .int i => (Binary64.ofInt i).rank
  | .float f => f.rank
  | _ => 0

theorem lt_iff_rank {f g : Binary64} (hf : f.isNaN = false) (hg : g.isNaN = false) :
    f.lt g ↔ f.rank < g.rank := by
  simp [Binary64.lt, hf, hg]

theorem sortClass_float {f : Binary64} (h : sortClass (.float f) = some .number) :
    f.isNaN = false := by
  by_contra hnan
  simp [sortClass, hnan] at h

/-- Integers may share a rank; other numbers are ordered by it. -/
theorem below_number {a b : Value} (ha : sortClass a = some .number)
    (hb : sortClass b = some .number) :
    (∃ i j, a = .int i ∧ b = .int j ∧ (Below a b ↔ i < j)) ∨ (Below a b ↔ rankOf a < rankOf b) := by
  cases a with
  | int i =>
      cases b with
      | int j => exact .inl ⟨i, j, rfl, rfl, Iff.rfl⟩
      | float g => exact .inr (lt_iff_rank (Binary64.isNaN_ofInt i) (sortClass_float hb))
      | _ => cases hb
  | float f =>
      cases b with
      | int j => exact .inr (lt_iff_rank (sortClass_float ha) (Binary64.isNaN_ofInt j))
      | float g => exact .inr (lt_iff_rank (sortClass_float ha) (sortClass_float hb))
      | _ => cases hb
  | _ => cases ha

/-- A number that is not less than another one has no lesser rank. -/
theorem rankOf_le {a b : Value} (ha : sortClass a = some .number)
    (hb : sortClass b = some .number) (h : ¬ Below b a) : rankOf a ≤ rankOf b := by
  obtain ⟨i, j, rfl, rfl, hbelow⟩ | hbelow := below_number hb ha
  · exact Binary64.rank_ofInt_mono (not_lt.mp (mt hbelow.mpr h))
  · exact not_lt.mp (mt hbelow.mpr h)

/-- Between numbers the only way to go wrong is by two integers rounded to a float. -/
theorem roundedTo_of_numbers {a b c : Value} (ha : sortClass a = some .number)
    (hb : sortClass b = some .number) (hc : sortClass c = some .number) (hca : Below c a)
    (hab : ¬ Below b a) (hbc : ¬ Below c b) : RoundedTo a b c := by
  have hrank := rankOf_le ha hb hab
  have hrank' := rankOf_le hb hc hbc
  obtain ⟨k, i, rfl, rfl, hbelow⟩ | hbelow := below_number hc ha
  · have hki : k < i := hbelow.mp hca
    have hround : rankOf (.int k) ≤ rankOf (.int i) := Binary64.rank_ofInt_mono hki.le
    cases b with
    | int j =>
        have hij : i ≤ j := not_lt.mp hab
        have hjk : j ≤ k := not_lt.mp hbc
        omega
    | float g =>
        exact ⟨le_antisymm hrank (hrank'.trans hround), le_antisymm (hround.trans hrank) hrank'⟩
    | _ => cases hb
  · exact absurd (hbelow.mp hca) (hrank.trans hrank').not_gt

/-! ### Transitivity -/

theorem Below.sortClass_eq {a b : Value} (h : Below a b) :
    sortClass a = sortClass b ∧ sortClass a ≠ none := by
  have hnumber : ∀ {f g : Binary64}, f.lt g → f.isNaN = false ∧ g.isNaN = false := by
    intro f g hlt
    unfold Binary64.lt at hlt
    simp_all
  cases a <;> cases b <;> first
    | exact h.elim
    | exact ⟨rfl, nofun⟩
    | (have hnan := hnumber h
       simp [sortClass, hnan])

theorem sortClass_text {a : Value} (h : sortClass a = some .text) : ∃ s, a = .string s := by
  cases a with
  | string s => exact ⟨s, rfl⟩
  | float f => by_cases hnan : f.isNaN <;> simp [sortClass, hnan] at h
  | _ => simp [sortClass] at h

theorem sortClass_truth {a : Value} (h : sortClass a = some .truth) : ∃ x, a = .bool x := by
  cases a with
  | bool x => exact ⟨x, rfl⟩
  | float f => by_cases hnan : f.isNaN <;> simp [sortClass, hnan] at h
  | _ => simp [sortClass] at h

/-- A value of the class that is put between two of them the wrong way round. -/
theorem roundedTo_of_class {a b c : Value} (hclass : sortClass b = sortClass a) (hca : Below c a)
    (hab : ¬ Below b a) (hbc : ¬ Below c b) : RoundedTo a b c := by
  obtain ⟨hc, hsome⟩ := hca.sortClass_eq
  rw [hc] at hsome
  obtain ⟨cls, ha⟩ := Option.ne_none_iff_exists'.mp hsome
  rw [ha] at hclass hc
  cases cls with
  | number => exact roundedTo_of_numbers ha hclass hc hca hab hbc
  | text =>
      obtain ⟨s, rfl⟩ := sortClass_text ha
      obtain ⟨t, rfl⟩ := sortClass_text hclass
      obtain ⟨u, rfl⟩ := sortClass_text hc
      have hst : s ≤ t := not_lt.mp hab
      have htu : t ≤ u := not_lt.mp hbc
      exact absurd hca (hst.trans htu).not_gt
  | truth =>
      obtain ⟨x, rfl⟩ := sortClass_truth ha
      obtain ⟨y, rfl⟩ := sortClass_truth hclass
      obtain ⟨z, rfl⟩ := sortClass_truth hc
      have hxy : x ≤ y := not_lt.mp hab
      have hyz : y ≤ z := not_lt.mp hbc
      exact absurd hca (hxy.trans hyz).not_gt

/-- A float is not less or greater than the integers that are rounded to it. -/
theorem RoundedTo.not_below {a b c : Value} (h : RoundedTo a b c) : ¬ Below b a ∧ ¬ Below c b := by
  unfold RoundedTo at h
  split at h
  · obtain ⟨ha, hc⟩ := h
    constructor
    · simp [Below, Binary64.lt, ha]
    · simp [Below, Binary64.lt, hc]
  · exact h.elim

/-- The comparison fails to be transitive on misordered values, and on no others. -/
theorem compareValues_trans_iff {a b c : Value} :
    (compareValues a b ≠ .gt → compareValues b c ≠ .gt → compareValues a c ≠ .gt) ↔
      ¬ Misordered a b c := by
  simp only [compareValues_ne_gt]
  constructor
  · rintro htrans ⟨hca, hnull, hwrong⟩
    obtain ⟨hclass, hsome⟩ := hca.sortClass_eq
    have hnull' : c ≠ .null := by
      rintro rfl
      exact hsome rfl
    have hbetween : ¬ Below b a ∧ ¬ Below c b := by
      obtain hother | hround := hwrong
      · exact ⟨fun hba => hother hba.sortClass_eq.1,
          fun hcb => hother (hcb.sortClass_eq.1.symm.trans hclass)⟩
      · exact hround.not_below
    exact (htrans ⟨hbetween.1, fun hb => absurd hb hnull⟩
      ⟨hbetween.2, fun hc => absurd hc hnull'⟩).1 hca
  · rintro hordered ⟨hab, hnull⟩ ⟨hbc, hnull'⟩
    refine ⟨fun hca => hordered ⟨hca, ?_, ?_⟩, fun h => hnull (hnull' h)⟩
    · rintro rfl
      rw [hnull rfl] at hca
      cases c <;> exact hca
    · by_cases hclass : sortClass b = sortClass a
      · exact .inr (roundedTo_of_class hclass hca hab hbc)
      · exact .inl hclass

/-! ### Sorting -/

/-- On values that are never misordered the comparison is a total preorder. -/
theorem totalPreorderOn_iff {S : Set Value} :
    TotalPreorderOn S ↔ ∀ a ∈ S, ∀ b ∈ S, ∀ c ∈ S, ¬ Misordered a b c := by
  constructor
  · intro h a ha b hb c hc
    exact compareValues_trans_iff.mp (h.trans a ha b hb c hc)
  · intro h
    exact ⟨fun a _ b _ => compareValues_swap a b,
      fun a ha b hb c hc => compareValues_trans_iff.mpr (h a ha b hb c hc)⟩

/-- What is a total preorder on the values of a column sorts the nodes by it. -/
theorem TotalPreorderOn.sortsOn {S : Set Value} (h : TotalPreorderOn S) : SortsOn S := by
  intro field descending nodes hnodes
  -- Descending, the comparison is the reverse one.
  have hcompare : ∀ a ∈ nodes, ∀ b ∈ nodes, compareNodes field descending a b =
      if descending then
        compareValues (b.properties[field]?.getD .null) (a.properties[field]?.getD .null)
      else compareValues (a.properties[field]?.getD .null) (b.properties[field]?.getD .null) := by
    intro a ha b hb
    unfold compareNodes
    rw [h.reverse _ (hnodes b hb) _ (hnodes a ha)]
  have hsorted := pairwise_mergeSort_of_mem (l := nodes)
    (r := fun a b => decide (compareNodes field descending a b ≠ .gt)) ?_ ?_
  · exact hsorted.imp of_decide_eq_true
  · intro a ha b hb c hc
    simp only [decide_eq_true_eq]
    rw [hcompare a ha b hb, hcompare b hb c hc, hcompare a ha c hc]
    cases descending
    · exact h.trans _ (hnodes a ha) _ (hnodes b hb) _ (hnodes c hc)
    · exact fun hba hcb => h.trans _ (hnodes c hc) _ (hnodes b hb) _ (hnodes a ha) hcb hba
  · intro a ha b hb
    simp only [Bool.or_eq_true, decide_eq_true_eq]
    have hswap : compareNodes field descending b a =
        (compareNodes field descending a b).swap := by
      unfold compareNodes
      rw [compareValues_swap]
      cases descending <;> simp
    rw [hswap]
    cases compareNodes field descending a b <;> decide

/-! ### The result -/

/-- The comparison is a total preorder on a set of values, and a column of them is sorted by it,
exactly when no three of them are misordered. -/
theorem sort_order_iff (S : Set Value) :
    (TotalPreorderOn S ∧ SortsOn S) ↔ ∀ a ∈ S, ∀ b ∈ S, ∀ c ∈ S, ¬ Misordered a b c := by
  rw [← totalPreorderOn_iff]
  exact ⟨fun h => h.1, fun h => ⟨h, h.sortsOn⟩⟩

/-! ### A column of numbers and strings -/

/-- A node of a column of mixed values. -/
def mixedNode (v : Value) : Node := ⟨⟨0⟩, "mixed", (∅ : Props).insert "v" v, 0, 0⟩

/-- Two numbers, each of them after a string. -/
def mixedColumn : List Value := [.string "n/a", .int 1, .string "n/a", .int 0]

/-- Every value is called equal to the one before it, so the sort moves none. -/
theorem sortNodes_mixed :
    sortNodes "v" false (mixedColumn.map mixedNode) = mixedColumn.map mixedNode := by
  unfold sortNodes
  rw [← List.map_mergeSort (r := fun a b => decide (compareValues a b ≠ .gt))]
  · simp [mixedColumn, List.mergeSort, List.MergeSort.Internal.splitInTwo, compareValues]
  · intro a _ b _
    simp [compareNodes, mixedNode]

/-- A string is no less and no greater than any number, and ORDER BY leaves `1` before `0`. -/
theorem compareValues_not_transitive :
    ¬ TotalPreorderOn Set.univ ∧ ¬ SortsOn Set.univ := by
  constructor
  · intro h
    exact h.trans (.int 1) trivial (.string "n/a") trivial (.int 0) trivial (by decide) (by decide)
      (by decide)
  · intro h
    have hsorted := h "v" false (mixedColumn.map mixedNode) fun _ _ => trivial
    rw [sortNodes_mixed, List.pairwise_map] at hsorted
    have hpair : [Value.int 1, .int 0].Sublist mixedColumn :=
      .cons _ (.cons_cons _ (.cons _ (.refl _)))
    have hne := List.pairwise_iff_forall_sublist.mp hsorted hpair
    have hgt : compareValues (.int 1) (.int 0) = .gt := by decide
    exact hne (by simp [compareNodes, mixedNode, hgt])

end AresaDb.Query
