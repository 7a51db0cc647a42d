import AresaDb.Query.Where

/-! # Filters of vector searches

A vector search filters nodes with a second evaluator of conditions, `node_matches_conditions`
(`query/executor.rs`).  It reads properties only, takes a missing one for no value at all, knows no
IN, and searches a text for what stands between the outer `%` of a LIKE pattern.

`JudgedAlike` are the conditions that both evaluators decide in the same way.  Two lists of verdicts
agree when all conditions are of this kind, or when others do not come into play
(`filters_agree_iff`). -/

namespace AresaDb.Query

open AresaDb.Store

/-! ### The second evaluator -/

/-- The order of two floats, `none` with a NaN. -/
def partialCmp (a b : Binary64) : Option Ordering :=
  if a.lt b then some .lt else if a.eq b then some .eq else if b.lt a then some .gt else none

def valueCmp : Value → Value → Option Ordering
  | .int a, .int b => some (compare a b)
  | .float a, .float b => partialCmp a b
  | .int a, .float b => partialCmp (.ofInt a) b
  | .float a, .int b => partialCmp a (.ofInt b)
  | .string a, .string b => some (compare a b)
  | _, _ => none

/-- A part of a text. -/
def contains (text part : List Char) : Bool := text.tails.any fun rest => part.isPrefixOf rest

/-- The pattern without the `%` on either side. -/
def trimPercents (pattern : List Char) : List Char :=
  ((pattern.dropWhile (· = '%')).reverse.dropWhile (· = '%')).reverse

/-- The text of the one value holds what stands between the outer `%` of the other. -/
def holdsPattern : Value → Value → Bool
  | .string text, .string pattern => contains text.toList (trimPercents pattern.toList)
  | _, _ => false

/-- What the filter says of a property that is there. -/
def Operator.filters (op : Operator) (value right : Value) : Bool :=
  match op with
  | .eq => value.eq right
  | .ne => !value.eq right
  | .lt => (valueCmp value right).any Ordering.isLT
  | .le => (valueCmp value right).any Ordering.isLE
  | .gt => (valueCmp value right).any Ordering.isGT
  | .ge => (valueCmp value right).any Ordering.isGE
  | .like => holdsPattern value right
  | .isNull => value.isNull
  | .isNotNull => !value.isNull
  | .in_ => false

/-- What the filter says of a node. -/
def Condition.filters (node : Node) (c : Condition) : Bool :=
  match node.properties[c.column]? with
  | some value => c.operator.filters value c.value
  | none => c.operator = .isNull

def nodeMatchesConditions (node : Node) (conditions : List Condition) : Bool :=
  conditions.all fun c => c.filters node

/-! ### Comparisons -/

theorem any_partialCmp_isLT (a b : Binary64) : (partialCmp a b).any Ordering.isLT = a.lt b := by
  unfold partialCmp
  split_ifs with hlt heq hgt <;> simp [hlt]

theorem any_partialCmp_isGT (a b : Binary64) : (partialCmp a b).any Ordering.isGT = b.lt a := by
  unfold partialCmp Binary64.lt Binary64.eq
  split_ifs with hlt heq hgt
  · simp only [Bool.and_eq_true, decide_eq_true_eq] at hlt
    simpa [hlt.1] using hlt.2.le
  · simp only [Bool.and_eq_true, decide_eq_true_eq] at heq
    simpa [heq.1] using heq.2.le
  · simpa using hgt
  · simpa using hgt

theorem any_partialCmp_isLE (a b : Binary64) : (partialCmp a b).any Ordering.isLE = a.le b := by
  unfold partialCmp Binary64.lt Binary64.eq Binary64.le
  split_ifs with hlt heq hgt
  · simp only [Bool.and_eq_true, decide_eq_true_eq] at hlt
    simpa [hlt.1] using hlt.2.le
  · simp only [Bool.and_eq_true, decide_eq_true_eq] at heq
    simpa [heq.1] using heq.2.le
  · simp only [Bool.and_eq_true, decide_eq_true_eq] at hgt
    simpa [hgt.1] using hgt.2
  · grind

theorem any_partialCmp_isGE (a b : Binary64) : (partialCmp a b).any Ordering.isGE = b.le a := by
  unfold partialCmp Binary64.lt Binary64.eq Binary64.le
  split_ifs with hlt heq hgt
  · simp only [Bool.and_eq_true, decide_eq_true_eq] at hlt
    simpa [hlt.1] using hlt.2
  · simp only [Bool.and_eq_true, decide_eq_true_eq] at heq
    simpa [heq.1] using heq.2.ge
  · simp only [Bool.and_eq_true, decide_eq_true_eq] at hgt
    simpa [hgt.1] using hgt.2.le
  · grind

/-- A comparison of the one evaluator is a comparison of the other. -/
theorem any_valueCmp {ints : ℤ → ℤ → Bool} {floats : Binary64 → Binary64 → Bool}
    {strings : String → String → Bool} {p : Ordering → Bool}
    (hints : ∀ a b : ℤ, p (compare a b) = ints a b)
    (hfloats : ∀ a b, (partialCmp a b).any p = floats a b)
    (hstrings : ∀ a b : String, p (compare a b) = strings a b) (value right : Value) :
    (valueCmp value right).any p = Operator.compareWith ints floats strings value right := by
  cases value <;> cases right <;> simp [valueCmp, Operator.compareWith, hints, hstrings, hfloats]

section

variable {α : Type} [LinearOrder α] (a b : α)

theorem isLT_compare : (compare a b).isLT = decide (a < b) := by
  rw [Bool.eq_iff_iff, Ordering.isLT_iff_eq_lt, compare_lt_iff_lt, decide_eq_true_iff]

theorem isGT_compare : (compare a b).isGT = decide (b < a) := by
  rw [Bool.eq_iff_iff, Ordering.isGT_iff_eq_gt, compare_gt_iff_gt, decide_eq_true_iff]

theorem isLE_compare : (compare a b).isLE = decide (a ≤ b) := by
  rw [Bool.eq_iff_iff, Ordering.isLE_iff_ne_gt, ← ne_eq, compare_le_iff_le, decide_eq_true_iff]

theorem isGE_compare : (compare a b).isGE = decide (b ≤ a) := by
  rw [Bool.eq_iff_iff, Ordering.isGE_iff_ne_lt, ← ne_eq, compare_ge_iff_ge, decide_eq_true_iff]

end

/-- IN and LIKE aside, the two evaluators say the same of a value. -/
theorem filters_eq_matches (R : RegexEngine) {op : Operator} (hin : op ≠ .in_) (hlike : op ≠ .like)
    (value right : Value) : op.filters value right = op.matches_ R value right := by
  cases op with
  | eq | ne | isNull | isNotNull => rfl
  | in_ => exact absurd rfl hin
  | like => exact absurd rfl hlike
  | lt => exact any_valueCmp isLT_compare any_partialCmp_isLT isLT_compare value right
  | le => exact any_valueCmp isLE_compare any_partialCmp_isLE isLE_compare value right
  | gt => exact any_valueCmp isGT_compare any_partialCmp_isGT isGT_compare value right
  | ge => exact any_valueCmp isGE_compare any_partialCmp_isGE isGE_compare value right

/-! ### Conditions judged alike -/

/-- Both evaluators decide the condition alike for the node: its property is there, and it is this
that a SELECT reads, or the difference does not show. -/
def JudgedAlike (R : RegexEngine) (node : Node) (c : Condition) : Prop :=
  let asked := columnValue node c.column
  let plain := c.column ≠ "id" ∧ c.column ≠ "type"
  match c.operator, node.properties[c.column]? with
  | .in_, _ => ∀ values, c.value = .array values → ∀ value ∈ values, value.eq asked = false
  | .like, property =>
      (∃ value ∈ property, holdsPattern value c.value) ↔
        ∃ text pattern, asked = .string text ∧ c.value = .string pattern ∧
          R.isMatch (Operator.likeRegex pattern) text = some true
  | .isNull, property | .isNotNull, property => plain ∨ ∃ value ∈ property, value.isNull = false
  | op, some value => plain ∨ (op.matches_ R value c.value ↔ op.matches_ R asked c.value)
  | op, none => ¬ op.matches_ R asked c.value

theorem columnValue_isNull_of_pseudo (node : Node) {column : String}
    (h : ¬ (column ≠ "id" ∧ column ≠ "type")) : (columnValue node column).isNull = false := by
  unfold columnValue
  split_ifs with hid htype
  · rfl
  · rfl
  · exact absurd ⟨hid, htype⟩ h

theorem columnValue_of_plain (node : Node) {column : String}
    (h : column ≠ "id" ∧ column ≠ "type") :
    columnValue node column = node.properties[column]?.getD .null := by
  unfold columnValue
  rw [if_neg h.1, if_neg h.2]

theorem matches_in_iff (R : RegexEngine) (left right : Value) :
    Operator.matches_ R .in_ left right = false ↔
      ∀ values, right = .array values → ∀ value ∈ values, value.eq left = false := by
  cases right <;> simp [Operator.matches_]

/-- A comparison of a property that is there. -/
theorem filters_present_iff {R : RegexEngine} {node : Node} {column : String} {op : Operator}
    (hin : op ≠ .in_) (hlike : op ≠ .like) {right value : Value}
    (hvalue : node.properties[column]? = some value) :
    (Condition.mk column op right).filters node = (Condition.mk column op right).admits R node ↔
      (column ≠ "id" ∧ column ≠ "type") ∨
        (op.matches_ R value right ↔ op.matches_ R (columnValue node column) right) := by
  unfold Condition.filters Condition.admits
  simp only [hvalue, filters_eq_matches R hin hlike]
  rw [Bool.eq_iff_iff]
  refine (or_iff_right_of_imp fun hplain => ?_).symm
  rw [columnValue_of_plain node hplain, hvalue, Option.getD_some]

/-- A column is null when its property is missing or null, but not the id or the type. -/
theorem columnValue_isNull_iff (node : Node) (column : String) :
    (columnValue node column).isNull = (node.properties[column]?.all Value.isNull) ↔
      (column ≠ "id" ∧ column ≠ "type") ∨
        ∃ value ∈ node.properties[column]?, value.isNull = false := by
  by_cases hplain : column ≠ "id" ∧ column ≠ "type"
  · rw [columnValue_of_plain node hplain]
    cases node.properties[column]? <;> simp [hplain, Value.isNull]
  · rw [columnValue_isNull_of_pseudo node hplain, or_iff_right hplain]
    cases node.properties[column]? <;> simp

theorem judgedAlike_iff (R : RegexEngine) (node : Node) (c : Condition) :
    JudgedAlike R node c ↔ c.filters node = c.admits R node := by
  obtain ⟨column, op, right⟩ := c
  cases op with
  | eq | ne | lt | le | gt | ge =>
      cases hvalue : node.properties[column]? with
      | some value =>
          rw [filters_present_iff (by simp) (by simp) hvalue]
          simp only [JudgedAlike, hvalue]
      | none => simp [JudgedAlike, Condition.filters, Condition.admits, hvalue]
  | in_ =>
      have hfilters : (Condition.mk column .in_ right).filters node = false := by
        unfold Condition.filters
        cases node.properties[column]? <;> rfl
      rw [hfilters, eq_comm]
      exact (matches_in_iff R _ right).symm
  | like =>
      have hfilters : (Condition.mk column .like right).filters node = true ↔
          ∃ value ∈ node.properties[column]?, holdsPattern value right := by
        unfold Condition.filters
        cases node.properties[column]? <;> simp [Operator.filters]
      rw [Bool.eq_iff_iff, hfilters]
      exact iff_congr Iff.rfl (like_matches_iff R _ right).symm
  | isNull =>
      have hfilters : (Condition.mk column .isNull right).filters node =
          node.properties[column]?.all Value.isNull := by
        unfold Condition.filters
        cases node.properties[column]? <;> rfl
      rw [hfilters, eq_comm]
      exact (columnValue_isNull_iff node column).symm
  | isNotNull =>
      have hfilters : (Condition.mk column .isNotNull right).filters node =
          !node.properties[column]?.all Value.isNull := by
        unfold Condition.filters
        cases node.properties[column]? <;> rfl
      rw [hfilters, eq_comm]
      exact (columnValue_isNull_iff node column).symm.trans Bool.not_inj_iff.symm

/-! ### Lists of conditions -/

/-- Two conjunctions are equal when the conjuncts are, when one that they share is false, or when
each has one of its own that is. -/
theorem all_eq_all_iff {α : Type} (p q : α → Bool) (l : List α) :
    l.all p = l.all q ↔
      (∃ a ∈ l, p a = q a ∧ q a = false) ∨ (∀ a ∈ l, p a = q a) ∨
        ((∃ a ∈ l, p a ≠ q a ∧ q a = true) ∧ ∃ a ∈ l, p a ≠ q a ∧ q a = false) := by
  constructor
  · intro h
    by_cases hp : l.all p = true
    · have hq : l.all q = true := h ▸ hp
      rw [List.all_eq_true] at hp hq
      exact .inr (.inl fun a ha => (hp a ha).trans (hq a ha).symm)
    · have hq : l.all q = false := h ▸ Bool.eq_false_iff.mpr hp
      obtain ⟨a, ha, hpa⟩ := List.all_eq_false.mp (Bool.eq_false_iff.mpr hp)
      obtain ⟨b, hb, hqb⟩ := List.all_eq_false.mp hq
      by_cases hshared : p b = q b
      · exact .inl ⟨b, hb, hshared, Bool.eq_false_iff.mpr hqb⟩
      by_cases hshared' : p a = q a
      · exact .inl ⟨a, ha, hshared', hshared' ▸ Bool.eq_false_iff.mpr hpa⟩
      · exact .inr (.inr ⟨⟨a, ha, hshared', by simpa [hpa] using Ne.symm hshared'⟩,
          b, hb, hshared, Bool.eq_false_iff.mpr hqb⟩)
  · rintro (⟨a, ha, heq, hq⟩ | hall | ⟨⟨a, ha, hne, hq⟩, b, hb, -, hqb⟩)
    · have hp : p a = false := heq.trans hq
      rw [List.all_eq_false.mpr ⟨a, ha, by simp [hp]⟩, List.all_eq_false.mpr ⟨a, ha, by simp [hq]⟩]
    · rw [Bool.eq_iff_iff, List.all_eq_true, List.all_eq_true]
      exact forall₂_congr fun a ha => by rw [hall a ha]
    · have hp : p a = false := by simpa [hq] using hne
      rw [List.all_eq_false.mpr ⟨a, ha, by simp [hp]⟩, List.all_eq_false.mpr ⟨b, hb, by simp [hqb]⟩]

/-- The filter of a vector search and that of a SELECT accept the same nodes exactly when all
conditions are judged alike, unless one that is judged alike is refused anyhow, or of the others
each filter refuses one that the other accepts. -/
theorem filters_agree_iff (R : RegexEngine) (node : Node) (conditions : List Condition) :
    (nodeMatchesConditions node conditions ↔ matchesConditions R node conditions) ↔
      (∃ c ∈ conditions, JudgedAlike R node c ∧ c.admits R node = false) ∨
      (∀ c ∈ conditions, JudgedAlike R node c) ∨
      ((∃ c ∈ conditions, ¬ JudgedAlike R node c ∧ c.admits R node = true) ∧
        ∃ c ∈ conditions, ¬ JudgedAlike R node c ∧ c.admits R node = false) := by
  simp only [judgedAlike_iff]
  rw [← Bool.eq_iff_iff]
  exact all_eq_all_iff _ _ conditions

/-- A node without the property satisfies `nickname != 'x'` in a SELECT only. -/
theorem filters_disagree :
    ¬ ∀ (R : RegexEngine) (node : Node) (conditions : List Condition),
      nodeMatchesConditions node conditions ↔ matchesConditions R node conditions := by
  intro h
  have hann := h plainEngine ann [⟨"nickname", .ne, .string "x"⟩]
  revert hann
  decide +kernel

end AresaDb.Query
