import AresaDb.Lib.Keywords
import AresaDb.Query.ParserPanics

/-! # Conditions as text

A condition of a vector search as it is written, `column operator literal` with a blank between
them, and what the parser reads of such a text.  It reads the condition back unless the literal
contains an operator that is looked for before the condition's own (`parseSingleCondition_text`). -/

namespace AresaDb.Query

open AresaDb.Store Text

/-! ### Literals -/

inductive Literal where
  | int (i : ℤ)
  | bool (b : Bool)
  | null
  | string (text : List Char)

namespace Literal

def value : Literal → Value
  | int i => .int i
  | bool b => .bool b
  | null => .null
  | string text => .string (String.ofList text)

def text : Literal → List Char
  | int i => if i < 0 then '-' :: Nat.toDigits 10 i.natAbs else Nat.toDigits 10 i.natAbs
  | bool b => if b then "true".toList else "false".toList
  | null => "null".toList
  | string text => '\'' :: (text ++ ['\''])

/-- Integers are those of 64 bits; a string is of ASCII characters without a quote. -/
def Ok : Literal → Prop
  | int i => -2 ^ 63 ≤ i ∧ i < 2 ^ 63
  | string text => '\'' ∉ text ∧ ∀ c ∈ text, c.toNat < 128
  | _ => True

end Literal

/-- The characters of names. -/
def isNameChar (c : Char) : Bool := c.isAlphanum || c = '_'

/-- An ASCII identifier. -/
def IsName (w : List Char) : Prop := w ≠ [] ∧ ∀ c ∈ w, isNameChar c

/-- A condition as it is written. -/
structure Filter where
  column : List Char
  operator : List Char × Operator
  literal : Literal
  name : IsName column
  known : operator ∈ whereOperators
  ok : literal.Ok

namespace Filter

variable (f : Filter)

/-- The text of the condition, as its column, and the rest. -/
def text : List Char := f.column ++ ' ' :: (f.operator.1 ++ ' ' :: f.literal.text)

def condition : Condition := ⟨String.ofList f.column, f.operator.2, f.literal.value⟩

/-- The operators that are looked for before the condition's own. -/
def earlier : List (List Char × Operator) := whereOperators.takeWhile fun o => o.1 ≠ f.operator.1

end Filter

/-! ### Characters -/

theorem toNat_of_isNameChar {c : Char} (h : isNameChar c) :
    48 ≤ c.toNat ∧ c.toNat ≤ 57 ∨ 65 ≤ c.toNat ∧ c.toNat ≤ 90 ∨ c.toNat = 95 ∨
      97 ≤ c.toNat ∧ c.toNat ≤ 122 := by
  have hval : c.toNat = c.val.toNat := rfl
  simp only [isNameChar, Bool.or_eq_true, decide_eq_true_eq] at h
  obtain h | rfl := h
  · simp [Char.isAlphanum, Char.isAlpha, Char.isUpper, Char.isLower, Char.isDigit,
      UInt32.le_iff_toNat_le] at h
    omega
  · decide

theorem isWhitespace_of_isNameChar {c : Char} (h : isNameChar c) : isWhitespace c = false := by
  have hrange := toNat_of_isNameChar h
  simp only [isWhitespace, Bool.or_eq_false_iff, Bool.and_eq_false_iff, decide_eq_false_iff_not]
  omega

/-- What the operators are made of. -/
theorem operator_chars {o : List Char × Operator} (ho : o ∈ whereOperators) :
    o.1 ≠ [] ∧ ∀ c ∈ o.1, isNameChar c = false ∧ isWhitespace c = false ∧ c ≠ '\'' := by
  have hall : (whereOperators.all fun o => o.1 ≠ [] &&
      o.1.all fun c => !isNameChar c && !isWhitespace c && c ≠ '\'') = true := by decide
  simpa [and_assoc] using List.all_eq_true.mp hall o ho

theorem blank_notMem_operator {o : List Char × Operator} (ho : o ∈ whereOperators) : ' ' ∉ o.1 := by
  intro h
  have hblank := ((operator_chars ho).2 ' ' h).2.1
  revert hblank
  decide

/-! ### Finding the operator -/

/-- Every operator is reached in the order, and does not contain an earlier one. -/
theorem whereOperators_split : ∀ op ∈ whereOperators, ∃ later,
    whereOperators = (whereOperators.takeWhile fun o => o.1 ≠ op.1) ++ op :: later := by
  have hall : ∀ op ∈ whereOperators, whereOperators =
      (whereOperators.takeWhile fun o => o.1 ≠ op.1) ++
        op :: (whereOperators.dropWhile fun o => o.1 ≠ op.1).tail := by decide
  exact fun op hop => ⟨_, hall op hop⟩

theorem not_infix_of_earlier : ∀ op ∈ whereOperators,
    ∀ o ∈ whereOperators.takeWhile (fun o => o.1 ≠ op.1), ¬ o.1 <:+: op.1 := by
  decide +kernel

theorem Filter.mem_of_earlier {f : Filter} {o : List Char × Operator} (h : o ∈ f.earlier) :
    o ∈ whereOperators := (List.takeWhile_prefix _).subset h

/-- A name begins no operator. -/
theorem firstAfter_name {o : List Char × Operator} (ho : o ∈ whereOperators) {column : List Char}
    (hcolumn : ∀ c ∈ column, isNameChar c) (b : List Char) :
    FirstAfter o.1 (column ++ [' ']) b := by
  rintro x y heq hy hpre
  obtain ⟨hne, hchars⟩ := operator_chars ho
  obtain ⟨d, rest, hd⟩ := List.exists_cons_of_ne_nil hne
  obtain ⟨c, y, rfl⟩ := List.exists_cons_of_ne_nil hy
  rw [hd, List.cons_append, List.cons_prefix_cons] at hpre
  obtain ⟨rfl, -⟩ := hpre
  have hdo : d ∈ o.1 := hd ▸ List.mem_cons_self
  have hmem : d ∈ column ++ [' '] := heq ▸ List.mem_append_right x List.mem_cons_self
  obtain h | h := List.mem_append.mp hmem
  · have hname := (hchars d hdo).1
    rw [hcolumn d h] at hname
    cases hname
  · rw [List.mem_singleton] at h
    exact blank_notMem_operator ho (h ▸ hdo)

section

variable (f : Filter) (v : List Char)

/-- A text that begins as the condition does, up to its literal. -/
def Filter.upToValue : List Char := f.column ++ ' ' :: (f.operator.1 ++ ' ' :: v)

variable {f v}

theorem Filter.find_own : find f.operator.1 (f.upToValue v) = some (size (f.column ++ [' '])) := by
  have happend : f.upToValue v = (f.column ++ [' ']) ++ (f.operator.1 ++ ' ' :: v) := by
    simp [Filter.upToValue]
  rw [happend]
  exact find_append (firstAfter_name f.known f.name.2 _)

/-- An earlier operator occurs in such a text if it does in what comes for the literal. -/
theorem Filter.infix_upToValue {o : List Char × Operator} (ho : o ∈ f.earlier) :
    o.1 <:+: f.upToValue v ↔ o.1 <:+: v := by
  have hknown := Filter.mem_of_earlier ho
  have hblank := blank_notMem_operator hknown
  rw [Filter.upToValue, infix_append_cons hblank, infix_append_cons hblank,
    or_iff_right (not_infix_of_earlier f.operator f.known o ho), or_iff_right]
  intro hinner
  obtain ⟨hne, hchars⟩ := operator_chars hknown
  obtain ⟨c, hc⟩ := List.exists_mem_of_ne_nil _ hne
  have hname := (hchars c hc).1
  rw [f.name.2 c (hinner.subset hc)] at hname
  cases hname

/-- Without an earlier operator the condition's own is found. -/
theorem Filter.findOperator_own (h : ∀ o ∈ f.earlier, ¬ o.1 <:+: v) :
    findOperator (f.upToValue v) =
      some (f.operator.1, f.operator.2, size (f.column ++ [' '])) := by
  obtain ⟨later, hlater⟩ := whereOperators_split f.operator f.known
  have hnone : (f.earlier.findSome? fun o =>
      (find o.1 (f.upToValue v)).map fun idx => (o.1, o.2, idx)) = none := by
    rw [List.findSome?_eq_none_iff]
    intro o ho
    have hknown := Filter.mem_of_earlier ho
    rw [(find_eq_none_iff_absent (operator_chars hknown).1).mpr
      (mt (Filter.infix_upToValue ho).mp (h o ho)), Option.map_none]
  change List.findSome? (fun o => (find o.1 (f.upToValue v)).map fun idx => (o.1, o.2, idx))
    whereOperators = _
  rw [hlater, List.findSome?_append]
  change ((f.earlier.findSome? _).or _) = _
  rw [hnone, Option.none_or, List.findSome?_cons, Filter.find_own, Option.map_some]

/-- With an earlier operator one of these is found. -/
theorem Filter.findOperator_earlier {o : List Char × Operator} (ho : o ∈ f.earlier)
    (hinner : o.1 <:+: v) : ∃ o' ∈ f.earlier, ∃ idx,
      findOperator (f.upToValue v) = some (o'.1, o'.2, idx) := by
  obtain ⟨later, hlater⟩ := whereOperators_split f.operator f.known
  have hsome : (f.earlier.findSome? fun o =>
      (find o.1 (f.upToValue v)).map fun idx => (o.1, o.2, idx)).isSome := by
    rw [List.findSome?_isSome_iff]
    refine ⟨o, ho, ?_⟩
    rw [Option.isSome_map, Option.isSome_iff_ne_none, ne_eq,
      find_eq_none_iff_absent (operator_chars (Filter.mem_of_earlier ho)).1, not_not]
    exact (Filter.infix_upToValue ho).mpr hinner
  obtain ⟨found, hfound⟩ := Option.isSome_iff_exists.mp hsome
  obtain ⟨o', ho', hfind⟩ := List.exists_of_findSome?_eq_some hfound
  obtain ⟨idx, -, rfl⟩ := Option.map_eq_some_iff.mp hfind
  refine ⟨o', ho', idx, ?_⟩
  change List.findSome? (fun o => (find o.1 (f.upToValue v)).map fun idx => (o.1, o.2, idx))
    whereOperators = _
  rw [hlater, List.findSome?_append]
  change ((f.earlier.findSome? _).or _) = _
  rw [hfound, Option.some_or]

theorem IsName.trim_eq {w : List Char} (h : IsName w) : trim w = w :=
  trim_of_no_whitespace fun c hc => isWhitespace_of_isNameChar (h.2 c hc)

theorem IsName.trim_blank_eq {w : List Char} (h : IsName w) : trim (w ++ [' ']) = w := by
  obtain ⟨c, rest, rfl⟩ := List.exists_cons_of_ne_nil h.1
  have hc := isWhitespace_of_isNameChar (h.2 c List.mem_cons_self)
  rw [List.cons_append, trim_concat_blank hc, h.trim_eq]

/-- What is read when the condition's own operator is found. -/
theorem Filter.parse_own (h : ∀ o ∈ f.earlier, ¬ o.1 <:+: v) :
    parseSingleCondition (f.upToValue v) = (conditionValue (trim v)).map fun value =>
      some ⟨String.ofList f.column, f.operator.2, value⟩ := by
  have happend : f.upToValue v = (f.column ++ [' ']) ++ (f.operator.1 ++ ' ' :: v) := by
    simp [Filter.upToValue]
  have hto : sliceTo (size (f.column ++ [' '])) (f.upToValue v) = some (f.column ++ [' ']) := by
    rw [happend]
    exact sliceTo_append _ _
  have hfrom : sliceFrom (size (f.column ++ [' ']) + size f.operator.1) (f.upToValue v) =
      some (' ' :: v) := by
    rw [happend, ← size_append, ← List.append_assoc]
    exact sliceFrom_append _ _
  unfold parseSingleCondition
  rw [Filter.findOperator_own h]
  simp only [hto, hfrom, Option.bind_eq_bind, Option.bind_some, trim_blank, f.name.trim_blank_eq]
  cases conditionValue (trim v) <;> rfl

/-- A text cut at an operator that does not begin where the condition's own does is no column. -/
theorem Filter.column_ne_of_earlier {o : List Char × Operator} (ho : o ∈ f.earlier)
    {a b : List Char} (h : f.upToValue v = a ++ (o.1 ++ b)) : trim a ≠ f.column := by
  have hknown := Filter.mem_of_earlier ho
  obtain ⟨hne, hchars⟩ := operator_chars hknown
  obtain ⟨d, rest, hd⟩ := List.exists_cons_of_ne_nil hne
  have hdo := hchars d (hd ▸ List.mem_cons_self)
  obtain ⟨z, rfl, hz⟩ | ⟨z, hz, hb⟩ := List.append_eq_append_iff.mp h
  · cases z with
    | nil =>
        -- The operator would be a blank.
        rw [hd, List.nil_append, List.cons_append] at hz
        rw [← (List.cons.inj hz).1] at hdo
        exact absurd hdo.2.1 (by decide)
    | cons c z =>
        obtain ⟨rfl, hown⟩ := List.cons.inj hz
        cases z with
        | nil =>
            -- It would be the beginning of the condition's own operator.
            have hpre : o.1 <+: f.operator.1 ++ ' ' :: v := ⟨b, hown.symm⟩
            have hinner := (prefix_of_prefix_append (blank_notMem_operator hknown) hpre).isInfix
            exact absurd hinner (not_infix_of_earlier f.operator f.known o ho)
        | cons c z =>
            -- The column would go on with the condition's own operator.
            obtain ⟨hownne, hownchars⟩ := operator_chars f.known
            obtain ⟨e, own, he⟩ := List.exists_cons_of_ne_nil hownne
            rw [he, List.cons_append] at hown
            obtain ⟨rfl, -⟩ := List.cons.inj hown
            have hchar := hownchars e (he ▸ List.mem_cons_self)
            intro heq
            have hmem : e ∈ trim (f.column ++ ' ' :: e :: z) := mem_trim hchar.2.1 (by simp)
            rw [heq] at hmem
            rw [f.name.2 e hmem] at hchar
            exact absurd hchar.1 (by decide)
  · cases z with
    | nil =>
        rw [hd, List.nil_append, List.cons_append] at hb
        rw [(List.cons.inj hb).1] at hdo
        exact absurd hdo.2.1 (by decide)
    | cons c z =>
        rw [hd, List.cons_append, List.cons_append] at hb
        obtain ⟨rfl, -⟩ := List.cons.inj hb
        have hname := f.name.2 d (by rw [hz]; simp)
        rw [hname] at hdo
        exact absurd hdo.1 (by decide)

/-- The condition is read back when no earlier operator is in the way and the value is the
literal's. -/
theorem Filter.parse_eq_condition :
    parseSingleCondition (f.upToValue v) = some (some f.condition) ↔
      (∀ o ∈ f.earlier, ¬ o.1 <:+: v) ∧ conditionValue (trim v) = some f.literal.value := by
  by_cases h : ∀ o ∈ f.earlier, ¬ o.1 <:+: v
  · rw [Filter.parse_own h, and_iff_right h]
    unfold Filter.condition
    cases conditionValue (trim v) <;> simp
  · refine iff_of_false (fun hparse => ?_) (fun hread => h hread.1)
    push Not at h
    obtain ⟨o, ho, hinner⟩ := h
    obtain ⟨o', ho', idx, hfind⟩ := Filter.findOperator_earlier ho hinner
    obtain ⟨a, b, heq, -, hto, hfrom⟩ := slices_of_find (findOperator_eq_some hfind)
    unfold parseSingleCondition at hparse
    rw [hfind] at hparse
    simp only [hto, hfrom, Option.bind_eq_bind, Option.bind_some] at hparse
    cases hvalue : conditionValue (trim b) with
    | none => simp [hvalue] at hparse
    | some value =>
        have hcolumn : String.ofList (trim a) = String.ofList f.column := by
          simp only [hvalue, Option.bind_some] at hparse
          exact congrArg Condition.column (Option.some.inj (Option.some.inj hparse))
        exact Filter.column_ne_of_earlier ho' heq (String.ofList_injective hcolumn)

/-- Something is read, or the parser panics. -/
theorem Filter.parse_ne_skip : parseSingleCondition (f.upToValue v) ≠ some none := by
  by_cases h : ∀ o ∈ f.earlier, ¬ o.1 <:+: v
  · rw [Filter.parse_own h]
    cases conditionValue (trim v) <;> simp
  · push Not at h
    obtain ⟨o, ho, hinner⟩ := h
    obtain ⟨o', ho', idx, hfind⟩ := Filter.findOperator_earlier ho hinner
    unfold parseSingleCondition
    rw [hfind]
    obtain ⟨a, b, -, -, hto, hfrom⟩ := slices_of_find (findOperator_eq_some hfind)
    simp only [hto, hfrom, Option.bind_eq_bind, Option.bind_some]
    cases conditionValue (trim b) <;> simp

end

/-! ### Values -/

theorem digitsValue_toDigits (n : ℕ) : Binary64.digitsValue (Nat.toDigits 10 n) = n := by
  have hfold : ∀ (ds : List Char) (init : ℕ),
      ds.foldl (fun acc c => acc * 10 + Binary64.digitValue c) init =
          Nat.ofDigitChars 10 ds init := by
    intro ds
    induction ds with
    | nil => exact fun _ => Nat.ofDigitChars_nil.symm
    | cons c ds ih =>
        intro init
        rw [List.foldl_cons, ih, Nat.ofDigitChars_cons, Nat.mul_comm]
        rfl
  exact (hfold _ 0).trans Nat.ofDigitChars_ten_toDigits

theorem isDigit_toDigits {n : ℕ} {c : Char} (hc : c ∈ Nat.toDigits 10 n) : c.isDigit :=
  Nat.isDigit_of_mem_toDigits (by decide) (by decide) hc

theorem parseDigits_toDigits (n : ℕ) : parseDigits (Nat.toDigits 10 n) = some n := by
  rw [parseDigits, if_pos, digitsValue_toDigits]
  exact ⟨Nat.toDigits_ne_nil, List.all_eq_true.mpr fun c hc => isDigit_toDigits hc⟩

/-- A written integer is read back. -/
theorem parseI64_int {i : ℤ} (h : -2 ^ 63 ≤ i ∧ i < 2 ^ 63) :
    parseI64 (String.ofList (Literal.int i).text) = some i := by
  unfold parseI64 Literal.text
  rw [String.toList_ofList]
  dsimp only
  split_ifs with hneg
  · have hle : i.natAbs ≤ 2 ^ 63 := by omega
    simp only [parseDigits_toDigits, Option.bind_some, if_pos hle, Option.some.injEq]
    omega
  · have hlt : i.natAbs < 2 ^ 63 := by omega
    have hnat : ((i.natAbs : ℕ) : ℤ) = i := by omega
    split
    · next ds heq =>
        exact absurd (isDigit_toDigits (heq ▸ List.mem_cons_self)) (by decide)
    · next ds heq =>
        exact absurd (isDigit_toDigits (heq ▸ List.mem_cons_self)) (by decide)
    · simp only [parseDigits_toDigits, Option.bind_some, if_pos hlt, hnat]

/-- An integer has no blank. -/
theorem blank_notMem_of_parseI64 {s : String} {i : ℤ} (h : parseI64 s = some i) :
    ' ' ∉ s.toList := by
  have hdigits : ∀ {ds : List Char} {n : ℕ}, parseDigits ds = some n → ' ' ∉ ds := by
    intro ds n hds hmem
    unfold parseDigits at hds
    split_ifs at hds with hall
    have hblank := List.all_eq_true.mp hall.2 ' ' hmem
    revert hblank
    decide
  unfold parseI64 at h
  split at h
  · next ds heq =>
      obtain ⟨n, hn, -⟩ := Option.bind_eq_some_iff.mp h
      simpa [heq] using hdigits hn
  · next ds heq =>
      obtain ⟨n, hn, -⟩ := Option.bind_eq_some_iff.mp h
      simpa [heq] using hdigits hn
  · obtain ⟨n, hn, -⟩ := Option.bind_eq_some_iff.mp h
    exact hdigits hn

theorem blank_notMem_of_eqIgnoreAsciiCase {t w : List Char} (h : eqIgnoreAsciiCase t w)
    (hw : ' ' ∉ w.map Char.toLower) : ' ' ∉ t := by
  intro hmem
  have heq : t.map Char.toLower = w.map Char.toLower := by simpa [eqIgnoreAsciiCase] using h
  rw [← heq] at hw
  exact hw (List.mem_map.mpr ⟨' ', hmem, by decide⟩)

/-- What a text with a blank in it stands for. -/
theorem plainValue_of_blank {t : List Char} (ht : ' ' ∈ t) :
    (∃ x, plainValue t = .float x) ∨ plainValue t = .string (String.ofList t) := by
  unfold plainValue
  split
  · next i hi => exact absurd ht (by simpa using blank_notMem_of_parseI64 hi)
  · split
    · next x _ => exact .inl ⟨x, rfl⟩
    · rw [if_neg, if_neg, if_neg]
      · exact .inr rfl
      all_goals exact fun h => blank_notMem_of_eqIgnoreAsciiCase h (by decide) ht

theorem plainValue_eq_string {t : List Char} {u : String} (h : plainValue t = .string u) :
    u = String.ofList t := by
  unfold plainValue at h
  split at h
  · cases h
  · split at h
    · cases h
    · split_ifs at h
      exact (Value.string.inj h).symm

theorem conditionValue_of_head {c : Char} (hc : c ≠ '\'') (t : List Char) :
    conditionValue (c :: t) = some (plainValue (c :: t)) :=
  if_neg fun h => hc (Option.some.inj h.1)

/-- Only a text in quotes stands for the string between them, if that has no quote. -/
theorem eq_quoted_of_conditionValue {t s : List Char} (hs : '\'' ∉ s)
    (h : conditionValue ('\'' :: t) = some (.string (String.ofList s))) : t = s ++ ['\''] := by
  have hquote : Char.utf8Size '\'' = 1 := by decide
  unfold conditionValue at h
  split_ifs at h with hquoted
  · obtain ⟨middle, hslice, hmiddle⟩ := Option.map_eq_some_iff.mp h
    obtain rfl : middle = s := String.ofList_injective (Value.string.inj hmiddle)
    obtain ⟨a, b, heq, ha, hb⟩ := slice_eq_some.mp hslice
    have hsize : size a + size middle + size b = size ('\'' :: t) := by
      rw [heq, size_append, size_append]
    have hsizeb : size b = 1 := by
      rw [size_cons, hquote] at hb hsize
      omega
    obtain ⟨c, a, rfl⟩ : ∃ c a', a = c :: a' := List.exists_cons_of_ne_nil (by rintro rfl; cases ha)
    obtain ⟨b, d, rfl⟩ : ∃ b' d, b = b' ++ [d] := by
      obtain rfl | h := List.eq_nil_or_concat' b
      · cases hsizeb
      · exact h
    obtain ⟨rfl, htail⟩ := List.cons.inj heq
    have ha : a = [] := size_eq_zero.mp (by rw [size_cons, hquote] at ha; omega)
    have hlast : d = '\'' := by
      have hlast := hquoted.2
      rw [heq, ← List.append_assoc, List.getLast?_concat] at hlast
      exact Option.some.inj hlast
    subst ha hlast
    have hb : b = [] := size_eq_zero.mp (by rw [size_append, size_cons, hquote] at hsizeb; omega)
    subst hb
    simpa using htail
  · have heq := plainValue_eq_string (Option.some.inj h)
    rw [String.ofList_injective heq] at hs
    exact absurd List.mem_cons_self hs

/-- What the literals without quotes are made of. -/
def isLiteralChar (c : Char) : Bool := c = '-' || c.isDigit || c.isLower

theorem toNat_of_isLiteralChar {c : Char} (h : isLiteralChar c) :
    c.toNat = 45 ∨ 48 ≤ c.toNat ∧ c.toNat ≤ 57 ∨ 97 ≤ c.toNat ∧ c.toNat ≤ 122 := by
  have hval : c.toNat = c.val.toNat := rfl
  simp only [isLiteralChar, Bool.or_eq_true, decide_eq_true_eq] at h
  obtain (rfl | h) | h := h
  · decide
  · simp [Char.isDigit, UInt32.le_iff_toNat_le] at h
    omega
  · simp [Char.isLower, UInt32.le_iff_toNat_le] at h
    omega

theorem isWhitespace_of_isLiteralChar {c : Char} (h : isLiteralChar c) :
    isWhitespace c = false := by
  have hrange := toNat_of_isLiteralChar h
  simp only [isWhitespace, Bool.or_eq_false_iff, Bool.and_eq_false_iff, decide_eq_false_iff_not]
  omega

namespace Literal

/-- A literal is a string in quotes, or has only such characters. -/
theorem text_cases (l : Literal) : (∃ s, l = .string s) ∨
    (l.text ≠ [] ∧ ∀ c ∈ l.text, isLiteralChar c) := by
  cases l with
  | string s => exact .inl ⟨s, rfl⟩
  | int i =>
      refine .inr ?_
      have hdigits : ∀ c ∈ Nat.toDigits 10 i.natAbs, isLiteralChar c := fun c hc => by
        simp [isLiteralChar, isDigit_toDigits hc]
      unfold text
      dsimp only
      split_ifs
      · exact ⟨List.cons_ne_nil _ _, List.forall_mem_cons.mpr ⟨rfl, hdigits⟩⟩
      · exact ⟨Nat.toDigits_ne_nil, hdigits⟩
  | bool b =>
      refine .inr ?_
      cases b
      · exact ⟨List.cons_ne_nil _ _, List.all_eq_true.mp (by decide)⟩
      · exact ⟨List.cons_ne_nil _ _, List.all_eq_true.mp (by decide)⟩
  | null => exact .inr ⟨List.cons_ne_nil _ _, List.all_eq_true.mp (by decide)⟩

variable {l : Literal}

theorem trim_text (l : Literal) : trim l.text = l.text := by
  obtain ⟨s, rfl⟩ | ⟨-, hchars⟩ := l.text_cases
  · exact trim_concat (by decide) (by decide) s
  · exact trim_of_no_whitespace fun c hc => isWhitespace_of_isLiteralChar (hchars c hc)

/-- What a literal begins with. -/
theorem exists_head (l : Literal) : ∃ c rest, l.text = c :: rest ∧ isWhitespace c = false ∧
    (isNameChar c = false ∨ c.isDigit ∨ c ∈ ['t', 'f', 'n']) := by
  cases l with
  | string s => exact ⟨_, _, rfl, by decide, .inl (by decide)⟩
  | int i =>
      unfold text
      dsimp only
      split_ifs
      · exact ⟨_, _, rfl, by decide, .inl (by decide)⟩
      · obtain ⟨c, rest, hc⟩ := List.exists_cons_of_ne_nil (Nat.toDigits_ne_nil (n := i.natAbs))
        have hdigit := isDigit_toDigits (hc ▸ List.mem_cons_self)
        refine ⟨c, rest, hc, isWhitespace_of_isLiteralChar ?_, .inr (.inl hdigit)⟩
        simp [isLiteralChar, hdigit]
  | bool b => cases b <;> exact ⟨_, _, rfl, by decide, .inr (.inr (by decide))⟩
  | null => exact ⟨_, _, rfl, by decide, .inr (.inr (by decide))⟩

theorem conditionValue_eq_plain (hl : ∀ s, l ≠ .string s) (z : List Char) :
    conditionValue (l.text ++ z) = some (plainValue (l.text ++ z)) := by
  obtain ⟨s, rfl⟩ | ⟨hne, hchars⟩ := l.text_cases
  · exact absurd rfl (hl s)
  · obtain ⟨c, rest, hc⟩ := List.exists_cons_of_ne_nil hne
    have hchar := hchars c (hc ▸ List.mem_cons_self)
    rw [hc, List.cons_append]
    refine conditionValue_of_head ?_ _
    rintro rfl
    exact absurd hchar (by decide)

/-- A literal stands for its value. -/
theorem conditionValue_text (hl : l.Ok) : conditionValue l.text = some l.value := by
  cases l with
  | string s =>
      have hquote : Char.utf8Size '\'' = 1 := by decide
      have hslice : slice 1 (size ('\'' :: (s ++ ['\''])) - 1) ('\'' :: (s ++ ['\''])) =
          some s := by
        refine slice_eq_some.mpr ⟨['\''], ['\''], by simp, by decide, ?_⟩
        simp only [size_cons, size_append, size_nil, hquote]
        omega
      have hlast : ('\'' :: (s ++ ['\''])).getLast? = some '\'' := by
        rw [← List.cons_append, List.getLast?_concat]
      unfold conditionValue text
      dsimp only
      rw [if_pos ⟨rfl, hlast⟩, hslice]
      rfl
  | int i =>
      have hplain := conditionValue_eq_plain (l := .int i) nofun []
      rw [List.append_nil] at hplain
      rw [hplain, plainValue, parseI64_int hl]
      rfl
  | bool b => cases b <;> rfl
  | null => rfl

/-- A literal that goes on with a blank stands for something else. -/
theorem conditionValue_append (hl : l.Ok) {z : List Char} (hz : ' ' ∈ z) :
    conditionValue (l.text ++ z) ≠ some l.value := by
  intro h
  by_cases hstring : ∃ s, l = .string s
  · obtain ⟨s, rfl⟩ := hstring
    have heq : (s ++ ['\'']) ++ z = s ++ ['\''] := eq_quoted_of_conditionValue hl.1 h
    obtain rfl : z = [] := List.append_right_eq_self.mp heq
    cases hz
  · rw [conditionValue_eq_plain fun s hs => hstring ⟨s, hs⟩, Option.some.injEq] at h
    obtain ⟨x, hx⟩ | hx := plainValue_of_blank (List.mem_append_right l.text hz)
    · rw [hx] at h
      cases l <;> cases h
    · rw [hx] at h
      cases l with
      | string s => exact hstring ⟨s, rfl⟩
      | _ => cases h

end Literal

/-- A quote and no more characters than a string has do not stand for the string. -/
theorem conditionValue_short {s t : List Char} (hs : '\'' ∉ s) (hle : t.length ≤ s.length) :
    conditionValue ('\'' :: t) ≠ some (.string (String.ofList s)) := by
  intro h
  rw [eq_quoted_of_conditionValue hs h, List.length_append, List.length_singleton] at hle
  omega

end AresaDb.Query
