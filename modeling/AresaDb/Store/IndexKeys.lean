import AresaDb.Lib.FixedPoint
import AresaDb.Store.Json
import AresaDb.Store.PropertyIndex

/-! # The keys of indexes

Type, field and term are joined by NUL characters that nothing escapes (`storage/local.rs`), and
terms of values are rounded or written without their kind.  A key is of one triple alone exactly
when its type and field are plain and its term is `Unmistakable` (`index_keys_unique_iff`). -/

namespace AresaDb.Store

def makeFulltextKey (nodeType field token : String) : String := entryKey nodeType field token

/-! ### Cuts -/

/-- Two ways to cut a list at a separator are one, when the first part of one has none, or the
second cut comes later. -/
theorem cut_cases {α : Type} {c : α} {a b s t : List α} (ha : c ∉ a)
    (h : b ++ c :: t = a ++ c :: s) :
    b = a ∧ t = s ∨ ∃ u, b = a ++ c :: u ∧ s = u ++ c :: t := by
  obtain ⟨u, rfl, hu⟩ | ⟨u, rfl, hu⟩ := List.append_eq_append_iff.mp h
  · cases u with
    | nil => exact .inl ⟨(List.append_nil b).symm, (List.cons.inj hu).2⟩
    | cons d u =>
        obtain ⟨rfl, -⟩ := List.cons.inj hu
        exact absurd (by simp) ha
  · cases u with
    | nil => exact .inl ⟨List.append_nil a, (List.cons.inj hu).2.symm⟩
    | cons d u =>
        obtain ⟨rfl, hs⟩ := List.cons.inj hu
        exact .inr ⟨u, rfl, hs⟩

/-- The parts of a text after its NULs. -/
def Cut (s rest : String) : Prop := ∃ front, s = front ++ "\x00" ++ rest

theorem cut_iff {s rest : String} :
    Cut s rest ↔ ∃ front, s.toList = front ++ '\x00' :: rest.toList := by
  constructor
  · rintro ⟨front, rfl⟩
    exact ⟨front.toList, by simp⟩
  · rintro ⟨front, h⟩
    exact ⟨String.ofList front, by rw [← String.toList_inj, h]; simp⟩

theorem not_plain_iff {s : String} : ¬ Plain s ↔ ∃ rest, Cut s rest := by
  unfold Plain
  rw [not_not]
  constructor
  · intro h
    obtain ⟨front, rest, hs⟩ := List.append_of_mem h
    exact ⟨String.ofList rest, cut_iff.mpr ⟨front, by rw [String.toList_ofList]; exact hs⟩⟩
  · rintro ⟨rest, hcut⟩
    obtain ⟨front, hs⟩ := cut_iff.mp hcut
    rw [hs]
    simp

theorem Cut.ne {s rest : String} (h : Cut s rest) : rest ≠ s := by
  rintro rfl
  obtain ⟨front, hs⟩ := cut_iff.mp h
  have hlength := congrArg List.length hs
  rw [List.length_append, List.length_cons] at hlength
  omega

/-! ### Keys of one triple -/

/-- Among the keys of some terms, the key of a triple is of no other triple. -/
def KeyUnique (terms : Set String) (t f x : String) : Prop :=
  ∀ t' f' x', x' ∈ terms → entryKey t' f' x' = entryKey t f x → t' = t ∧ f' = f ∧ x' = x

/-- Plain names are read back, but for those that swallow the front of a term. -/
theorem keyUnique_iff {terms : Set String} {t f x : String} (hx : x ∈ terms) :
    KeyUnique terms t f x ↔ Plain t ∧ Plain f ∧ ∀ rest, Cut x rest → rest ∉ terms := by
  constructor
  · intro h
    refine ⟨?_, ?_, fun rest hcut hrest => ?_⟩
    · by_contra ht
      obtain ⟨rest, hcut⟩ := not_plain_iff.mp ht
      obtain ⟨front, rfl⟩ := hcut
      have hkey := h front (rest ++ "\x00" ++ f) x hx (by simp [entryKey, String.append_assoc])
      exact Cut.ne ⟨rest, rfl⟩ hkey.2.1.symm
    · by_contra hf
      obtain ⟨rest, hcut⟩ := not_plain_iff.mp hf
      have hne := hcut.ne
      obtain ⟨front, hfront⟩ := hcut
      have hkey := h (t ++ "\x00" ++ front) rest x hx
        (by simp [entryKey, hfront, String.append_assoc])
      exact hne hkey.2.1
    · have hne := hcut.ne
      obtain ⟨front, hfront⟩ := hcut
      have hkey := h t (f ++ "\x00" ++ front) rest hrest
        (by simp [entryKey, hfront, String.append_assoc])
      exact hne hkey.2.2
  · rintro ⟨ht, hf, hcut⟩ t' f' x' hx' hkey
    rw [← String.toList_inj, toList_entryKey, toList_entryKey] at hkey
    have hnone : ∀ front : List Char, x.toList ≠ front ++ '\x00' :: x'.toList :=
      fun front h => hcut x' (cut_iff.mpr ⟨front, h⟩) hx'
    obtain ⟨ht', hrest⟩ | ⟨u, -, hrest⟩ := cut_cases ht hkey
    · obtain ⟨hf', hx''⟩ | ⟨u, -, hcut'⟩ := cut_cases hf hrest
      · exact ⟨String.toList_inj.mp ht', String.toList_inj.mp hf', String.toList_inj.mp hx''⟩
      · exact absurd hcut' (hnone u)
    · obtain ⟨-, hx''⟩ | ⟨w, -, hx''⟩ := cut_cases hf hrest.symm
      · exact absurd hx''.symm (hnone f'.toList)
      · exact absurd (by rw [hx'', List.append_assoc]; rfl) (hnone (w ++ '\x00' :: f'.toList))

/-! ### Texts of values -/

/-- The letter in front of the text of a value. -/
def Value.tag : Value → Char
  | .string _ => 's'
  | .int _ => 'i'
  | .float _ => 'f'
  | .bool _ => 'b'
  | .null => 'n'
  | _ => 'j'

/-- The text of a value after the letter. -/
def valueBody (J : Serde) : Value → String
  | .string s => s
  | .int i => toString i
  | .float f => f.toFixed 10
  | .bool b => toString b
  | .null => ""
  | value => J.text value

variable {J : Serde}

theorem toList_valueText (v : Value) :
    (valueText J v).toList = v.tag :: ':' :: (valueBody J v).toList := by
  cases v <;> simp [valueText, Value.tag, valueBody]

theorem valueText_eq_iff_body {v w : Value} :
    valueText J w = valueText J v ↔ w.tag = v.tag ∧ valueBody J w = valueBody J v := by
  rw [← String.toList_inj, toList_valueText, toList_valueText, List.cons.injEq, List.cons.injEq,
    String.toList_inj]
  simp

/-- The letter and the colon are no NULs. -/
theorem cut_valueText {v : Value} {rest : String} :
    Cut (valueText J v) rest ↔ Cut (valueBody J v) rest := by
  have htag : v.tag ≠ '\x00' := by cases v <;> simp [Value.tag]
  rw [cut_iff, cut_iff, toList_valueText]
  constructor
  · rintro ⟨front, h⟩
    obtain _ | ⟨c, _ | ⟨d, front⟩⟩ := front
    · exact absurd (List.cons.inj h).1 htag
    · exact absurd (List.cons.inj (List.cons.inj h).2).1 (by decide)
    · exact ⟨front, (List.cons.inj (List.cons.inj h).2).2⟩
  · rintro ⟨front, h⟩
    exact ⟨v.tag :: ':' :: front, by rw [h]; rfl⟩

theorem Plain.not_cut {s rest : String} (h : Plain s) : ¬ Cut s rest :=
  fun hcut => not_plain_iff.mpr ⟨rest, hcut⟩ h

theorem plain_toString_nat (n : ℕ) : Plain (toString n) := by
  unfold Plain
  rw [Binary64.toList_toString]
  intro h
  exact absurd (Nat.isDigit_of_mem_toDigits (by decide) (by decide) h) (by decide)

theorem plain_toString_int (i : ℤ) : Plain (toString i) := by
  cases i with
  | ofNat n => exact plain_toString_nat n
  | negSucc n =>
      have htext : toString (Int.negSucc n) = "-" ++ toString (n + 1) := rfl
      have hnat := plain_toString_nat (n + 1)
      unfold Plain at hnat ⊢
      rw [htext, String.toList_append, List.mem_append, not_or]
      exact ⟨by decide, hnat⟩

theorem plain_toFixed {f : Binary64} (h : f.isNaN = false) (k : ℕ) : Plain (f.toFixed k) := by
  unfold Plain
  rw [Binary64.toList_toFixed h, List.mem_append, not_or]
  constructor
  · cases f.isNegative <;> decide
  · intro hbody
    have hchar := Binary64.mem_fixedBody hbody
    revert hchar
    simp

/-- What it takes for a value to be read back from keys: a float stands out among the floats with
ten digits, no NUL of a string is followed by the text of a value, and what is written as JSON, by a
printer that is left open, has a text that no other value has, with no such NUL. -/
def Unmistakable (J : Serde) : Value → Prop
  | .null | .bool _ | .int _ => True
  | .float f => f.StandsOut 10
  | .string s => ∀ rest, Cut s rest → ∀ w, valueText J w ≠ rest
  | value =>
      (∀ w : Value, w.tag = 'j' → J.text w = J.text value → w = value) ∧
        ∀ rest, Cut (J.text value) rest → ∀ w, valueText J w ≠ rest

theorem valueBody_of_tag {w : Value} (h : w.tag = 'j') : valueBody J w = J.text w := by
  cases w <;> first
    | rfl
    | exact absurd h (by simp [Value.tag])

theorem unmistakable_iff {v : Value} :
    ((∀ w, valueText J w = valueText J v → w = v) ∧
        ∀ rest, Cut (valueText J v) rest → rest ∉ Set.range (valueText J)) ↔ Unmistakable J v := by
  have hrange : ∀ rest, rest ∉ Set.range (valueText J) ↔ ∀ w, valueText J w ≠ rest := by
    intro rest
    simp [Set.mem_range]
  simp only [cut_valueText, valueText_eq_iff_body, hrange]
  cases v with
  | null =>
      refine iff_of_true ⟨fun w hw => ?_, fun rest hcut => ?_⟩ trivial
      · cases w <;> first | rfl | exact absurd hw.1 (by simp [Value.tag])
      · have hplain : Plain "" := by decide
        exact absurd hcut hplain.not_cut
  | bool b =>
      refine iff_of_true ⟨fun w hw => ?_, fun rest hcut => ?_⟩ trivial
      · cases w with
        | bool c => exact congrArg Value.bool ((toString_bool_inj c b).mp hw.2)
        | _ => exact absurd hw.1 (by simp [Value.tag])
      · have hplain : Plain (toString b) := by cases b <;> decide
        exact absurd hcut hplain.not_cut
  | int i =>
      refine iff_of_true ⟨fun w hw => ?_, fun rest hcut => ?_⟩ trivial
      · cases w with
        | int j => exact congrArg Value.int (by simpa [valueBody] using hw.2)
        | _ => exact absurd hw.1 (by simp [Value.tag])
      · exact absurd hcut (plain_toString_int i).not_cut
  | float f =>
      have hunique := Binary64.toFixed_unique_iff (show 10 ≠ 0 by decide) (x := f)
      refine Iff.trans ⟨fun h => hunique.mp fun g hg => ?_, fun h => ⟨fun w hw => ?_, ?_⟩⟩ Iff.rfl
      · exact Value.float.inj (h.1 (.float g) ⟨rfl, hg⟩)
      · cases w with
        | float g => exact congrArg Value.float (hunique.mpr h g hw.2)
        | _ => exact absurd hw.1 (by simp [Value.tag])
      · exact fun rest hcut => absurd hcut (plain_toFixed h.1 10).not_cut
  | string s =>
      refine ⟨fun h => h.2, fun h => ⟨fun w hw => ?_, h⟩⟩
      cases w with
      | string t => exact congrArg Value.string hw.2
      | _ => exact absurd hw.1 (by simp [Value.tag])
  | bytes _ | vector _ | array _ | object _ =>
      refine and_congr ⟨fun h w hw htext => ?_, fun h w hw => ?_⟩ Iff.rfl
      · exact h w ⟨hw, (valueBody_of_tag hw).trans htext⟩
      · exact h w hw.1 ((valueBody_of_tag hw.1).symm.trans hw.2)

theorem serializeArray_ints (F : JsonFormat) (b : List UInt8) :
    serializeArray F (b.map fun x => .int x.toNat) = b.map fun x => .int x.toNat := by
  induction b with
  | nil => rfl
  | cons x b ih => exact congrArg (Json.int x.toNat :: ·) ih

/-- Bytes are written as the array of their numbers is. -/
theorem not_unmistakable_bytes {F : JsonFormat}
    (htext : ∀ v w : Value, v.serialize F = w.serialize F → F.text v = F.text w) (b : List UInt8) :
    ¬ Unmistakable F.serde (.bytes b) := by
  rintro ⟨hunique, -⟩
  have hsame : Value.serialize F (.array (b.map fun x => .int x.toNat)) =
      Value.serialize F (.bytes b) := congrArg Json.array (serializeArray_ints F b)
  exact absurd (hunique (.array (b.map fun x => .int x.toNat)) rfl (htext _ _ hsame)) (by simp)

/-! ### The result -/

/-- A property key is of one triple when it is so among the keys of texts, and the text is of one
value. -/
theorem property_key_unique_iff (t f : String) (v : Value) :
    (∀ t' f' v', makePropertyIndexKey J t' f' v' = makePropertyIndexKey J t f v →
        t' = t ∧ f' = f ∧ v' = v) ↔
      Plain t ∧ Plain f ∧ Unmistakable J v := by
  have hmem : valueText J v ∈ Set.range (valueText J) := ⟨v, rfl⟩
  have hkey := keyUnique_iff (t := t) (f := f) hmem
  rw [← unmistakable_iff]
  constructor
  · intro h
    have hterms : KeyUnique (Set.range (valueText J)) t f (valueText J v) := by
      rintro t' f' _ ⟨w, rfl⟩ heq
      obtain ⟨rfl, rfl, rfl⟩ := h t' f' w heq
      exact ⟨rfl, rfl, rfl⟩
    obtain ⟨ht, hf, hcut⟩ := hkey.mp hterms
    refine ⟨ht, hf, fun w hw => ?_, hcut⟩
    exact (h t f w (congrArg (entryKey t f) hw)).2.2
  · rintro ⟨ht, hf, hvalue, hcut⟩ t' f' w heq
    obtain ⟨ht', hf', hw⟩ := hkey.mpr ⟨ht, hf, hcut⟩ t' f' _ ⟨w, rfl⟩ heq
    exact ⟨ht', hf', hvalue w hw⟩

theorem fulltext_key_unique_iff (t f w : String) :
    (∀ t' f' w', makeFulltextKey t' f' w' = makeFulltextKey t f w →
        t' = t ∧ f' = f ∧ w' = w) ↔
      Plain t ∧ Plain f ∧ Plain w := by
  have hkey := keyUnique_iff (t := t) (f := f) (Set.mem_univ w)
  have hplain : (∀ rest, Cut w rest → rest ∉ Set.univ) ↔ Plain w := by
    rw [← not_iff_not, not_plain_iff]
    simp
  rw [← hplain, ← hkey]
  exact ⟨fun h t' f' w' _ => h t' f' w', fun h t' f' w' => h t' f' w' trivial⟩

/-- Of a property key the triple can be read back exactly when type and field are plain and the
value is unmistakable, and of a full-text key when all three are plain. -/
theorem index_keys_unique_iff (J : Serde) (t f : String) :
    (∀ v : Value,
      (∀ t' f' v', makePropertyIndexKey J t' f' v' = makePropertyIndexKey J t f v →
          t' = t ∧ f' = f ∧ v' = v) ↔
        Plain t ∧ Plain f ∧ Unmistakable J v) ∧
    ∀ w : String,
      (∀ t' f' w', makeFulltextKey t' f' w' = makeFulltextKey t f w →
          t' = t ∧ f' = f ∧ w' = w) ↔
        Plain t ∧ Plain f ∧ Plain w :=
  ⟨property_key_unique_iff t f, fulltext_key_unique_iff t f⟩

/-- `0.1` and the next greater number have one key, and a NUL moves from a field into a type. -/
theorem index_keys_collide :
    (¬ ∀ (J : Serde) (t f t' f' : String) (v v' : Value),
      makePropertyIndexKey J t f v = makePropertyIndexKey J t' f' v' →
        t = t' ∧ f = f' ∧ v = v') ∧
    ¬ ∀ t f w t' f' w' : String,
      makeFulltextKey t f w = makeFulltextKey t' f' w' → t = t' ∧ f = f' ∧ w = w' := by
  constructor
  · intro h
    have htext : Binary64.toFixed 10 ⟨0x3fb999999999999a⟩ =
        Binary64.toFixed 10 ⟨0x3fb999999999999b⟩ := by decide +kernel
    have heq := (h ⟨id, fun _ => 0, fun _ => "", fun _ => rfl⟩ "item" "price" "item" "price"
      (.float ⟨0x3fb999999999999a⟩) (.float ⟨0x3fb999999999999b⟩)
      (congrArg (fun s => entryKey "item" "price" ("f:" ++ s)) htext)).2.2
    exact absurd (Value.float.inj heq) (by decide)
  · intro h
    exact absurd (h "a\x00b" "c" "w" "a" "b\x00c" "w" (by decide)).1 (by decide)

end AresaDb.Store
