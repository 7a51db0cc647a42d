import AresaDb.Store.Value

/-! # Ids as text

The ids of nodes and edges are printed and parsed as UUIDs (`storage/node.rs`).  The parser of
UUIDs is the library's: `UuidText` is one that reads back what is printed, in 32 hexadecimal digits
and four hyphens. -/

namespace AresaDb.Store

/-- `Uuid::parse_str`, which inverts the printing. -/
structure UuidText where
  parse : String → Option (BitVec 128)
  parse_display : ∀ id : NodeId, parse id.display = some id.uuid

/-- What follows the last occurrence of a character. -/
def lastPart (c : Char) (s : String) : String :=
  String.ofList (s.toList.reverse.takeWhile fun x => x ≠ c).reverse

/-- `NodeId::parse`, of a UUID alone or behind a type. -/
def NodeId.parse (T : UuidText) (s : String) : Option NodeId :=
  let text :=
    if ':' ∈ s.toList then lastPart ':' s else if '/' ∈ s.toList then lastPart '/' s else s
  (T.parse text).map NodeId.mk

/-- `EdgeId::parse` -/
def EdgeId.parse (T : UuidText) (s : String) : Option EdgeId := (T.parse s).map EdgeId.mk

def EdgeId.display (id : EdgeId) : String := (⟨id.uuid⟩ : NodeId).display

/-! ### Hexadecimal digits -/

def hexChars : List Char := "0123456789abcdef".toList

theorem digitChar_mem : ∀ n < 16, Nat.digitChar n ∈ hexChars := by decide

theorem idxOf_digitChar : ∀ n < 16, hexChars.idxOf (Nat.digitChar n) = n := by decide

/-- The number that hexadecimal digits spell. -/
def hexNumber (l : List Char) : ℕ := l.foldl (fun acc c => acc * 16 + hexChars.idxOf c) 0

theorem mem_toDigits (n : ℕ) : ∀ c ∈ Nat.toDigits 16 n, c ∈ hexChars := by
  induction n using Nat.strongRecOn with
  | _ n ih =>
      by_cases h : n < 16
      · rw [Nat.toDigits_of_lt_base h]
        intro c hc
        obtain rfl := List.mem_singleton.mp hc
        exact digitChar_mem n h
      · rw [Nat.toDigits_of_base_le (by norm_num) (not_lt.mp h)]
        intro c hc
        rcases List.mem_append.mp hc with hc | hc
        · exact ih (n / 16) (by omega) c hc
        · obtain rfl := List.mem_singleton.mp hc
          exact digitChar_mem _ (Nat.mod_lt _ (by norm_num))

theorem hexNumber_toDigits (n : ℕ) : hexNumber (Nat.toDigits 16 n) = n := by
  induction n using Nat.strongRecOn with
  | _ n ih =>
      by_cases h : n < 16
      · rw [Nat.toDigits_of_lt_base h]
        simp [hexNumber, idxOf_digitChar n h]
      · rw [Nat.toDigits_of_base_le (by norm_num) (not_lt.mp h), hexNumber, List.foldl_append]
        have hrest : List.foldl (fun acc c => acc * 16 + hexChars.idxOf c) 0
          (Nat.toDigits 16 (n / 16)) = n / 16 := ih (n / 16) (by omega)
        rw [hrest]
        simp only [List.foldl_cons, List.foldl_nil]
        rw [idxOf_digitChar _ (Nat.mod_lt _ (by norm_num))]
        omega

/-- The digits of an id. -/
def idDigits (id : NodeId) : List Char :=
  List.replicate (32 - (Nat.toDigits 16 id.uuid.toNat).length) '0' ++ Nat.toDigits 16 id.uuid.toNat

theorem length_idDigits (id : NodeId) : (idDigits id).length = 32 := by
  have hle : (Nat.toDigits 16 id.uuid.toNat).length ≤ 32 := by
    rw [Nat.length_toDigits_le_iff (by norm_num) (by norm_num)]
    have := id.uuid.isLt
    norm_num at this ⊢
    exact this
  rw [idDigits, List.length_append, List.length_replicate]
  omega

theorem mem_idDigits {id : NodeId} {c : Char} (h : c ∈ idDigits id) : c ∈ hexChars := by
  rcases List.mem_append.mp h with h | h
  · obtain rfl := List.eq_of_mem_replicate h
    decide
  · exact mem_toDigits _ c h

theorem hexNumber_idDigits (id : NodeId) : hexNumber (idDigits id) = id.uuid.toNat := by
  have hzeros : ∀ n, List.foldl (fun acc c => acc * 16 + hexChars.idxOf c) 0
      (List.replicate n '0') = 0 := by
    intro n
    induction n with
    | zero => rfl
    | succ n ih => exact ih
  rw [hexNumber, idDigits, List.foldl_append, hzeros]
  exact hexNumber_toDigits _

/-- Five groups of digits with hyphens between them. -/
theorem toList_display (id : NodeId) :
    id.display.toList = (idDigits id).take 8 ++ '-' :: ((idDigits id).drop 8).take 4 ++
      '-' :: ((idDigits id).drop 12).take 4 ++ '-' :: ((idDigits id).drop 16).take 4 ++
      '-' :: ((idDigits id).drop 20).take 12 := by
  unfold NodeId.display
  simp [idDigits, String.toList_append]

/-- Every character of the text is a digit or a hyphen. -/
theorem mem_display {id : NodeId} {c : Char} (h : c ∈ id.display.toList) :
    c = '-' ∨ c ∈ hexChars := by
  have htake : ∀ m n : ℕ, c ∈ ((idDigits id).drop m).take n → c ∈ hexChars := fun m n hc =>
    mem_idDigits (List.mem_of_mem_drop (List.mem_of_mem_take hc))
  rw [toList_display] at h
  simp only [List.mem_append, List.mem_cons] at h
  rcases h with (((h | rfl | h) | rfl | h) | rfl | h) | rfl | h
  · exact .inr (htake 0 8 h)
  · exact .inl rfl
  · exact .inr (htake 8 4 h)
  · exact .inl rfl
  · exact .inr (htake 12 4 h)
  · exact .inl rfl
  · exact .inr (htake 16 4 h)
  · exact .inl rfl
  · exact .inr (htake 20 12 h)

theorem NodeId.parse_display (T : UuidText) (id : NodeId) :
    NodeId.parse T id.display = some id := by
  have hcolon : ':' ∉ id.display.toList := fun h => by
    rcases mem_display h with h | h <;> exact absurd h (by decide)
  have hslash : '/' ∉ id.display.toList := fun h => by
    rcases mem_display h with h | h <;> exact absurd h (by decide)
  unfold NodeId.parse
  simp only [if_neg hcolon, if_neg hslash, T.parse_display]
  rfl

theorem EdgeId.parse_display (T : UuidText) (id : EdgeId) :
    EdgeId.parse T (EdgeId.display id) = some id := by
  unfold EdgeId.parse EdgeId.display
  rw [T.parse_display]
  rfl

/-! ### A parser -/

/-- The number of 32 hexadecimal digits, wherever there are hyphens. -/
def parseHex (s : String) : Option (BitVec 128) :=
  let digits := s.toList.filter fun c => c ≠ '-'
  if digits.length = 32 ∧ digits.all (· ∈ hexChars) then some (.ofNat 128 (hexNumber digits))
  else none

theorem filter_display (id : NodeId) :
    (id.display.toList.filter fun c => c ≠ '-') = idDigits id := by
  have hkeep : ∀ m n : ℕ, (((idDigits id).drop m).take n).filter (fun c => c ≠ '-') =
      ((idDigits id).drop m).take n := by
    intro m n
    refine List.filter_eq_self.mpr fun c hc => ?_
    have hhex := mem_idDigits (List.mem_of_mem_drop (List.mem_of_mem_take hc))
    have hne : c ≠ '-' := by
      rintro rfl
      exact absurd hhex (by decide)
    exact decide_eq_true hne
  have hfirst := hkeep 0 8
  rw [List.drop_zero] at hfirst
  rw [toList_display]
  simp only [List.filter_append, List.filter_cons_of_neg (p := fun c => decide (c ≠ '-')) (a := '-')
    (by decide), hfirst, hkeep, List.append_assoc]
  have hstep : ∀ m n : ℕ, ((idDigits id).drop m).take n ++ (idDigits id).drop (m + n) =
      (idDigits id).drop m := by
    intro m n
    rw [← List.drop_drop, List.take_append_drop]
  have hlast : ((idDigits id).drop 20).take 12 = (idDigits id).drop 20 :=
    List.take_of_length_le (by rw [List.length_drop, length_idDigits])
  rw [hlast, hstep 16 4, hstep 12 4, hstep 8 4]
  exact List.take_append_drop 8 _

/-- Hexadecimal digits read as UUIDs. -/
def hexText : UuidText where
  parse := parseHex
  parse_display id := by
    have hall : (idDigits id).all (· ∈ hexChars) = true :=
      List.all_eq_true.mpr fun c hc => decide_eq_true (mem_idDigits hc)
    unfold parseHex
    rw [filter_display, if_pos ⟨length_idDigits id, hall⟩, hexNumber_idDigits]
    simp

theorem NodeId.display_injective : Function.Injective NodeId.display := by
  intro a b h
  have hparse := NodeId.parse_display hexText a
  rw [h, NodeId.parse_display] at hparse
  exact (Option.some.inj hparse).symm

end AresaDb.Store
