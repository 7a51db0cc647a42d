import AresaDb.Lib.Text

/-! # Lower case

Lower case is made character by character, but what stands around a character may matter: one letter
has another form at the end of a word.  ASCII is lowered on its own, and what is not ASCII stays so
but for two letters, which become `i` and `k`.  So a text begins and ends with ASCII punctuation
when its lower case does. -/

namespace Text

/-- What a character becomes between two texts. -/
structure Lowering where
  letter : List Char → Char → List Char → List Char
  letter_ascii : ∀ before c after, c.toNat < 128 → letter before c after = [c.toLower]
  letter_ne_nil : ∀ before c after, letter before c after ≠ []
  letter_other : ∀ before c after, 128 ≤ c.toNat →
    ∀ d ∈ letter before c after, 128 ≤ d.toNat ∨ d = 'i' ∨ d = 'k'

/-- Lowered are the letters of ASCII alone. -/
def asciiLowering : Lowering where
  letter _ c _ := [c.toLower]
  letter_ascii _ _ _ _ := rfl
  letter_ne_nil _ _ _ := List.cons_ne_nil _ _
  letter_other _ c _ hc d hd := by
    have hupper : ¬ c.isUpper := by
      have hval : c.toNat = c.val.toNat := rfl
      simp only [Char.isUpper, ge_iff_le, decide_eq_true_eq, UInt32.le_iff_toNat_le]
      intro h
      have : 'Z'.val.toNat = 90 := rfl
      omega
    rw [List.mem_singleton.mp hd, Char.toLower_eq_of_not_isUpper hupper]
    exact .inl hc

namespace Lowering

variable (L : Lowering) {a b p t before : List Char} {c d : Char}

/-- The lower case of a text behind another one. -/
def lowerFrom (before : List Char) : List Char → List Char
  | [] => []
  | c :: t => L.letter before c t ++ lowerFrom (before ++ [c]) t

/-- `t.to_lowercase()` -/
def toLowercase (t : List Char) : List Char := L.lowerFrom [] t

theorem lowerFrom_append (h : Ascii a) (b : List Char) :
    L.lowerFrom before (a ++ b) = a.map Char.toLower ++ L.lowerFrom (before ++ a) b := by
  induction a generalizing before with
  | nil => simp
  | cons c a ih =>
      obtain ⟨hc, ha⟩ := ascii_cons.mp h
      rw [List.cons_append, lowerFrom, L.letter_ascii _ c _ hc, ih ha]
      simp

theorem toLowercase_append (h : Ascii a) (b : List Char) :
    L.toLowercase (a ++ b) = a.map Char.toLower ++ L.lowerFrom a b := L.lowerFrom_append h b

theorem toLowercase_ascii (h : Ascii t) : L.toLowercase t = t.map Char.toLower := by
  have happend := L.toLowercase_append h []
  rwa [List.append_nil, lowerFrom, List.append_nil] at happend

/-- A text that begins with ASCII in lower case. -/
theorem prefix_toLowercase (h : Ascii p) (hlower : p.map Char.toLower = p) (t : List Char) :
    p <+: L.toLowercase (p ++ t) := by
  rw [L.toLowercase_append h, hlower]
  exact List.prefix_append _ _

theorem not_prefix_toLowercase (hc : c.toNat < 128) (hne : d ≠ c.toLower) (p t : List Char) :
    ¬ d :: p <+: L.toLowercase (c :: t) := by
  rw [toLowercase, lowerFrom, L.letter_ascii [] c t hc, List.singleton_append,
    List.cons_prefix_cons]
  exact fun h => hne h.1

theorem lowerFrom_concat (before t : List Char) (c : Char) :
    ∃ x, L.lowerFrom before (t ++ [c]) = x ++ L.letter (before ++ t) c [] := by
  induction t generalizing before with
  | nil => exact ⟨[], by simp [lowerFrom]⟩
  | cons e t ih =>
      obtain ⟨x, hx⟩ := ih (before ++ [e])
      refine ⟨L.letter before e (t ++ [c]) ++ x, ?_⟩
      rw [List.cons_append, lowerFrom, hx, List.append_assoc, List.append_assoc]
      rfl

theorem toLower_eq_iff (hd : d.isAlpha = false) : c.toLower = d ↔ c = d := by
  constructor
  · rintro rfl
    rw [Char.isAlpha_toLower_eq_isAlpha, Char.isAlpha, Bool.or_eq_false_iff] at hd
    rw [Char.toLower_eq_of_not_isUpper (by simp [hd.1])]
  · rintro rfl
    rw [Char.isAlpha, Bool.or_eq_false_iff] at hd
    exact Char.toLower_eq_of_not_isUpper (by simp [hd.1])

/-- ASCII punctuation comes from nothing else. -/
theorem mem_letter_iff (hd : d.toNat < 128) (halpha : d.isAlpha = false) {after : List Char} :
    d ∈ L.letter before c after ↔ c = d := by
  by_cases hc : c.toNat < 128
  · rw [L.letter_ascii before c after hc, List.mem_singleton, eq_comm, toLower_eq_iff halpha]
  · constructor
    · intro hmem
      obtain h | rfl | rfl := L.letter_other before c after (not_lt.mp hc) d hmem
      · omega
      · cases halpha
      · cases halpha
    · rintro rfl
      exact absurd hd hc

/-- A text ends with ASCII punctuation when its lower case does. -/
theorem getLast?_toLowercase_iff (hd : d.toNat < 128) (halpha : d.isAlpha = false) (t : List Char) :
    (L.toLowercase t).getLast? = some d ↔ t.getLast? = some d := by
  induction t using List.reverseRecOn with
  | nil => rfl
  | append_singleton t c _ =>
      obtain ⟨x, hx⟩ := L.lowerFrom_concat [] t c
      have hne := L.letter_ne_nil ([] ++ t) c []
      rw [toLowercase, hx, List.getLast?_append_of_ne_nil _ hne, List.getLast?_concat,
        Option.some_inj]
      constructor
      · intro h
        exact (L.mem_letter_iff hd halpha).mp (List.mem_of_getLast? h)
      · rintro rfl
        rw [L.letter_ascii _ c _ hd, (toLower_eq_iff halpha).mpr rfl]
        rfl

/-- A text begins with ASCII, but for the case, when its lower case does; `i` and `k` may be
something else. -/
theorem prefix_lowerFrom (hp : ∀ d ∈ p, d.toNat < 128 ∧ d ≠ 'i' ∧ d ≠ 'k')
    (h : p <+: L.lowerFrom before t) :
    ∃ a b, t = a ++ b ∧ Ascii a ∧ a.map Char.toLower = p := by
  induction p generalizing before t with
  | nil => exact ⟨[], t, rfl, fun _ hc => (List.not_mem_nil hc).elim, rfl⟩
  | cons d p ih =>
      obtain ⟨⟨hd, hi, hk⟩, hrest⟩ := List.forall_mem_cons.mp hp
      cases t with
      | nil => exact absurd h (by simp [lowerFrom])
      | cons c t =>
          rw [lowerFrom] at h
          by_cases hc : c.toNat < 128
          · rw [L.letter_ascii before c t hc, List.singleton_append, List.cons_prefix_cons] at h
            obtain ⟨rfl, h⟩ := h
            obtain ⟨a, b, rfl, ha, rfl⟩ := ih hrest h
            exact ⟨c :: a, b, rfl, ascii_cons.mpr ⟨hc, ha⟩, rfl⟩
          · obtain ⟨e, l, hl⟩ := List.exists_cons_of_ne_nil (L.letter_ne_nil before c t)
            rw [hl, List.cons_append, List.cons_prefix_cons] at h
            have he := L.letter_other before c t (not_lt.mp hc) e (hl ▸ List.mem_cons_self)
            rw [← h.1] at he
            simp only [hi, hk, or_false] at he
            omega

end Lowering

end Text
