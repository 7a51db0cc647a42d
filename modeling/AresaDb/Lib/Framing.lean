import AresaDb.Lib.ByteOrder

/-! # Framed byte strings

A list of byte strings is flattened into one by framing every string but the last.  The frame is
`Separating` when two frames of different strings differ before either ends, in the direction of
the strings: then the flattened strings are ordered as the lists are (`Separating.frame_lt_iff`).

`Escape` is such a frame: the byte `nul` is doubled with `esc` wherever it occurs, and `nul` with
`term` ends the string.  It separates because `nul` is the smallest byte and `term` is below
`esc` (`Escape.separating`). -/

namespace Framing

open ByteOrder

/-- Frames of smaller strings are smaller, whatever comes after them. -/
def Separating (f : Bytes → Bytes) : Prop := ∀ a b, a < b → ∀ s t, f a ++ s < f b ++ t

/-- Every string of the list framed, and the last one as it is. -/
def frame (f : Bytes → Bytes) (head : List Bytes) (last : Bytes) : Bytes := head.flatMap f ++ last

@[simp] theorem frame_nil (f : Bytes → Bytes) (last : Bytes) : frame f [] last = last := rfl

@[simp] theorem frame_cons (f : Bytes → Bytes) (seg : Bytes) (head : List Bytes) (last : Bytes) :
    frame f (seg :: head) last = f seg ++ frame f head last := by
  simp [frame]

section

variable {f : Bytes → Bytes} (hf : Separating f)

include hf

theorem Separating.append_lt_append_iff {a b s t : Bytes} :
    f a ++ s < f b ++ t ↔ a < b ∨ a = b ∧ s < t := by
  rcases lt_trichotomy a b with hlt | rfl | hgt
  · have := hf a b hlt s t
    simp [hlt, this]
  · rw [append_lt_append_left_iff]
    simp
  · have hback := hf b a hgt t s
    simp [hgt.not_gt, hgt.ne', hback.not_gt]

/-- Frames are read off the beginning of a string. -/
theorem Separating.append_inj {a b s t : Bytes} (h : f a ++ s = f b ++ t) : a = b ∧ s = t := by
  rcases lt_trichotomy a b with hlt | rfl | hgt
  · exact absurd h (hf a b hlt s t).ne
  · exact ⟨rfl, List.append_cancel_left h⟩
  · exact absurd h (hf b a hgt t s).ne'

/-- A framed string starts with framed strings when its list starts with them. -/
theorem Separating.frame_nil_prefix_iff {head head' : List Bytes}
    (hlen : head.length ≤ head'.length) (last : Bytes) :
    frame f head [] <+: frame f head' last ↔ head <+: head' := by
  induction head generalizing head' with
  | nil => simp
  | cons seg head ih =>
      cases head' with
      | nil => cases hlen
      | cons seg' head' =>
          have hlen' : head.length ≤ head'.length := Nat.le_of_succ_le_succ hlen
          rw [frame_cons, frame_cons, List.cons_prefix_cons]
          constructor
          · rintro ⟨rest, hrest⟩
            rw [List.append_assoc] at hrest
            obtain ⟨rfl, htail⟩ := hf.append_inj hrest
            exact ⟨rfl, (ih hlen').mp ⟨rest, htail⟩⟩
          · rintro ⟨rfl, hhead⟩
            exact (List.prefix_append_right_inj _).mpr ((ih hlen').mpr hhead)

/-- Framed lists of one length are ordered as the lists are. -/
theorem Separating.frame_lt_iff {head head' : List Bytes} (hlen : head.length = head'.length)
    (last last' : Bytes) :
    frame f head last < frame f head' last' ↔ head ++ [last] < head' ++ [last'] := by
  induction head generalizing head' with
  | nil =>
      obtain rfl := List.eq_nil_of_length_eq_zero hlen.symm
      simp [List.cons_lt_cons_iff]
  | cons seg head ih =>
      cases head' with
      | nil => cases hlen
      | cons seg' head' =>
          rw [frame_cons, frame_cons, hf.append_lt_append_iff, ih (Nat.succ.inj hlen),
            List.cons_append, List.cons_append, List.cons_lt_cons_iff]

end

/-- Without escaping, a separator frames the strings that do not contain it. -/
theorem append_sep_inj {α : Type} {c : α} {a b s t : List α} (ha : c ∉ a) (hb : c ∉ b)
    (h : a ++ c :: s = b ++ c :: t) : a = b ∧ s = t := by
  induction a generalizing b with
  | nil =>
      cases b with
      | nil => exact ⟨rfl, (List.cons.inj h).2⟩
      | cons y b =>
          obtain rfl : c = y := (List.cons.inj h).1
          exact absurd List.mem_cons_self hb
  | cons x a ih =>
      cases b with
      | nil =>
          obtain rfl : x = c := (List.cons.inj h).1
          exact absurd List.mem_cons_self ha
      | cons y b =>
          obtain ⟨rfl, hrest⟩ := List.cons.inj h
          obtain ⟨rfl, hst⟩ := ih (List.not_mem_of_not_mem_cons ha)
            (List.not_mem_of_not_mem_cons hb) hrest
          exact ⟨rfl, hst⟩

/-! ### Escaping -/

/-- Three bytes that escape and terminate. -/
structure Escape where
  nul : UInt8
  esc : UInt8
  term : UInt8
  nul_lt : ∀ x, x ≠ nul → nul < x
  term_lt_esc : term < esc

namespace Escape

variable (E : Escape)

/-- A string with every `nul` escaped. -/
def escape (seg : Bytes) : Bytes := seg.flatMap fun b => if b = E.nul then [E.nul, E.esc] else [b]

/-- A string escaped and terminated. -/
def terminated (seg : Bytes) : Bytes := E.escape seg ++ [E.nul, E.term]

theorem terminated_nil : E.terminated [] = [E.nul, E.term] := rfl

theorem terminated_cons_nul (seg : Bytes) :
    E.terminated (E.nul :: seg) = E.nul :: E.esc :: E.terminated seg := by
  simp [terminated, escape]

theorem terminated_cons_of_ne {b : UInt8} (h : b ≠ E.nul) (seg : Bytes) :
    E.terminated (b :: seg) = b :: E.terminated seg := by
  simp [terminated, escape, h]

/-- Terminated strings separate: where two strings part, the escapes and the terminator compare as
the bytes and the end of the string do. -/
theorem separating : Separating E.terminated := by
  intro a
  induction a with
  | nil =>
      intro b hb s t
      cases b with
      | nil => exact absurd hb (lt_irrefl _)
      | cons y b =>
          rw [terminated_nil]
          by_cases hy : y = E.nul
          · subst hy
            rw [terminated_cons_nul]
            exact cons_lt_cons.mpr (.inr ⟨rfl, cons_lt_cons.mpr (.inl E.term_lt_esc)⟩)
          · rw [terminated_cons_of_ne E hy]
            exact cons_lt_cons.mpr (.inl (E.nul_lt y hy))
  | cons x a ih =>
      intro b hb s t
      cases b with
      | nil => exact absurd hb (by simp)
      | cons y b =>
          rcases cons_lt_cons.mp hb with hxy | ⟨rfl, hab⟩
          · -- The larger byte is not `nul`, so it stands as it is.
            have hy : y ≠ E.nul := by
              rintro rfl
              by_cases hx : x = E.nul
              · exact absurd (hx ▸ hxy) (UInt8.lt_irrefl _)
              · exact absurd (UInt8.lt_trans hxy (E.nul_lt x hx)) (UInt8.lt_irrefl _)
            rw [terminated_cons_of_ne E hy]
            by_cases hx : x = E.nul
            · subst hx
              rw [terminated_cons_nul]
              exact cons_lt_cons.mpr (.inl hxy)
            · rw [terminated_cons_of_ne E hx]
              exact cons_lt_cons.mpr (.inl hxy)
          · have hrest := ih b hab s t
            by_cases hx : x = E.nul
            · subst hx
              rw [terminated_cons_nul, terminated_cons_nul]
              exact cons_lt_cons.mpr (.inr ⟨rfl, cons_lt_cons.mpr (.inr ⟨rfl, hrest⟩)⟩)
            · rw [terminated_cons_of_ne E hx, terminated_cons_of_ne E hx]
              exact cons_lt_cons.mpr (.inr ⟨rfl, hrest⟩)

end Escape

end Framing
