import Mathlib

/-! # Segments

Lists as segments between separators, the empty ones left out.  A joined list starts with a base and
a separator just when the pieces of the base come first among the pieces, and more come after
(`prefix_intercalate_iff`). -/

namespace Segments

variable {α : Type} [DecidableEq α] (sep : α)

/-- The pieces that are not empty. -/
def segments (t : List α) : List (List α) := (t.splitOn sep).filter (· ≠ [])

/-- `t` without `p` in front, if it begins so. -/
def strip (p t : List α) : Option (List α) := if p <+: t then some (t.drop p.length) else none

variable {sep} {as bs ls : List (List α)} {base t : List α}

omit [DecidableEq α] in
theorem intercalate_append (ha : as ≠ []) (hb : bs ≠ []) (x : List α) :
    x.intercalate (as ++ bs) = x.intercalate as ++ (x ++ x.intercalate bs) := by
  induction as with
  | nil => exact absurd rfl ha
  | cons a as ih =>
      cases as with
      | nil =>
          obtain ⟨b, bs, rfl⟩ := List.exists_cons_of_ne_nil hb
          rw [List.singleton_append, List.intercalate_cons_cons, List.intercalate_singleton,
            List.append_assoc]
      | cons c as =>
          have ih := ih (List.cons_ne_nil c as)
          rw [List.cons_append] at ih
          rw [List.cons_append, List.cons_append, List.intercalate_cons_cons, ih,
            List.intercalate_cons_cons]
          simp only [List.append_assoc]

/-- No piece has a separator in it. -/
theorem not_mem_of_mem_splitOn {a : List α} (h : a ∈ t.splitOn sep) : sep ∉ a := by
  induction t generalizing a with
  | nil =>
      rw [List.splitOn_nil, List.mem_singleton] at h
      rw [h]
      exact List.not_mem_nil
  | cons c t ih =>
      rw [List.splitOn_cons_eq_if_modifyHead] at h
      split_ifs at h with hc
      · obtain rfl | h := List.mem_cons.mp h
        · exact List.not_mem_nil
        · exact ih h
      · obtain ⟨b, bs, hbs⟩ := List.exists_cons_of_ne_nil (List.splitOn_ne_nil sep t)
        rw [hbs, List.modifyHead_cons, List.mem_cons] at h
        obtain rfl | h := h
        · rw [List.mem_cons, not_or]
          exact ⟨fun heq => hc (beq_iff_eq.mpr heq.symm), ih (hbs ▸ List.mem_cons_self)⟩
        · exact ih (hbs ▸ List.mem_cons_of_mem _ h)

theorem not_mem_of_mem_segments {a : List α} (h : a ∈ segments sep t) : sep ∉ a :=
  not_mem_of_mem_splitOn (List.mem_of_mem_filter h)

theorem ne_nil_of_mem_segments {a : List α} (h : a ∈ segments sep t) : a ≠ [] := by
  simpa using (List.mem_filter.mp h).2

theorem segments_append (a b : List α) :
    segments sep (a ++ sep :: b) = segments sep a ++ segments sep b := by
  rw [segments, List.splitOn_append_cons_self, List.filter_append]
  rfl

theorem segments_eq_splitOn (h : ∀ a ∈ t.splitOn sep, a ≠ []) : segments sep t = t.splitOn sep :=
  List.filter_eq_self.mpr fun a ha => decide_eq_true (h a ha)

/-- Joined segments are segments again. -/
theorem segments_intercalate (h : ∀ l ∈ ls, sep ∉ l ∧ l ≠ []) :
    segments sep ([sep].intercalate ls) = ls := by
  cases ls with
  | nil => simp [segments, List.intercalate_nil]
  | cons l ls =>
      have hsplit : ([sep].intercalate (l :: ls)).splitOn sep = l :: ls :=
        List.splitOn_intercalate sep (fun a ha => (h a ha).1) (List.cons_ne_nil l ls)
      rw [segments, hsplit]
      exact List.filter_eq_self.mpr fun a ha => decide_eq_true (h a ha).2

/-- What joined pieces start with, up to a separator, are the first of them. -/
theorem prefix_intercalate_iff (hne : ls ≠ []) (h : ∀ l ∈ ls, sep ∉ l) :
    base ++ [sep] <+: [sep].intercalate ls ↔ ∃ cs, cs ≠ [] ∧ ls = base.splitOn sep ++ cs := by
  constructor
  · rintro ⟨t, ht⟩
    rw [List.append_assoc, List.singleton_append] at ht
    have hsplit := List.splitOn_intercalate sep h hne
    rw [← ht, List.splitOn_append_cons_self] at hsplit
    exact ⟨t.splitOn sep, List.splitOn_ne_nil sep t, hsplit.symm⟩
  · rintro ⟨cs, hcs, rfl⟩
    rw [intercalate_append (List.splitOn_ne_nil sep base) hcs, List.intercalate_splitOn]
    exact ⟨[sep].intercalate cs, List.append_assoc _ _ _⟩

theorem strip_append (p t : List α) : strip p (p ++ t) = some t := by
  rw [strip, if_pos (List.prefix_append p t), List.drop_left]

end Segments
