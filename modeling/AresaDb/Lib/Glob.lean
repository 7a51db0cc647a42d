import Mathlib

/-! # Wildcard patterns

A pattern is a list of items; an item stands for one character that it admits, or for any number of
them.  The texts of a pattern are the product of the languages of its items (`language`), and they
are decided by trying all ways to split the text (`mem_language_iff`). -/

namespace Glob

/-- What stands at one place of a pattern. -/
structure Item (α : Type) where
  admits : α → Bool
  /-- Any number of characters, and not one. -/
  many : Bool

variable {α : Type}

/-- An item stands for a text. -/
def Item.StandsFor (i : Item α) (text : List α) : Prop :=
  if i.many then ∀ c ∈ text, i.admits c else ∃ c, i.admits c ∧ text = [c]

/-- The texts that an item stands for. -/
def Item.language (i : Item α) : Language α := {text | i.StandsFor text}

/-- The texts of a pattern. -/
def language (items : List (Item α)) : Language α := (items.map Item.language).prod

def accepts : List (Item α) → List α → Bool
  | [], text => text.isEmpty
  | i :: items, text =>
      if i.many then
        (List.range (text.length + 1)).any fun k =>
          (text.take k).all i.admits && accepts items (text.drop k)
      else text.head?.any i.admits && accepts items text.tail

theorem mem_language_cons {i : Item α} {items : List (Item α)} {text : List α} :
    text ∈ language (i :: items) ↔
      ∃ part, i.StandsFor part ∧ ∃ rest ∈ language items, part ++ rest = text := by
  rw [language, List.map_cons, List.prod_cons, Language.mem_mul]
  rfl

theorem mem_language_iff {items : List (Item α)} {text : List α} :
    text ∈ language items ↔ accepts items text := by
  induction items generalizing text with
  | nil =>
      rw [language, List.map_nil, List.prod_nil, Language.mem_one, accepts, List.isEmpty_iff]
  | cons i items ih =>
      rw [mem_language_cons, accepts]
      unfold Item.StandsFor
      split_ifs with hmany
      · simp only [List.any_eq_true, List.mem_range, Bool.and_eq_true, List.all_eq_true]
        constructor
        · rintro ⟨part, hpart, rest, hrest, rfl⟩
          refine ⟨part.length, by simp, by simpa using hpart, ?_⟩
          simpa using ih.mp hrest
        · rintro ⟨k, -, hpart, hrest⟩
          exact ⟨text.take k, hpart, text.drop k, ih.mpr hrest, List.take_append_drop k text⟩
      · cases text with
        | nil => simp
        | cons c text =>
            rw [List.head?_cons, Option.any_some, List.tail_cons, Bool.and_eq_true, ← ih]
            constructor
            · rintro ⟨_, ⟨d, hd, rfl⟩, rest, hrest, heq⟩
              obtain ⟨rfl, rfl⟩ := List.cons.inj heq
              exact ⟨hd, hrest⟩
            · rintro ⟨hc, hrest⟩
              exact ⟨[c], ⟨c, hc, rfl⟩, text, hrest, rfl⟩

instance (items : List (Item α)) (text : List α) : Decidable (text ∈ language items) :=
  decidable_of_iff _ mem_language_iff.symm

end Glob
