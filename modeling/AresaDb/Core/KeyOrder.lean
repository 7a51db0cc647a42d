import AresaDb.Core.Keys

/-! # The order of the keyspace

Keys of one kind share their tag, so their encodings compare as the framed components do, which is
the lexicographic order of the component lists.  Tags of different kinds differ before either of
them ends, so every kind has an interval of the keyspace for itself. -/

namespace AresaDb.Core

open ByteOrder Framing

/-- No tag starts another one. -/
theorem Kind.not_tag_prefix_tag {v w : Kind} (h : v ≠ w) : ¬ v.tag <+: w.tag := by
  cases v <;> cases w <;> first | exact absurd rfl h | decide

namespace Key

/-- Keys of one kind are ordered by their components. -/
theorem encode_lt_iff {k k' : Key} (hkind : k.kind = k'.kind) :
    k.encode < k'.encode ↔ k.components < k'.components := by
  have hlen : k.head.length = k'.head.length := by rw [length_head, length_head, hkind]
  rw [encode_eq, encode_eq, hkind, append_lt_append_left_iff]
  exact segmentEscape.separating.frame_lt_iff hlen k.last k'.last

/-- A byte string between two keys of one kind starts with their tag. -/
theorem tag_of_between {k k' : Key} (hkind : k.kind = k'.kind) {b : Bytes} (h₁ : k.encode ≤ b)
    (h₂ : b ≤ k'.encode) : k.kind.tag <+: b := by
  rw [encode_eq] at h₁ h₂
  rw [← hkind] at h₂
  exact prefix_of_between h₁ h₂

/-- A key starts with the tag of its kind only. -/
theorem kind_of_tag {v : Kind} {k : Key} (h : v.tag <+: k.encode) : k.kind = v := by
  by_contra hne
  have hself : k.kind.tag <+: k.encode := by
    rw [encode_eq]
    exact List.prefix_append _ _
  rcases List.prefix_or_prefix_of_prefix h hself with hp | hp
  · exact Kind.not_tag_prefix_tag (Ne.symm hne) hp
  · exact Kind.not_tag_prefix_tag hne hp

/-- Keys of different kinds are ordered by their tags. -/
theorem encode_lt_of_tag_lt {k k' : Key} (h : k.kind.tag < k'.kind.tag) : k.encode < k'.encode := by
  have hne : k.kind ≠ k'.kind := by
    intro heq
    rw [heq] at h
    exact lt_irrefl _ h
  rw [encode_eq, encode_eq]
  exact append_lt_append_of_lt h (Kind.not_tag_prefix_tag hne) _ _

/-- **The encoding preserves the order**: keys of one kind compare as their components do, one
after the other; whatever lies between two keys of one kind is no key of another kind; and of two
kinds, one comes before the other as a whole. -/
theorem encode_order :
    (∀ k k' : Key, k.kind = k'.kind → (k.encode < k'.encode ↔ k.components < k'.components)) ∧
      (∀ k k' j : Key, k.kind = k'.kind → k.encode ≤ j.encode → j.encode ≤ k'.encode →
        j.kind = k.kind) ∧
      (∀ v w : Kind, v ≠ w →
        (∀ k k' : Key, k.kind = v → k'.kind = w → k.encode < k'.encode) ∨
          (∀ k k' : Key, k.kind = v → k'.kind = w → k'.encode < k.encode)) := by
  refine ⟨fun k k' hkind => encode_lt_iff hkind, ?_, ?_⟩
  · intro k k' j hkind h₁ h₂
    exact kind_of_tag (tag_of_between hkind h₁ h₂)
  · intro v w hne
    rcases lt_trichotomy v.tag w.tag with hlt | heq | hgt
    · refine .inl ?_
      rintro k k' rfl rfl
      exact encode_lt_of_tag_lt hlt
    · exact absurd (heq ▸ List.prefix_refl v.tag) (Kind.not_tag_prefix_tag hne)
    · refine .inr ?_
      rintro k k' rfl rfl
      exact encode_lt_of_tag_lt hgt

end Key

end AresaDb.Core
