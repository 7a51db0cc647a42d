import AresaDb.Core.KeyOrder
import AresaDb.Core.Storage

/-! # Prefix scans

Ranges of keys with a common beginning (`aresadb-core/src/range.rs`) and the eight builders of such
beginnings (`keys.rs`).  A range from a prefix up to its successor holds exactly the strings that
start with the prefix (`contains_ofPrefix_iff`), also when bytes `0xff` have to be dropped on the
way to the successor.  A beginning made of a tag and terminated segments starts the keys of that
kind with these segments, and no others (`segmentPrefix_iff`), because tags do not start one another
and terminated segments separate. -/

namespace AresaDb.Core

open ByteOrder Framing

/-! ### Ranges of a prefix -/

/-- The loop of `prefix_successor`, on the bytes from the last one on. -/
def bumpLast : Bytes → Bytes
  | [] => []
  | last :: out => if last ≠ 0xff then (last + 1) :: out else bumpLast out

/-- The smallest string above all that start with `pre`; empty when there is none. -/
def prefixSuccessor (pre : Bytes) : Bytes := (bumpLast pre.reverse).reverse

/-- All keys that start with `pre`. -/
def KeyRange.ofPrefix (pre : Bytes) : KeyRange := ⟨pre, prefixSuccessor pre⟩

def KeyRange.isOpenEnded (r : KeyRange) : Bool := r.stop.isEmpty

theorem prefixSuccessor_concat (pre : Bytes) (x : UInt8) :
    prefixSuccessor (pre ++ [x]) = if x ≠ 0xff then pre ++ [x + 1] else prefixSuccessor pre := by
  unfold prefixSuccessor
  rw [List.reverse_append, List.reverse_singleton, List.singleton_append, bumpLast]
  split_ifs
  · simp
  · rfl

theorem KeyRange.contains_iff (r : KeyRange) (key : Bytes) :
    r.contains key = true ↔ r.start ≤ key ∧ (r.stop = [] ∨ key < r.stop) := by
  simp [contains]

/-- A prefix range holds what starts with the prefix. -/
theorem KeyRange.contains_ofPrefix_iff (pre key : Bytes) :
    (KeyRange.ofPrefix pre).contains key = true ↔ pre <+: key := by
  rw [contains_iff]
  show pre ≤ key ∧ (prefixSuccessor pre = [] ∨ key < prefixSuccessor pre) ↔ _
  induction pre using List.reverseRecOn with
  | nil => simp [prefixSuccessor, bumpLast]
  | append_singleton pre x ih =>
      rw [prefixSuccessor_concat]
      by_cases hx : x = 0xff
      · -- The largest byte is dropped: the successor is that of the prefix before it.
        subst hx
        rw [if_neg (by simp)]
        constructor
        · rintro ⟨hle, hstop⟩
          have hpre : pre <+: key := ih.mp ⟨(le_of_isPrefix (List.prefix_append _ _)).trans
            hle, hstop⟩
          exact (prefix_max_iff hpre).mp hle
        · intro h
          have hpre : pre <+: key := (List.prefix_append _ _).trans h
          exact ⟨le_of_isPrefix h, (ih.mpr hpre).2⟩
      · rw [if_pos hx, between_bump_iff hx]
        simp

/-- No byte is left to raise when all of them are the largest one. -/
theorem prefixSuccessor_eq_nil_iff (pre : Bytes) :
    prefixSuccessor pre = [] ↔ ∀ x ∈ pre, x = 0xff := by
  induction pre using List.reverseRecOn with
  | nil => simp [prefixSuccessor, bumpLast]
  | append_singleton pre x ih =>
      rw [prefixSuccessor_concat]
      by_cases hx : x = 0xff
      · rw [if_neg (not_not_intro hx), ih]
        simp [hx, or_imp]
      · rw [if_pos hx]
        simp [hx]

/-- The range of a prefix is exact, and it has no upper bound just when the prefix has no byte that
can be raised. -/
theorem prefix_range_exact (pre : Bytes) :
    (∀ key, (KeyRange.ofPrefix pre).contains key = true ↔ pre <+: key) ∧
      ((KeyRange.ofPrefix pre).isOpenEnded = true ↔ ∀ x ∈ pre, x = 0xff) := by
  refine ⟨KeyRange.contains_ofPrefix_iff pre, ?_⟩
  rw [← prefixSuccessor_eq_nil_iff, KeyRange.isOpenEnded, List.isEmpty_iff]
  rfl

/-! ### The builders -/

/-- A tag followed by terminated segments. -/
def segmentPrefix (pre : Bytes) (segments : List Bytes) : Bytes :=
  segments.foldl (fun out seg => escapeInto out seg ++ [nul, terminator]) pre

def nodePrefix : Bytes := Prefix.node

def edgePrefix : Bytes := Prefix.edge

def edgeFromPrefix (fromId : Bytes) : Bytes := segmentPrefix Prefix.edgeFrom [fromId]

def edgeToPrefix (toId : Bytes) : Bytes := segmentPrefix Prefix.edgeTo [toId]

def propertyEqualityPrefix (type_ field value : Bytes) : Bytes :=
  segmentPrefix Prefix.property [type_, field, value]

def propertyFieldPrefix (type_ field : Bytes) : Bytes :=
  segmentPrefix Prefix.property [type_, field]

def fulltextTokenPrefix (type_ field token : Bytes) : Bytes :=
  segmentPrefix Prefix.fulltext [type_, field, token]

def vectorFieldPrefix (type_ field : Bytes) : Bytes := segmentPrefix Prefix.vector [type_, field]

theorem segmentPrefix_eq (pre : Bytes) (segments : List Bytes) :
    segmentPrefix pre segments = pre ++ frame segmentEscape.terminated segments [] := by
  have h := writeMulti_eq [] pre segments []
  rw [List.nil_append] at h
  rw [← h, writeMulti, List.append_nil]
  rfl

/-- The keys that start with a tag and terminated segments. -/
theorem Key.segmentPrefix_iff {v : Kind} {segments : List Bytes}
    (hlen : segments.length ≤ v.escaped) (k : Key) :
    segmentPrefix v.tag segments <+: k.encode ↔ k.kind = v ∧ segments <+: k.head := by
  rw [segmentPrefix_eq]
  constructor
  · intro h
    obtain rfl : k.kind = v := kind_of_tag ((List.prefix_append _ _).trans h)
    rw [encode_eq, List.prefix_append_right_inj,
      segmentEscape.separating.frame_nil_prefix_iff (k.length_head ▸ hlen)] at h
    exact ⟨rfl, h⟩
  · rintro ⟨rfl, h⟩
    rw [encode_eq, List.prefix_append_right_inj,
      segmentEscape.separating.frame_nil_prefix_iff (k.length_head ▸ hlen)]
    exact h

/-- The scan of a tag and terminated segments. -/
theorem Key.scan_iff (v : Kind) (segments : List Bytes) (hlen : segments.length ≤ v.escaped)
    (k : Key) :
    (KeyRange.ofPrefix (segmentPrefix v.tag segments)).contains k.encode = true ↔
      k.kind = v ∧ segments <+: k.head := by
  rw [KeyRange.contains_ofPrefix_iff, segmentPrefix_iff hlen]

/-- **Prefix scans are exact**: whatever bytes the components hold, the range of a builder contains
a key if and only if the key is of the builder's kind and its leading components are the given
ones. -/
theorem Key.prefix_scans_exact (k : Key) :
    ((KeyRange.ofPrefix nodePrefix).contains k.encode = true ↔ ∃ nodeId, k = .node nodeId) ∧
    ((KeyRange.ofPrefix edgePrefix).contains k.encode = true ↔ ∃ edgeId, k = .edge edgeId) ∧
    (∀ x, (KeyRange.ofPrefix (edgeFromPrefix x)).contains k.encode = true ↔
      ∃ edgeId, k = .edgeFrom x edgeId) ∧
    (∀ x, (KeyRange.ofPrefix (edgeToPrefix x)).contains k.encode = true ↔
      ∃ edgeId, k = .edgeTo x edgeId) ∧
    (∀ t f v, (KeyRange.ofPrefix (propertyEqualityPrefix t f v)).contains k.encode = true ↔
      ∃ nodeId, k = .propertyIndex t f v nodeId) ∧
    (∀ t f, (KeyRange.ofPrefix (propertyFieldPrefix t f)).contains k.encode = true ↔
      ∃ v nodeId, k = .propertyIndex t f v nodeId) ∧
    (∀ t f w, (KeyRange.ofPrefix (fulltextTokenPrefix t f w)).contains k.encode = true ↔
      ∃ nodeId, k = .fulltextIndex t f w nodeId) ∧
    (∀ t f, (KeyRange.ofPrefix (vectorFieldPrefix t f)).contains k.encode = true ↔
      ∃ nodeId, k = .vectorIndex t f nodeId) := by
  refine ⟨?_, ?_, fun x => ?_, fun x => ?_, fun t f v => ?_, fun t f => ?_, fun t f w => ?_,
    fun t f => ?_⟩
  · refine (scan_iff .node [] le_rfl k).trans ?_
    cases k <;> simp [kind, head]
  · refine (scan_iff .edge [] le_rfl k).trans ?_
    cases k <;> simp [kind, head]
  · refine (scan_iff .edgeFrom [x] le_rfl k).trans ?_
    cases k <;> simp [kind, head, eq_comm (a := x)]
  · refine (scan_iff .edgeTo [x] le_rfl k).trans ?_
    cases k <;> simp [kind, head, eq_comm (a := x)]
  · refine (scan_iff .propertyIndex [t, f, v] le_rfl k).trans ?_
    cases k <;> simp [kind, head, eq_comm (a := t), eq_comm (a := f), eq_comm (a := v)]
  · refine (scan_iff .propertyIndex [t, f] (Nat.le_succ 2) k).trans ?_
    cases k <;> simp [kind, head, eq_comm (a := t), eq_comm (a := f)]
  · refine (scan_iff .fulltextIndex [t, f, w] le_rfl k).trans ?_
    cases k <;> simp [kind, head, eq_comm (a := t), eq_comm (a := f), eq_comm (a := w)]
  · refine (scan_iff .vectorIndex [t, f] le_rfl k).trans ?_
    cases k <;> simp [kind, head, eq_comm (a := t), eq_comm (a := f)]

end AresaDb.Core
