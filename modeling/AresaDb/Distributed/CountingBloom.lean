import AresaDb.Lib.ByteOrder
import AresaDb.Lib.Nibbles
import AresaDb.Lib.Run

/-! # Counting Bloom filters

`CountingBloomFilter` (`distributed/bloom.rs`) has a counter of four bits in the place of each bit,
so that items can be removed again.  A counter that is full does not count the next hit, but a
removal takes one off all the same.

While no insertion meets a full counter, each counter is the number of hits of the items that are
held (`Exact`), and these may be contained (`present_of_room`).  Sixteen insertions and fifteen
removals of one item leave it out (`sixteenth_lost`). -/

namespace AresaDb.Distributed

open ByteOrder

/-- A Bloom filter of counters; there are as many words as these need. -/
structure CountingBloomFilter where
  counters : List UInt64
  numCounters : ℕ
  numHashes : UInt32
  count : UInt64
  hwords : counters.length = (numCounters + 15) / 16

namespace CountingBloomFilter

/-- A new filter, of the sizes that were found for it. -/
def withSizes (numCounters : ℕ) (numHashes : UInt32) : CountingBloomFilter where
  counters := Nibbles.zeros numCounters
  numCounters := numCounters
  numHashes := numHashes
  count := 0
  hwords := List.length_replicate

section

variable (sip : Bytes → UInt64 × UInt64) (f : CountingBloomFilter)

def getIndex (h : UInt64 × UInt64) (i : ℕ) : ℕ :=
  (h.1 + UInt64.ofNat i * h.2).toNat % f.numCounters

def insert (item : Bytes) : CountingBloomFilter :=
  let h := sip item
  { f with
    counters :=
      (List.range f.numHashes.toNat).foldl (fun ws i => Nibbles.increment ws (f.getIndex h i))
        f.counters
    count := f.count + 1
    hwords := by rw [Nibbles.length_foldl_increment, f.hwords] }

def mayContain (item : Bytes) : Bool :=
  let h := sip item
  (List.range f.numHashes.toNat).all fun i => Nibbles.get f.counters (f.getIndex h i) != 0

/-- Nothing is taken off for an item that is not contained. -/
def remove (item : Bytes) : Bool × CountingBloomFilter :=
  if !f.mayContain sip item then (false, f)
  else
    let h := sip item
    (true,
      { f with
        counters :=
          (List.range f.numHashes.toNat).foldl (fun ws i => Nibbles.decrement ws (f.getIndex h i))
            f.counters
        count := if f.count = 0 then 0 else f.count - 1
        hwords := by rw [Nibbles.length_foldl_decrement, f.hwords] })

/-- The counters that an item hits, each as often as it is hit. -/
def hits (item : Bytes) : List ℕ := (List.range f.numHashes.toNat).map (f.getIndex (sip item))

/-- No hit of an insertion meets a full counter. -/
def Room (item : Bytes) : Prop :=
  ∀ j ∈ f.hits sip item, Nibbles.get f.counters j + (f.hits sip item).count j ≤ 15

instance decidableRoom (item : Bytes) : Decidable (f.Room sip item) :=
  inferInstanceAs (Decidable (∀ j ∈ f.hits sip item, _))

variable {sip f} {item : Bytes}

theorem mayContain_iff :
    f.mayContain sip item = true ↔ ∀ j ∈ f.hits sip item, 0 < Nibbles.get f.counters j := by
  simp only [mayContain, hits, List.all_eq_true, List.forall_mem_map, bne_iff_ne,
    Nat.pos_iff_ne_zero]

theorem getIndex_word_lt (hpos : 0 < f.numCounters) (h : UInt64 × UInt64) (i : ℕ) :
    f.getIndex h i / 16 < f.counters.length := by
  have hlt : f.getIndex h i < f.numCounters := Nat.mod_lt _ hpos
  rw [f.hwords]
  omega

theorem get_insert (hpos : 0 < f.numCounters) (hroom : f.Room sip item) (j : ℕ) :
    Nibbles.get (f.insert sip item).counters j =
      Nibbles.get f.counters j + (f.hits sip item).count j := by
  have hget : Nibbles.get (f.insert sip item).counters j =
      min 15 (Nibbles.get f.counters j + (f.hits sip item).count j) :=
    Nibbles.get_foldl_increment (fun i _ => getIndex_word_lt hpos (sip item) i) j
  rw [hget, min_eq_right]
  by_cases hj : j ∈ f.hits sip item
  · exact hroom j hj
  · rw [List.count_eq_zero_of_not_mem hj]
    exact Nibbles.get_le _ _

theorem get_remove (hpos : 0 < f.numCounters) (hin : f.mayContain sip item = true) (j : ℕ) :
    Nibbles.get (f.remove sip item).2.counters j =
      Nibbles.get f.counters j - (f.hits sip item).count j := by
  rw [remove, hin]
  exact Nibbles.get_foldl_decrement (fun i _ => getIndex_word_lt hpos (sip item) i) j

theorem remove_params :
    (f.remove sip item).2.numCounters = f.numCounters ∧
      (f.remove sip item).2.numHashes = f.numHashes := by
  unfold remove
  split_ifs <;> exact ⟨rfl, rfl⟩

end

/-! ### Runs -/

inductive Op where
  | insert (item : Bytes)
  | remove (item : Bytes)
deriving DecidableEq

/-- A filter and the items that were inserted more often than removed, each as many times more. -/
structure Held where
  filter : CountingBloomFilter
  items : Multiset Bytes

variable (sip : Bytes → UInt64 × UInt64)

def step (s : Held) : Op → Held
  | .insert item => ⟨s.filter.insert sip item, item ::ₘ s.items⟩
  | .remove item => ⟨(s.filter.remove sip item).2, s.items.erase item⟩

/-- An item is only removed when it has been inserted more often than removed. -/
def Allowed (s : Held) : Op → Prop
  | .insert _ => True
  | .remove item => item ∈ s.items

/-- An item is only inserted when none of its hits meets a full counter. -/
def HasRoom (s : Held) : Op → Prop
  | .insert item => s.filter.Room sip item
  | .remove _ => True

instance decidableHasRoom (s : Held) : ∀ op, Decidable (HasRoom sip s op)
  | .insert item => inferInstanceAs (Decidable (s.filter.Room sip item))
  | .remove _ => .isTrue trivial

instance decidableAllowed (s : Held) : ∀ op, Decidable (Allowed s op)
  | .insert _ => .isTrue trivial
  | .remove item => inferInstanceAs (Decidable (item ∈ s.items))

def start (numCounters : ℕ) (numHashes : UInt32) : Held := ⟨withSizes numCounters numHashes, 0⟩

/-- Each counter is the number of hits of the items that are held. -/
def Exact (s : Held) : Prop :=
  0 < s.filter.numCounters ∧
    ∀ j, Nibbles.get s.filter.counters j =
      (s.items.map fun item => (s.filter.hits sip item).count j).sum

variable {sip} {s : Held} {item : Bytes}

/-- A counter has all hits of an item that is held. -/
theorem Exact.count_le (h : Exact sip s) (hitem : item ∈ s.items) (j : ℕ) :
    (s.filter.hits sip item).count j ≤ Nibbles.get s.filter.counters j := by
  rw [h.2]
  exact Multiset.single_le_sum (fun _ _ => Nat.zero_le _) _
    (Multiset.mem_map_of_mem (fun item => (s.filter.hits sip item).count j) hitem)

theorem Exact.mayContain (h : Exact sip s) (hitem : item ∈ s.items) :
    s.filter.mayContain sip item = true := by
  refine mayContain_iff.mpr fun j hj => ?_
  exact (List.count_pos_iff.mpr hj).trans_le (h.count_le hitem j)

theorem Exact.insert (h : Exact sip s) (hroom : s.filter.Room sip item) :
    Exact sip (step sip s (.insert item)) := by
  refine ⟨h.1, fun j => ?_⟩
  change Nibbles.get (s.filter.insert sip item).counters j = _
  rw [get_insert h.1 hroom, h.2, step, Multiset.map_cons, Multiset.sum_cons, add_comm]
  rfl

theorem Exact.remove (h : Exact sip s) (hitem : item ∈ s.items) :
    Exact sip (step sip s (.remove item)) := by
  obtain ⟨hcounters, hhashes⟩ : (s.filter.remove sip item).2.numCounters = s.filter.numCounters ∧
      (s.filter.remove sip item).2.numHashes = s.filter.numHashes := remove_params
  have hhits : ∀ x, (s.filter.remove sip item).2.hits sip x = s.filter.hits sip x := by
    intro x
    have hindex : (s.filter.remove sip item).2.getIndex (sip x) = s.filter.getIndex (sip x) := by
      funext i
      rw [getIndex, getIndex, hcounters]
    rw [hits, hits, hhashes, hindex]
  refine ⟨hcounters ▸ h.1, fun j => ?_⟩
  change Nibbles.get (s.filter.remove sip item).2.counters j =
    ((s.items.erase item).map fun x => ((s.filter.remove sip item).2.hits sip x).count j).sum
  have hsum := h.2 j
  rw [← Multiset.cons_erase hitem, Multiset.map_cons, Multiset.sum_cons] at hsum
  simp only [hhits]
  rw [get_remove h.1 (h.mayContain hitem), hsum, Nat.add_sub_cancel_left]

theorem exact_start {numCounters : ℕ} (hpos : 0 < numCounters) (numHashes : UInt32) :
    Exact sip (start numCounters numHashes) := by
  exact ⟨hpos, Nibbles.get_zeros numCounters⟩

/-- The items that are held are those that were inserted more often than removed. -/
theorem count_items {ops : List Op} {s : Held} (h : Run.Along (step sip) Allowed s ops)
    (x : Bytes) : (Run.run (step sip) s ops).items.count x + ops.count (.remove x) =
      s.items.count x + ops.count (.insert x) := by
  induction ops generalizing s with
  | nil => rfl
  | cons op ops ih =>
      obtain ⟨hop, hrest⟩ := h
      have htail := ih hrest
      rw [Run.run_cons, List.count_cons, List.count_cons]
      cases op with
      | insert item =>
          change _ = (item ::ₘ s.items).count x + _ at htail
          rw [Multiset.count_cons] at htail
          by_cases hx : x = item
          · subst hx
            simp at htail ⊢
            omega
          · have hx' : item ≠ x := Ne.symm hx
            simp [hx, hx'] at htail ⊢
            omega
      | remove item =>
          change _ = (s.items.erase item).count x + _ at htail
          by_cases hx : x = item
          · subst hx
            have hheld : 0 < s.items.count x := Multiset.count_pos.mpr hop
            rw [Multiset.count_erase_self] at htail
            simp at htail ⊢
            omega
          · have hx' : item ≠ x := Ne.symm hx
            rw [Multiset.count_erase_of_ne hx] at htail
            simp [hx'] at htail ⊢
            omega

/-- While no insertion meets a full counter, every item that was inserted more often than removed
may be contained. -/
theorem present_of_room (sip : Bytes → UInt64 × UInt64) (numCounters : ℕ) (hpos : 0 < numCounters)
    (numHashes : UInt32) (ops : List Op)
    (hallowed : Run.Along (step sip) Allowed (start numCounters numHashes) ops)
    (hroom : Run.Along (step sip) (HasRoom sip) (start numCounters numHashes) ops) (x : Bytes)
    (hx : ops.count (.remove x) < ops.count (.insert x)) :
    (Run.run (step sip) (start numCounters numHashes) ops).filter.mayContain sip x = true := by
  have hexact : Exact sip (Run.run (step sip) (start numCounters numHashes) ops) := by
    refine (hallowed.and hroom).invariant (fun s op hs hop => ?_) (exact_start hpos numHashes)
    cases op with
    | insert item => exact hs.insert hop.2
    | remove item => exact hs.remove hop.1
  have hcount := count_items hallowed x
  have hstart : (start numCounters numHashes).items.count x = 0 := rfl
  exact hexact.mayContain (Multiset.count_pos.mp (by omega))

theorem present_of_room_sample :
    (Run.run (step fun item => (UInt64.ofNat item.length, 1)) (start 20 2)
        [.insert [1], .insert [1, 2], .insert [1], .remove [1]]).filter.mayContain
          (fun item => (UInt64.ofNat item.length, 1)) [1] = true :=
  present_of_room (fun item => (UInt64.ofNat item.length, 1)) 20 (by decide) 2
    [.insert [1], .insert [1, 2], .insert [1], .remove [1]] (by decide +kernel)
      (by decide +kernel) [1]
    (by decide)

/-- One item, inserted sixteen times and removed fifteen times. -/
def sixteenTimes : List Op := List.replicate 16 (.insert []) ++ List.replicate 15 (.remove [])

/-- The sixteenth insertion is not counted. -/
theorem sixteenth_lost :
    Run.Along (step fun _ => (0, 0)) Allowed (start 1 1) sixteenTimes ∧
      sixteenTimes.count (.remove []) < sixteenTimes.count (.insert []) ∧
        (Run.run (step fun _ => (0, 0)) (start 1 1) sixteenTimes).filter.mayContain
          (fun _ => (0, 0)) [] = false := by
  refine ⟨by decide +kernel, by decide, by decide +kernel⟩

end CountingBloomFilter

end AresaDb.Distributed
