import AresaDb.Lib.Run
import AresaDb.Lib.Totals

/-! # The cache and its counters

`CacheLayer` (`storage/cache.rs`), whose clones share the entries but count the bytes each for
itself. The entries stand in for those of the cache library, as long as it evicts nothing on its
own.

A counter does not hear of what the other handles do, and `put` forgets the entry that it
overwrites. So the sizes are exact all along a run just when no step needs either
(`cache_size_exact_iff`). -/

namespace AresaDb.Store

open Run OrdMap

/-- `CacheEntry` -/
structure CacheEntry where
  data : List UInt8
  size : ℕ
  size_eq : size = data.length

/-- The handles of one cache, each as its counter. -/
structure CacheLayers where
  cache : OrdMap String CacheEntry
  currentSize : List UInt64

inductive CacheOp where
  | put (handle : ℕ) (key : String) (data : List UInt8)
  | remove (handle : ℕ) (key : String)
  | clear (handle : ℕ)
  | clone (handle : ℕ)

def CacheOp.handle : CacheOp → ℕ
  | .put h _ _ | .remove h _ | .clear h | .clone h => h

namespace CacheLayers

def new : CacheLayers := ⟨∅, [0]⟩

/-- `size` of a handle -/
def size (s : CacheLayers) (h : ℕ) : Option UInt64 := s.currentSize[h]?

def put (s : CacheLayers) (h : ℕ) (key : String) (data : List UInt8) : CacheLayers where
  cache := s.cache.insert key ⟨data, data.length, rfl⟩
  currentSize := s.currentSize.modify h (· + .ofNat data.length)

def remove (s : CacheLayers) (h : ℕ) (key : String) : CacheLayers :=
  match s.cache[key]? with
  | some entry => ⟨s.cache.erase key, s.currentSize.modify h (· - .ofNat entry.size)⟩
  | none => s

def clear (s : CacheLayers) (h : ℕ) : CacheLayers := ⟨∅, s.currentSize.modify h fun _ => 0⟩

/-- The new handle starts from the counter of the one it is cloned from. -/
def clone (s : CacheLayers) (h : ℕ) : CacheLayers where
  cache := s.cache
  currentSize := s.currentSize ++ s.currentSize[h]?.toList

/-- A call; there is none through a handle that does not exist. -/
def step (s : CacheLayers) (op : CacheOp) : CacheLayers :=
  if op.handle < s.currentSize.length then
    match op with
    | .put h key data => s.put h key data
    | .remove h key => s.remove h key
    | .clear h => s.clear h
    | .clone h => s.clone h
  else s

/-! ### What the counters should say -/

/-- The bytes in the cache. -/
def held (s : CacheLayers) : ℕ := total CacheEntry.size s.cache.toList

/-- The bytes under a key. -/
def heldAt (s : CacheLayers) (key : String) : ℕ := weightOf CacheEntry.size s.cache[key]?

/-- Each handle knows what is held. -/
def Exact (s : CacheLayers) : Prop := ∀ h n, s.size h = some n → n.toNat = s.held

/-- The call changes nothing that its counter, or that of another handle, would not notice. -/
def Noticed (s : CacheLayers) (op : CacheOp) : Prop :=
  op.handle < s.currentSize.length →
    match op with
    | .put _ key data =>
        s.heldAt key = 0 ∧ s.held + data.length < 2 ^ 64 ∧ (1 < s.currentSize.length → data = [])
    | .remove _ key => 1 < s.currentSize.length → s.heldAt key = 0
    | .clear _ => 1 < s.currentSize.length → s.held = 0
    | .clone _ => True

variable {s : CacheLayers} {h : ℕ}

theorem held_put (s : CacheLayers) (h : ℕ) (key : String) (data : List UInt8) :
    (s.put h key data).held + s.heldAt key = s.held + data.length :=
  total_insert CacheEntry.size s.cache key ⟨data, data.length, rfl⟩

theorem held_remove (s : CacheLayers) (h : ℕ) (key : String) :
    (s.remove h key).held + s.heldAt key = s.held := by
  have herase := total_erase CacheEntry.size s.cache key
  unfold remove
  split
  · exact herase
  · next hnone =>
      rw [heldAt, hnone]
      rfl

theorem held_of_exact (hs : s.Exact) {c : UInt64} (hc : s.size h = some c) :
    s.held = c.toNat ∧ s.held < 2 ^ 64 := by
  have heq := hs h c hc
  have hlt := c.toNat_lt
  omega

/-- A call through one handle leaves all counters right when it does so to the handle's own and, if
there are others, keeps what is held. -/
theorem exact_modify_iff (hs : s.Exact) {c : UInt64} (hc : s.size h = some c) (f : UInt64 → UInt64)
    {s' : CacheLayers} (hs' : s'.currentSize = s.currentSize.modify h f) :
    s'.Exact ↔ (f c).toNat = s'.held ∧ (1 < s.currentSize.length → s.held = s'.held) := by
  have hsize : ∀ i, s'.size i = if h = i then (s.size i).map f else s.size i := by
    intro i
    rw [size, hs', List.getElem?_modify]
    split_ifs <;> simp [size]
  have hlt : h < s.currentSize.length := (List.getElem?_eq_some_iff.mp hc).1
  constructor
  · intro hexact
    refine ⟨hexact h (f c) (by rw [hsize, if_pos rfl, hc, Option.map_some]), fun hmany => ?_⟩
    -- Another handle keeps its counter.
    obtain ⟨i, hi, hne⟩ : ∃ i < s.currentSize.length, h ≠ i := by
      by_cases h0 : h = 0
      · exact ⟨1, hmany, by omega⟩
      · exact ⟨0, by omega, h0⟩
    have hn : s.size i = some s.currentSize[i] := List.getElem?_eq_getElem hi
    have hn' : s'.size i = some s.currentSize[i] := by rw [hsize, if_neg hne, hn]
    exact (hs i _ hn).symm.trans (hexact i _ hn')
  · rintro ⟨hown, hothers⟩ i n hn
    rw [hsize] at hn
    split_ifs at hn with hi
    · subst hi
      rw [hc, Option.map_some] at hn
      rw [← Option.some.inj hn, hown]
    · have hlen : i < s.currentSize.length := (List.getElem?_eq_some_iff.mp hn).1
      rw [hs i n hn, hothers (by omega)]

theorem exact_put_iff (hs : s.Exact) {c : UInt64} (hc : s.size h = some c) (key : String)
    (data : List UInt8) : (s.put h key data).Exact ↔
      s.heldAt key = 0 ∧ s.held + data.length < 2 ^ 64 ∧
        (1 < s.currentSize.length → data = []) := by
  obtain ⟨hheld, hlt⟩ := held_of_exact hs hc
  have hput := held_put s h key data
  have hat := held_remove s h key
  have hadd : (c + UInt64.ofNat data.length).toNat = (s.held + data.length) % 2 ^ 64 := by
    rw [UInt64.toNat_add, UInt64.toNat_ofNat', hheld, Nat.add_mod_mod]
  rw [exact_modify_iff hs hc (· + .ofNat data.length) rfl, hadd, ← List.length_eq_zero_iff]
  omega

theorem exact_remove_iff (hs : s.Exact) {c : UInt64} (hc : s.size h = some c) (key : String) :
    (s.remove h key).Exact ↔ (1 < s.currentSize.length → s.heldAt key = 0) := by
  obtain ⟨hheld, hlt⟩ := held_of_exact hs hc
  have hat := held_remove s h key
  cases he : s.cache[key]? with
  | none =>
      have hsame : s.remove h key = s := by rw [remove, he]
      rw [hsame, heldAt, he]
      exact iff_of_true hs fun _ => rfl
  | some entry =>
      have hsize : s.heldAt key = entry.size := by
        rw [heldAt, he]
        rfl
      have hcounters : (s.remove h key).currentSize =
          s.currentSize.modify h (· - .ofNat entry.size) := by
        rw [remove, he]
      have hsub : (c - UInt64.ofNat entry.size).toNat = s.held - entry.size := by
        have hle : UInt64.ofNat entry.size ≤ c := by
          rw [UInt64.le_iff_toNat_le, UInt64.toNat_ofNat']
          omega
        rw [UInt64.toNat_sub_of_le _ _ hle, UInt64.toNat_ofNat', hheld]
        omega
      rw [exact_modify_iff hs hc _ hcounters, hsub]
      omega

theorem exact_clear_iff (hs : s.Exact) {c : UInt64} (hc : s.size h = some c) :
    (s.clear h).Exact ↔ (1 < s.currentSize.length → s.held = 0) := by
  have hheld : (s.clear h).held = 0 := total_empty CacheEntry.size
  rw [exact_modify_iff hs hc (fun _ => 0) rfl, hheld]
  simp

theorem exact_clone (hs : s.Exact) : (s.clone h).Exact := by
  intro i n hn
  have hn : (s.currentSize ++ s.currentSize[h]?.toList)[i]? = some n := hn
  rw [List.getElem?_append] at hn
  split_ifs at hn
  · exact hs i n hn
  · have hmem := List.mem_of_getElem? hn
    exact hs h n (Option.mem_toList.mp hmem)

/-- From right counters, a call that is noticed leads to right ones, and no other does. -/
theorem exact_step_iff (hs : s.Exact) (op : CacheOp) : (s.step op).Exact ↔ s.Noticed op := by
  unfold step Noticed
  by_cases hlt : op.handle < s.currentSize.length
  · have hc : s.size op.handle = some s.currentSize[op.handle] := List.getElem?_eq_getElem hlt
    rw [if_pos hlt, forall_prop_of_true hlt]
    cases op with
    | put h key data => exact exact_put_iff hs hc key data
    | remove h key => exact exact_remove_iff hs hc key
    | clear h => exact exact_clear_iff hs hc
    | clone h => exact iff_of_true (exact_clone hs) trivial
  · rw [if_neg hlt]
    exact iff_of_true hs fun h => (hlt h).elim

theorem exact_new : new.Exact := by
  intro h n hn
  have hmem : n ∈ new.currentSize := List.mem_of_getElem? hn
  rw [List.mem_singleton.mp hmem]
  exact (total_empty CacheEntry.size).symm

end CacheLayers

open CacheLayers

/-- The sizes are exact in every state of a run just when each of its calls is noticed. -/
theorem cache_size_exact_iff (ops : List CacheOp) :
    (∀ calls, calls <+: ops → (run step new calls).Exact) ↔ Along step Noticed new ops := by
  have hstep : ∀ (s : CacheLayers) (op : CacheOp), s.Exact → ((s.step op).Exact ↔ s.Noticed op) :=
    fun _ op hs => exact_step_iff hs op
  exact (along_iff_of_step hstep exact_new).symm

/-- The same byte put twice is counted twice, and a clone that did not see it come wraps around when
it goes. -/
theorem cache_size_wraps :
    (run step new [.put 0 "k" [7], .put 0 "k" [7]]).size 0 = some 2 ∧
      (run step new [.put 0 "k" [7], .put 0 "k" [7]]).held = 1 ∧
      (run step new [.clone 0, .put 0 "k" [7], .remove 1 "k"]).size 1 = some 18446744073709551615 ∧
      (run step new [.clone 0, .put 0 "k" [7], .remove 1 "k"]).held = 0 := by
  have hzero : new.held = 0 := total_empty CacheEntry.size
  have hat : (new.put 0 "k" [7]).heldAt "k" = 1 := by
    rw [heldAt, put, get_insert_self]
    rfl
  have hnone : new.heldAt "k" = 0 := by
    rw [heldAt, new, get_empty]
    rfl
  have honce := held_put new 0 "k" [7]
  have htwice := held_put (new.put 0 "k" [7]) 0 "k" [7]
  have hclone := held_put (new.clone 0) 0 "k" [7]
  have hremove := held_remove ((new.clone 0).put 0 "k" [7]) 1 "k"
  have hcloned : (new.clone 0).held = new.held ∧ (new.clone 0).heldAt "k" = new.heldAt "k" :=
    ⟨rfl, rfl⟩
  have hput : ((new.clone 0).put 0 "k" [7]).cache["k"]? = some ⟨[7], 1, rfl⟩ :=
    get_insert_self _ _ _
  have hat' : ((new.clone 0).put 0 "k" [7]).heldAt "k" = 1 := by
    rw [heldAt, hput]
    rfl
  have hlen : [(7 : UInt8)].length = 1 := rfl
  refine ⟨rfl, ?_, ?_, ?_⟩
  · change ((new.put 0 "k" [7]).put 0 "k" [7]).held = 1
    omega
  · change (((new.clone 0).put 0 "k" [7]).remove 1 "k").size 1 = _
    rw [remove, hput]
    rfl
  · change (((new.clone 0).put 0 "k" [7]).remove 1 "k").held = 0
    omega

end AresaDb.Store
