import AresaDb.Distributed.Bloom

/-! # Runs of Bloom filters

The operations of a filter with every access to its bits checked: `none` is a remainder by zero or
an index past the words.  With at least one bit neither ever happens (`insertChecked_eq`,
`containsChecked_eq`).

`Run` is a tree of operations, since a filter that is merged in has a run of its own.  After any run
every item that was inserted since the last clear may be contained (`no_false_negatives`). -/

namespace AresaDb.Distributed.BloomFilter

open ByteOrder

/-! ### Checked accesses -/

section

variable (sip : Bytes → UInt64 × UInt64) (f : BloomFilter)

def getBitIndex (h : UInt64 × UInt64) (i : ℕ) : Option ℕ :=
  if f.numBits = 0 then none else some (f.bitIndex h i)

def setBit (idx : ℕ) : Option BloomFilter :=
  if idx / 64 < f.bits.length then
    some
      { f with
        bits := BitWords.set f.bits idx
        hwords := by rw [BitWords.length_set, f.hwords] }
  else none

def getBit (idx : ℕ) : Option Bool :=
  if idx / 64 < f.bits.length then some (BitWords.get f.bits idx) else none

/-- Set the bit of the `i`th hash. -/
def setHash (h : UInt64 × UInt64) (f : BloomFilter) (i : ℕ) : Option BloomFilter :=
  (f.getBitIndex h i).bind f.setBit

def insertChecked (item : Bytes) : Option BloomFilter :=
  ((List.range f.numHashes.toNat).foldlM (setHash (sip item)) f).map fun f =>
    { f with count := f.count + 1 }

/-- Whether the bits of some hashes are all set; the first one that is not ends the search. -/
def allSet (h : UInt64 × UInt64) : List ℕ → Option Bool
  | [] => some true
  | i :: rest => do
      let idx ← f.getBitIndex h i
      let bit ← f.getBit idx
      if bit then allSet h rest else some false

def containsChecked (item : Bytes) : Option Bool :=
  f.allSet (sip item) (List.range f.numHashes.toNat)

variable {sip f} {h : UInt64 × UInt64}

theorem setHashes_eq (hpos : 0 < f.numBits) (l : List ℕ) :
    ∃ g : BloomFilter, l.foldlM (setHash h) f = some g ∧
      g.bits = l.foldl (fun ws i => BitWords.set ws (f.bitIndex h i)) f.bits ∧
        g.numBits = f.numBits ∧ g.numHashes = f.numHashes ∧ g.count = f.count := by
  induction l generalizing f with
  | nil => exact ⟨f, rfl, rfl, rfl, rfl, rfl⟩
  | cons i rest ih =>
      have hset : setHash h f i = some
          { f with
            bits := BitWords.set f.bits (f.bitIndex h i)
            hwords := by rw [BitWords.length_set, f.hwords] } := by
        unfold setHash getBitIndex setBit
        rw [if_neg hpos.ne', Option.bind_some, if_pos (bitIndex_word_lt hpos h i)]
      obtain ⟨g, hg, hbits, hnum, hhashes, hcount⟩ := ih (f :=
        { f with
          bits := BitWords.set f.bits (f.bitIndex h i)
          hwords := by rw [BitWords.length_set, f.hwords] }) hpos
      refine ⟨g, ?_, hbits, hnum, hhashes, hcount⟩
      rw [List.foldlM_cons, hset]
      exact hg

/-- With at least one bit no insertion panics. -/
theorem insertChecked_eq (hpos : 0 < f.numBits) (item : Bytes) :
    f.insertChecked sip item = some (f.insert sip item) := by
  obtain ⟨g, hg, hbits, hnum, hhashes, hcount⟩ :=
    setHashes_eq (h := sip item) hpos (List.range f.numHashes.toNat)
  rw [insertChecked, hg, Option.map_some, insert]
  congr 1
  obtain ⟨bits, numBits, numHashes, count, hwords⟩ := g
  cases hnum
  cases hhashes
  cases hcount
  cases hbits
  rfl

theorem allSet_eq (hpos : 0 < f.numBits) (l : List ℕ) :
    f.allSet h l = some (l.all fun i => BitWords.get f.bits (f.bitIndex h i)) := by
  induction l with
  | nil => rfl
  | cons i rest ih =>
      have hindex : f.getBitIndex h i = some (f.bitIndex h i) := if_neg hpos.ne'
      have hbit : f.getBit (f.bitIndex h i) = some (BitWords.get f.bits (f.bitIndex h i)) :=
        if_pos (bitIndex_word_lt hpos h i)
      rw [allSet, hindex, Option.bind_eq_bind, Option.bind_some, hbit, Option.bind_eq_bind,
        Option.bind_some, ih, List.all_cons]
      cases BitWords.get f.bits (f.bitIndex h i) <;> rfl

/-- With at least one bit no lookup panics. -/
theorem containsChecked_eq (hpos : 0 < f.numBits) (item : Bytes) :
    f.containsChecked sip item = some (f.mayContain sip item) := allSet_eq hpos _

end

/-! ### Runs -/

/-- How a filter came to be. -/
inductive Run where
  | new
  | insert (run : Run) (item : Bytes)
  | merge (run other : Run)
  | clear (run : Run)

namespace Run

section

variable (sip : Bytes → UInt64 × UInt64) (numBits : ℕ) (numHashes : UInt32)

/-- The filter after a run; `none` is a panic. -/
def eval : Run → Option BloomFilter
  | new => some (withParams numBits numHashes)
  | insert run item => run.eval.bind fun f => f.insertChecked sip item
  | merge run other => run.eval.bind fun f => other.eval.bind f.merge
  | clear run => run.eval.map BloomFilter.clear

end

/-- The items that were inserted since the last clear, here or in a filter that was merged in. -/
def inserted : Run → List Bytes
  | new => []
  | insert run item => item :: run.inserted
  | merge run other => run.inserted ++ other.inserted
  | clear _ => []

theorem foldlM_setHash_params {h : UInt64 × UInt64} {f g : BloomFilter} {l : List ℕ}
    (hg : l.foldlM (setHash h) f = some g) : g.numBits = f.numBits ∧ g.numHashes = f.numHashes := by
  induction l generalizing f with
  | nil =>
      obtain rfl := Option.some.inj hg
      exact ⟨rfl, rfl⟩
  | cons i rest ih =>
      rw [List.foldlM_cons] at hg
      obtain ⟨f', hf', hrest⟩ := Option.bind_eq_some_iff.mp hg
      obtain ⟨idx, -, hset⟩ := Option.bind_eq_some_iff.mp hf'
      unfold setBit at hset
      split_ifs at hset
      obtain rfl := Option.some.inj hset
      have hparams := ih hrest
      exact hparams

/-- The parameters of a filter stay the same, even without bits. -/
theorem eval_params {sip : Bytes → UInt64 × UInt64} {numBits : ℕ} {numHashes : UInt32} {run : Run}
    {f : BloomFilter} (h : run.eval sip numBits numHashes = some f) :
    f.numBits = numBits ∧ f.numHashes = numHashes := by
  induction run generalizing f with
  | new =>
      obtain rfl := Option.some.inj h
      exact ⟨rfl, rfl⟩
  | insert run item ih =>
      obtain ⟨f', hf', hinsert⟩ := Option.bind_eq_some_iff.mp h
      obtain ⟨g, hg, rfl⟩ := Option.map_eq_some_iff.mp hinsert
      obtain ⟨hbits, hhashes⟩ := foldlM_setHash_params hg
      exact ⟨hbits.trans (ih hf').1, hhashes.trans (ih hf').2⟩
  | merge run other ih _ =>
      obtain ⟨f', hf', hother⟩ := Option.bind_eq_some_iff.mp h
      obtain ⟨g, -, hmerge⟩ := Option.bind_eq_some_iff.mp hother
      unfold BloomFilter.merge at hmerge
      split_ifs at hmerge
      obtain rfl := Option.some.inj hmerge
      have hparams := ih hf'
      exact hparams
  | clear run ih =>
      obtain ⟨f', hf', rfl⟩ := Option.map_eq_some_iff.mp h
      have hparams := ih hf'
      exact hparams

/-- A run does not panic, and its filter has every item that was inserted. -/
theorem eval_spec (sip : Bytes → UInt64 × UInt64) {numBits : ℕ} (hpos : 0 < numBits)
    (numHashes : UInt32) (run : Run) :
    ∃ f, run.eval sip numBits numHashes = some f ∧ f.numBits = numBits ∧ f.numHashes = numHashes ∧
      ∀ item ∈ run.inserted, f.mayContain sip item = true := by
  induction run with
  | new => exact ⟨_, rfl, rfl, rfl, fun _ h => (List.not_mem_nil h).elim⟩
  | insert run item ih =>
      obtain ⟨f, hf, hbits, hhashes, hin⟩ := ih
      have hpos' : 0 < f.numBits := hbits ▸ hpos
      refine ⟨f.insert sip item, ?_, hbits, hhashes, fun b hb => ?_⟩
      · rw [eval, hf, Option.bind_some, insertChecked_eq hpos']
      · obtain rfl | hb := List.mem_cons.mp hb
        · exact mayContain_insert_self hpos'
        · exact mayContain_insert_of hpos' (hin b hb)
  | merge run other ih ih' =>
      obtain ⟨f, hf, hbits, hhashes, hin⟩ := ih
      obtain ⟨g, hg, hbits', hhashes', hin'⟩ := ih'
      have hsame : f.numBits = g.numBits ∧ f.numHashes = g.numHashes :=
        ⟨hbits.trans hbits'.symm, hhashes.trans hhashes'.symm⟩
      obtain ⟨m, hm, hnum, hnum', -⟩ := merge_eq_some hsame
      refine ⟨m, ?_, hnum.trans hbits, hnum'.trans hhashes, fun b hb => ?_⟩
      · rw [eval, hf, Option.bind_some, hg, Option.bind_some, hm]
      · exact mayContain_merge hm ((List.mem_append.mp hb).imp (hin b) (hin' b))
  | clear run ih =>
      obtain ⟨f, hf, hbits, hhashes, -⟩ := ih
      refine ⟨f.clear, ?_, hbits, hhashes, fun _ h => (List.not_mem_nil h).elim⟩
      rw [eval, hf, Option.map_some]

/-- After any run, the items that were inserted may be contained, no lookup panics, and a clear
leaves nothing. -/
theorem no_false_negatives (sip : Bytes → UInt64 × UInt64) (numBits : ℕ) (hpos : 0 < numBits)
    (numHashes : UInt32) (run : Run) :
    ∃ f, run.eval sip numBits numHashes = some f ∧
      (∀ item ∈ run.inserted, f.containsChecked sip item = some true) ∧
        (∀ item, (f.containsChecked sip item).isSome) ∧
          ∃ g, run.clear.eval sip numBits numHashes = some g ∧
            (0 < numHashes → ∀ item, g.containsChecked sip item = some false) := by
  obtain ⟨f, hf, hbits, hhashes, hin⟩ := eval_spec sip hpos numHashes run
  have hpos' : 0 < f.numBits := hbits ▸ hpos
  refine ⟨f, hf, fun item hitem => ?_, fun item => ?_, f.clear, ?_, fun hk item => ?_⟩
  · rw [containsChecked_eq hpos', hin item hitem]
  · rw [containsChecked_eq hpos', Option.isSome_some]
  · rw [eval, hf, Option.map_some]
  · have hclear : 0 < f.clear.numBits := hpos'
    rw [containsChecked_eq hclear, mayContain_clear (hhashes ▸ hk)]

/-- One item here and one in a filter that is merged in; the last word of the bits is partial. -/
def sample : Run := .merge (.insert .new [1]) (.insert (.clear (.insert .new [3])) [2])

theorem no_false_negatives_sample :
    ∃ f, sample.eval (fun item => (UInt64.ofNat item.length, 7)) 100 3 = some f ∧
      f.containsChecked (fun item => (UInt64.ofNat item.length, 7)) [2] = some true := by
  obtain ⟨f, hf, hin, -⟩ :=
    no_false_negatives (fun item => (UInt64.ofNat item.length, 7)) 100 (by decide) 3 sample
  exact ⟨f, hf, hin [2] (by decide)⟩

end Run

end AresaDb.Distributed.BloomFilter
