import AresaDb.Lib.ByteOrder
import AresaDb.Lib.OrdMap
import AresaDb.Lib.Overwrite

/-! # Key ranges, write batches and the storage contract

The contract of `aresadb-core`: byte-ordered rows, half-open scans, and write batches that become
visible as a whole (`range.rs`, `write_batch.rs`, `trait_.rs`).

A backend is the journal of its committed batches; what a reader sees is the fold of the journal.
Batches being atomic and flushed before a write returns, a crash leaves a journal cut between two
batches, which is `Backend.crash`. -/

namespace AresaDb.Core

open ByteOrder

/-- A half-open byte range; an empty `stop` is no upper bound. -/
structure KeyRange where
  start : Bytes
  stop : Bytes
deriving DecidableEq, Repr

/-- The key falls inside the range. -/
def KeyRange.contains (r : KeyRange) (key : Bytes) : Bool :=
  decide (r.start ≤ key) && (r.stop.isEmpty || decide (key < r.stop))

/-- A single element of a batch. -/
inductive WriteOp where
  | put (key value : Bytes)
  | delete (key : Bytes)
  | deleteRange (start stop : Bytes)
deriving DecidableEq, Repr

/-- The content of a backend. -/
abbrev Rows := OrdMap Bytes Bytes

/-- The rows after one operation; a range delete removes the keys of `[start, stop)`. -/
def WriteOp.run (rows : Rows) : WriteOp → Rows
  | put key value => rows.insert key value
  | delete key => rows.erase key
  | deleteRange start stop => rows.filter fun key _ => decide ¬(start ≤ key ∧ key < stop)

/-- Operations applied atomically and in order. -/
structure WriteBatch where
  ops : List WriteOp
deriving DecidableEq, Repr

namespace WriteBatch

def new : WriteBatch := ⟨[]⟩

def put (b : WriteBatch) (key value : Bytes) : WriteBatch := ⟨b.ops ++ [.put key value]⟩

def delete (b : WriteBatch) (key : Bytes) : WriteBatch := ⟨b.ops ++ [.delete key]⟩

def deleteRange (b : WriteBatch) (start stop : Bytes) : WriteBatch :=
  ⟨b.ops ++ [.deleteRange start stop]⟩

/-- The rows after a batch. -/
def run (b : WriteBatch) (rows : Rows) : Rows := b.ops.foldl WriteOp.run rows

@[simp] theorem run_new (rows : Rows) : new.run rows = rows := rfl

@[simp] theorem run_put (b : WriteBatch) (key value : Bytes) (rows : Rows) :
    (b.put key value).run rows = (b.run rows).insert key value := by
  simp [run, put, WriteOp.run]

@[simp] theorem run_delete (b : WriteBatch) (key : Bytes) (rows : Rows) :
    (b.delete key).run rows = (b.run rows).erase key := by
  simp [run, delete, WriteOp.run]

theorem get_run_deleteRange (b : WriteBatch) (start stop : Bytes) (rows : Rows) (k : Bytes) :
    ((b.deleteRange start stop).run rows)[k]? =
      if start ≤ k ∧ k < stop then none else (b.run rows)[k]? := by
  have hrun : (b.deleteRange start stop).run rows = (b.run rows).filter
      fun key _ => decide ¬(start ≤ key ∧ key < stop) := by
    simp [run, deleteRange, WriteOp.run]
  rw [hrun, Std.ExtTreeMap.getElem?_filter']
  by_cases h : start ≤ k ∧ k < stop
  · rw [if_pos h]
    simp [h]
  · rw [if_neg h]
    have hb : decide (¬(start ≤ k ∧ k < stop)) = true := decide_eq_true h
    cases hv : (b.run rows)[k]? with
    | none => rfl
    | some v => rw [Option.filter_some, if_pos hb]

/-- A batch that puts a list of records one after the other. -/
def putAll {β : Type} (b : WriteBatch) (key value : β → Bytes) (l : List β) : WriteBatch :=
  l.foldl (fun b x => b.put (key x) (value x)) b

theorem ops_putAll {β : Type} (b : WriteBatch) (key value : β → Bytes) (l : List β) :
    (b.putAll key value l).ops = b.ops ++ l.map fun x => .put (key x) (value x) := by
  induction l generalizing b with
  | nil => simp [putAll]
  | cons x l ih =>
      show ((b.put (key x) (value x)).putAll key value l).ops = _
      rw [ih]
      simp [put]

theorem run_putAll {β : Type} (b : WriteBatch) (key value : β → Bytes) (l : List β) (rows : Rows) :
    (b.putAll key value l).run rows = OrdMap.insertAll (b.run rows) key value l := by
  induction l generalizing b with
  | nil => rfl
  | cons x l ih =>
      show ((b.put (key x) (value x)).putAll key value l).run rows = _
      rw [ih, run_put, OrdMap.insertAll_cons]

end WriteBatch

/-! ### One key of a batch

Each operation overwrites the row under a key, with a value or with nothing, or leaves it alone. -/

/-- What the operation leaves under the key, when it touches it. -/
def WriteOp.writes (k : Bytes) : WriteOp → Option (Option Bytes)
  | put key value => if key = k then some (some value) else none
  | delete key => if key = k then some none else none
  | deleteRange start stop => if start ≤ k ∧ k < stop then some none else none

theorem WriteOp.writes_put_of_ne {key k : Bytes} (h : key ≠ k) (value : Bytes) :
    (WriteOp.put key value).writes k = none := if_neg h

theorem WriteOp.get_run (k : Bytes) (rows : Rows) (op : WriteOp) :
    (op.run rows)[k]? = (op.writes k).getD rows[k]? := by
  cases op with
  | put key value =>
      show (rows.insert key value)[k]? = _
      rw [OrdMap.get_insert, WriteOp.writes]
      split_ifs <;> rfl
  | delete key =>
      show (rows.erase key)[k]? = _
      rw [OrdMap.get_erase, WriteOp.writes]
      split_ifs <;> rfl
  | deleteRange start stop =>
      have h := WriteBatch.get_run_deleteRange WriteBatch.new start stop rows k
      rw [WriteBatch.run_new] at h
      have hrun : (WriteBatch.new.deleteRange start stop).run rows =
          (WriteOp.deleteRange start stop).run rows := rfl
      rw [← hrun, h, WriteOp.writes]
      split_ifs <;> rfl

/-- The row under a key after a list of operations. -/
theorem WriteOp.get_foldl_run (k : Bytes) (ops : List WriteOp) (rows : Rows) :
    (ops.foldl WriteOp.run rows)[k]? = (Overwrite.last (WriteOp.writes k) ops).getD rows[k]? :=
  Overwrite.observe_foldl (WriteOp.writes k) (fun rows : Rows => rows[k]?)
    (WriteOp.get_run k) ops rows

/-! ### Backends -/

/-- The committed batches, oldest first. -/
structure Backend where
  journal : List WriteBatch
deriving DecidableEq

namespace Backend

/-- A fresh backend. -/
def new : Backend := ⟨[]⟩

/-- What a reader sees. -/
def rows (b : Backend) : Rows := b.journal.foldl (fun rows w => w.run rows) ∅

/-- Commit a batch and flush it. -/
def writeBatch (b : Backend) (w : WriteBatch) : Backend := ⟨b.journal ++ [w]⟩

def get (b : Backend) (key : Bytes) : Option Bytes := b.rows[key]?

/-- The rows of a range in key order. -/
def scan (b : Backend) (r : KeyRange) : List (Bytes × Bytes) :=
  b.rows.toList.filter fun kv => r.contains kv.1

/-- The backend as found after a crash that let the first `m` batches through. -/
def crash (b : Backend) (m : ℕ) : Backend := ⟨b.journal.take m⟩

@[simp] theorem rows_writeBatch (b : Backend) (w : WriteBatch) :
    (b.writeBatch w).rows = w.run b.rows := by
  simp [rows, writeBatch]

/-- The row under a key is what the last batch that touches the key leaves there. -/
theorem get_rows (b : Backend) (k : Bytes) :
    b.rows[k]? =
      (Overwrite.last (fun w : WriteBatch => Overwrite.last (WriteOp.writes k) w.ops)
        b.journal).getD none := by
  have hstep : ∀ (rows : Rows) (w : WriteBatch),
      (w.run rows)[k]? = (Overwrite.last (WriteOp.writes k) w.ops).getD rows[k]? :=
    fun rows w => WriteOp.get_foldl_run k w.ops rows
  have h := Overwrite.observe_foldl _ (fun rows : Rows => rows[k]?) hstep b.journal ∅
  rw [OrdMap.get_empty] at h
  exact h

theorem mem_scan (b : Backend) (r : KeyRange) (k v : Bytes) :
    (k, v) ∈ b.scan r ↔ b.rows[k]? = some v ∧ r.contains k = true := by
  unfold scan
  rw [List.mem_filter, OrdMap.mem_toList]

/-- A crash that lets every batch but the last through. -/
theorem crash_writeBatch_of_le (b : Backend) (w : WriteBatch) {m : ℕ} (h : m ≤ b.journal.length) :
    (b.writeBatch w).crash m = b.crash m := by
  unfold crash writeBatch
  rw [List.take_append_of_le_length h]

theorem crash_of_length_le (b : Backend) {m : ℕ} (h : b.journal.length ≤ m) : b.crash m = b := by
  unfold crash
  rw [List.take_of_length_le h]

end Backend

end AresaDb.Core
