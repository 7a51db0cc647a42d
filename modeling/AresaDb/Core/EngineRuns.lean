import AresaDb.Core.Engines
import AresaDb.Lib.Run

/-! # The engines behind their trait

All of `StorageBackend` but the size estimate, as the three engines implement it: reads, batches,
snapshots, and what is left of them after `close`.  The reference engine keeps a map and copies it
for a snapshot.  redb and the LSM engine keep a handle that `close` takes away, translate the empty
bounds of a range for their tables, and copy a snapshot out into a list.  What their libraries do is
a parameter (`TableLibrary`); they document it for keys and values within limits.

As long as no batch leaves the contract (`engines_agree_iff`), no range is inverted and the limits
are kept, a caller cannot tell the engines apart (`engines_run_alike`). -/

namespace AresaDb.Core

open ByteOrder

/-! ### Calls -/

inductive EngineCall where
  | get (key : Bytes)
  | scan (range : KeyRange)
  | writeBatch (batch : WriteBatch)
  | flush
  /-- Snapshots are numbered in the order in which they are taken. -/
  | snapshot
  | snapshotGet (number : ℕ) (key : Bytes)
  | snapshotScan (number : ℕ) (range : KeyRange)
  | close

inductive EngineReply where
  | value (value : Option Bytes)
  | items (items : List (Bytes × Bytes))
  | done
  /-- `Error::Closed` -/
  | closed
  /-- `Error::Backend` -/
  | failed
  /-- There is no such snapshot. -/
  | unknown
deriving DecidableEq

/-- The bounds are not inverted. -/
def KeyRange.ordered (r : KeyRange) : Bool := r.stop.isEmpty || decide (r.start ≤ r.stop)

/-- A lookup in the items of a snapshot. -/
def lookupItem (items : List (Bytes × Bytes)) (key : Bytes) : Option Bytes :=
  (items.find? fun kv => kv.1 == key).map Prod.snd

def filterItems (items : List (Bytes × Bytes)) (range : KeyRange) : List (Bytes × Bytes) :=
  items.filter fun kv => range.contains kv.1

/-! ### The contract -/

/-- The rows, whether they are closed, and the snapshots. -/
structure Contract where
  rows : Rows
  closed : Bool
  snapshots : List Rows

namespace Contract

def new : Contract := ⟨∅, false, []⟩

def readSnapshot (c : Contract) (number : ℕ) (f : Rows → EngineReply) : EngineReply :=
  (c.snapshots[number]?.map f).getD .unknown

def invoke (c : Contract) : EngineCall → EngineReply × Contract
  | .get key => (if c.closed then .closed else .value c.rows[key]?, c)
  | .scan range => (if c.closed then .closed else .items (filterItems c.rows.toList range), c)
  | .writeBatch batch =>
      if c.closed then (.closed, c) else (.done, { c with rows := batch.run c.rows })
  | .flush => (if c.closed then .closed else .done, c)
  | .snapshot =>
      if c.closed then (.closed, c) else (.done, { c with snapshots := c.snapshots ++ [c.rows] })
  | .snapshotGet number key => (c.readSnapshot number fun rows => .value rows[key]?, c)
  | .snapshotScan number range =>
      (c.readSnapshot number fun rows => .items (filterItems rows.toList range), c)
  | .close => (.done, { c with closed := true })

def step (c : Contract) (call : EngineCall) : Contract := (c.invoke call).2

def replies : Contract → List EngineCall → List EngineReply
  | _, [] => []
  | c, call :: calls => (c.invoke call).1 :: replies (c.step call) calls

end Contract

/-! ### Memory -/

/-- The shared state of the clones of a backend, and the snapshots taken of it. -/
structure MemoryEngine where
  data : Rows
  closed : Bool
  snapshots : List Rows

namespace MemoryEngine

def new : MemoryEngine := ⟨∅, false, []⟩

def collectRange (data : Rows) (range : KeyRange) : List (Bytes × Bytes) :=
  data.toList.filter fun kv => range.contains kv.1

/-- `none` is a panic. -/
def invoke (m : MemoryEngine) : EngineCall → Option (EngineReply × MemoryEngine)
  | .get key => some (if m.closed then .closed else .value m.data[key]?, m)
  | .scan range => some (if m.closed then .closed else .items (collectRange m.data range), m)
  | .writeBatch batch =>
      if m.closed then some (.closed, m)
      else (MemoryBackend.writeBatch m.data batch).map fun data => (.done, { m with data })
  | .flush => some (if m.closed then .closed else .done, m)
  | .snapshot =>
      some (if m.closed then (.closed, m)
        else (.done, { m with snapshots := m.snapshots ++ [m.data] }))
  | .snapshotGet number key =>
      some ((m.snapshots[number]?.map fun data => EngineReply.value data[key]?).getD .unknown, m)
  | .snapshotScan number range =>
      some ((m.snapshots[number]?.map fun data =>
        EngineReply.items (collectRange data range)).getD .unknown, m)
  | .close => some (.done, { m with closed := true })

def replies : MemoryEngine → List EngineCall → Option (List EngineReply)
  | _, [] => some []
  | m, call :: calls => do
      let (reply, m) ← m.invoke call
      let later ← replies m calls
      return reply :: later

end MemoryEngine

/-! ### Engines with a handle -/

/-- How a range is put to a table. -/
inductive RangeBounds where
  | full
  | from_ (start : Bytes)
  | until_ (stop : Bytes)
  | between (start stop : Bytes)

/-- An empty bound is no bound. -/
def rangeBounds (range : KeyRange) : RangeBounds :=
  match range.start.isEmpty, range.stop.isEmpty with
  | true, true => .full
  | false, true => .from_ range.start
  | true, false => .until_ range.stop
  | false, false => .between range.start range.stop

namespace RangeBounds

/-- The bounds are not inverted. -/
def ordered : RangeBounds → Bool
  | between start stop => decide (start ≤ stop)
  | _ => true

/-- The rows within the bounds, in their order. -/
def collect (table : Rows) : RangeBounds → List (Bytes × Bytes)
  | full => table.toList
  | from_ start => table.toList.filter fun kv => decide (start ≤ kv.1)
  | until_ stop => table.toList.filter fun kv => decide (kv.1 < stop)
  | between start stop => table.toList.filter fun kv => decide (start ≤ kv.1 ∧ kv.1 < stop)

end RangeBounds

/-- What the library of an engine does with a table: lookups, ranges, and writes that it takes in
their order or refuses. -/
structure TableLibrary where
  lookup : Rows → Bytes → EngineReply
  range : Rows → RangeBounds → EngineReply
  commit : Rows → List Lsm.Staged → Option Rows

/-- A table as an engine uses it; a batch may be refused. -/
structure Table where
  lookup : Rows → Bytes → EngineReply
  range : Rows → RangeBounds → EngineReply
  write : Rows → WriteBatch → Option Rows

/-- Each operation is written to the open table, which the next one finds; the error of one drops
the transaction. -/
def redb (lib : TableLibrary) : Table where
  lookup := lib.lookup
  range := lib.range
  write := fun table batch =>
    batch.ops.foldlM (fun table op => lib.commit table (Lsm.stage table op)) table

/-- The batch is staged against the keyspace and committed as a whole. -/
def lsm (lib : TableLibrary) : Table where
  lookup := lib.lookup
  range := lib.range
  write := fun table batch => lib.commit table (batch.ops.flatMap (Lsm.stage table))

/-- redb and the LSM engine, but for how they write: the table until it is closed, and the items of
the snapshots. -/
structure HandleEngine where
  table : Option Rows
  snapshots : List (List (Bytes × Bytes))

namespace HandleEngine

def new : HandleEngine := ⟨some ∅, []⟩

/-- A call that needs the handle. -/
def withHandle (e : HandleEngine) (f : Rows → EngineReply × HandleEngine) :
    EngineReply × HandleEngine :=
  match e.table with
  | some table => f table
  | none => (.closed, e)

def invoke (t : Table) (e : HandleEngine) : EngineCall → EngineReply × HandleEngine
  | .get key => e.withHandle fun table => (t.lookup table key, e)
  | .scan range => e.withHandle fun table => (t.range table (rangeBounds range), e)
  | .writeBatch batch => e.withHandle fun table =>
      match t.write table batch with
      | some table => (.done, { e with table := some table })
      | none => (.failed, e)
  | .flush => e.withHandle fun _ => (.done, e)
  | .snapshot =>
      e.withHandle fun table => (.done, { e with snapshots := e.snapshots ++ [table.toList] })
  | .snapshotGet number key =>
      ((e.snapshots[number]?.map fun items =>
        EngineReply.value (lookupItem items key)).getD .unknown, e)
  | .snapshotScan number range =>
      ((e.snapshots[number]?.map fun items =>
        EngineReply.items (filterItems items range)).getD .unknown, e)
  | .close => (.done, { e with table := none })

def replies (t : Table) : HandleEngine → List EngineCall → List EngineReply
  | _, [] => []
  | e, call :: calls => (e.invoke t call).1 :: replies t (e.invoke t call).2 calls

end HandleEngine

/-! ### Limits -/

/-- The keys that every library takes. -/
def FitsKey (key : Bytes) : Prop := 1 ≤ key.length ∧ key.length ≤ 65535

instance (key : Bytes) : Decidable (FitsKey key) := inferInstanceAs (Decidable (_ ∧ _))

/-- The values that every library takes. -/
def FitsValue (value : Bytes) : Prop := value.length < 2 ^ 31

instance (value : Bytes) : Decidable (FitsValue value) := inferInstanceAs (Decidable (_ < _))

/-- A bound of a range may be empty. -/
def FitsBound (bound : Bytes) : Prop := bound.length ≤ 65535

instance (bound : Bytes) : Decidable (FitsBound bound) := inferInstanceAs (Decidable (_ ≤ _))

def Lsm.Staged.Fits : Lsm.Staged → Prop
  | insert key value => FitsKey key ∧ FitsValue value
  | remove key => FitsKey key

instance : DecidablePred Lsm.Staged.Fits
  | .insert key value => inferInstanceAs (Decidable (FitsKey key ∧ FitsValue value))
  | .remove key => inferInstanceAs (Decidable (FitsKey key))

def RangeBounds.Fits : RangeBounds → Prop
  | full => True
  | from_ start => FitsBound start
  | until_ stop => FitsBound stop
  | between start stop => FitsBound start ∧ FitsBound stop

instance : DecidablePred RangeBounds.Fits
  | .full => .isTrue trivial
  | .from_ start => inferInstanceAs (Decidable (FitsBound start))
  | .until_ stop => inferInstanceAs (Decidable (FitsBound stop))
  | .between start stop => inferInstanceAs (Decidable (FitsBound start ∧ FitsBound stop))

/-- What redb and fjall document of their tables: within the limits, lookups and ordered ranges give
what the table holds, and writes are taken in their order. -/
structure TableLibrary.Documented (lib : TableLibrary) : Prop where
  lookup : ∀ (table : Rows) key, FitsKey key → lib.lookup table key = .value table[key]?
  range : ∀ (table : Rows) (bounds : RangeBounds), bounds.ordered = true → bounds.Fits →
    lib.range table bounds = .items (bounds.collect table)
  commit : ∀ (table : Rows) staged, (∀ w ∈ staged, w.Fits) →
    lib.commit table staged = some (staged.foldl Lsm.Staged.commit table)

def WriteOp.Fits : WriteOp → Prop
  | put key value => FitsKey key ∧ FitsValue value
  | delete key => FitsKey key
  | deleteRange start stop => FitsBound start ∧ FitsBound stop

instance : DecidablePred WriteOp.Fits
  | .put key value => inferInstanceAs (Decidable (FitsKey key ∧ FitsValue value))
  | .delete key => inferInstanceAs (Decidable (FitsKey key))
  | .deleteRange start stop => inferInstanceAs (Decidable (FitsBound start ∧ FitsBound stop))

/-- The keys of a table are within the limits. -/
def FitsRows (rows : Rows) : Prop := ∀ k, rows[k]? ≠ none → FitsKey k

theorem FitsRows.run {rows : Rows} (h : FitsRows rows) {op : WriteOp} (hop : op.Fits) :
    FitsRows (op.run rows) := by
  intro k hk
  rw [WriteOp.get_run] at hk
  cases op with
  | put key value =>
      by_cases hkey : key = k
      · exact hkey ▸ hop.1
      · simp only [WriteOp.writes, if_neg hkey, Option.getD_none] at hk
        exact h k hk
  | delete key =>
      by_cases hkey : key = k
      · exact hkey ▸ hop
      · simp only [WriteOp.writes, if_neg hkey, Option.getD_none] at hk
        exact h k hk
  | deleteRange start stop =>
      simp only [WriteOp.writes] at hk
      split_ifs at hk
      · exact absurd rfl hk
      · exact h k hk

theorem FitsRows.runAll {rows : Rows} (h : FitsRows rows) {ops : List WriteOp}
    (hops : ∀ op ∈ ops, op.Fits) : FitsRows (ops.foldl WriteOp.run rows) := by
  induction ops generalizing rows with
  | nil => exact h
  | cons op ops ih =>
      obtain ⟨hop, hops⟩ := List.forall_mem_cons.mp hops
      exact ih (h.run hop) hops

/-- What an operation stages is within the limits. -/
theorem fits_stage {rows : Rows} (h : FitsRows rows) {op : WriteOp} (hop : op.Fits) :
    ∀ w ∈ Lsm.stage rows op, w.Fits := by
  intro w hw
  cases op with
  | put key value =>
      obtain rfl := List.mem_singleton.mp hw
      exact hop
  | delete key =>
      obtain rfl := List.mem_singleton.mp hw
      exact hop
  | deleteRange start stop =>
      obtain ⟨k, hk, rfl⟩ := List.mem_map.mp hw
      exact h k ((OrdMap.mem_keysIn _ _ _ _).mp hk).2

/-- Writing what an operation stages is the operation. -/
theorem foldl_stage (rows : Rows) (op : WriteOp) :
    (Lsm.stage rows op).foldl Lsm.Staged.commit rows = op.run rows := by
  rw [← Redb.applyOp_eq]
  cases op with
  | put key value => rfl
  | delete key => rfl
  | deleteRange start stop => exact List.foldl_map

theorem write_redb {lib : TableLibrary} (hlib : lib.Documented) {rows : Rows} (h : FitsRows rows)
    {batch : WriteBatch} (hops : ∀ op ∈ batch.ops, op.Fits) :
    (redb lib).write rows batch = some (batch.run rows) := by
  obtain ⟨ops⟩ := batch
  show ops.foldlM _ rows = some (ops.foldl WriteOp.run rows)
  induction ops generalizing rows with
  | nil => rfl
  | cons op ops ih =>
      obtain ⟨hop, hops⟩ := List.forall_mem_cons.mp hops
      rw [List.foldlM_cons, hlib.commit rows _ (fits_stage h hop), foldl_stage]
      exact ih (h.run hop) hops

theorem write_lsm {lib : TableLibrary} (hlib : lib.Documented) {rows : Rows} (h : FitsRows rows)
    {batch : WriteBatch} (hops : ∀ op ∈ batch.ops, op.Fits) (hordered : batch.ordered = true)
    (hescapes : ∀ k, ¬ Escapes rows batch.ops k) :
    (lsm lib).write rows batch = some (batch.run rows) := by
  have hstaged : ∀ w ∈ batch.ops.flatMap (Lsm.stage rows), w.Fits := by
    intro w hw
    obtain ⟨op, hop, hw⟩ := List.mem_flatMap.mp hw
    exact fits_stage h (hops op hop) w hw
  show lib.commit rows _ = _
  rw [hlib.commit rows _ hstaged]
  exact congrArg some ((engines_agree_iff rows batch hordered).mpr hescapes).1

/-! ### Reads -/

/-- The tables yield what the range contains. -/
theorem collect_rangeBounds (table : Rows) (range : KeyRange) :
    (rangeBounds range).collect table = filterItems table.toList range := by
  obtain ⟨start, stop⟩ := range
  unfold filterItems KeyRange.contains rangeBounds
  cases start with
  | nil => cases stop <;> simp [RangeBounds.collect]
  | cons x start => cases stop <;> simp [RangeBounds.collect]

theorem ordered_rangeBounds {range : KeyRange} (h : range.ordered = true) :
    (rangeBounds range).ordered = true := by
  obtain ⟨start, stop⟩ := range
  unfold rangeBounds
  cases start with
  | nil => cases stop <;> rfl
  | cons x start =>
      cases stop with
      | nil => rfl
      | cons y stop => simpa [RangeBounds.ordered, KeyRange.ordered] using h

theorem fits_rangeBounds {range : KeyRange} (hstart : FitsBound range.start)
    (hstop : FitsBound range.stop) : (rangeBounds range).Fits := by
  obtain ⟨start, stop⟩ := range
  unfold rangeBounds
  cases start with
  | nil =>
      cases stop with
      | nil => trivial
      | cons y stop => exact hstop
  | cons x start =>
      cases stop with
      | nil => exact hstart
      | cons y stop => exact ⟨hstart, hstop⟩

theorem lookupItem_toList (rows : Rows) (key : Bytes) :
    lookupItem rows.toList key = rows[key]? := by
  unfold lookupItem
  cases hfind : rows.toList.find? fun kv => kv.1 == key with
  | none =>
      cases hv : rows[key]? with
      | none => rfl
      | some v =>
          have hno := List.find?_eq_none.mp hfind _ ((OrdMap.mem_toList rows key v).mpr hv)
          exact absurd (beq_self_eq_true key) hno
  | some kv =>
      have hkey : kv.1 = key := by simpa using List.find?_some hfind
      have hmem : (kv.1, kv.2) ∈ rows.toList := List.mem_of_find?_eq_some hfind
      rw [OrdMap.mem_toList, hkey] at hmem
      exact hmem.symm

/-! ### The result -/

/-- The calls that the contract speaks of: the ranges are not inverted, no batch puts a key that it
deletes again with a range, and everything is within the limits. -/
def Contract.Fair (c : Contract) : EngineCall → Prop
  | .get key => FitsKey key
  | .scan range => range.ordered = true ∧ FitsBound range.start ∧ FitsBound range.stop
  | .writeBatch batch => c.closed = false →
      batch.ordered = true ∧ (∀ op ∈ batch.ops, op.Fits) ∧ ∀ k, ¬ Escapes c.rows batch.ops k
  | _ => True

theorem Contract.fitsRows_step {c : Contract} {call : EngineCall} (hrows : FitsRows c.rows)
    (h : c.Fair call) : FitsRows (c.step call).rows := by
  cases call with
  | writeBatch batch =>
      unfold Contract.step Contract.invoke
      cases hclosed : c.closed with
      | true => exact hrows
      | false => exact hrows.runAll (h hclosed).2.1
  | snapshot =>
      unfold Contract.step Contract.invoke
      cases c.closed <;> exact hrows
  | _ => exact hrows

def MemoryEngine.ofContract (c : Contract) : MemoryEngine := ⟨c.rows, c.closed, c.snapshots⟩

def HandleEngine.ofContract (c : Contract) : HandleEngine :=
  ⟨if c.closed then none else some c.rows, c.snapshots.map fun rows => rows.toList⟩

/-- The reference engine is the contract. -/
theorem MemoryEngine.invoke_ofContract {c : Contract} {call : EngineCall} (h : c.Fair call) :
    (ofContract c).invoke call = some ((c.invoke call).1, ofContract (c.step call)) := by
  cases call with
  | writeBatch batch =>
      cases hclosed : c.closed with
      | true => simp [invoke, ofContract, Contract.step, Contract.invoke, hclosed]
      | false =>
          have hbatch : MemoryBackend.writeBatch c.rows batch = some (batch.run c.rows) := by
            rw [MemoryBackend.writeBatch_eq, if_pos (h hclosed).1]
          simp [invoke, ofContract, Contract.step, Contract.invoke, hclosed, hbatch]
  | snapshot =>
      cases hclosed : c.closed <;>
        simp [invoke, ofContract, Contract.step, Contract.invoke, hclosed]
  | _ => rfl

/-- An engine with a handle follows the contract where its batches do. -/
theorem HandleEngine.invoke_ofContract {t : Table} {c : Contract} {call : EngineCall}
    (h : c.Fair call) (hlookup : ∀ key, FitsKey key → t.lookup c.rows key = .value c.rows[key]?)
    (hrange : ∀ bounds : RangeBounds, bounds.ordered = true → bounds.Fits →
      t.range c.rows bounds = .items (bounds.collect c.rows))
    (hwrite : ∀ batch, call = .writeBatch batch → c.closed = false →
      t.write c.rows batch = some (batch.run c.rows)) :
    (ofContract c).invoke t call = ((c.invoke call).1, ofContract (c.step call)) := by
  cases call with
  | get key =>
      have hfound := hlookup key h
      cases hclosed : c.closed <;>
        simp [invoke, withHandle, ofContract, Contract.step, Contract.invoke, hclosed, hfound]
  | scan range =>
      have hcollect := hrange _ (ordered_rangeBounds h.1) (fits_rangeBounds h.2.1 h.2.2)
      rw [collect_rangeBounds] at hcollect
      cases hclosed : c.closed <;>
        simp [invoke, withHandle, ofContract, Contract.step, Contract.invoke, hclosed, hcollect]
  | writeBatch batch =>
      cases hclosed : c.closed with
      | true => simp [invoke, withHandle, ofContract, Contract.step, Contract.invoke, hclosed]
      | false =>
          have hbatch := hwrite batch rfl hclosed
          simp [invoke, withHandle, ofContract, Contract.step, Contract.invoke, hclosed, hbatch]
  | flush => cases hclosed : c.closed <;>
      simp [invoke, withHandle, ofContract, Contract.step, Contract.invoke, hclosed]
  | snapshot => cases hclosed : c.closed <;>
      simp [invoke, withHandle, ofContract, Contract.step, Contract.invoke, hclosed]
  | snapshotGet number key =>
      show (((c.snapshots.map fun rows => rows.toList)[number]?.map _).getD _, _) = _
      rw [List.getElem?_map, Option.map_map]
      simp only [Function.comp_def, lookupItem_toList]
      rfl
  | snapshotScan number range =>
      show (((c.snapshots.map fun rows => rows.toList)[number]?.map _).getD _, _) = _
      rw [List.getElem?_map, Option.map_map]
      rfl
  | close => rfl

theorem MemoryEngine.replies_ofContract {c : Contract} {calls : List EngineCall}
    (h : Run.Along Contract.step Contract.Fair c calls) :
    (ofContract c).replies calls = some (c.replies calls) := by
  induction calls generalizing c with
  | nil => rfl
  | cons call calls ih =>
      rw [replies, invoke_ofContract h.1]
      simp only [Option.bind_eq_bind, Option.bind_some, ih h.2]
      rfl

theorem HandleEngine.replies_ofContract {lib : TableLibrary} (hlib : lib.Documented) {t : Table}
    (hlookup : t.lookup = lib.lookup) (hrange : t.range = lib.range)
    (hwrite : ∀ (rows : Rows) (batch : WriteBatch), FitsRows rows → batch.ordered = true →
      (∀ op ∈ batch.ops, op.Fits) → (∀ k, ¬ Escapes rows batch.ops k) →
        t.write rows batch = some (batch.run rows))
    {c : Contract} {calls : List EngineCall} (hrows : FitsRows c.rows)
    (h : Run.Along Contract.step Contract.Fair c calls) :
    (ofContract c).replies t calls = c.replies calls := by
  induction calls generalizing c with
  | nil => rfl
  | cons call calls ih =>
      have hcall : (ofContract c).invoke t call =
          ((c.invoke call).1, ofContract (c.step call)) := by
        refine invoke_ofContract h.1 (fun key hkey => ?_) (fun bounds hordered hfits => ?_) ?_
        · rw [hlookup, hlib.lookup c.rows key hkey]
        · rw [hrange, hlib.range c.rows bounds hordered hfits]
        · rintro batch rfl hclosed
          obtain ⟨hordered, hops, hescapes⟩ := h.1 hclosed
          exact hwrite c.rows batch hrows hordered hops hescapes
      rw [replies, hcall, ih (Contract.fitsRows_step hrows h.1) h.2]
      rfl

/-- **Behind their trait the engines are alike**: over every sequence of calls of the contract, with
snapshots that outlive later batches and the end of the backend, memory, redb and the LSM engine
give the same replies, those of the contract, and none of them panics. -/
theorem engines_run_alike (redbLib fjall : TableLibrary) (hredb : redbLib.Documented)
    (hfjall : fjall.Documented) (calls : List EngineCall)
    (h : Run.Along Contract.step Contract.Fair Contract.new calls) :
    MemoryEngine.new.replies calls = some (Contract.new.replies calls) ∧
      HandleEngine.new.replies (redb redbLib) calls = Contract.new.replies calls ∧
      HandleEngine.new.replies (lsm fjall) calls = Contract.new.replies calls := by
  have hempty : FitsRows Contract.new.rows := fun k hk => absurd (OrdMap.get_empty k) hk
  refine ⟨MemoryEngine.replies_ofContract h, ?_, ?_⟩
  · exact HandleEngine.replies_ofContract hredb rfl rfl
      (fun rows batch hrows _ hops _ => write_redb hredb hrows hops) hempty h
  · exact HandleEngine.replies_ofContract hfjall rfl rfl
      (fun rows batch hrows hordered hops hescapes =>
        write_lsm hfjall hrows hops hordered hescapes) hempty h

/-- A batch without range deletes leaves nothing behind. -/
theorem not_escapes {rows : Rows} {ops : List WriteOp} {k : Bytes}
    (h : ∀ op ∈ ops, op.covers k = false) : ¬ Escapes rows ops k := by
  rintro ⟨-, value, before, after, rfl, -, op, hop, hcovers⟩
  have hno := h op (List.mem_append_right _ (List.mem_cons_of_mem _ hop))
  rw [hno] at hcovers
  cases hcovers

/-- A library that refuses everything beyond the limits. -/
def strictLibrary : TableLibrary where
  lookup table key := if FitsKey key then .value table[key]? else .failed
  range table bounds :=
    if bounds.ordered = true ∧ bounds.Fits then .items (bounds.collect table) else .failed
  commit table staged :=
    if ∀ w ∈ staged, w.Fits then some (staged.foldl Lsm.Staged.commit table) else none

theorem strictLibrary_documented : strictLibrary.Documented where
  lookup _ _ hkey := if_pos hkey
  range _ _ hordered hfits := if_pos ⟨hordered, hfits⟩
  commit _ _ hstaged := if_pos hstaged

/-- A snapshot that outlives its row and the backend. -/
def snapshotCalls : List EngineCall :=
  [.writeBatch ⟨[.put [1] [7]]⟩, .snapshot, .writeBatch ⟨[.delete [1]]⟩, .close, .get [1],
    .snapshotGet 0 [1]]

theorem engines_run_alike_snapshot :
    Run.Along Contract.step Contract.Fair Contract.new snapshotCalls ∧
      HandleEngine.new.replies (lsm strictLibrary) snapshotCalls =
        Contract.new.replies snapshotCalls := by
  have hput : ∀ (rows : Rows) (k : Bytes), ¬ Escapes rows [.put [1] [7]] k := fun rows k =>
    not_escapes fun op hop => by rw [List.mem_singleton.mp hop]; rfl
  have hdelete : ∀ (rows : Rows) (k : Bytes), ¬ Escapes rows [.delete [1]] k := fun rows k =>
    not_escapes fun op hop => by rw [List.mem_singleton.mp hop]; rfl
  have h : Run.Along Contract.step Contract.Fair Contract.new snapshotCalls :=
    ⟨fun _ => ⟨rfl, by decide, hput _⟩, trivial, fun _ => ⟨rfl, by decide, hdelete _⟩, trivial,
      (by decide : FitsKey [1]), trivial, trivial⟩
  exact ⟨h, (engines_run_alike strictLibrary strictLibrary strictLibrary_documented
    strictLibrary_documented snapshotCalls h).2.2⟩

end AresaDb.Core
