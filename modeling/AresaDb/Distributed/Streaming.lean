import AresaDb.Lib.Drain

/-! # Result streams

`ResultStream` and `BatchedStream` (`distributed/streaming.rs`).  The receiving end of a channel is
the messages that are sent before it closes, in their order: items and errors.

`BatchedStream::next` fetches a batch when the current one is used up and hands out its first item.
Of an empty batch that is `None`, which is how it also says that the stream has ended, and so
`collect` stops there with batches still to come.  It delivers all that was sent exactly when only
empty batches come after an empty batch (`collect_exact_iff`).  `ResultStream::collect` has no such
gap (`ResultStream.collect_new`). -/

namespace AresaDb.Distributed

variable {ε α : Type}

/-- All the items of a run of messages, or the first error. -/
def allItems (messages : List (Except ε α)) : Except ε (List α) := messages.mapM id

@[simp] theorem allItems_error (e : ε) (messages : List (Except ε α)) :
    allItems (.error e :: messages) = .error e := rfl

@[simp] theorem allItems_ok (a : α) (messages : List (Except ε α)) :
    allItems (.ok a :: messages) = (allItems messages).map (a :: ·) := by
  rw [allItems, List.mapM_cons]
  cases h : messages.mapM id <;> simp [allItems, h, Except.map, bind, Except.bind, pure,
    Except.pure]

/-! ### Streams of results -/

structure ResultStream (ε α : Type) where
  receiver : List (Except ε α)
  buffer : List α
  complete : Bool

namespace ResultStream

def new (receiver : List (Except ε α)) : ResultStream ε α := ⟨receiver, [], false⟩

def next (s : ResultStream ε α) : Option (Except ε α) × ResultStream ε α :=
  match s.buffer with
  | item :: buffer => (some (.ok item), { s with buffer := buffer })
  | [] =>
      if s.complete then (none, s)
      else
        match s.receiver with
        | .ok item :: receiver => (some (.ok item), { s with receiver := receiver })
        | .error e :: receiver =>
            (some (.error e), { s with receiver := receiver, complete := true })
        | [] => (none, { s with complete := true })

def messageSize (size : α → ℕ) : Except ε α → ℕ
  | .ok item => size item
  | .error _ => 0

/-- The size of what a stream can still hand out, from that of an item. -/
def sizeOf (size : α → ℕ) (s : ResultStream ε α) : ℕ :=
  (s.buffer.map size).sum + (s.receiver.map (messageSize size)).sum

/-- An item handed out takes its size from the stream. -/
theorem sizeOf_next (size : α → ℕ) {s s' : ResultStream ε α} {a : α}
    (h : s.next = (some (.ok a), s')) : s.sizeOf size = size a + s'.sizeOf size := by
  obtain ⟨receiver, buffer, complete⟩ := s
  unfold next at h
  split at h
  · rename_i item rest hbuffer
    simp only [Prod.mk.injEq, Option.some.injEq, Except.ok.injEq] at h
    obtain ⟨rfl, rfl⟩ := h
    subst hbuffer
    simp only [sizeOf, List.map_cons, List.sum_cons]
    omega
  · rename_i hbuffer
    split at h
    · simp at h
    · split at h
      · rename_i item rest hreceiver
        simp only [Prod.mk.injEq, Option.some.injEq, Except.ok.injEq] at h
        obtain ⟨rfl, rfl⟩ := h
        subst hbuffer hreceiver
        simp only [sizeOf, List.map_cons, List.sum_cons, messageSize]
        omega
      · simp at h
      · simp at h

def source (ε α : Type) : Source (ResultStream ε α) ε α where
  next := next
  size := sizeOf fun _ => 1
  size_next s a s' h := by
    rw [sizeOf_next (fun _ => 1) h]
    omega

def collect (s : ResultStream ε α) : Except ε (List α) := (source ε α).drain s

theorem collect_new (messages : List (Except ε α)) :
    (new messages).collect = allItems messages := by
  induction messages with
  | nil => exact Source.drain_of_none rfl
  | cons m messages ih =>
      cases m with
      | error e => exact Source.drain_of_error rfl
      | ok a => rw [allItems_ok, ← ih]; exact Source.drain_of_ok rfl

end ResultStream

/-! ### Streams of batches -/

structure BatchedStream (ε α : Type) where
  inner : ResultStream ε (List α)
  currentBatch : List α

namespace BatchedStream

def new (inner : ResultStream ε (List α)) : BatchedStream ε α := ⟨inner, []⟩

def next (s : BatchedStream ε α) : Option (Except ε α) × BatchedStream ε α :=
  match s.currentBatch with
  | item :: batch => (some (.ok item), { s with currentBatch := batch })
  | [] =>
      match s.inner.next with
      | (none, inner) => (none, { s with inner := inner })
      | (some (.ok batch), inner) =>
          (batch.head?.map .ok, { inner := inner, currentBatch := batch.tail })
      | (some (.error e), inner) => (some (.error e), { s with inner := inner })

def size (s : BatchedStream ε α) : ℕ := s.currentBatch.length + s.inner.sizeOf List.length

def source (ε α : Type) : Source (BatchedStream ε α) ε α where
  next := next
  size := size
  size_next s a s' h := by
    obtain ⟨inner, batch⟩ := s
    unfold next at h
    split at h
    · rename_i item rest hbatch
      simp only [Prod.mk.injEq] at h
      obtain ⟨-, rfl⟩ := h
      subst hbatch
      simp [size]
    · rename_i hbatch
      subst hbatch
      split at h
      · simp at h
      · rename_i batch inner' hnext
        have hsize := ResultStream.sizeOf_next List.length hnext
        cases batch with
        | nil => simp at h
        | cons item rest =>
            simp only [Prod.mk.injEq] at h
            obtain ⟨-, rfl⟩ := h
            simp only [size, hsize, List.length_cons, List.tail_cons, List.length_nil]
            omega
      · simp at h

def collect (s : BatchedStream ε α) : Except ε (List α) := (source ε α).drain s

/-! ### What a collection loses -/

variable (inner : ResultStream ε (List α)) (messages : List (Except ε (List α)))

theorem collect_append (batch : List α) :
    (⟨inner, batch⟩ : BatchedStream ε α).collect = (new inner).collect.map (batch ++ ·) := by
  induction batch with
  | nil => cases h : (new inner).collect <;> exact h
  | cons a batch ih =>
      have hnext : (⟨inner, a :: batch⟩ : BatchedStream ε α).collect =
          (⟨inner, batch⟩ : BatchedStream ε α).collect.map (a :: ·) := Source.drain_of_ok rfl
      rw [hnext, ih]
      cases (new inner).collect <;> rfl

@[simp] theorem collect_nil : (new (.new [])).collect = (.ok [] : Except ε (List α)) :=
  Source.drain_of_none rfl

@[simp] theorem collect_error (e : ε) : (new (.new (.error e :: messages))).collect = .error e :=
  Source.drain_of_error rfl

/-- An empty batch ends the collection. -/
@[simp] theorem collect_empty : (new (.new (.ok [] :: messages))).collect = .ok [] :=
  Source.drain_of_none rfl

@[simp] theorem collect_batch (a : α) (batch : List α) :
    (new (.new (.ok (a :: batch) :: messages))).collect =
      (new (.new messages)).collect.map (a :: batch ++ ·) := by
  have hnext : (new (.new (.ok (a :: batch) :: messages))).collect =
      (⟨.new messages, batch⟩ : BatchedStream ε α).collect.map (a :: ·) := Source.drain_of_ok rfl
  rw [hnext, collect_append]
  cases (new (.new messages)).collect <;> rfl

/-- What was sent: the items of all batches in order, or the first error. -/
def delivered (messages : List (Except ε (List α))) : Except ε (List α) :=
  (allItems messages).map List.flatten

@[simp] theorem delivered_ok (batch : List α) :
    delivered (.ok batch :: messages) = (delivered messages).map (batch ++ ·) := by
  rw [delivered, delivered, allItems_ok]
  cases allItems messages <;> rfl

theorem delivered_batches (batches : List (List α)) :
    delivered (batches.map .ok) = (.ok batches.flatten : Except ε (List α)) := by
  induction batches with
  | nil => rfl
  | cons batch batches ih =>
      rw [List.map_cons, delivered_ok, ih]
      rfl

theorem delivered_batches_error (batches : List (List α)) (e : ε) :
    delivered (batches.map .ok ++ .error e :: messages) = .error e := by
  induction batches with
  | nil => rfl
  | cons batch batches ih =>
      rw [List.map_cons, List.cons_append, delivered_ok, ih]
      rfl

theorem delivered_eq_nil_iff : delivered messages = .ok [] ↔ ∀ m ∈ messages, m = .ok [] := by
  induction messages with
  | nil => exact iff_of_true rfl (List.forall_mem_nil _)
  | cons m messages ih =>
      rw [List.forall_mem_cons, ← ih]
      cases m with
      | error e => simp [delivered, Except.map]
      | ok batch =>
          rw [delivered_ok]
          cases delivered messages <;> simp [Except.map]

/-- Only empty batches come after an empty batch that has no error before it. -/
def EmptyLast (messages : List (Except ε (List α))) : Prop :=
  ∀ before after, messages = before ++ .ok [] :: after → (∀ m ∈ before, ∃ batch, m = .ok batch) →
    ∀ m ∈ after, m = .ok []

theorem emptyLast_error (e : ε) : EmptyLast (.error e :: messages) := by
  intro before after heq hbefore
  cases before with
  | nil => simp at heq
  | cons m before =>
      obtain ⟨batch, rfl⟩ := hbefore m List.mem_cons_self
      simp at heq

theorem emptyLast_empty_iff :
    EmptyLast (.ok [] :: messages) ↔ ∀ m ∈ messages, m = .ok [] := by
  refine ⟨fun h => h [] messages rfl (List.forall_mem_nil _), fun h before after heq _ m hm => ?_⟩
  cases before with
  | nil => exact h m ((List.cons.inj heq).2 ▸ hm)
  | cons m' before =>
      have hin : m ∈ messages := by
        rw [(List.cons.inj heq).2]
        exact List.mem_append_right _ (List.mem_cons_of_mem _ hm)
      exact h m hin

theorem emptyLast_batch_iff (a : α) (batch : List α) :
    EmptyLast (.ok (a :: batch) :: messages) ↔ EmptyLast messages := by
  constructor
  · rintro h before after rfl hbefore
    refine h (.ok (a :: batch) :: before) after rfl ?_
    exact List.forall_mem_cons.mpr ⟨⟨_, rfl⟩, hbefore⟩
  · intro h before after heq hbefore
    cases before with
    | nil => simp at heq
    | cons m before =>
        exact h before after (List.cons.inj heq).2 (List.forall_mem_cons.mp hbefore).2

/-- A collection is what was sent exactly when nothing but empty batches comes after an empty one.
-/
theorem collect_exact_iff :
    (new (.new messages)).collect = delivered messages ↔ EmptyLast messages := by
  induction messages with
  | nil =>
      refine iff_of_true collect_nil fun before after heq => ?_
      simp at heq
  | cons m messages ih =>
      cases m with
      | error e => exact iff_of_true (collect_error messages e) (emptyLast_error messages e)
      | ok batch =>
          cases batch with
          | nil =>
              rw [collect_empty, delivered_ok, emptyLast_empty_iff, ← delivered_eq_nil_iff]
              cases delivered messages <;> simp [Except.map, eq_comm]
          | cons a batch =>
              rw [collect_batch, delivered_ok, emptyLast_batch_iff, ← ih]
              cases (new (.new messages)).collect <;> cases delivered messages <;>
                simp [Except.map]

/-- An empty batch before one with an item: the item is lost. -/
theorem item_after_empty_lost :
    ¬ ∀ batches : List (List ℕ), (new (.new (batches.map .ok))).collect =
      (.ok batches.flatten : Except Unit (List ℕ)) := by
  intro h
  have hlost := h [[], [1]]
  rw [List.map_cons, collect_empty] at hlost
  simp at hlost

end BatchedStream

end AresaDb.Distributed
