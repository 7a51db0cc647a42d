import AresaDb.Lib.Run
import AresaDb.Server.Session

/-! # Transactions

The transactions of the handler, under any interleaving of its connections: a beginning takes its
id from a counter and enters it into the map in a second step.  No id is given out twice, and each
is ended once at most (`transactions_exact`).  The storage knows nothing of them, so a rollback
takes nothing back (`transactions_inert`). -/

namespace AresaDb.Server

open ByteOrder AresaDb.Store

section

variable {σ : Type}

/-! ### Interleavings -/

/-- What a connection does to the transactions at once. -/
inductive TxStep where
  /-- A beginning takes its id. -/
  | draw (conn : ℕ)
  /-- The id is entered into the map. -/
  | enter (conn : ℕ)
  | finish (txId : UInt64) (commit : Bool)
deriving DecidableEq

/-- The handler, the ids that the connections have taken and not entered yet, and the responses. -/
structure TxServer (σ : Type) where
  handler : RequestHandler σ
  pending : ℕ → Option UInt64
  history : List (TxStep × Response)

/-- The response that ends a transaction. -/
def endedBy (commit : Bool) : Response :=
  if commit then .transactionCommitted else .transactionRolledBack

namespace TxServer

def new (s : σ) : TxServer σ := ⟨.new s, fun _ => none, []⟩

/-- A connection that has begun a transaction is busy until the id is entered. -/
def step (t : TxServer σ) : TxStep → TxServer σ
  | .draw conn =>
      match t.pending conn with
      | some _ => t
      | none =>
          { t with
            handler := { t.handler with txCounter := t.handler.txCounter + 1 }
            pending := Function.update t.pending conn (some t.handler.txCounter) }
  | .enter conn =>
      match t.pending conn with
      | none => t
      | some txId =>
          { handler :=
              { t.handler with transactions := insert txId t.handler.transactions }
            pending := Function.update t.pending conn none
            history := t.history ++ [(.enter conn, .transactionStarted txId)] }
  | .finish txId commit =>
      let out := t.handler.endTransaction txId (endedBy commit)
      { t with
        handler := out.2
        history := t.history ++ [(.finish txId commit, out.1)] }

abbrev run (t : TxServer σ) (steps : List TxStep) : TxServer σ := Run.run step t steps

end TxServer

/-- A beginning of a connection that is not disturbed is that of the handler. -/
theorem begin_undisturbed (t : TxServer σ) (conn : ℕ) (h : t.pending conn = none) :
    let out := t.handler.handleBeginTransaction
    t.run [.draw conn, .enter conn] =
      ⟨out.2, t.pending, t.history ++ [(.enter conn, out.1)]⟩ := by
  obtain ⟨handler, pending, history⟩ := t
  simp only at h
  simp [TxServer.run, TxServer.step, h, RequestHandler.handleBeginTransaction,
    Function.update_eq_self_iff]

def startedId : TxStep × Response → Option UInt64
  | (_, .transactionStarted txId) => some txId
  | _ => none

def endedId : TxStep × Response → Option UInt64
  | (.finish txId _, .transactionCommitted) => some txId
  | (.finish txId _, .transactionRolledBack) => some txId
  | _ => none

/-- The ids that were given out. -/
def started (history : List (TxStep × Response)) : List UInt64 := history.filterMap startedId

/-- The ids of the transactions that were ended. -/
def ended (history : List (TxStep × Response)) : List UInt64 := history.filterMap endedId

/-- What a commit or a rollback is answered. -/
def verdict (history : List (TxStep × Response)) (txId : UInt64) (commit : Bool) : Response :=
  if txId ∈ started history ∧ txId ∉ ended history then endedBy commit
  else .error .transactionError "Transaction not found"

/-- Every commit and rollback of a history was answered by what came before it. -/
def Judged (history : List (TxStep × Response)) : Prop :=
  ∀ before txId commit response after,
    history = before ++ (.finish txId commit, response) :: after →
      response = verdict before txId commit

def isDraw : TxStep → Bool
  | .draw _ => true
  | _ => false

/-- The id is one of the first `n`. -/
def Drawn (n : ℕ) (txId : UInt64) : Prop := ∃ i < n, txId = .ofNat (1 + i)

/-- What holds after `n` ids have been taken. -/
structure TxInv (n : ℕ) (t : TxServer σ) : Prop where
  counter : t.handler.txCounter = .ofNat (1 + n)
  taken : ∀ conn txId, t.pending conn = some txId → Drawn n txId ∧ txId ∉ started t.history
  apart : ∀ conn conn' txId, t.pending conn = some txId → t.pending conn' = some txId → conn = conn'
  given : ∀ txId ∈ started t.history, Drawn n txId
  started_nodup : (started t.history).Nodup
  ended_nodup : (ended t.history).Nodup
  ended_started : ∀ txId ∈ ended t.history, txId ∈ started t.history
  live : ∀ txId, txId ∈ t.handler.transactions ↔
    txId ∈ started t.history ∧ txId ∉ ended t.history
  judged : Judged t.history

theorem Drawn.mono {n m : ℕ} {txId : UInt64} (h : Drawn n txId) (hnm : n ≤ m) : Drawn m txId := by
  obtain ⟨i, hi, heq⟩ := h
  exact ⟨i, lt_of_lt_of_le hi hnm, heq⟩

/-- As long as the counter has not come round, the next id is new. -/
theorem not_drawn {n : ℕ} (hn : n < 2 ^ 64) : ¬ Drawn n (.ofNat (1 + n)) := by
  rintro ⟨i, hi, heq⟩
  have hmod := congrArg UInt64.toNat heq
  rw [UInt64.toNat_ofNat', UInt64.toNat_ofNat'] at hmod
  omega

theorem started_append (h : List (TxStep × Response)) (e : TxStep × Response) :
    started (h ++ [e]) = started h ++ (startedId e).toList := by
  unfold started
  rw [List.filterMap_append]
  cases he : startedId e <;> simp [he]

theorem ended_append (h : List (TxStep × Response)) (e : TxStep × Response) :
    ended (h ++ [e]) = ended h ++ (endedId e).toList := by
  unfold ended
  rw [List.filterMap_append]
  cases he : endedId e <;> simp [he]

/-- A further answer keeps a history judged if it is what came before it asks for. -/
theorem Judged.append {h : List (TxStep × Response)} {e : TxStep × Response} (hj : Judged h)
    (he : ∀ txId commit, e.1 = .finish txId commit → e.2 = verdict h txId commit) :
    Judged (h ++ [e]) := by
  intro before txId commit response after hsplit
  rcases List.eq_nil_or_concat after with rfl | ⟨after', last, rfl⟩
  · obtain ⟨rfl, hlast⟩ := List.append_inj' hsplit rfl
    obtain rfl := List.singleton_inj.mp hlast
    exact he txId commit rfl
  · rw [List.concat_eq_append, ← List.cons_append, ← List.append_assoc] at hsplit
    obtain ⟨rfl, -⟩ := List.append_inj' hsplit rfl
    exact hj before txId commit response after' rfl

section

variable {n : ℕ} {t : TxServer σ}

theorem TxInv.draw (h : TxInv n t) (hn : n < 2 ^ 64) {conn : ℕ} (hidle : t.pending conn = none) :
    TxInv (n + 1) (t.step (.draw conn)) := by
  have hstep : t.step (.draw conn) =
      { t with
        handler := { t.handler with txCounter := t.handler.txCounter + 1 }
        pending := Function.update t.pending conn (some t.handler.txCounter) } := by
    simp only [TxServer.step, hidle]
  have hfresh : ∀ {txId}, Drawn n txId → txId ≠ t.handler.txCounter := by
    rintro txId hdrawn rfl
    rw [h.counter] at hdrawn
    exact not_drawn hn hdrawn
  rw [hstep]
  refine ⟨?_, ?_, ?_, fun txId hid => (h.given txId hid).mono n.le_succ, h.started_nodup,
    h.ended_nodup, h.ended_started, h.live, h.judged⟩
  · show t.handler.txCounter + 1 = _
    rw [h.counter, ← add_assoc]
    exact (UInt64.ofNat_add (1 + n) 1).symm
  · intro c txId hc
    simp only at hc
    by_cases heq : c = conn
    · rw [heq, Function.update_self] at hc
      obtain rfl := Option.some.inj hc
      exact ⟨⟨n, n.lt_succ_self, h.counter⟩, fun hin => hfresh (h.given _ hin) rfl⟩
    · rw [Function.update_of_ne heq] at hc
      exact ⟨(h.taken c txId hc).1.mono n.le_succ, (h.taken c txId hc).2⟩
  · intro c c' txId hc hc'
    simp only at hc hc'
    by_cases heq : c = conn <;> by_cases heq' : c' = conn
    · rw [heq, heq']
    · rw [heq, Function.update_self] at hc
      rw [Function.update_of_ne heq'] at hc'
      exact absurd (Option.some.inj hc).symm (hfresh (h.taken c' txId hc').1)
    · rw [heq', Function.update_self] at hc'
      rw [Function.update_of_ne heq] at hc
      exact absurd (Option.some.inj hc').symm (hfresh (h.taken c txId hc).1)
    · rw [Function.update_of_ne heq] at hc
      rw [Function.update_of_ne heq'] at hc'
      exact h.apart c c' txId hc hc'

theorem TxInv.enter (h : TxInv n t) {conn : ℕ} {txId : UInt64}
    (hbusy : t.pending conn = some txId) : TxInv n (t.step (.enter conn)) := by
  have hstep : t.step (.enter conn) =
      { handler := { t.handler with transactions := insert txId t.handler.transactions }
        pending := Function.update t.pending conn none
        history := t.history ++ [(.enter conn, .transactionStarted txId)] } := by
    simp only [TxServer.step, hbusy]
  have hstarted : started (t.history ++ [(.enter conn, .transactionStarted txId)]) =
      started t.history ++ [txId] := started_append _ _
  have hended : ended (t.history ++ [(.enter conn, .transactionStarted txId)]) =
      ended t.history := by
    rw [ended_append]
    exact List.append_nil _
  obtain ⟨hdrawn, hnew⟩ := h.taken conn txId hbusy
  rw [hstep]
  refine ⟨h.counter, ?_, ?_, ?_, ?_, ?_, ?_, ?_, ?_⟩
  · intro c id hc
    simp only at hc
    by_cases heq : c = conn
    · rw [heq, Function.update_self] at hc
      cases hc
    · rw [Function.update_of_ne heq] at hc
      refine ⟨(h.taken c id hc).1, fun hin => ?_⟩
      rw [hstarted] at hin
      rcases List.mem_append.mp hin with hin | hin
      · exact (h.taken c id hc).2 hin
      · obtain rfl := List.mem_singleton.mp hin
        exact heq (h.apart c conn id hc hbusy)
  · intro c c' id hc hc'
    simp only at hc hc'
    by_cases heq : c = conn
    · rw [heq, Function.update_self] at hc
      cases hc
    by_cases heq' : c' = conn
    · rw [heq', Function.update_self] at hc'
      cases hc'
    rw [Function.update_of_ne heq] at hc
    rw [Function.update_of_ne heq'] at hc'
    exact h.apart c c' id hc hc'
  · intro id hid
    rw [hstarted] at hid
    rcases List.mem_append.mp hid with hid | hid
    · exact h.given id hid
    · obtain rfl := List.mem_singleton.mp hid
      exact hdrawn
  · rw [hstarted, ← List.concat_eq_append]
    exact h.started_nodup.concat hnew
  · rw [hended]
    exact h.ended_nodup
  · intro id hid
    rw [hended] at hid
    rw [hstarted]
    exact List.mem_append_left _ (h.ended_started id hid)
  · intro id
    rw [hstarted, hended, Finset.mem_insert, h.live, List.mem_append, List.mem_singleton]
    have hended' : id = txId → id ∉ ended t.history := by
      rintro rfl hin
      exact hnew (h.ended_started _ hin)
    tauto
  · exact h.judged.append fun _ _ hfinish => by cases hfinish

theorem TxInv.finish (h : TxInv n t) (txId : UInt64) (commit : Bool) :
    TxInv n (t.step (.finish txId commit)) := by
  have hreply : (t.handler.endTransaction txId (endedBy commit)).1 =
      verdict t.history txId commit := by
    unfold RequestHandler.endTransaction verdict
    by_cases hin : txId ∈ t.handler.transactions
    · rw [if_pos hin, if_pos ((h.live txId).mp hin)]
    · rw [if_neg hin, if_neg fun hlive => hin ((h.live txId).mpr hlive)]
  have hhandler : (t.handler.endTransaction txId (endedBy commit)).2 =
      { t.handler with transactions := t.handler.transactions.erase txId } := by
    unfold RequestHandler.endTransaction
    split_ifs with hin
    · rfl
    · rw [Finset.erase_eq_of_notMem hin]
  have hstep : t.step (.finish txId commit) =
      { t with
        handler := { t.handler with transactions := t.handler.transactions.erase txId }
        history := t.history ++ [(.finish txId commit, verdict t.history txId commit)] } := by
    simp only [TxServer.step, hreply, hhandler]
  have hstarted : started (t.history ++ [(.finish txId commit, verdict t.history txId commit)]) =
      started t.history := by
    rw [started_append]
    unfold verdict endedBy
    split_ifs <;> exact List.append_nil _
  have hjudged : Judged (t.history ++ [(.finish txId commit, verdict t.history txId commit)]) := by
    refine h.judged.append fun id c hfinish => ?_
    obtain ⟨rfl, rfl⟩ := TxStep.finish.inj hfinish
    rfl
  rw [hstep]
  by_cases hlive : txId ∈ started t.history ∧ txId ∉ ended t.history
  · have hended : ended (t.history ++ [(.finish txId commit, verdict t.history txId commit)]) =
        ended t.history ++ [txId] := by
      rw [ended_append]
      unfold verdict endedBy
      rw [if_pos hlive]
      cases commit <;> rfl
    refine ⟨h.counter, ?_, h.apart, ?_, ?_, ?_, ?_, ?_, hjudged⟩
    · rw [hstarted]
      exact h.taken
    · rw [hstarted]
      exact h.given
    · rw [hstarted]
      exact h.started_nodup
    · rw [hended, ← List.concat_eq_append]
      exact h.ended_nodup.concat hlive.2
    · intro id hid
      rw [hstarted]
      rw [hended] at hid
      rcases List.mem_append.mp hid with hid | hid
      · exact h.ended_started id hid
      · obtain rfl := List.mem_singleton.mp hid
        exact hlive.1
    · intro id
      rw [hstarted, hended, Finset.mem_erase, h.live, List.mem_append, List.mem_singleton]
      tauto
  · have hended : ended (t.history ++ [(.finish txId commit, verdict t.history txId commit)]) =
        ended t.history := by
      rw [ended_append]
      unfold verdict
      rw [if_neg hlive]
      exact List.append_nil _
    refine ⟨h.counter, ?_, h.apart, ?_, ?_, ?_, ?_, ?_, hjudged⟩
    · rw [hstarted]
      exact h.taken
    · rw [hstarted]
      exact h.given
    · rw [hstarted]
      exact h.started_nodup
    · rw [hended]
      exact h.ended_nodup
    · rw [hended, hstarted]
      exact h.ended_started
    · intro id
      rw [hstarted, hended, Finset.mem_erase, h.live]
      refine ⟨fun hin => hin.2, fun hin => ⟨?_, hin⟩⟩
      rintro rfl
      exact hlive hin

theorem TxInv.new (s : σ) : TxInv 0 (TxServer.new s) where
  counter := rfl
  taken _ _ h := by cases h
  apart _ _ _ h := by cases h
  given _ h := absurd h List.not_mem_nil
  started_nodup := List.nodup_nil
  ended_nodup := List.nodup_nil
  ended_started _ h := absurd h List.not_mem_nil
  live _ := iff_of_false (Finset.notMem_empty _) fun h => absurd h.1 List.not_mem_nil
  judged before txId commit response after h := by
    have hlength := congrArg List.length h
    rw [List.length_append] at hlength
    exact absurd hlength (by simp [TxServer.new])

/-- A step takes an id at most. -/
theorem TxInv.step (h : TxInv n t) (step : TxStep) (hn : isDraw step → n < 2 ^ 64) :
    ∃ m ≤ n + (if isDraw step then 1 else 0), TxInv m (t.step step) := by
  cases step with
  | draw conn =>
      cases hconn : t.pending conn with
      | none => exact ⟨n + 1, le_rfl, h.draw (hn rfl) hconn⟩
      | some txId =>
          have hsame : t.step (.draw conn) = t := by simp only [TxServer.step, hconn]
          exact ⟨n, Nat.le_succ n, by rwa [hsame]⟩
  | enter conn =>
      cases hconn : t.pending conn with
      | none =>
          have hsame : t.step (.enter conn) = t := by simp only [TxServer.step, hconn]
          exact ⟨n, le_rfl, by rwa [hsame]⟩
      | some txId => exact ⟨n, le_rfl, h.enter hconn⟩
  | finish txId commit => exact ⟨n, le_rfl, h.finish txId commit⟩

theorem txInv_run (s : σ) (steps : List TxStep) (hfew : steps.countP isDraw ≤ 2 ^ 64) :
    ∃ m ≤ steps.countP isDraw, TxInv m ((TxServer.new s).run steps) := by
  induction steps using List.reverseRecOn with
  | nil => exact ⟨0, le_rfl, TxInv.new s⟩
  | append_singleton steps step ih =>
      rw [List.countP_append] at hfew ⊢
      rw [List.countP_singleton] at hfew ⊢
      obtain ⟨m, hm, hinv⟩ := ih ((Nat.le_add_right _ _).trans hfew)
      obtain ⟨m', hm', hinv'⟩ := hinv.step step fun hdraw => by
        rw [if_pos hdraw] at hfew
        omega
      rw [TxServer.run, Run.run_concat]
      exact ⟨m', by omega, hinv'⟩

/-- **The transactions of a server**, however its connections interleave, until the counter comes
round: no id is given out twice, a transaction is ended once at most, and a commit or a rollback is
answered by whether the id has been given out and not ended before. -/
theorem transactions_exact (s : σ) (steps : List TxStep) (hfew : steps.countP isDraw ≤ 2 ^ 64) :
    let t := (TxServer.new s).run steps
    (started t.history).Nodup ∧ (ended t.history).Nodup ∧ Judged t.history ∧
      ∀ txId, txId ∈ t.handler.transactions ↔
        txId ∈ started t.history ∧ txId ∉ ended t.history := by
  obtain ⟨m, -, h⟩ := txInv_run s steps hfew
  exact ⟨h.started_nodup, h.ended_nodup, h.judged, h.live⟩

/-- Two beginnings that overlap, and a transaction that is ended twice. -/
theorem transactions_exact_overlap :
    (started ((TxServer.new ()).run
      [.draw 1, .draw 2, .enter 2, .enter 1, .finish 2 true, .finish 2 false]).history).Nodup :=
  (transactions_exact () [.draw 1, .draw 2, .enter 2, .enter 1, .finish 2 true, .finish 2 false]
    (by decide)).1

end

/-! ### The storage -/

/-- The request begins or ends a transaction. -/
def Request.isTransaction : Request → Bool
  | .beginTransaction | .commitTransaction _ | .rollbackTransaction _ => true
  | _ => false

/-- The responses to requests of any connections, and the handler after them.  A panic is no
response, and the requests of other connections go on. -/
def serveAll (T : UuidText) (b : Backend σ) (h : RequestHandler σ) :
    List Request → List (Request × Option Response) × RequestHandler σ
  | [] => ([], h)
  | r :: rs =>
      let out := h.handle T b r
      let later := serveAll T b out.2 rs
      ((r, out.1) :: later.1, later.2)

variable (T : UuidText) (b : Backend σ)

/-- A transaction request leaves the storage alone. -/
theorem handle_transaction (h : RequestHandler σ) {r : Request} (hr : r.isTransaction = true) :
    (h.handle T b r).2.storage = h.storage := by
  cases r with
  | beginTransaction => rfl
  | commitTransaction txId =>
      show (h.endTransaction txId .transactionCommitted).2.storage = _
      unfold RequestHandler.endTransaction
      split_ifs <;> rfl
  | rollbackTransaction txId =>
      show (h.endTransaction txId .transactionRolledBack).2.storage = _
      unfold RequestHandler.endTransaction
      split_ifs <;> rfl
  | _ => cases hr

/-- Any other request looks at the storage alone. -/
theorem handle_storage {h h' : RequestHandler σ} (hs : h.storage = h'.storage) {r : Request}
    (hr : r.isTransaction = false) :
    (h.handle T b r).1 = (h'.handle T b r).1 ∧
      (h.handle T b r).2.storage = (h'.handle T b r).2.storage := by
  cases r with
  | beginTransaction => cases hr
  | commitTransaction txId => cases hr
  | rollbackTransaction txId => cases hr
  | ping => exact ⟨rfl, hs⟩
  | disconnect => exact ⟨rfl, hs⟩
  | _ => simp [RequestHandler.handle, RequestHandler.stored, hs]

theorem serveAll_storage {h h' : RequestHandler σ} (hs : h.storage = h'.storage)
    (rs : List Request) :
    ((serveAll T b h rs).1.filter fun e => !e.1.isTransaction) =
        (serveAll T b h' (rs.filter fun r => !r.isTransaction)).1 ∧
      (serveAll T b h rs).2.storage =
        (serveAll T b h' (rs.filter fun r => !r.isTransaction)).2.storage := by
  induction rs generalizing h h' with
  | nil => exact ⟨rfl, hs⟩
  | cons r rs ih =>
      cases hr : r.isTransaction with
      | true =>
          obtain ⟨hsame, hstorage⟩ := ih ((handle_transaction T b h hr).trans hs)
          simp only [serveAll, List.filter_cons, hr, Bool.not_true, Bool.false_eq_true, if_false]
          exact ⟨hsame, hstorage⟩
      | false =>
          obtain ⟨hresponse, hlater⟩ := handle_storage T b hs hr
          obtain ⟨hsame, hstorage⟩ := ih hlater
          simp only [serveAll, List.filter_cons, hr, Bool.not_false, if_true, hresponse]
          exact ⟨congrArg _ hsame, hstorage⟩

/-- **Transactions do nothing**: whatever the requests, the storage ends as it does without the
transactions among them, and every other request is answered as it is without them.  A rollback
takes nothing back. -/
theorem transactions_inert (h : RequestHandler σ) (rs : List Request) :
    ((serveAll T b h rs).1.filter fun e => !e.1.isTransaction) =
        (serveAll T b h (rs.filter fun r => !r.isTransaction)).1 ∧
      (serveAll T b h rs).2.storage =
        (serveAll T b h (rs.filter fun r => !r.isTransaction)).2.storage :=
  serveAll_storage T b rfl rs

end

end AresaDb.Server
