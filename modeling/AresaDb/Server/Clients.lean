import AresaDb.Lib.Run
import AresaDb.Server.Session

/-! # Clients

The client library (`client/mod.rs`) against the server with its limit on connections
(`server/pool.rs`, `Server::run` in `server/mod.rs`): any number of connections, and the steps of
the accept loop, of the tasks that serve connections and of the clients in any order.  A task takes
a message in one step and answers it in another, so any number of tasks are in the handler at once.

A task that panics does not release its slot.  So the slots in use are those of the connections
being served and of those whose task has panicked, and once these are all there are, nobody is
served any more (`slots_exact`). -/

namespace AresaDb.Server

open ByteOrder AresaDb.Store

/-! ### The client -/

/-- The methods of `Client` that ask the server. -/
inductive Call where
  | ping
  | disconnect
  | insertNode (nodeType : String) (properties : Json)
  | getNode (id : String)
  | updateNode (id : String) (properties : Json)
  | deleteNode (id : String)
  | getNodesByType (nodeType : String) (limit : Option UInt64)
  | createEdge (fromId toId edgeType : String) (properties : Option Json)
  | getEdgesFrom (nodeId : String) (edgeType : Option String)
  | query (sql : String) (limit : Option UInt64)
  | status
  | beginTransaction
  | commitTransaction (txId : UInt64)
  | rollbackTransaction (txId : UInt64)

/-- What a method returns. -/
inductive Answer where
  | done
  | node (node : Node)
  | maybeNode (node : Option Node)
  | nodes (nodes : List Node)
  | edge (edge : Edge)
  | edges (edges : List Edge)
  | queryResult (columns : List String) (rows : List (List Value))
      (rowsAffected executionTimeMs : UInt64)
  | status (name : String) (nodeCount edgeCount sizeBytes : UInt64)
  | transaction (txId : UInt64)

inductive CallError where
  /-- The server has answered with an error. -/
  | failed (message : String)
  | unexpectedResponse
  /-- The response cannot be parsed. -/
  | undecodable (body : Bytes)

namespace Call

/-- The request of a call; properties may not convert. -/
def request (F : JsonFormat) : Call → Option Request
  | ping => some .ping
  | disconnect => some .disconnect
  | insertNode nodeType properties =>
      (Value.fromJson F properties).map fun props => .insertNode nodeType props
  | getNode id => some (.getNode id)
  | updateNode id properties => (Value.fromJson F properties).map fun props => .updateNode id props
  | deleteNode id => some (.deleteNode id)
  | getNodesByType nodeType limit => some (.getNodesByType nodeType limit)
  | createEdge fromId toId edgeType none => some (.createEdge fromId toId edgeType none)
  | createEdge fromId toId edgeType (some properties) =>
      (Value.fromJson F properties).map fun props => .createEdge fromId toId edgeType (some props)
  | getEdgesFrom nodeId edgeType => some (.getEdgesFrom nodeId edgeType)
  | query sql limit => some (.query sql limit)
  | status => some .status
  | beginTransaction => some .beginTransaction
  | commitTransaction txId => some (.commitTransaction txId)
  | rollbackTransaction txId => some (.rollbackTransaction txId)

def label : Call → String
  | ping => "Ping"
  | disconnect => "Disconnect"
  | insertNode _ _ => "Insert"
  | getNode _ => "Get"
  | updateNode _ _ => "Update"
  | deleteNode _ => "Delete"
  | getNodesByType _ _ | getEdgesFrom _ _ | query _ _ => "Query"
  | createEdge _ _ _ _ => "Create edge"
  | status => "Status"
  | beginTransaction => "Begin transaction"
  | commitTransaction _ => "Commit"
  | rollbackTransaction _ => "Rollback"

/-- The response that a method is written for. -/
def expect : Call → Response → Option Answer
  | ping, .pong => some .done
  | insertNode _ _, .node n => some (.node n)
  | getNode _, .maybeNode n => some (.maybeNode n)
  | updateNode _ _, .node n => some (.node n)
  | deleteNode _, .ok => some .done
  | getNodesByType _ _, .nodes ns => some (.nodes ns)
  | createEdge _ _ _ _, .edge e => some (.edge e)
  | getEdgesFrom _ _, .edges es => some (.edges es)
  | query _ _, .queryResult columns rows rowsAffected executionTimeMs =>
      some (.queryResult columns rows rowsAffected executionTimeMs)
  | status, .status name nodeCount edgeCount sizeBytes =>
      some (.status name nodeCount edgeCount sizeBytes)
  | beginTransaction, .transactionStarted txId => some (.transaction txId)
  | commitTransaction _, .transactionCommitted => some .done
  | rollbackTransaction _, .transactionRolledBack => some .done
  | _, _ => none

/-- What a method makes of the response.  `disconnect` does not look at it. -/
def read (call : Call) (arrived : Except Bytes Response) : Except CallError Answer :=
  match call with
  | disconnect => .ok .done
  | call =>
      match arrived with
      | .error body => .error (.undecodable body)
      | .ok (.error _ message) => .error (.failed s!"{call.label} failed: {message}")
      | .ok response =>
          match call.expect response with
          | some answer => .ok answer
          | none => .error .unexpectedResponse

end Call

/-! ### The pool -/

structure ConnectionPool where
  maxConnections : UInt64
  active : UInt64

namespace ConnectionPool

def new (maxConnections : UInt64) : ConnectionPool := ⟨maxConnections, 0⟩

/-- The second half of `try_acquire`, once it has loaded the count. -/
def compareExchange (p : ConnectionPool) (current : UInt64) : Option ConnectionPool :=
  if p.active = current then some { p with active := current + 1 } else none

/-- `fetch_sub`, which wraps around. -/
def release (p : ConnectionPool) : ConnectionPool := { p with active := p.active - 1 }

end ConnectionPool

/-! ### The system -/

/-- The state of the task of a connection. -/
inductive Task where
  /-- There was no slot for the connection. -/
  | refused
  | serving
  | ended
  | panicked
deriving DecidableEq

/-- A connection: the bytes on their way, the task with the message that it is at, and the client.
The messages that were answered and what the client has seen come last; no step reads them. -/
structure Link where
  toServer : Bytes
  toClient : Bytes
  task : Task
  handling : Option (Except Bytes Request)
  closed : Bool
  pending : Option Call
  answered : List (Except Bytes Request × Response)
  calls : List (Call × Request)
  results : List (Except CallError Answer)
  failures : ℕ

def Link.opened (task : Task) : Link := ⟨[], [], task, none, false, none, [], [], [], 0⟩

/-- The pool, the accept loop with the count that it has loaded, and the connections that it has
accepted. -/
structure System where
  pool : ConnectionPool
  loaded : Option UInt64
  links : List Link

/-- What one call of the handler finds while other calls go on: how its calls of the storage end,
and which transactions there are. -/
structure Found where
  storage : Backend Unit
  handler : RequestHandler Unit

inductive Event where
  /-- The next step of the accept loop. -/
  | accept
  | call (c : ℕ) (call : Call)
  /-- The task of a connection takes the next frame, or finds that there will be none. -/
  | take (c : ℕ)
  /-- The handler is done with the message of a task, or panics. -/
  | answer (c : ℕ) (found : Found)
  | receive (c : ℕ)
  | close (c : ℕ)

/-- The rest of a frame may still come. -/
def waits (stream : Bytes) : Bool :=
  match Codec.dword.get stream with
  | none => true
  | some (len, rest) => (readExact len.toNat rest).isNone

section

variable (X : Libraries) (F : JsonFormat) (compression : Bool) (parseError : Bytes → String)

namespace Link

/-- A client sends one request at a time. -/
def call (l : Link) (call : Call) : Link :=
  match call.request F with
  | none => l
  | some request =>
      if l.pending.isSome || l.closed then l
      else
        { l with
          toServer := l.toServer ++ send X compression (Request.format X) request
          pending := some call
          calls := l.calls ++ [(call, request)] }

def receive (l : Link) : Link :=
  match l.pending with
  | none => l
  | some call =>
      match nextFrame X compression l.toClient with
      | .ok (body, rest) =>
          { l with
            toClient := rest
            pending := none
            results := l.results ++ [call.read (parseBody (Response.format X) body)] }
      | .error _ =>
          if l.task = .serving ∧ waits l.toClient = true then l
          else { l with pending := none, failures := l.failures + 1 }

end Link

namespace System

def new (maxConnections : UInt64) : System := ⟨.new maxConnections, none, []⟩

def accept (s : System) : System :=
  match s.loaded with
  | none =>
      if s.pool.maxConnections ≤ s.pool.active then
        { s with links := s.links ++ [.opened .refused] }
      else { s with loaded := some s.pool.active }
  | some current =>
      match s.pool.compareExchange current with
      | some pool => { pool, loaded := none, links := s.links ++ [.opened .serving] }
      | none => { s with loaded := none }

def put (s : System) (c : ℕ) (l : Link) : System := { s with links := s.links.set c l }

/-- The connection is over, and its slot free. -/
def finish (s : System) (c : ℕ) (l : Link) : System :=
  { s.put c { l with task := .ended } with pool := s.pool.release }

/-- `handle_connection` up to the handler. -/
def take (s : System) (c : ℕ) (l : Link) : System :=
  match l.handling, nextFrame X compression l.toServer with
  | some _, _ => s
  | none, .ok (body, rest) =>
      s.put c { l with
        toServer := rest
        handling := some (parseBody (Request.format X) body) }
  | none, .error _ => if waits l.toServer && !l.closed then s else s.finish c l

/-- `handle_connection` from the handler on; a task that panics has not released its slot. -/
def answer (s : System) (c : ℕ) (l : Link) (found : Found) : System :=
  match l.handling with
  | none => s
  | some message =>
      match (Server.answer X parseError found.storage found.handler message).1 with
      | none => s.put c { l with handling := none, task := .panicked }
      | some response =>
          let l := { l with
            handling := none
            toClient := l.toClient ++ send X compression (Response.format X) response
            answered := l.answered ++ [(message, response)] }
          if response.isGoodbye then s.finish c l else s.put c l

/-- A step on a connection that there is. -/
def ofLink (s : System) (c : ℕ) (step : Link → System) : System :=
  match s.links[c]? with
  | some l => step l
  | none => s

def apply (s : System) : Event → System
  | .accept => s.accept
  | .call c call => s.ofLink c fun l => s.put c (l.call X F compression call)
  | .take c => s.ofLink c fun l =>
      if l.task = .serving then s.take X compression c l else s
  | .answer c found => s.ofLink c fun l =>
      if l.task = .serving then s.answer X compression parseError c l found else s
  | .receive c => s.ofLink c fun l => s.put c (l.receive X compression)
  | .close c => s.ofLink c fun l => s.put c { l with closed := true }

abbrev run (s : System) (events : List Event) : System :=
  Run.run (apply X F compression parseError) s events

end System

end

/-! ### Slots -/

/-- The connection has a slot. -/
def Link.holds (l : Link) : Bool := l.task = .serving || l.task = .panicked

theorem countP_set_add {α : Type} {l : List α} {i : ℕ} {a : α} (h : l[i]? = some a) (p : α → Bool)
    (a' : α) :
    (l.set i a').countP p + (if p a then 1 else 0) = l.countP p + (if p a' then 1 else 0) := by
  obtain ⟨hi, rfl⟩ := List.getElem?_eq_some_iff.mp h
  have hle : (if p l[i] then 1 else 0) ≤ l.countP p := by
    split_ifs with hp
    · exact List.countP_pos_iff.mpr ⟨_, List.getElem_mem hi, hp⟩
    · exact Nat.zero_le _
  rw [List.countP_set hi]
  omega

section

variable {X : Libraries} {F : JsonFormat} {compression : Bool} {parseError : Bytes → String}
  {s : System} {c : ℕ} {l : Link} {m : UInt64}

/-- The count of the pool is the number of slots that are held. -/
structure System.Slots (m : UInt64) (s : System) : Prop where
  limit : s.pool.maxConnections = m
  active : s.pool.active.toNat = s.links.countP Link.holds
  fits : s.pool.active ≤ m
  loaded : ∀ current, s.loaded = some current → current < m

namespace System.Slots

theorem put (h : s.Slots m) (hl : s.links[c]? = some l) {l' : Link} (htask : l'.task = l.task) :
    (s.put c l').Slots m where
  limit := h.limit
  active := by
    have hcount := countP_set_add hl Link.holds l'
    have hholds : l'.holds = l.holds := by rw [Link.holds, Link.holds, htask]
    rw [hholds] at hcount
    exact h.active.trans (Nat.add_right_cancel hcount).symm
  fits := h.fits
  loaded := h.loaded

/-- A running task has a slot, so that the count does not wrap around. -/
theorem toNat_release (h : s.Slots m) (hl : s.links[c]? = some l) (hserving : l.task = .serving) :
    s.pool.release.active.toNat + 1 = s.pool.active.toNat := by
  have hmem := List.mem_of_getElem? hl
  have hheld : l.holds = true := by simp [Link.holds, hserving]
  have hpos : 1 ≤ s.pool.active.toNat := h.active ▸ List.countP_pos_iff.mpr ⟨l, hmem, hheld⟩
  have hsub : s.pool.release.active.toNat = s.pool.active.toNat - 1 :=
    UInt64.toNat_sub_of_le _ _ (UInt64.le_iff_toNat_le.mpr hpos)
  omega

theorem release_fits (h : s.Slots m) (hl : s.links[c]? = some l) (hserving : l.task = .serving) :
    s.pool.release.active ≤ m := by
  have hfits := UInt64.le_iff_toNat_le.mp h.fits
  have hnext := h.toNat_release hl hserving
  exact UInt64.le_iff_toNat_le.mpr (by omega)

theorem release_active (h : s.Slots m) (hl : s.links[c]? = some l) (hserving : l.task = .serving)
    {l' : Link} (hended : l'.task = .ended) :
    s.pool.release.active.toNat = (s.links.set c l').countP Link.holds := by
  have hcount := countP_set_add hl Link.holds l'
  have hnext := h.toNat_release hl hserving
  have hactive := h.active
  have hheld : l.holds = true := by simp [Link.holds, hserving]
  have hfree : l'.holds = false := by simp [Link.holds, hended]
  rw [hheld, hfree, if_pos rfl, if_neg Bool.false_ne_true] at hcount
  omega

/-- A task that is over gives its slot back. -/
theorem finish (h : s.Slots m) (hl : s.links[c]? = some l) (hserving : l.task = .serving)
    (l' : Link) : (s.finish c l').Slots m where
  limit := h.limit
  active := h.release_active hl hserving rfl
  fits := h.release_fits hl hserving
  loaded := h.loaded

/-- A task that panics keeps it. -/
theorem keep (h : s.Slots m) (hl : s.links[c]? = some l) (hserving : l.task = .serving)
    {l' : Link} (hheld : l'.holds = true) : (s.put c l').Slots m where
  limit := h.limit
  active := by
    have hcount := countP_set_add hl Link.holds l'
    have hholds : l.holds = true := by simp [Link.holds, hserving]
    rw [hholds, hheld] at hcount
    exact h.active.trans (Nat.add_right_cancel hcount).symm
  fits := h.fits
  loaded := h.loaded

theorem accept (h : s.Slots m) : s.accept.Slots m := by
  unfold System.accept
  split
  · next hnone =>
      split_ifs with hfull
      · exact
          { limit := h.limit
            active := by
              rw [List.countP_append]
              exact h.active
            fits := h.fits
            loaded := h.loaded }
      · exact
          { limit := h.limit
            active := h.active
            fits := h.fits
            loaded := fun current hcurrent => by
              obtain rfl := Option.some.inj hcurrent
              exact UInt64.not_le.mp (h.limit ▸ hfull) }
  · next current hcurrent =>
      have hroom := h.loaded current hcurrent
      split
      · next pool hpool =>
          unfold ConnectionPool.compareExchange at hpool
          split_ifs at hpool with heq
          obtain rfl := Option.some.inj hpool
          have hlt := UInt64.lt_iff_toNat_lt.mp hroom
          have hnext : (current + 1).toNat = current.toNat + 1 := by
            have hmax := m.toNat_lt
            rw [UInt64.toNat_add]
            exact Nat.mod_eq_of_lt (Nat.lt_of_le_of_lt hlt hmax)
          exact
            { limit := h.limit
              active := by
                rw [List.countP_append, ← h.active, heq]
                exact hnext
              fits := UInt64.le_iff_toNat_le.mpr (hnext ▸ hlt)
              loaded := fun _ h => by cases h }
      · exact
          { limit := h.limit
            active := h.active
            fits := h.fits
            loaded := fun _ h => by cases h }

theorem take (h : s.Slots m) (hl : s.links[c]? = some l) (hserving : l.task = .serving) :
    (s.take X compression c l).Slots m := by
  unfold System.take
  split
  · exact h
  · exact h.put hl rfl
  · split_ifs
    · exact h
    · exact h.finish hl hserving l

theorem answer (h : s.Slots m) (hl : s.links[c]? = some l) (hserving : l.task = .serving)
    (found : Found) : (s.answer X compression parseError c l found).Slots m := by
  unfold System.answer
  split
  · exact h
  · split
    · exact h.keep hl hserving rfl
    · split_ifs
      · exact h.finish hl hserving _
      · exact h.put hl rfl

end System.Slots

theorem Link.call_task (call : Call) : (l.call X F compression call).task = l.task := by
  unfold Link.call
  split
  · rfl
  · split_ifs <;> rfl

theorem Link.receive_task : (l.receive X compression).task = l.task := by
  unfold Link.receive
  split
  · rfl
  · split
    · rfl
    · split_ifs <;> rfl

/-- What holds after a step on a connection holds if it does after the step on any. -/
theorem System.ofLink_cases {P : System → Prop} {step : Link → System} (hs : P s)
    (hstep : ∀ l, s.links[c]? = some l → P (step l)) : P (s.ofLink c step) := by
  unfold System.ofLink
  split
  · next l hl => exact hstep l hl
  · exact hs

theorem System.Slots.apply (h : s.Slots m) (e : Event) :
    (s.apply X F compression parseError e).Slots m := by
  cases e with
  | accept => exact h.accept
  | call c call => exact ofLink_cases h fun l hl => h.put hl (l.call_task call)
  | take c =>
      refine ofLink_cases h fun l hl => ?_
      split_ifs with hserving
      · exact h.take hl hserving
      · exact h
  | answer c found =>
      refine ofLink_cases h fun l hl => ?_
      split_ifs with hserving
      · exact h.answer hl hserving found
      · exact h
  | receive c => exact ofLink_cases h fun l hl => h.put hl l.receive_task
  | close c => exact ofLink_cases h fun l hl => h.put hl rfl

theorem System.Slots.run (h : s.Slots m) (events : List Event) :
    (s.run X F compression parseError events).Slots m :=
  Run.invariant (fun _ e hs => hs.apply e) h events

theorem System.slots_new (maxConnections : UInt64) :
    (System.new maxConnections).Slots maxConnections where
  limit := rfl
  active := rfl
  fits := UInt64.le_iff_toNat_le.mpr (Nat.zero_le _)
  loaded := fun _ h => by cases h

/-! ### Slots that are lost -/

namespace System

def tasks (s : System) : List Task := s.links.map Link.task

/-- What a step does to the tasks: the accept loop opens a connection, with a slot only if there was
one, and a running task may stop. -/
def Moves (m : UInt64) (s s' : System) : Prop :=
  s'.tasks = s.tasks ∨ s'.tasks = s.tasks ++ [.refused] ∨
    (s'.tasks = s.tasks ++ [.serving] ∧ s.pool.active < m) ∨
    ∃ c task, s.tasks[c]? = some .serving ∧ s'.tasks = s.tasks.set c task

theorem tasks_put (l : Link) : (s.put c l).tasks = s.tasks.set c l.task := List.map_set

theorem tasks_getElem? (hl : s.links[c]? = some l) : s.tasks[c]? = some l.task := by
  rw [tasks, List.getElem?_map, hl]
  rfl

theorem moves_put (hl : s.links[c]? = some l) {l' : Link} (htask : l'.task = l.task) :
    Moves m s (s.put c l') := by
  obtain ⟨hc, htasks⟩ := List.getElem?_eq_some_iff.mp (tasks_getElem? hl)
  have hsame : s.tasks.set c l'.task = s.tasks := by
    rw [htask, ← htasks]
    exact List.set_getElem_self hc
  exact .inl ((tasks_put l').trans hsame)

theorem moves_stop (hl : s.links[c]? = some l) (hserving : l.task = .serving) (l' : Link) :
    Moves m s (s.put c l') :=
  .inr (.inr (.inr ⟨c, l'.task, hserving ▸ tasks_getElem? hl, tasks_put l'⟩))

theorem moves_accept (h : s.Slots m) : Moves m s s.accept := by
  unfold accept
  split
  · split_ifs
    · exact .inr (.inl (List.map_append))
    · exact .inl rfl
  · next current hcurrent =>
      split
      · next pool hpool =>
          unfold ConnectionPool.compareExchange at hpool
          split_ifs at hpool with heq
          exact .inr (.inr (.inl ⟨List.map_append, heq ▸ h.loaded current hcurrent⟩))
      · exact .inl rfl

theorem moves_apply (h : s.Slots m) (e : Event) :
    Moves m s (s.apply X F compression parseError e) := by
  cases e with
  | accept => exact moves_accept h
  | call c call => exact ofLink_cases (.inl rfl) fun l hl => moves_put hl (l.call_task call)
  | take c =>
      refine ofLink_cases (.inl rfl) fun l hl => ?_
      split_ifs with hserving
      · unfold take
        split
        · exact .inl rfl
        · exact moves_put hl rfl
        · split_ifs
          · exact .inl rfl
          · exact moves_stop hl hserving _
      · exact .inl rfl
  | answer c found =>
      refine ofLink_cases (.inl rfl) fun l hl => ?_
      split_ifs with hserving
      · unfold answer
        split
        · exact .inl rfl
        · split
          · exact moves_stop hl hserving _
          · split_ifs
            · exact moves_stop hl hserving _
            · exact moves_put hl rfl
      · exact .inl rfl
  | receive c => exact ofLink_cases (.inl rfl) fun l hl => moves_put hl l.receive_task
  | close c => exact ofLink_cases (.inl rfl) fun l hl => moves_put hl rfl

/-- As many tasks have panicked as there are slots, and the connections from a number on are
refused. -/
structure Stuck (m : UInt64) (n : ℕ) (s : System) : Prop where
  slots : s.Slots m
  panicked : m.toNat ≤ s.tasks.count .panicked
  refused : ∀ c task, n ≤ c → s.tasks[c]? = some task → task = .refused

theorem count_holds (s : System) :
    s.links.countP Link.holds = s.tasks.count .serving + s.tasks.count .panicked := by
  unfold tasks
  induction s.links with
  | nil => rfl
  | cons l links ih =>
      rw [List.countP_cons, List.map_cons, List.count_cons, List.count_cons, ih]
      cases htask : l.task <;> simp [Link.holds, htask] <;> omega

theorem Stuck.step {n : ℕ} {s' : System} (h : Stuck m n s) (hs' : s'.Slots m)
    (hmoves : Moves m s s') : Stuck m n s' := by
  have hfull : m ≤ s.pool.active := by
    have hactive := h.slots.active
    rw [count_holds] at hactive
    exact UInt64.le_iff_toNat_le.mpr (by have := h.panicked; omega)
  rcases hmoves with hsame | happend | ⟨-, hroom⟩ | ⟨c, task, hc, hset⟩
  · exact ⟨hs', hsame ▸ h.panicked, hsame ▸ h.refused⟩
  · refine ⟨hs', ?_, fun c task hn hc => ?_⟩
    · rw [happend, List.count_append]
      exact Nat.le_add_right_of_le h.panicked
    · rw [happend, List.getElem?_append] at hc
      split_ifs at hc with hlt
      · exact h.refused c task hn hc
      · exact List.mem_singleton.mp (List.mem_of_getElem? hc)
  · exact absurd hroom (UInt64.not_lt.mpr hfull)
  · refine ⟨hs', ?_, fun c' task' hn hc' => ?_⟩
    · rw [hset]
      have hcount := countP_set_add hc (· == Task.panicked) task
      have hne : (Task.serving == Task.panicked) = false := rfl
      rw [hne, if_neg Bool.false_ne_true] at hcount
      have hpanicked := h.panicked
      unfold List.count at hpanicked ⊢
      omega
    · by_cases hcc : c' = c
      · subst hcc
        cases h.refused c' _ hn hc
      · rw [hset, List.getElem?_set_ne (Ne.symm hcc)] at hc'
        exact h.refused c' task' hn hc'

theorem Stuck.run {n : ℕ} (h : Stuck m n s) (events : List Event) :
    Stuck m n (s.run X F compression parseError events) :=
  Run.invariant (fun _ e hs => hs.step (hs.slots.apply e) (moves_apply hs.slots e)) h events

end System

end

/-- **The slots of the server**, after any steps of the accept loop, the tasks and the clients:
those in use are the connections that are being served and those whose task has panicked, and never
more than there are.  Once as many tasks have panicked as there are slots, every connection that
comes later is refused. -/
theorem slots_exact (X : Libraries) (F : JsonFormat) (compression : Bool)
    (parseError : Bytes → String) (maxConnections : UInt64) (events : List Event) :
    let s := (System.new maxConnections).run X F compression parseError events
    s.pool.active.toNat = s.tasks.count .serving + s.tasks.count .panicked ∧
      s.pool.active ≤ maxConnections ∧
      (maxConnections.toNat ≤ s.tasks.count .panicked → ∀ later c task,
        s.tasks.length ≤ c → (s.run X F compression parseError later).tasks[c]? = some task →
          task = .refused) := by
  intro s
  have hslots : s.Slots maxConnections := (System.slots_new maxConnections).run events
  refine ⟨s.count_holds ▸ hslots.active, hslots.fits, fun hpanicked later => ?_⟩
  have hstuck : System.Stuck maxConnections s.tasks.length s :=
    { slots := hslots
      panicked := hpanicked
      refused := fun c task hn hc => by
        rw [List.getElem?_eq_none hn] at hc
        cases hc }
  exact (hstuck.run later).refused

end AresaDb.Server
