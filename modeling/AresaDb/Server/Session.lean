import AresaDb.Server.Handler

/-! # Connections

The loop over one connection (`handle_connection` in `server/mod.rs`): frame by frame until the
client hangs up, sends a frame that cannot be unpacked, or says goodbye, or the handling of a
request panics.  A message that cannot be parsed is answered with an error, and the loop goes on.

What a client sends is served in its order and answered in that order (`session_exact`), and
whatever bytes it sends, no request that carries a property value is ever executed
(`session_valueless`). -/

namespace AresaDb.Server

open ByteOrder AresaDb.Store

inductive Ending where
  /-- The stream has ended, or the client has said goodbye. -/
  | closed
  /-- The rest of a frame does not come, or it cannot be unpacked. -/
  | failed
  /-- The handling of a request has panicked, and the task has gone with it. -/
  | panicked
deriving DecidableEq

section

variable {α : Type} (X : Libraries) (compression : Bool) (f : Format α)

/-- The next body off the stream, and the rest. -/
def nextFrame (stream : Bytes) : Except Ending (Bytes × Bytes) :=
  match Codec.dword.get stream with
  | none => .error .closed
  | some (len, stream) =>
      match readExact len.toNat stream with
      | none => .error .failed
      | some (body, rest) =>
          match readBody X compression body with
          | none => .error .failed
          | some body => .ok (body, rest)

/-- A message, or a body that cannot be parsed. -/
def parseBody (body : Bytes) : Except Bytes α :=
  match f.get body with
  | some (message, _) => .ok message
  | none => .error body

variable {X compression}

theorem nextFrame_length {stream body rest : Bytes}
    (h : nextFrame X compression stream = .ok (body, rest)) : rest.length < stream.length := by
  unfold nextFrame at h
  cases hlen : Codec.dword.get stream with
  | none =>
      rw [hlen] at h
      cases h
  | some p =>
      obtain ⟨len, stream'⟩ := p
      have hshort : stream'.length < stream.length := by
        simp only [Codec.dword] at hlen
        split_ifs at hlen with hshort
        obtain ⟨-, rfl⟩ := Prod.mk.inj (Option.some.inj hlen)
        rw [List.length_drop]
        omega
      rw [hlen] at h
      simp only at h
      cases hbody : readExact len.toNat stream' with
      | none =>
          rw [hbody] at h
          cases h
      | some q =>
          obtain ⟨body', rest'⟩ := q
          have hrest : rest' = stream'.drop len.toNat := by
            unfold readExact at hbody
            split_ifs at hbody
            exact (Prod.mk.inj (Option.some.inj hbody)).2.symm
          rw [hbody] at h
          simp only at h
          cases hread : readBody X compression body' with
          | none =>
              rw [hread] at h
              cases h
          | some body'' =>
              rw [hread] at h
              obtain ⟨-, rfl⟩ := Prod.mk.inj (Except.ok.inj h)
              rw [hrest, List.length_drop]
              omega

/-- The frame of a message is unpacked to what was written. -/
theorem nextFrame_send {message : α}
    (hlen : (frameBody X compression f message).length < 2 ^ 32) (rest : Bytes) :
    nextFrame X compression (send X compression f message ++ rest) = .ok (f.put message, rest) := by
  have hword : (UInt32.ofNat (frameBody X compression f message).length).toNat =
      (frameBody X compression f message).length := UInt32.toNat_ofNat_of_lt' hlen
  have hread : readExact (frameBody X compression f message).length
      (frameBody X compression f message ++ rest) =
        some (frameBody X compression f message, rest) := by
    rw [readExact, if_neg (by simp), List.take_left, List.drop_left]
  have hbody : readBody X compression (frameBody X compression f message) =
      some (f.put message) := by
    cases compression with
    | false => rfl
    | true => exact decompress_compress X.lz4 (f.put message)
  unfold nextFrame send
  rw [List.append_assoc, Codec.get_put]
  simp only [hword, hread, hbody]

variable (X compression)

/-- The messages of the frames of a stream. -/
def messages (stream : Bytes) : List (Except Bytes α) :=
  match h : nextFrame X compression stream with
  | .error _ => []
  | .ok (body, rest) =>
      have := nextFrame_length h
      parseBody f body :: messages rest
termination_by stream.length

theorem messages_stop {stream : Bytes} {ending : Ending}
    (h : nextFrame X compression stream = .error ending) :
    messages X compression f stream = [] := by
  rw [messages]
  split
  · rfl
  · rename_i hnext
    rw [h] at hnext
    cases hnext

theorem messages_frame {stream body rest : Bytes}
    (h : nextFrame X compression stream = .ok (body, rest)) :
    messages X compression f stream = parseBody f body :: messages X compression f rest := by
  rw [messages]
  split
  · rename_i hnext
    rw [h] at hnext
    cases hnext
  · rename_i hnext
    rw [h] at hnext
    obtain ⟨rfl, rfl⟩ := Prod.mk.inj (Except.ok.inj hnext)
    rfl

/-- What arrives of messages that are sent one behind the other. -/
theorem messages_send {l : List α}
    (h : ∀ message ∈ l, (frameBody X compression f message).length < 2 ^ 32) :
    messages X compression f (l.flatMap (send X compression f)) =
      l.map fun message => parseBody f (f.put message) := by
  induction l with
  | nil => exact messages_stop X compression f rfl
  | cons message l ih =>
      obtain ⟨hmessage, hl⟩ := List.forall_mem_cons.mp h
      rw [List.flatMap_cons, messages_frame X compression f (nextFrame_send f hmessage _), ih hl]
      rfl

theorem parseBody_put (message : α) [Decidable (f.readable message)] :
    parseBody f (f.put message) =
      if f.readable message then .ok message else .error (f.put message) := by
  have happend : f.put message = f.put message ++ [] := (List.append_nil _).symm
  unfold parseBody
  split_ifs with hread
  · rw [happend, f.get_put _ _ hread]
  · rw [happend, f.get_unreadable _ _ hread]

end

/-! ### The loop -/

section

variable {σ : Type} (X : Libraries) (compression : Bool) (parseError : Bytes → String)
  (b : Backend σ)

def Response.isGoodbye : Response → Bool
  | .goodbye => true
  | _ => false

/-- The answer to a message, unless the handler panics over it. -/
def answer (h : RequestHandler σ) : Except Bytes Request → Option Response × RequestHandler σ
  | .ok request => h.handle X.uuid b request
  | .error body => (some (.error .invalidRequest s!"Failed to parse request: {parseError body}"), h)

/-- What a connection has done when it ends. -/
structure Connection (σ : Type) where
  handler : RequestHandler σ
  written : Bytes
  ending : Ending

def handleConnection (h : RequestHandler σ) (stream : Bytes) : Connection σ :=
  match hnext : nextFrame X compression stream with
  | .error ending => ⟨h, [], ending⟩
  | .ok (body, rest) =>
      have := nextFrame_length hnext
      let out := answer X parseError b h (parseBody (Request.format X) body)
      match out.1 with
      | none => ⟨out.2, [], .panicked⟩
      | some response =>
          let frame := send X compression (Response.format X) response
          if response.isGoodbye then ⟨out.2, frame, .closed⟩
          else
            let later := handleConnection out.2 rest
            { later with written := frame ++ later.written }
termination_by stream.length

/-- What becomes of messages: the responses, the handler after them and the ending. -/
structure Session (σ : Type) where
  responses : List Response
  handler : RequestHandler σ
  ending : Ending

/-- Messages are served up to the goodbye or a panic. -/
def session (h : RequestHandler σ) : List (Except Bytes Request) → Session σ
  | [] => ⟨[], h, .closed⟩
  | message :: messages =>
      let out := answer X parseError b h message
      match out.1 with
      | none => ⟨[], out.2, .panicked⟩
      | some response =>
          if response.isGoodbye then ⟨[response], out.2, .closed⟩
          else
            let later := session out.2 messages
            { later with responses := response :: later.responses }

variable {X compression parseError b}

theorem handleConnection_stop {h : RequestHandler σ} {stream : Bytes} {ending : Ending}
    (hstop : nextFrame X compression stream = .error ending) :
    handleConnection X compression parseError b h stream = ⟨h, [], ending⟩ := by
  rw [handleConnection]
  split
  · rename_i hnext
    rw [hstop] at hnext
    rw [Except.error.inj hnext]
  · rename_i hnext
    rw [hstop] at hnext
    cases hnext

theorem handleConnection_frame {h : RequestHandler σ} {stream body rest : Bytes}
    (hframe : nextFrame X compression stream = .ok (body, rest)) :
    handleConnection X compression parseError b h stream =
      let out := answer X parseError b h (parseBody (Request.format X) body)
      match out.1 with
      | none => ⟨out.2, [], .panicked⟩
      | some response =>
          let frame := send X compression (Response.format X) response
          if response.isGoodbye then ⟨out.2, frame, .closed⟩
          else
            let later := handleConnection X compression parseError b out.2 rest
            { later with written := frame ++ later.written } := by
  rw [handleConnection]
  split
  · rename_i hnext
    rw [hframe] at hnext
    cases hnext
  · rename_i hnext
    rw [hframe] at hnext
    obtain ⟨rfl, rfl⟩ := Prod.mk.inj (Except.ok.inj hnext)
    rfl

variable (X compression parseError b) in
/-- The loop serves the messages of its stream, and sends the responses in their order. -/
theorem handleConnection_session (h : RequestHandler σ) (stream : Bytes) :
    let out := handleConnection X compression parseError b h stream
    let served := session X parseError b h (messages X compression (Request.format X) stream)
    out.handler = served.handler ∧
      out.written = served.responses.flatMap (send X compression (Response.format X)) := by
  induction hn : stream.length using Nat.strong_induction_on generalizing h stream with
  | _ n ih =>
      subst hn
      cases hnext : nextFrame X compression stream with
      | error ending =>
          rw [handleConnection_stop hnext, messages_stop X compression _ hnext]
          exact ⟨rfl, rfl⟩
      | ok p =>
          obtain ⟨body, rest⟩ := p
          rw [handleConnection_frame hnext, messages_frame X compression _ hnext]
          simp only [session]
          cases (answer X parseError b h (parseBody (Request.format X) body)).1 with
          | none => exact ⟨rfl, rfl⟩
          | some response =>
              simp only
              split_ifs with hbye
              · exact ⟨rfl, by rw [List.flatMap_singleton]⟩
              · obtain ⟨hhandler, hwritten⟩ := ih _ (nextFrame_length hnext) _ rest rfl
                exact ⟨hhandler, by rw [List.flatMap_cons, ← hwritten]⟩

/-- A stream of whole frames is served to its end, to the goodbye or to a panic. -/
theorem ending_send {α : Type} (f : Format α) {l : List α}
    (hfits : ∀ m ∈ l, (frameBody X compression f m).length < 2 ^ 32) (h : RequestHandler σ) :
    (handleConnection X compression parseError b h (l.flatMap (send X compression f))).ending =
      (session X parseError b h
        (l.map fun m => parseBody (Request.format X) (f.put m))).ending := by
  induction l generalizing h with
  | nil =>
      have hstop : nextFrame X compression (([] : List α).flatMap (send X compression f)) =
          .error .closed := rfl
      rw [handleConnection_stop hstop]
      rfl
  | cons m l ih =>
      obtain ⟨hm, hl⟩ := List.forall_mem_cons.mp hfits
      rw [List.flatMap_cons, handleConnection_frame (nextFrame_send f hm _), List.map_cons]
      simp only [session]
      cases (answer X parseError b h (parseBody (Request.format X) (f.put m))).1 with
      | none => rfl
      | some response =>
          simp only
          split_ifs
          · rfl
          · exact ih hl _

/-- Nothing is left out: a session that has answered fewer messages than there are has answered
with a goodbye, or panicked over the next message. -/
theorem session_length (h : RequestHandler σ) (ms : List (Except Bytes Request)) :
    let served := session X parseError b h ms
    served.responses.length = ms.length ∨
      served.responses.getLast?.map Response.isGoodbye = some true ∨ served.ending = .panicked := by
  induction ms generalizing h with
  | nil => exact .inl rfl
  | cons m ms ih =>
      simp only [session]
      cases hresponse : (answer X parseError b h m).1 with
      | none => exact .inr (.inr rfl)
      | some response =>
          simp only
          split_ifs with hbye
          · exact .inr (.inl (congrArg some hbye))
          · rcases ih (answer X parseError b h m).2 with hlength | hlast | hpanic
            · exact .inl (congrArg Nat.succ hlength)
            · refine .inr (.inl ?_)
              rw [List.getLast?_cons]
              set later := (session X parseError b (answer X parseError b h m).2 ms).responses
              cases hl : later.getLast? with
              | none =>
                  rw [hl] at hlast
                  cases hlast
              | some r =>
                  rw [hl] at hlast
                  exact hlast
            · exact .inr (.inr hpanic)

end

/-! ### What gets through -/

instance : DecidablePred Request.Valueless
  | .insertNode _ _ | .updateNode _ _ => .isFalse id
  | .createEdge _ _ _ properties =>
      decidable_of_iff (properties.isNone = true) Option.isNone_iff_eq_none
  | .ping | .disconnect | .getNode _ | .deleteNode _ | .getNodesByType _ _ | .getEdgesFrom _ _
  | .getEdgesTo _ _ | .deleteEdge _ | .query _ _ | .traverse _ _ _ | .status | .beginTransaction
  | .commitTransaction _ | .rollbackTransaction _ => .isTrue trivial

instance (p : Props) : Decidable (p = ∅) :=
  decidable_of_iff (p.isEmpty = true) Std.ExtTreeMap.isEmpty_iff

instance : DecidablePred Response.Valueless
  | .node n => inferInstanceAs (Decidable (n.properties = ∅))
  | .maybeNode n => inferInstanceAs (Decidable (∀ m ∈ n, m.properties = ∅))
  | .nodes ns => inferInstanceAs (Decidable (∀ n ∈ ns, n.properties = ∅))
  | .edge e => inferInstanceAs (Decidable (e.properties = ∅))
  | .edges es => inferInstanceAs (Decidable (∀ e ∈ es, e.properties = ∅))
  | .queryResult _ rows _ _ =>
      decidable_of_iff (∀ row ∈ rows, row.isEmpty = true)
        (forall₂_congr fun _ _ => List.isEmpty_iff)
  | .traversalResult ns es _ =>
      inferInstanceAs (Decidable ((∀ n ∈ ns, n.properties = ∅) ∧ ∀ e ∈ es, e.properties = ∅))
  | .pong | .goodbye | .ok | .status _ _ _ _ | .transactionStarted _ | .transactionCommitted
  | .transactionRolledBack | .error _ _ => .isTrue trivial

namespace Request

theorem honest_field (X : Libraries) : ∀ i, (fieldFormat X i).Honest
  | 0 | 1 | 13 | 14 => Format.honest_ofCodec _
  | 2 | 4 => (Format.honest_ofCodec _).pair (Format.honest_writeOnly _)
  | 3 | 5 | 10 => Format.honest_ofCodec _
  | 6 | 11 => (Format.honest_ofCodec _).pair (Format.honest_ofCodec _).option
  | 7 => (Format.honest_ofCodec _).pair ((Format.honest_ofCodec _).pair
      ((Format.honest_ofCodec _).pair (Format.honest_writeOnly _).option))
  | 8 | 9 => (Format.honest_ofCodec _).pair (Format.honest_ofCodec _).option
  | 12 => (Format.honest_ofCodec _).pair ((Format.honest_ofCodec _).pair
      (Format.honest_ofCodec _).list.option)
  | 15 => Format.honest_ofCodec _
  | 16 => Format.honest_ofCodec _
  | ⟨_ + 17, h⟩ => absurd h (by omega)

theorem fields_ofFields : ∀ f : Σ i, Fields i, fields (ofFields f.1 f.2) = f := by
  rintro ⟨i, x⟩
  fin_cases i <;> rfl

/-- No bytes are read as a request that carries a property value. -/
theorem valueless_of_get (X : Libraries) {body rest : Bytes} {r : Request}
    (h : (format X).get body = some (r, rest)) : r.Valueless :=
  (readable_iff X r).mp
    ((Format.Honest.tagged _ (honest_field X)).iso _ fields_ofFields body r rest h)

end Request

/-! ### The results -/

section

variable {σ : Type} (X : Libraries) (compression : Bool) (parseError : Bytes → String)
  (b : Backend σ) (h : RequestHandler σ)

/-- What arrives of a request. -/
def Request.received (r : Request) : Except Bytes Request :=
  if r.Valueless then .ok r else .error ((format X).put r)

/-- What arrives of a response. -/
def Response.received (r : Response) : Except Bytes Response :=
  if r.Valueless then .ok r else .error ((format X).put r)

/-- **A session, from the client to the handler and back.**  Requests that are sent one behind the
other are served in their order up to the goodbye or to the first that the handler panics over,
those that carry a property value as errors.  The client then finds the responses in the same order,
and cannot read those that carry a property value; only the goodbye and a panic leave requests
without one. -/
theorem session_exact (rs : List Request)
    (hfits : ∀ r ∈ rs, (frameBody X compression (Request.format X) r).length < 2 ^ 32) :
    let out := handleConnection X compression parseError b h
      (rs.flatMap (send X compression (Request.format X)))
    let served := session X parseError b h (rs.map (Request.received X))
    out.ending = served.ending ∧ out.handler = served.handler ∧
      ((∀ r ∈ served.responses,
          (frameBody X compression (Response.format X) r).length < 2 ^ 32) →
        messages X compression (Response.format X) out.written =
          served.responses.map (Response.received X)) ∧
      (served.responses.length = rs.length ∨
        served.responses.getLast?.map Response.isGoodbye = some true ∨
        served.ending = .panicked) := by
  have hbodies : (rs.map fun r => parseBody (Request.format X) ((Request.format X).put r)) =
      rs.map (Request.received X) := by
    refine List.map_congr_left fun r _ => ?_
    have hdec := decidable_of_iff _ (Request.readable_iff X r).symm
    rw [parseBody_put, Request.received]
    simp only [Request.readable_iff]
  obtain ⟨hhandler, hwritten⟩ := handleConnection_session X compression parseError b h
    (rs.flatMap (send X compression (Request.format X)))
  rw [messages_send X compression _ hfits, hbodies] at hhandler hwritten
  have hending : (handleConnection X compression parseError b h
      (rs.flatMap (send X compression (Request.format X)))).ending =
        (session X parseError b h (rs.map (Request.received X))).ending := by
    rw [← hbodies]
    exact ending_send (Request.format X) hfits h
  have hlength : (rs.map (Request.received X)).length = rs.length := List.length_map _
  refine ⟨hending, hhandler, fun hback => ?_, hlength ▸ session_length h _⟩
  rw [hwritten, messages_send X compression _ hback]
  refine List.map_congr_left fun r _ => ?_
  have hdec := decidable_of_iff _ (Response.readable_iff X r).symm
  rw [parseBody_put, Response.received]
  simp only [Response.readable_iff]

/-- A database without anything in it, whose queries panic. -/
def emptyDatabase : DatabaseOps Unit where
  insertNode s _ _ := (.error "read-only", s)
  getNode s _ := (.ok none, s)
  updateNode s id _ := (.error s!"Node not found: {id}", s)
  deleteNode s _ := (.ok (), s)
  getAllByType s _ _ := (.ok [], s)
  createEdge s _ _ _ _ := (.error "read-only", s)
  getEdgesFrom s _ _ := (.ok [], s)
  getEdgesTo s _ _ := (.ok [], s)
  deleteEdge s _ := (.ok (), s)
  executeSql s _ _ := (.panic, s)
  traverse s _ _ _ := (.ok ([], [], 0), s)
  status s := (.ok ("empty", 0, 0, 0), s)

/-- An insertion, which does not get through, a transaction, and a query that panics. -/
def sampleRequests : List Request :=
  [.insertNode "user" (.int 30), .beginTransaction, .query "VECTOR SEARCH docs FIELD v FOR ][" none,
    .commitTransaction 1]

theorem session_exact_sample :
    (∀ r ∈ sampleRequests,
      (frameBody sampleLibraries false (Request.format sampleLibraries) r).length < 2 ^ 32) ∧
    (handleConnection sampleLibraries false (fun _ => "") (.single emptyDatabase) (.new ())
      (sampleRequests.flatMap (send sampleLibraries false
        (Request.format sampleLibraries)))).ending = .panicked := by
  have h : ∀ r ∈ sampleRequests,
      (frameBody sampleLibraries false (Request.format sampleLibraries) r).length < 2 ^ 32 := by
    decide +kernel
  exact ⟨h, (session_exact sampleLibraries false (fun _ => "") (.single emptyDatabase) (.new ())
    sampleRequests h).1.trans (by decide +kernel)⟩

/-- Serving messages executes requests that are among them. -/
theorem session_handler (ms : List (Except Bytes Request)) :
    ∃ rs : List Request, (∀ r ∈ rs, .ok r ∈ ms) ∧
      (session X parseError b h ms).handler =
        rs.foldl (fun h r => (h.handle X.uuid b r).2) h := by
  induction ms generalizing h with
  | nil => exact ⟨[], fun r hr => absurd hr List.not_mem_nil, rfl⟩
  | cons m ms ih =>
      -- What the rest of the messages executes, and this one, if it is a request.
      have hone : ∃ rs : List Request, (∀ r ∈ rs, .ok r = m) ∧
          (answer X parseError b h m).2 = rs.foldl (fun h r => (h.handle X.uuid b r).2) h := by
        cases m with
        | ok r => exact ⟨[r], fun r' hr => congrArg _ (List.mem_singleton.mp hr), rfl⟩
        | error body => exact ⟨[], fun r hr => absurd hr List.not_mem_nil, rfl⟩
      obtain ⟨one, hmem, hhandler⟩ := hone
      obtain ⟨rest, hrest, hlater⟩ := ih (answer X parseError b h m).2
      have hfirst : ∀ r ∈ one, .ok r ∈ m :: ms := fun r hr => hmem r hr ▸ List.mem_cons_self
      simp only [session]
      split
      · exact ⟨one, hfirst, hhandler⟩
      · split_ifs
        · exact ⟨one, hfirst, hhandler⟩
        · refine ⟨one ++ rest, fun r hr => ?_, ?_⟩
          · rcases List.mem_append.mp hr with hr | hr
            · exact hfirst r hr
            · exact List.mem_cons_of_mem _ (hrest r hr)
          · rw [List.foldl_append, ← hhandler]
            exact hlater

theorem valueless_of_mem_messages {stream : Bytes} {r : Request}
    (hr : .ok r ∈ messages X compression (Request.format X) stream) : r.Valueless := by
  induction hn : stream.length using Nat.strong_induction_on generalizing stream with
  | _ n ih =>
      subst hn
      cases hnext : nextFrame X compression stream with
      | error ending =>
          rw [messages_stop X compression _ hnext] at hr
          cases hr
      | ok p =>
          obtain ⟨body, rest⟩ := p
          rw [messages_frame X compression _ hnext] at hr
          rcases List.mem_cons.mp hr with hr | hr
          · unfold parseBody at hr
            cases hget : (Request.format X).get body with
            | none =>
                rw [hget] at hr
                cases hr
            | some q =>
                rw [hget] at hr
                obtain rfl := Except.ok.inj hr
                exact Request.valueless_of_get X hget
          · exact ih _ (nextFrame_length hnext) hr rfl

/-- **No property value gets in over the network**: whatever a client sends, whole frames or not,
the handler executes requests without property values, and nothing else happens to it. -/
theorem session_valueless (stream : Bytes) :
    ∃ rs : List Request, (∀ r ∈ rs, r.Valueless) ∧
      (handleConnection X compression parseError b h stream).handler =
        rs.foldl (fun h r => (h.handle X.uuid b r).2) h := by
  obtain ⟨rs, hrs, hserved⟩ := session_handler X parseError b h
    (messages X compression (Request.format X) stream)
  obtain ⟨hhandler, -⟩ := handleConnection_session X compression parseError b h stream
  exact ⟨rs, fun r hr => valueless_of_mem_messages X compression (hrs r hr),
    hhandler.trans hserved⟩

end

end AresaDb.Server
