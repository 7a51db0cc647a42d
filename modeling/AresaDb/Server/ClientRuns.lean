import AresaDb.Server.Clients

/-! # What clients are returned

In any run of clients and server (`Server/Clients.lean`), whatever the handler finds while other
connections are in it, each call is returned what was answered to its own request
(`clients_exact`), which is of the kind that its method expects (`clients_expect`). -/

namespace AresaDb.Server

open ByteOrder AresaDb.Store

/-! ### Lists -/

theorem zipWith_mono {α β γ : Type} (f : α → β → γ) {l l' : List α} {a a' : List β}
    (hl : l <+: l') (ha : a <+: a') : List.zipWith f l a <+: List.zipWith f l' a' := by
  induction l generalizing l' a a' with
  | nil => exact List.nil_prefix
  | cons x l ih =>
      obtain ⟨t, rfl⟩ := hl
      cases a with
      | nil => exact List.nil_prefix
      | cons y a =>
          obtain ⟨u, rfl⟩ := ha
          have htails := ih (List.prefix_append l t) (List.prefix_append a u)
          exact List.cons_prefix_cons.mpr ⟨rfl, htails⟩

/-- A list that is short of one by its last element. -/
theorem append_singleton_of_prefix {α : Type} {l m : List α} {x : α} (h : l <+: m)
    (hx : m[l.length]? = some x) : l ++ [x] <+: m := by
  obtain ⟨t, rfl⟩ := h
  cases t with
  | nil => simp at hx
  | cons y t =>
      rw [List.getElem?_append_right le_rfl, Nat.sub_self] at hx
      obtain rfl := Option.some.inj hx
      exact ⟨t, by simp⟩

/-! ### Exactness -/

section

variable {X : Libraries} {F : JsonFormat} {compression : Bool} {parseError : Bytes → String}
  {s : System} {c : ℕ} {l : Link}

theorem parseBody_request (r : Request) :
    parseBody (Request.format X) ((Request.format X).put r) = r.received X := by
  have hdec := decidable_of_iff _ (Request.readable_iff X r).symm
  rw [parseBody_put, Request.received]
  simp only [Request.readable_iff]

theorem parseBody_response (r : Response) :
    parseBody (Response.format X) ((Response.format X).put r) = r.received X := by
  have hdec := decidable_of_iff _ (Response.readable_iff X r).symm
  rw [parseBody_put, Response.received]
  simp only [Response.readable_iff]

/-- The bytes of messages that are on their way. -/
def onTheWay {α : Type} (X : Libraries) (compression : Bool) (f : Format α) (ms : List α) : Bytes :=
  ms.flatMap (send X compression f)

/-- The message fits a frame. -/
def Small {α : Type} (X : Libraries) (compression : Bool) (f : Format α) (m : α) : Prop :=
  (frameBody X compression f m).length < 2 ^ 32

instance {α : Type} (X : Libraries) (compression : Bool) (f : Format α) (m : α) :
    Decidable (Small X compression f m) := inferInstanceAs (Decidable (_ < _))

theorem nextFrame_onTheWay {α : Type} {f : Format α} {ms : List α}
    (hsmall : ∀ m ∈ ms, Small X compression f m) {body rest : Bytes}
    (hnext : nextFrame X compression (onTheWay X compression f ms) = .ok (body, rest)) :
    ∃ m ms', ms = m :: ms' ∧ body = f.put m ∧ rest = onTheWay X compression f ms' := by
  cases ms with
  | nil => cases hnext
  | cons m ms =>
      rw [onTheWay, List.flatMap_cons, nextFrame_send f (hsmall m List.mem_cons_self)] at hnext
      obtain ⟨rfl, rfl⟩ := Prod.mk.inj (Except.ok.inj hnext)
      exact ⟨m, ms, rfl, rfl, rfl⟩

theorem nextFrame_stops {α : Type} {f : Format α} {ms : List α}
    (hsmall : ∀ m ∈ ms, Small X compression f m) {ending : Ending}
    (hnext : nextFrame X compression (onTheWay X compression f ms) = .error ending) : ms = [] := by
  cases ms with
  | nil => rfl
  | cons m ms =>
      rw [onTheWay, List.flatMap_cons, nextFrame_send f (hsmall m List.mem_cons_self)] at hnext
      cases hnext

/-- What a step sends, a request or a response, fits a frame. -/
def System.Fits (X : Libraries) (F : JsonFormat) (compression : Bool) (parseError : Bytes → String)
    (s : System) : Event → Prop
  | .call _ call => ∀ r ∈ call.request F, Small X compression (Request.format X) r
  | .answer c found => ∀ l ∈ s.links[c]?, ∀ message ∈ l.handling,
      ∀ r ∈ (Server.answer X parseError found.storage found.handler message).1,
        Small X compression (Response.format X) r
  | _ => True

instance (s : System) (e : Event) : Decidable (s.Fits X F compression parseError e) := by
  cases e <;> unfold System.Fits <;> infer_instance

/-- What a client is returned for its calls, by what was answered to them. -/
def returned (X : Libraries) (calls : List (Call × Request))
    (a : List (Except Bytes Request × Response)) : List (Except CallError Answer) :=
  List.zipWith (fun p q => p.1.read (q.2.received X)) calls a

/-- What holds of a connection: its messages are the requests of its calls, and what was answered
to them is on its way or was returned. -/
structure Link.Sound (X : Libraries) (F : JsonFormat) (compression : Bool)
    (parseError : Bytes → String) (l : Link) : Prop where
  asks : ∀ p ∈ l.calls, p.1.request F = some p.2
  small : ∀ p ∈ l.calls, Small X compression (Request.format X) p.2
  fits : ∀ q ∈ l.answered, Small X compression (Response.format X) q.2
  inbound : l.task = .serving → l.toServer = onTheWay X compression (Request.format X)
    ((l.calls.drop (l.answered.length + l.handling.toList.length)).map Prod.snd)
  asked : l.answered.map Prod.fst ++ l.handling.toList <+: l.calls.map fun p => p.2.received X
  outbound : l.toClient = onTheWay X compression (Response.format X)
    ((l.answered.drop l.results.length).map Prod.snd)
  results : l.results <+: returned X l.calls l.answered
  paired : l.calls.length = l.results.length + l.failures + l.pending.toList.length
  current : ∀ call, l.pending = some call → l.calls.getLast?.map Prod.fst = some call
  spent : l.failures ≠ 0 → l.task ≠ .serving ∧ l.answered.length = l.results.length
  told : ∀ q ∈ l.answered, ∃ found : Found,
    (answer X parseError found.storage found.handler q.1).1 = some q.2

namespace Link.Sound

theorem length_le (h : l.Sound X F compression parseError) :
    l.results.length ≤ l.answered.length ∧
      l.answered.length + l.handling.toList.length ≤ l.calls.length := by
  have hresults := h.results.length_le
  have hasked := h.asked.length_le
  rw [returned, List.length_zipWith] at hresults
  rw [List.length_append, List.length_map, List.length_map] at hasked
  omega

theorem opened (task : Task) : (Link.opened task).Sound X F compression parseError where
  asks := fun p hp => absurd hp List.not_mem_nil
  small := fun p hp => absurd hp List.not_mem_nil
  fits := fun q hq => absurd hq List.not_mem_nil
  inbound := fun _ => rfl
  asked := List.prefix_rfl
  outbound := rfl
  results := List.prefix_rfl
  paired := rfl
  current := fun _ h => by cases h
  spent := fun h => absurd rfl h
  told := fun q hq => absurd hq List.not_mem_nil

theorem call (h : l.Sound X F compression parseError) (call : Call)
    (hsmall : ∀ r ∈ call.request F, Small X compression (Request.format X) r) :
    (l.call X F compression call).Sound X F compression parseError := by
  unfold Link.call
  split
  · exact h
  · next request hrequest =>
      split_ifs with hbusy
      · exact h
      · have hidle : l.pending = none := by
          cases hpending : l.pending with
          | none => rfl
          | some _ => simp [hpending] at hbusy
        have hle := h.length_le.2
        exact
          { asks := fun p hp => by
              rcases List.mem_append.mp hp with hp | hp
              · exact h.asks p hp
              · obtain rfl := List.mem_singleton.mp hp
                exact hrequest
            small := fun p hp => by
              rcases List.mem_append.mp hp with hp | hp
              · exact h.small p hp
              · obtain rfl := List.mem_singleton.mp hp
                exact hsmall request hrequest
            fits := h.fits
            inbound := fun htask => by
              simp only
              rw [h.inbound htask, List.drop_append_of_le_length hle, List.map_append, onTheWay,
                onTheWay, List.flatMap_append]
              simp
            asked := by
              rw [List.map_append]
              exact h.asked.trans (List.prefix_append _ _)
            outbound := h.outbound
            results := h.results.trans (zipWith_mono _ (List.prefix_append _ _) List.prefix_rfl)
            paired := by
              have hpaired := h.paired
              rw [hidle] at hpaired
              simpa using hpaired
            current := fun call' hcall => by
              obtain rfl := Option.some.inj hcall
              simp
            spent := h.spent
            told := h.told }

/-- The call that is returned is the last, and its answer the last. -/
theorem receive (h : l.Sound X F compression parseError) :
    (l.receive X compression).Sound X F compression parseError := by
  have hsmall : ∀ r ∈ (l.answered.drop l.results.length).map Prod.snd,
      Small X compression (Response.format X) r := by
    intro r hr
    obtain ⟨q, hq, rfl⟩ := List.mem_map.mp hr
    exact h.fits q (List.mem_of_mem_drop hq)
  have hlengths := h.length_le
  unfold Link.receive
  split
  · exact h
  · next call hpending =>
      have hpaired := h.paired
      rw [hpending] at hpaired
      split
      · next body rest hnext =>
          rw [h.outbound] at hnext
          obtain ⟨r, rs, hdrop, rfl, rfl⟩ := nextFrame_onTheWay hsmall hnext
          have hlt : l.results.length < l.answered.length := by
            by_contra hge
            rw [List.drop_eq_nil_of_le (Nat.le_of_not_lt hge)] at hdrop
            cases hdrop
          have hfailures : l.failures = 0 := by
            by_contra hne
            exact absurd (h.spent hne).2 (Nat.ne_of_gt hlt)
          rw [List.drop_eq_getElem_cons hlt, List.map_cons, List.cons.injEq] at hdrop
          obtain ⟨rfl, rfl⟩ := hdrop
          have hlast : l.calls[l.results.length]?.map Prod.fst = some call := by
            rw [← h.current call hpending, List.getLast?_eq_getElem?, hpaired, hfailures]
            rfl
          obtain ⟨p, hp, rfl⟩ := Option.map_eq_some_iff.mp hlast
          exact
            { asks := h.asks
              small := h.small
              fits := h.fits
              inbound := h.inbound
              asked := h.asked
              outbound := by
                rw [List.length_append]
                rfl
              results := by
                refine append_singleton_of_prefix h.results ?_
                rw [returned, List.getElem?_zipWith, hp, List.getElem?_eq_getElem hlt,
                  parseBody_response]
              paired := by
                rw [hpaired, List.length_append, hfailures]
                rfl
              current := fun _ h => by cases h
              spent := fun hne => absurd hfailures hne
              told := h.told }
      · next ending hnext =>
          split_ifs with hwait
          · exact h
          · rw [h.outbound] at hnext
            have hnone := nextFrame_stops hsmall hnext
            have hge : l.answered.length ≤ l.results.length :=
              List.drop_eq_nil_iff.mp (List.map_eq_nil_iff.mp hnone)
            have hempty : l.toClient = [] := by rw [h.outbound, hnone]; rfl
            exact
              { asks := h.asks
                small := h.small
                fits := h.fits
                inbound := h.inbound
                asked := h.asked
                outbound := h.outbound
                results := h.results
                paired := hpaired
                current := fun _ h => by cases h
                spent := fun _ => ⟨fun hserving => hwait ⟨hserving, hempty ▸ rfl⟩,
                  Nat.le_antisymm hge hlengths.1⟩
                told := h.told }

/-- The task takes the oldest of the calls that it has not taken. -/
theorem take (h : l.Sound X F compression parseError) (hserving : l.task = .serving)
    (hidle : l.handling = none) {body rest : Bytes}
    (hnext : nextFrame X compression l.toServer = .ok (body, rest)) :
    Sound X F compression parseError
      { l with toServer := rest, handling := some (parseBody (Request.format X) body) } := by
  have hinbound := h.inbound hserving
  have hasked := h.asked
  rw [hidle] at hinbound hasked
  simp only [Option.toList_none, List.length_nil, Nat.add_zero, List.append_nil]
    at hinbound hasked
  have hsmall : ∀ r ∈ (l.calls.drop l.answered.length).map Prod.snd,
      Small X compression (Request.format X) r := by
    intro r hr
    obtain ⟨p, hp, rfl⟩ := List.mem_map.mp hr
    exact h.small p (List.mem_of_mem_drop hp)
  rw [hinbound] at hnext
  obtain ⟨r, rs, hdrop, rfl, rfl⟩ := nextFrame_onTheWay hsmall hnext
  have hlt : l.answered.length < l.calls.length := by
    by_contra hge
    rw [List.drop_eq_nil_of_le (Nat.le_of_not_lt hge)] at hdrop
    cases hdrop
  rw [List.drop_eq_getElem_cons hlt, List.map_cons, List.cons.injEq] at hdrop
  obtain ⟨rfl, rfl⟩ := hdrop
  exact
    { h with
      inbound := fun _ => rfl
      asked := by
        rw [parseBody_request]
        refine append_singleton_of_prefix hasked ?_
        rw [List.length_map, List.getElem?_map, List.getElem?_eq_getElem hlt]
        rfl }

/-- The response to the message that the task is at goes to the client. -/
theorem answer (h : l.Sound X F compression parseError) (hserving : l.task = .serving)
    {message : Except Bytes Request} (hbusy : l.handling = some message) {found : Found}
    {response : Response}
    (hresponse : (Server.answer X parseError found.storage found.handler message).1 =
      some response)
    (hsmall : Small X compression (Response.format X) response) (task : Task) :
    Sound X F compression parseError
      { l with
        handling := none
        toClient := l.toClient ++ send X compression (Response.format X) response
        answered := l.answered ++ [(message, response)]
        task := task } := by
  have hinbound := h.inbound hserving
  have hasked := h.asked
  rw [hbusy] at hinbound hasked
  exact
    { asks := h.asks
      small := h.small
      fits := fun q hq => by
        rcases List.mem_append.mp hq with hq | hq
        · exact h.fits q hq
        · obtain rfl := List.mem_singleton.mp hq
          exact hsmall
      inbound := fun _ => by
        rw [hinbound, List.length_append]
        rfl
      asked := by
        rw [List.map_append]
        simpa using hasked
      outbound := by
        simp only
        rw [h.outbound, List.drop_append_of_le_length h.length_le.1, List.map_append, onTheWay,
          onTheWay, List.flatMap_append]
        simp
      results := h.results.trans (zipWith_mono _ List.prefix_rfl (List.prefix_append _ _))
      paired := h.paired
      current := h.current
      spent := fun hne => absurd hserving (h.spent hne).1
      told := fun q hq => by
        rcases List.mem_append.mp hq with hq | hq
        · exact h.told q hq
        · obtain rfl := List.mem_singleton.mp hq
          exact ⟨found, hresponse⟩ }

/-- A task that stops answers nothing more. -/
theorem stop (h : l.Sound X F compression parseError) {task : Task} (hstopped : task ≠ .serving) :
    Sound X F compression parseError { l with task := task } where
  asks := h.asks
  small := h.small
  fits := h.fits
  inbound := fun hserving => absurd hserving hstopped
  asked := h.asked
  outbound := h.outbound
  results := h.results
  paired := h.paired
  current := h.current
  spent := fun hne => ⟨hstopped, (h.spent hne).2⟩
  told := h.told

/-- A message that the task panics over is not answered. -/
theorem panic (h : l.Sound X F compression parseError) :
    Sound X F compression parseError { l with handling := none, task := .panicked } where
  asks := h.asks
  small := h.small
  fits := h.fits
  inbound := fun hserving => by cases hserving
  asked := by
    simp only [Option.toList_none, List.append_nil]
    exact (List.prefix_append _ _).trans h.asked
  outbound := h.outbound
  results := h.results
  paired := h.paired
  current := h.current
  spent := fun hne => ⟨Task.noConfusion, (h.spent hne).2⟩
  told := h.told

end Link.Sound

/-- Every connection is sound. -/
def System.Sound (X : Libraries) (F : JsonFormat) (compression : Bool)
    (parseError : Bytes → String) (s : System) : Prop :=
  ∀ (c : ℕ) (l : Link), s.links[c]? = some l → l.Sound X F compression parseError

namespace System

namespace Sound

theorem put (h : s.Sound X F compression parseError) {l' : Link}
    (hl' : l'.Sound X F compression parseError) :
    (s.put c l').Sound X F compression parseError := by
  intro c' l hl
  rw [System.put, List.getElem?_set] at hl
  split_ifs at hl with hc
  · obtain rfl := Option.some.inj hl
    exact hl'
  · exact h c' l hl

theorem finish (h : s.Sound X F compression parseError) {l' : Link}
    (hl' : l'.Sound X F compression parseError) :
    (s.finish c l').Sound X F compression parseError := fun c' l hl =>
  h.put (c := c) (hl'.stop (Task.noConfusion : Task.ended ≠ .serving)) c' l hl

theorem accept (h : s.Sound X F compression parseError) :
    s.accept.Sound X F compression parseError := by
  have hopen (task : Task) (pool : ConnectionPool) (loaded : Option UInt64) :
      System.Sound X F compression parseError
        { pool := pool, loaded := loaded, links := s.links ++ [.opened task] } := by
    intro c l hl
    rw [List.getElem?_append] at hl
    split_ifs at hl
    · exact h c l hl
    · obtain rfl := List.mem_singleton.mp (List.mem_of_getElem? hl)
      exact Link.Sound.opened task
  unfold System.accept
  split
  · split_ifs
    · exact hopen .refused s.pool s.loaded
    · exact h
  · split
    · exact hopen .serving _ none
    · exact h

theorem take (h : s.Sound X F compression parseError) (hl : s.links[c]? = some l)
    (hserving : l.task = .serving) :
    (s.take X compression c l).Sound X F compression parseError := by
  unfold System.take
  split
  · exact h
  · next body rest hidle hnext => exact h.put ((h c l hl).take hserving hidle hnext)
  · split_ifs
    · exact h
    · exact h.finish (h c l hl)

theorem answer (h : s.Sound X F compression parseError) (hl : s.links[c]? = some l)
    (hserving : l.task = .serving) {found : Found}
    (hfits : s.Fits X F compression parseError (.answer c found)) :
    (s.answer X compression parseError c l found).Sound X F compression parseError := by
  have hlink := h c l hl
  unfold System.answer
  split
  · exact h
  · next message hbusy =>
      split
      · exact h.put hlink.panic
      · next response hresponse =>
          have hsmall := hfits l hl message hbusy response hresponse
          have hanswered := hlink.answer hserving hbusy hresponse hsmall l.task
          split_ifs
          · exact h.finish hanswered
          · exact h.put hanswered

theorem apply (h : s.Sound X F compression parseError) {e : Event}
    (hfits : s.Fits X F compression parseError e) :
    (s.apply X F compression parseError e).Sound X F compression parseError := by
  cases e with
  | accept => exact h.accept
  | call c call => exact ofLink_cases h fun l hl => h.put ((h c l hl).call call hfits)
  | take c =>
      refine ofLink_cases h fun l hl => ?_
      split_ifs with hserving
      · exact h.take hl hserving
      · exact h
  | answer c found =>
      refine ofLink_cases h fun l hl => ?_
      split_ifs with hserving
      · exact h.answer hl hserving hfits
      · exact h
  | receive c => exact ofLink_cases h fun l hl => h.put (h c l hl).receive
  | close c =>
      exact ofLink_cases h fun l hl =>
        have hlink := h c l hl
        h.put { hlink with }

end Sound

theorem sound_new (maxConnections : UInt64) :
    (System.new maxConnections).Sound X F compression parseError := fun c l hl => by cases hl

theorem sound_run {maxConnections : UInt64} {events : List Event}
    (hfits : Run.Along (System.apply X F compression parseError)
      (System.Fits X F compression parseError) (.new maxConnections) events) :
    ((System.new maxConnections).run X F compression parseError events).Sound X F compression
      parseError :=
  hfits.invariant (fun _ _ hs he => hs.apply he) (sound_new maxConnections)

end System

end

/-- A database that nothing else happens to. -/
def Found.alone : Found := ⟨.single emptyDatabase, .new ()⟩

/-- Two tasks that are in the handler at once, one of which panics, and a client for which there is
no slot. -/
def sampleEvents : List Event :=
  [.accept, .accept, .accept, .accept, .accept, .call 0 .beginTransaction,
    .call 1 (.query "VECTOR SEARCH docs FIELD v FOR ][" none), .call 2 .ping, .take 0, .take 1,
    .answer 1 .alone, .answer 0 .alone, .receive 0, .receive 1, .receive 2]

theorem fits_sampleEvents :
    Run.Along (System.apply sampleLibraries plainNumbers false fun _ => "")
      (System.Fits sampleLibraries plainNumbers false fun _ => "") (.new 2) sampleEvents := by
  decide +kernel

def sampleSystem : System :=
  (System.new 2).run sampleLibraries plainNumbers false (fun _ => "") sampleEvents

/-- An error, or a response of the kind. -/
def Fulfils (kind : Response → Prop) (response : Response) : Prop :=
  (∃ code message, response = .error code message) ∨ kind response

section

variable {σ : Type} {kind : Response → Prop}

/-- A response that fulfils a kind, or none, since the handler has panicked. -/
def FulfilsIf (kind : Response → Prop) (response : Option Response) : Prop :=
  ∀ r ∈ response, Fulfils kind r

theorem fulfils_error (code : ErrorCode) (message : String) : Fulfils kind (.error code message) :=
  .inl ⟨code, message, rfl⟩

theorem fulfilsIf_some {r : Response} (h : Fulfils kind r) : FulfilsIf kind (some r) := by
  intro r' hr
  obtain rfl := Option.some.inj hr
  exact h

theorem fulfilsIf_respond {α : Type} {code : ErrorCode} {ok : α → Response}
    (hok : ∀ a, kind (ok a)) (out : Outcome σ α) : FulfilsIf kind (respond code ok out).1 := by
  rcases out with ⟨a | e | _, s⟩
  · exact fulfilsIf_some (.inr (hok a))
  · exact fulfilsIf_some (fulfils_error code e)
  · intro r hr
    cases hr

theorem fulfilsIf_withNodeId {T : UuidText} {id : String} {s : σ} {f : NodeId → Handled σ}
    (hf : ∀ nodeId, FulfilsIf kind (f nodeId).1) : FulfilsIf kind (withNodeId T id s f).1 := by
  unfold withNodeId
  split
  · exact hf _
  · exact fulfilsIf_some (fulfils_error _ _)

/-- The handler answers the request of a call with an error or as the method expects, if at all. -/
theorem Call.fulfils_handle (F : JsonFormat) (T : UuidText) (b : Backend σ) (h : RequestHandler σ)
    {call : Call} {r : Request} (hr : call.request F = some r) (hcall : call ≠ .disconnect) :
    FulfilsIf (fun response => (call.expect response).isSome = true) (h.handle T b r).1 := by
  cases call with
  | disconnect => exact absurd rfl hcall
  | ping =>
      obtain rfl := Option.some.inj hr
      exact fulfilsIf_some (.inr rfl)
  | insertNode nodeType properties =>
      obtain ⟨props, -, rfl⟩ := Option.map_eq_some_iff.mp hr
      simp only [RequestHandler.handle, RequestHandler.stored]
      cases b with
      | single db => exact fulfilsIf_respond (fun _ => by rfl) _
      | sharded m => exact fulfilsIf_respond (fun _ => by rfl) _
  | getNode id =>
      obtain rfl := Option.some.inj hr
      simp only [RequestHandler.handle, RequestHandler.stored]
      cases b with
      | single db => exact fulfilsIf_respond (fun _ => by rfl) _
      | sharded m => exact fulfilsIf_withNodeId fun _ => fulfilsIf_respond (fun _ => by rfl) _
  | updateNode id properties =>
      obtain ⟨props, -, rfl⟩ := Option.map_eq_some_iff.mp hr
      simp only [RequestHandler.handle, RequestHandler.stored]
      cases b with
      | single db => exact fulfilsIf_respond (fun _ => by rfl) _
      | sharded m => exact fulfilsIf_withNodeId fun _ => fulfilsIf_respond (fun _ => by rfl) _
  | deleteNode id =>
      obtain rfl := Option.some.inj hr
      simp only [RequestHandler.handle, RequestHandler.stored]
      cases b with
      | single db => exact fulfilsIf_respond (fun _ => by rfl) _
      | sharded m => exact fulfilsIf_withNodeId fun _ => fulfilsIf_respond (fun _ => by rfl) _
  | getNodesByType nodeType limit =>
      obtain rfl := Option.some.inj hr
      simp only [RequestHandler.handle, RequestHandler.stored]
      cases b with
      | single db => exact fulfilsIf_respond (fun _ => by rfl) _
      | sharded m => exact fulfilsIf_respond (fun _ => by rfl) _
  | createEdge fromId toId edgeType properties =>
      have hkind : ∃ props, r = .createEdge fromId toId edgeType props := by
        cases properties with
        | none => exact ⟨none, (Option.some.inj hr).symm⟩
        | some properties =>
            obtain ⟨props, -, rfl⟩ := Option.map_eq_some_iff.mp hr
            exact ⟨some props, rfl⟩
      obtain ⟨props, rfl⟩ := hkind
      simp only [RequestHandler.handle, RequestHandler.stored]
      cases b with
      | single db => exact fulfilsIf_respond (fun _ => by rfl) _
      | sharded m =>
          exact fulfilsIf_withNodeId fun _ => fulfilsIf_withNodeId fun _ =>
            fulfilsIf_respond (fun _ => by rfl) _
  | getEdgesFrom nodeId edgeType =>
      obtain rfl := Option.some.inj hr
      simp only [RequestHandler.handle, RequestHandler.stored]
      cases b with
      | single db => exact fulfilsIf_respond (fun _ => by rfl) _
      | sharded m => exact fulfilsIf_withNodeId fun _ => fulfilsIf_respond (fun _ => by rfl) _
  | query sql limit =>
      obtain rfl := Option.some.inj hr
      simp only [RequestHandler.handle, RequestHandler.stored]
      cases b with
      | single db => exact fulfilsIf_respond (fun _ => by rfl) _
      | sharded m => exact fulfilsIf_some (fulfils_error _ _)
  | status =>
      obtain rfl := Option.some.inj hr
      simp only [RequestHandler.handle, RequestHandler.stored]
      cases b with
      | single db => exact fulfilsIf_respond (fun _ => by rfl) _
      | sharded m => exact fulfilsIf_respond (fun _ => by rfl) _
  | beginTransaction =>
      obtain rfl := Option.some.inj hr
      exact fulfilsIf_some (.inr rfl)
  | commitTransaction txId =>
      obtain rfl := Option.some.inj hr
      simp only [RequestHandler.handle, RequestHandler.answered, RequestHandler.endTransaction]
      split_ifs
      · exact fulfilsIf_some (.inr rfl)
      · exact fulfilsIf_some (fulfils_error _ _)
  | rollbackTransaction txId =>
      obtain rfl := Option.some.inj hr
      simp only [RequestHandler.handle, RequestHandler.answered, RequestHandler.endTransaction]
      split_ifs
      · exact fulfilsIf_some (.inr rfl)
      · exact fulfilsIf_some (fulfils_error _ _)

theorem Call.read_fulfils (X : Libraries) {call : Call} {response : Response}
    (h : Fulfils (fun response => (call.expect response).isSome = true) response) :
    call.read (response.received X) ≠ .error .unexpectedResponse := by
  unfold Response.received
  split_ifs
  · unfold Call.read
    split
    · exact fun h => by cases h
    · split
      · exact fun h => by cases h
      · exact fun h => by cases h
      · next hne hok =>
          obtain rfl := Except.ok.inj hok
          rcases h with ⟨code, message, rfl⟩ | h
          · exact absurd rfl (hne code message)
          · obtain ⟨answer, hanswer⟩ := Option.isSome_iff_exists.mp h
            rw [hanswer]
            exact fun h => by cases h
  · unfold Call.read
    split
    · exact fun h => by cases h
    · exact fun h => by cases h

/-- A call is not returned a response of another kind. -/
theorem Call.read_answer {X : Libraries} {F : JsonFormat} {parseError : Bytes → String}
    {b : Backend σ} (h : RequestHandler σ) {call : Call} {r : Request}
    (hr : call.request F = some r) {response : Response}
    (hresponse : (answer X parseError b h (r.received X)).1 = some response) :
    call.read (response.received X) ≠ .error .unexpectedResponse := by
  by_cases hcall : call = .disconnect
  · subst hcall
    exact fun h => by cases h
  · refine Call.read_fulfils X ?_
    unfold Request.received at hresponse
    split_ifs at hresponse
    · exact Call.fulfils_handle F X.uuid b h hr hcall response hresponse
    · obtain rfl := Option.some.inj hresponse
      exact fulfils_error _ _

end

end AresaDb.Server
