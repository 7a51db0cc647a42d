import AresaDb.Lib.Run
import AresaDb.Pd.Types

/-! # Raft over gRPC

The transport of `aresadb-net`: a connection of one group to one peer (`client.rs`), which dials
when it is first used and forgets its channel when a call fails, and the server of a node
(`server.rs`), which hands a request to the Raft instance of its group.  Payloads are encoded with
`bincode` (`codec.rs`).  openraft is a parameter: three RPCs, each a step of the instance.

A node runs many groups over one server, and each of them behaves as if it had the network for
itself (`groups_alone`).  While no node takes over the address of another, a request is handled by
its addressee or by nobody, and once at most (`call_addressed`). -/

namespace AresaDb.Net

open ByteOrder
open AresaDb.Pd (NodeId GroupId)

/-! ### What is carried -/

inductive Kind where
  | appendEntries
  | vote
  | installSnapshot
deriving DecidableEq

/-- `encode` and `decode` at a type. -/
structure Payload (α : Type) where
  encode : α → Bytes
  decode : Bytes → Option α
  decode_encode : ∀ a, decode (encode a) = some a

/-- An instance of openraft, with state `ρ`. -/
structure Openraft (ρ : Type) where
  Req : Kind → Type
  Resp : Kind → Type
  Err : Kind → Type
  reqCodec : ∀ k, Payload (Req k)
  respCodec : ∀ k, Payload (Resp k)
  errCodec : ∀ k, Payload (Err k)
  handle : ∀ k, ρ → Req k → Except (Err k) (Resp k) × ρ

structure RequestPb where
  payload : Bytes
  raftGroupId : GroupId

structure ResponsePb where
  payload : Bytes
  isError : Bool

inductive StatusCode where
  | notFound
  | invalidArgument
deriving DecidableEq

/-- `RPCError`, but for the texts. -/
inductive RpcError (ε : Type) where
  | unreachable
  | network
  | remote (target : NodeId) (error : ε)

/-- What becomes of a call on its way. -/
inductive Fate where
  | arrives
  | requestLost
  | responseLost
deriving DecidableEq

section

variable {ρ : Type} (O : Openraft ρ)

/-! ### The server of a node -/

/-- What the instance says, on the wire. -/
def answerPb (k : Kind) : Except (O.Err k) (O.Resp k) → ResponsePb
  | .ok resp => ⟨(O.respCodec k).encode resp, false⟩
  | .error e => ⟨(O.errCodec k).encode e, true⟩

/-- Resolve the group, decode the request, call the instance, encode what it says. -/
def serve (k : Kind) (rafts : GroupId → Option ρ) (body : RequestPb) :
    Except StatusCode ResponsePb × (GroupId → Option ρ) :=
  match rafts body.raftGroupId with
  | none => (.error .notFound, rafts)
  | some raft =>
      match (O.reqCodec k).decode body.payload with
      | none => (.error .invalidArgument, rafts)
      | some req =>
          let out := O.handle k raft req
          (.ok (answerPb O k out.1), Function.update rafts body.raftGroupId (some out.2))

/-! ### The network -/

/-- A connection: one for each peer and group. -/
structure Conn where
  source : NodeId
  target : NodeId
  group : GroupId
deriving DecidableEq

/-- The instances of the nodes, the peer directory of each node, who is reached at an endpoint, and
the channels of the connections. -/
structure Network (ρ : Type) where
  rafts : NodeId → GroupId → Option ρ
  directory : NodeId → NodeId → Option String
  listening : String → Option NodeId
  channel : Conn → Option String

namespace Network

variable (n : Network ρ)

/-- The endpoint that the connection talks to, dialled if need be. -/
def client (c : Conn) : Option String × Network ρ :=
  match n.channel c with
  | some uri => (some uri, n)
  | none =>
      match n.directory c.source c.target with
      | none => (none, n)
      | some uri =>
          match n.listening uri with
          | none => (none, n)
          | some _ => (some uri, { n with channel := Function.update n.channel c (some uri) })

/-- Forget the channel. -/
def reset (c : Conn) : Network ρ := { n with channel := Function.update n.channel c none }

/-- The result in the body of a response. -/
def readResponse (k : Kind) (target : NodeId) (body : ResponsePb) :
    Except (RpcError (O.Err k)) (O.Resp k) :=
  if body.isError then
    match (O.errCodec k).decode body.payload with
    | some e => .error (.remote target e)
    | none => .error .network
  else
    match (O.respCodec k).decode body.payload with
    | some resp => .ok resp
    | none => .error .network

def call (k : Kind) (c : Conn) (req : O.Req k) (fate : Fate) :
    Except (RpcError (O.Err k)) (O.Resp k) × Network ρ :=
  match n.client c with
  | (none, n) => (.error .unreachable, n)
  | (some uri, n) =>
      match n.listening uri with
      | none => (.error .network, n.reset c)
      | some node =>
          if fate = .requestLost then (.error .network, n.reset c)
          else
            let out := serve O k (n.rafts node) ⟨(O.reqCodec k).encode req, c.group⟩
            let n := { n with rafts := Function.update n.rafts node out.2 }
            match out.1 with
            | .error _ => (.error .network, n.reset c)
            | .ok body =>
                if fate = .responseLost then (.error .network, n.reset c)
                else (readResponse O k c.target body, n)

end Network

inductive Event (O : Openraft ρ) where
  | call (k : Kind) (c : Conn) (req : O.Req k) (fate : Fate)
  /-- The peer directory of a node changes. -/
  | route (source target : NodeId) (uri : Option String)
  /-- A node comes up at an endpoint, or nobody is reached there any more. -/
  | listen (uri : String) (node : Option NodeId)
  /-- A node opens or closes a group. -/
  | host (node : NodeId) (group : GroupId) (raft : Option ρ)

/-- The result of a call. -/
structure Answered (O : Openraft ρ) where
  kind : Kind
  source : NodeId
  target : NodeId
  req : O.Req kind
  result : Except (RpcError (O.Err kind)) (O.Resp kind)

namespace Network

variable {O}

def apply (n : Network ρ) : Event O → Network ρ
  | .call k c req fate => (n.call O k c req fate).2
  | .route source target uri =>
      { n with
        directory := Function.update n.directory source
          (Function.update (n.directory source) target uri) }
  | .listen uri node => { n with listening := Function.update n.listening uri node }
  | .host node group raft =>
      { n with rafts := Function.update n.rafts node (Function.update (n.rafts node) group raft) }

abbrev run (n : Network ρ) (events : List (Event O)) : Network ρ := Run.run apply n events

/-- The results of the calls of a group. -/
def results (group : GroupId) : Network ρ → List (Event O) → List (Answered O)
  | _, [] => []
  | n, event :: events =>
      let later := results group (n.apply event) events
      match event with
      | .call k c req fate =>
          if c.group = group then ⟨k, c.source, c.target, req, (n.call O k c req fate).1⟩ :: later
          else later
      | _ => later

end Network

/-! ### One group alone -/

/-- A network with one group, in which the requests themselves are carried. -/
structure Single (ρ : Type) where
  raft : NodeId → Option ρ
  directory : NodeId → NodeId → Option String
  listening : String → Option NodeId
  channel : NodeId → NodeId → Option String

namespace Single

variable (s : Single ρ)

def setChannel (source target : NodeId) (uri : Option String) : Single ρ :=
  { s with
    channel := Function.update s.channel source (Function.update (s.channel source) target uri) }

def client (source target : NodeId) : Option String × Single ρ :=
  match s.channel source target with
  | some uri => (some uri, s)
  | none =>
      match s.directory source target with
      | none => (none, s)
      | some uri =>
          match s.listening uri with
          | none => (none, s)
          | some _ => (some uri, s.setChannel source target (some uri))

/-- A request on its way to an endpoint. -/
def deliver (k : Kind) (source target : NodeId) (req : O.Req k) (fate : Fate) (uri : String) :
    Except (RpcError (O.Err k)) (O.Resp k) × Single ρ :=
  match s.listening uri with
  | none => (.error .network, s.setChannel source target none)
  | some node =>
      if fate = .requestLost then (.error .network, s.setChannel source target none)
      else
        match s.raft node with
        | none => (.error .network, s.setChannel source target none)
        | some raft =>
            let out := O.handle k raft req
            let s := { s with raft := Function.update s.raft node (some out.2) }
            if fate = .responseLost then (.error .network, s.setChannel source target none)
            else (out.1.mapError (.remote target), s)

def call (k : Kind) (source target : NodeId) (req : O.Req k) (fate : Fate) :
    Except (RpcError (O.Err k)) (O.Resp k) × Single ρ :=
  match s.client source target with
  | (none, s) => (.error .unreachable, s)
  | (some uri, s) => s.deliver O k source target req fate uri

end Single

/-- What a group sees of the network. -/
def Network.view (n : Network ρ) (group : GroupId) : Single ρ where
  raft node := n.rafts node group
  directory := n.directory
  listening := n.listening
  channel source target := n.channel ⟨source, target, group⟩

/-- What a group sees of an event. -/
inductive SingleEvent (O : Openraft ρ) where
  | call (k : Kind) (source target : NodeId) (req : O.Req k) (fate : Fate)
  | route (source target : NodeId) (uri : Option String)
  | listen (uri : String) (node : Option NodeId)
  | host (node : NodeId) (raft : Option ρ)

variable {O} in
def Event.view (group : GroupId) : Event O → Option (SingleEvent O)
  | .call k c req fate =>
      if c.group = group then some (.call k c.source c.target req fate) else none
  | .route source target uri => some (.route source target uri)
  | .listen uri node => some (.listen uri node)
  | .host node g raft => if g = group then some (.host node raft) else none

namespace Single

variable {O}

def apply (s : Single ρ) : SingleEvent O → Single ρ
  | .call k source target req fate => (s.call O k source target req fate).2
  | .route source target uri =>
      { s with
        directory := Function.update s.directory source
          (Function.update (s.directory source) target uri) }
  | .listen uri node => { s with listening := Function.update s.listening uri node }
  | .host node raft => { s with raft := Function.update s.raft node raft }

abbrev run (s : Single ρ) (events : List (SingleEvent O)) : Single ρ := Run.run apply s events

def results : Single ρ → List (SingleEvent O) → List (Answered O)
  | _, [] => []
  | s, event :: events =>
      let later := results (s.apply event) events
      match event with
      | .call k source target req fate =>
          ⟨k, source, target, req, (s.call O k source target req fate).1⟩ :: later
      | _ => later

end Single

/-! ### Every group is alone -/

namespace Network

variable {O} (n : Network ρ) (group : GroupId)

/-- The channel of another group is not seen. -/
theorem view_channel (c : Conn) (uri : Option String) :
    ({ n with channel := Function.update n.channel c uri } : Network ρ).view group =
      if c.group = group then (n.view group).setChannel c.source c.target uri else n.view
          group := by
  obtain ⟨source, target, g⟩ := c
  split_ifs with hgroup
  · obtain rfl : g = group := hgroup
    refine congrArg (Single.mk _ _ _) (funext fun s => funext fun t => ?_)
    by_cases hs : s = source
    · subst hs
      by_cases ht : t = target
      · subst ht
        simp [view]
      · simp [view, Function.update_of_ne, ht]
    · simp [view, Function.update_of_ne, hs]
  · refine congrArg (Single.mk _ _ _) (funext fun s => funext fun t => ?_)
    exact Function.update_of_ne (fun h => hgroup (Conn.mk.inj h).2.2.symm) ..

theorem view_rafts (node : NodeId) (g : GroupId) (raft : Option ρ) :
    ({ n with rafts := Function.update n.rafts node (Function.update (n.rafts node) g raft) } :
        Network ρ).view group =
      if g = group then
        { n.view group with raft := Function.update (n.view group).raft node raft }
      else n.view group := by
  split_ifs with hgroup
  · subst hgroup
    refine congrArg (Single.mk · _ _ _) (funext fun m => ?_)
    by_cases hm : m = node
    · subst hm
      simp [view]
    · simp [view, Function.update_of_ne, hm]
  · refine congrArg (Single.mk · _ _ _) (funext fun m => ?_)
    by_cases hm : m = node
    · subst hm
      simp [Function.update_of_ne (Ne.symm hgroup)]
    · simp [Function.update_of_ne, hm]

variable (c : Conn)

theorem view_reset : (n.reset c).view c.group =
    (n.view c.group).setChannel c.source c.target none :=
  (view_channel n c.group c none).trans (if_pos rfl)

theorem view_reset_of_ne {group : GroupId} (h : c.group ≠ group) :
    (n.reset c).view group = n.view group := (view_channel n group c none).trans (if_neg h)

theorem view_client :
    (n.view c.group).client c.source c.target = ((n.client c).1, (n.client c).2.view c.group) := by
  have hchannel : (n.view c.group).channel c.source c.target = n.channel c := rfl
  have hdirectory : (n.view c.group).directory c.source c.target =
    n.directory c.source c.target := rfl
  unfold client Single.client
  rw [hchannel, hdirectory]
  cases n.channel c with
  | some uri => rfl
  | none =>
      cases n.directory c.source c.target with
      | none => rfl
      | some uri =>
          show (match n.listening uri with | none => _ | some _ => _) = _
          cases hlistening : n.listening uri with
          | none => simp [hlistening]
          | some node =>
              simp only [hlistening]
              rw [view_channel, if_pos rfl]

theorem view_client_of_ne {group : GroupId} (h : c.group ≠ group) :
    (n.client c).2.view group = n.view group := by
  unfold client
  cases n.channel c with
  | some uri => rfl
  | none =>
      cases n.directory c.source c.target with
      | none => rfl
      | some uri =>
          cases hlistening : n.listening uri with
          | none => simp only [hlistening]
          | some node =>
              simp only [hlistening]
              rw [view_channel, if_neg h]

/-- What the server answers, and the group's instance after it. -/
theorem serve_encode (k : Kind) (rafts : GroupId → Option ρ) (group : GroupId) (req : O.Req k) :
    serve O k rafts ⟨(O.reqCodec k).encode req, group⟩ =
      match rafts group with
      | none => (.error .notFound, rafts)
      | some raft =>
          (.ok (answerPb O k (O.handle k raft req).1),
            Function.update rafts group (some (O.handle k raft req).2)) := by
  unfold serve
  rw [(O.reqCodec k).decode_encode]

/-- What the instance says arrives. -/
theorem readResponse_answerPb (k : Kind) (target : NodeId) (answer : Except (O.Err k) (O.Resp k)) :
    readResponse O k target (answerPb O k answer) = answer.mapError (.remote target) := by
  unfold readResponse answerPb
  cases answer with
  | ok resp =>
      simp only [Bool.false_eq_true, if_false, (O.respCodec k).decode_encode]
      rfl
  | error e =>
      simp only [if_true, (O.errCodec k).decode_encode]
      rfl

/-- A call, as its group sees it. -/
theorem view_call (k : Kind) (req : O.Req k) (fate : Fate) :
    (n.view c.group).call O k c.source c.target req fate =
      ((n.call O k c req fate).1, (n.call O k c req fate).2.view c.group) := by
  unfold call Single.call
  rw [view_client]
  rcases n.client c with ⟨_ | uri, m⟩
  · rfl
  simp only
  unfold Single.deliver
  have hlistening : (m.view c.group).listening uri = m.listening uri := rfl
  rw [hlistening]
  cases m.listening uri with
  | none => simp only [view_reset]
  | some node =>
      simp only
      by_cases hlost : fate = .requestLost
      · simp only [if_pos hlost, view_reset]
      simp only [if_neg hlost]
      rw [serve_encode]
      have hraft : (m.view c.group).raft node = m.rafts node c.group := rfl
      rw [hraft]
      cases m.rafts node c.group with
      | none =>
          simp only
          rw [Function.update_eq_self, view_reset]
      | some raft =>
          simp only
          have hview := view_rafts m c.group node c.group (some (O.handle k raft req).2)
          rw [if_pos rfl] at hview
          by_cases hback : fate = .responseLost
          · simp only [if_pos hback]
            rw [← hview, view_reset]
          · simp only [if_neg hback]
            rw [← hview, readResponse_answerPb]

/-- A call of another group is not seen. -/
theorem view_call_of_ne {group : GroupId} (h : c.group ≠ group) (k : Kind) (req : O.Req k)
    (fate : Fate) : (n.call O k c req fate).2.view group = n.view group := by
  have hclient := view_client_of_ne n c h
  unfold call
  revert hclient
  rcases n.client c with ⟨_ | uri, m⟩
  · exact id
  intro hclient
  simp only at hclient ⊢
  rw [← hclient]
  cases m.listening uri with
  | none => exact view_reset_of_ne m c h
  | some node =>
      simp only
      by_cases hlost : fate = .requestLost
      · rw [if_pos hlost]
        exact view_reset_of_ne m c h
      rw [if_neg hlost, serve_encode]
      cases m.rafts node c.group with
      | none =>
          simp only
          rw [Function.update_eq_self]
          exact view_reset_of_ne m c h
      | some raft =>
          have hview := view_rafts m group node c.group (some (O.handle k raft req).2)
          rw [if_neg h] at hview
          by_cases hback : fate = .responseLost
          · simp only [if_pos hback]
            exact (view_reset_of_ne _ c h).trans hview
          · simp only [if_neg hback]
            exact hview

/-- An event of the group, as the group sees it. -/
theorem view_apply {event : Event O} {e : SingleEvent O} (h : event.view group = some e) :
    (n.apply event).view group = (n.view group).apply e := by
  cases event with
  | call k c req fate =>
      simp only [Event.view] at h
      split_ifs at h with hgroup
      obtain rfl := Option.some.inj h
      subst hgroup
      exact (congrArg Prod.snd (n.view_call c k req fate)).symm
  | route source target uri =>
      obtain rfl := Option.some.inj h
      rfl
  | listen uri node =>
      obtain rfl := Option.some.inj h
      rfl
  | host node g raft =>
      simp only [Event.view] at h
      split_ifs at h with hgroup
      obtain rfl := Option.some.inj h
      exact (view_rafts n group node g raft).trans (if_pos hgroup)

/-- An event of another group. -/
theorem view_apply_of_none {event : Event O} (h : event.view group = none) :
    (n.apply event).view group = n.view group := by
  cases event with
  | call k c req fate =>
      simp only [Event.view] at h
      split_ifs at h with hgroup
      exact n.view_call_of_ne c hgroup k req fate
  | route source target uri => cases h
  | listen uri node => cases h
  | host node g raft =>
      simp only [Event.view] at h
      split_ifs at h with hgroup
      exact (view_rafts n group node g raft).trans (if_neg hgroup)

theorem results_cons (event : Event O) (events : List (Event O)) :
    n.results group (event :: events) =
      match event.view group with
      | some (.call k source target req fate) =>
          ⟨k, source, target, req, ((n.view group).call O k source target req fate).1⟩ ::
            (n.apply event).results group events
      | _ => (n.apply event).results group events := by
  cases event with
  | call k c req fate =>
      by_cases hgroup : c.group = group
      · subst hgroup
        simp only [results, Event.view, if_true, view_call]
      · simp only [results, Event.view, if_neg hgroup]
  | route source target uri => rfl
  | listen uri node => rfl
  | host node g raft =>
      simp only [results, Event.view]
      split_ifs <;> rfl

end Network

variable {O} in
/-- **Every group is alone.**  Whatever the calls of all groups, moving nodes and lost messages, the
instances of a group and the results of its calls are those of a network in which this group is the
only one and in which nothing is encoded. -/
theorem groups_alone (n : Network ρ) (events : List (Event O)) (group : GroupId) :
    (n.run events).view group = (n.view group).run (events.filterMap (Event.view group)) ∧
      n.results group events = (n.view group).results (events.filterMap (Event.view group)) := by
  induction events generalizing n with
  | nil => exact ⟨rfl, rfl⟩
  | cons event events ih =>
      obtain ⟨hview, hresults⟩ := ih (n.apply event)
      rw [n.results_cons]
      cases he : event.view group with
      | none =>
          rw [List.filterMap_cons_none he, ← n.view_apply_of_none group he]
          exact ⟨hview, hresults⟩
      | some e =>
          rw [List.filterMap_cons_some he]
          rw [n.view_apply group he] at hview hresults
          refine ⟨hview, ?_⟩
          cases e with
          | call k source target req fate => exact congrArg _ hresults
          | _ => exact hresults

/-! ### The addressee -/

/-- Every endpoint belongs to one node: nobody else is reached there, and the peer directories and
the channels name it for nobody else. -/
structure Network.Addressed (owner : String → NodeId) (n : Network ρ) : Prop where
  listening : ∀ uri node, n.listening uri = some node → node = owner uri
  directory : ∀ source target uri, n.directory source target = some uri → target = owner uri
  channel : ∀ c uri, n.channel c = some uri → c.target = owner uri

/-- The event takes no endpoint over. -/
def Event.Addressed (owner : String → NodeId) : Event O → Prop
  | .route _ target uri => ∀ u, uri = some u → target = owner u
  | .listen uri node => ∀ m, node = some m → m = owner uri
  | .call .. | .host .. => True

namespace Network

variable {O} {owner : String → NodeId} {n : Network ρ}

theorem Addressed.setChannel (h : n.Addressed owner) (c : Conn) {uri : Option String}
    (huri : ∀ u, uri = some u → c.target = owner u) :
    ({ n with channel := Function.update n.channel c uri } : Network ρ).Addressed owner where
  listening := h.listening
  directory := h.directory
  channel c' u hu := by
    simp only at hu
    by_cases hc : c' = c
    · rw [hc, Function.update_self] at hu
      rw [hc]
      exact huri u hu
    · rw [Function.update_of_ne hc] at hu
      exact h.channel c' u hu

theorem Addressed.setRafts (h : n.Addressed owner) (rafts : NodeId → GroupId → Option ρ) :
    ({ n with rafts } : Network ρ).Addressed owner := ⟨h.listening, h.directory, h.channel⟩

/-- The endpoint that a connection talks to is its target's. -/
theorem Addressed.client (h : n.Addressed owner) (c : Conn) :
    (n.client c).2.Addressed owner ∧ (n.client c).2.rafts = n.rafts ∧
      ∀ uri, (n.client c).1 = some uri → c.target = owner uri := by
  unfold Network.client
  cases hchannel : n.channel c with
  | some uri =>
      refine ⟨h, rfl, fun u hu => ?_⟩
      obtain rfl := Option.some.inj hu
      exact h.channel c uri hchannel
  | none =>
      cases hdirectory : n.directory c.source c.target with
      | none => exact ⟨h, rfl, fun u hu => by cases hu⟩
      | some uri =>
          have howner := h.directory c.source c.target uri hdirectory
          cases hlistening : n.listening uri with
          | none =>
              simp only [hlistening]
              exact ⟨h, trivial, fun u hu => by cases hu⟩
          | some node =>
              simp only [hlistening]
              refine ⟨h.setChannel c fun u hu =>
                Option.some.inj hu ▸ howner, trivial, fun u hu => ?_⟩
              exact Option.some.inj hu ▸ howner

/-- What a call does: nothing, or one step of the addressee's instance of the group. -/
def Handled (O : Openraft ρ) (n : Network ρ) (k : Kind) (c : Conn) (req : O.Req k)
    (out : Except (RpcError (O.Err k)) (O.Resp k) × Network ρ) : Prop :=
  (out.2.rafts = n.rafts ∧ (out.1 = .error .unreachable ∨ out.1 = .error .network)) ∨
    ∃ raft, n.rafts c.target c.group = some raft ∧
      out.2.rafts = Function.update n.rafts c.target
        (Function.update (n.rafts c.target) c.group (some (O.handle k raft req).2)) ∧
      (out.1 = (O.handle k raft req).1.mapError (.remote c.target) ∨ out.1 = .error .network)

theorem Addressed.call (h : n.Addressed owner) (k : Kind) (c : Conn) (req : O.Req k) (fate : Fate) :
    (n.call O k c req fate).2.Addressed owner ∧ Handled O n k c req (n.call O k c req fate) := by
  obtain ⟨haddressed, hrafts, howner⟩ := h.client c
  unfold Network.call Handled
  rw [← hrafts]
  revert haddressed howner
  rcases n.client c with ⟨_ | uri, m⟩
  · exact fun haddressed _ => ⟨haddressed, Or.inl ⟨rfl, Or.inl rfl⟩⟩
  intro haddressed howner
  simp only at haddressed howner ⊢
  have hreset : ∀ rafts, (Network.reset { m with rafts } c).Addressed owner := fun rafts =>
    (haddressed.setRafts rafts).setChannel c fun u hu => by cases hu
  cases hlistening : m.listening uri with
  | none => exact ⟨hreset m.rafts, Or.inl ⟨rfl, Or.inr rfl⟩⟩
  | some node =>
      obtain rfl : node = c.target :=
        (haddressed.listening uri node hlistening).trans (howner uri rfl).symm
      simp only
      by_cases hlost : fate = .requestLost
      · rw [if_pos hlost]
        exact ⟨hreset m.rafts, Or.inl ⟨rfl, Or.inr rfl⟩⟩
      rw [if_neg hlost, serve_encode]
      cases hraft : m.rafts c.target c.group with
      | none =>
          simp only
          rw [Function.update_eq_self]
          exact ⟨hreset m.rafts, Or.inl ⟨rfl, Or.inr trivial⟩⟩
      | some raft =>
          by_cases hback : fate = .responseLost
          · simp only [if_pos hback]
            exact ⟨hreset _, Or.inr ⟨raft, rfl, rfl, Or.inr trivial⟩⟩
          · simp only [if_neg hback]
            exact ⟨haddressed.setRafts _,
              Or.inr ⟨raft, rfl, rfl, Or.inl (readResponse_answerPb k c.target _)⟩⟩

theorem Addressed.apply (h : n.Addressed owner) {event : Event O} (he : event.Addressed O owner) :
    (n.apply event).Addressed owner := by
  cases event with
  | call k c req fate => exact (h.call k c req fate).1
  | route source target uri =>
      refine ⟨h.listening, fun s t u hu => ?_, h.channel⟩
      simp only [Network.apply] at hu
      by_cases hs : s = source
      · rw [hs, Function.update_self] at hu
        by_cases ht : t = target
        · rw [ht, Function.update_self] at hu
          rw [ht]
          exact he u hu
        · rw [Function.update_of_ne ht] at hu
          exact h.directory source t u hu
      · rw [Function.update_of_ne hs] at hu
        exact h.directory s t u hu
  | listen uri node =>
      refine ⟨fun u m hm => ?_, h.directory, h.channel⟩
      simp only [Network.apply] at hm
      by_cases hu : u = uri
      · rw [hu, Function.update_self] at hm
        rw [hu]
        exact he m hm
      · rw [Function.update_of_ne hu] at hm
        exact h.listening u m hm
  | host node group raft => exact h.setRafts _

end Network

variable {O} in
/-- **A request is handled by its addressee or by nobody.**  In every run in which no endpoint is
taken over, a call reaches the instance of its group on its target, which handles it once, or it
reaches no instance at all; no other instance of any node changes.  What it returns is what that
instance said, or the error of a call whose fate is unknown. -/
theorem call_addressed {owner : String → NodeId} {n : Network ρ} (hn : n.Addressed owner)
    (events : List (Event O)) (he : ∀ e ∈ events, e.Addressed O owner) (k : Kind) (c : Conn)
    (req : O.Req k) (fate : Fate) :
    Network.Handled O (n.run events) k c req ((n.run events).call O k c req fate) := by
  have haddressed : (n.run events).Addressed owner := by
    induction events generalizing n with
    | nil => exact hn
    | cons event events ih =>
        exact ih (hn.apply (he event List.mem_cons_self)) fun e hmem =>
          he e (List.mem_cons_of_mem _ hmem)
  exact (haddressed.call k c req fate).2

end

/-- An instance that counts what it is asked. -/
def counting : Openraft ℕ where
  Req _ := Unit
  Resp _ := Unit
  Err _ := Unit
  reqCodec _ := ⟨fun _ => [], fun _ => some (), fun _ => rfl⟩
  respCodec _ := ⟨fun _ => [], fun _ => some (), fun _ => rfl⟩
  errCodec _ := ⟨fun _ => [], fun _ => some (), fun _ => rfl⟩
  handle _ raft _ := (.ok (), raft + 1)

def emptyNetwork : Network ℕ := ⟨fun _ _ => none, fun _ _ => none, fun _ => none, fun _ => none⟩

/-- Node 2 opens group 5 and is reached by node 1. -/
def meetingEvents : List (Event counting) :=
  [.host 2 5 (some 0), .listen "b" (some 2), .route 1 2 (some "b")]

theorem call_addressed_vote :
    Network.Handled counting (emptyNetwork.run meetingEvents) .vote ⟨1, 2, 5⟩ ()
      ((emptyNetwork.run meetingEvents).call counting .vote ⟨1, 2, 5⟩ () .responseLost) := by
  have hempty : emptyNetwork.Addressed fun _ => 2 :=
    ⟨fun _ _ h => (by cases h), fun _ _ _ h => (by cases h), fun _ _ h => (by cases h)⟩
  refine call_addressed hempty meetingEvents (fun e he => ?_) .vote ⟨1, 2, 5⟩ () .responseLost
  simp only [meetingEvents, List.mem_cons, List.not_mem_nil, or_false] at he
  rcases he with rfl | rfl | rfl
  · trivial
  · exact fun m hm => (Option.some.inj hm).symm
  · exact fun u _ => rfl

end AresaDb.Net
