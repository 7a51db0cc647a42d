import AresaDb.Pd.AdminRuns

/-! # Heartbeats

The loop that a node sends its heartbeats from (`admin/heartbeat.rs`).  It keeps to one endpoint and
turns to another only when a member names the leader and a resolver knows where that leader is
reached.

Without a resolver, as the supervisor of a node spawns it, a heartbeat therefore gets through at
exactly the ticks at which the member that is reached at the first endpoint takes it
(`heartbeat_fixed`).  With one, whatever has happened before, every tick of a settled group but the
first brings its heartbeat to the leader (`heartbeat_follows`). -/

namespace AresaDb.Pd.Admin

structure HeartbeatConfig where
  nodeId : NodeId
  endpoint : String
  /-- Where a leader that has been named is reached. -/
  endpointFor : Option (NodeId → Option String)

/-- The endpoint, and the one that the client is connected to. -/
structure HeartbeatLoop where
  endpoint : String
  client : Option String

/-- What a tick finds: whether an endpoint takes a connection, who answers there or how the
transport fails, what the members have, and the time. -/
structure World where
  dial : String → Bool
  reach : String → Except Status NodeId
  members : NodeId → Member
  now : UInt64
  reached_dials : ∀ e member, reach e = .ok member → dial e = true

/-- A command that the Raft library of a member answers with a response that is no error. -/
def Member.takes (m : Member) (cmd : PdCommand) : Bool :=
  match m.clientWrite cmd with
  | .ok (.error _) => false
  | .ok _ => true
  | .error _ => false

/-- A command is taken by the member that is reached at an endpoint. -/
def World.takenAt (w : World) (e : String) (cmd : PdCommand) : Bool :=
  match w.reach e with
  | .ok member => (w.members member).takes cmd
  | .error _ => false

namespace HeartbeatLoop

variable (config : HeartbeatConfig)

/-- The first connection may fail. -/
def spawn (w : World) : HeartbeatLoop :=
  ⟨config.endpoint, if w.dial config.endpoint then some config.endpoint else none⟩

/-- The client of a tick, which may have to connect first. -/
def connected (h : HeartbeatLoop) (w : World) : Option String :=
  match h.client with
  | some e => some e
  | none => if w.dial h.endpoint then some h.endpoint else none

def send (w : World) (e : String) : Except ClientError Unit :=
  match w.reach e with
  | .ok member => Client.heartbeatNode (w.members member) config.nodeId w.now
  | .error status => .error (mapStatus status)

/-- What the loop makes of the answer. -/
def turn (h : HeartbeatLoop) (out : Except ClientError Unit) : HeartbeatLoop :=
  match out with
  | .ok _ => h
  | .error (.notLeader hint) =>
      match hint.bind fun leader => config.endpointFor.bind fun resolver => resolver leader with
      | some newEndpoint => if newEndpoint = h.endpoint then h else ⟨newEndpoint, none⟩
      | none => h
  | .error _ => { h with client := none }

/-- A tick, and whether its heartbeat got through. -/
def tick (h : HeartbeatLoop) (w : World) : HeartbeatLoop × Bool :=
  match h.connected w with
  | none => (h, false)
  | some e =>
      let out := send config w e
      (turn config { h with client := some e } out, out.isOk)

/-- The loop after the ticks. -/
def after (h : HeartbeatLoop) (ws : List World) : HeartbeatLoop :=
  Run.run (fun h w => (h.tick config w).1) h ws

/-- The ticks at which a heartbeat got through. -/
def ticks (h : HeartbeatLoop) : List World → List Bool
  | [] => []
  | w :: ws => (h.tick config w).2 :: ticks (h.tick config w).1 ws

end HeartbeatLoop

/-- The command of the heartbeat of a tick. -/
def beat (config : HeartbeatConfig) (w : World) : PdCommand := .heartbeatNode config.nodeId w.now

namespace HeartbeatLoop

variable {config : HeartbeatConfig} {h : HeartbeatLoop} {w : World} {e : String}

/-! ### A tick -/

/-- The call of the loop gets through when its command is taken, and names a leader when the library
forwards it. -/
theorem heartbeatNode_spec (hid : config.nodeId ≠ 0) (m : Member) :
    (Client.heartbeatNode m config.nodeId w.now).isOk = m.takes (beat config w) ∧
      ∀ hint, Client.heartbeatNode m config.nodeId w.now = .error (.notLeader hint) ↔
        m.clientWrite (beat config w) = .error (.forwardToLeader hint) := by
  unfold Member.takes beat
  simp only [Client.heartbeatNode, Service.heartbeatNode, if_neg hid, write, replicate]
  rcases m.clientWrite (.heartbeatNode config.nodeId w.now) with (leaderId | msg | msg) | resp
  · cases leaderId with
    | none => exact ⟨rfl, fun hint => ⟨fun h => by cases h; rfl, fun h => by cases h; rfl⟩⟩
    | some id => exact ⟨rfl, fun hint => ⟨fun h => by cases h; rfl, fun h => by cases h; rfl⟩⟩
  · exact ⟨rfl, fun hint => ⟨fun h => (by cases h), fun h => (by cases h)⟩⟩
  · exact ⟨rfl, fun hint => ⟨fun h => (by cases h), fun h => (by cases h)⟩⟩
  · cases resp with
    | ok => exact ⟨rfl, fun hint => ⟨fun h => (by cases h), fun h => (by cases h)⟩⟩
    | range stored => exact ⟨rfl, fun hint => ⟨fun h => (by cases h), fun h => (by cases h)⟩⟩
    | error msg => exact ⟨rfl, fun hint => ⟨fun h => (by cases h), fun h => (by cases h)⟩⟩

theorem send_isOk (hid : config.nodeId ≠ 0) :
    (send config w e).isOk = w.takenAt e (beat config w) := by
  unfold send World.takenAt
  cases w.reach e with
  | error status => rfl
  | ok member => exact (heartbeatNode_spec hid _).1

/-- A member that forwards the write sends the loop away with its hint, and no other does. -/
theorem send_away (hid : config.nodeId ≠ 0) {member : NodeId} (hreach : w.reach e = .ok member)
    (hint : Option NodeId) : send config w e = .error (.notLeader hint) ↔
      (w.members member).clientWrite (beat config w) = .error (.forwardToLeader hint) := by
  unfold send
  rw [hreach]
  exact (heartbeatNode_spec hid _).2 hint

/-- The client is connected to the endpoint of the loop, if to any. -/
def Tied (h : HeartbeatLoop) : Prop := ∀ e, h.client = some e → e = h.endpoint

theorem tied_spawn (config : HeartbeatConfig) (w : World) : (spawn config w).Tied := by
  intro e he
  unfold spawn at he
  split at he
  · exact (Option.some.inj he).symm
  · cases he

theorem tied_unconnected (e : String) : Tied ⟨e, none⟩ := by
  intro _ he
  cases he

theorem tied_turn (htied : h.Tied) (out : Except ClientError Unit) : (turn config h out).Tied := by
  unfold turn
  split
  · exact htied
  · split
    · split_ifs
      · exact htied
      · exact tied_unconnected _
    · exact htied
  · exact tied_unconnected _

/-- A tick either finds nobody to connect to or sends to the endpoint of the loop. -/
theorem tick_eq (config : HeartbeatConfig) (htied : h.Tied) (w : World) :
    (w.dial h.endpoint = false ∧ h.tick config w = (h, false)) ∨
      h.tick config w =
        (turn config ⟨h.endpoint, some h.endpoint⟩ (send config w h.endpoint),
          (send config w h.endpoint).isOk) := by
  cases hclient : h.client with
  | some e =>
      obtain rfl := htied e hclient
      exact .inr (by simp only [tick, connected, hclient])
  | none =>
      cases hdial : w.dial h.endpoint with
      | false => exact .inl ⟨rfl, by simp [tick, connected, hclient, hdial]⟩
      | true => exact .inr (by simp [tick, connected, hclient, hdial])

theorem tick_tied (htied : h.Tied) (w : World) : (h.tick config w).1.Tied := by
  rcases tick_eq config htied w with ⟨-, heq⟩ | heq
  · rw [heq]; exact htied
  · rw [heq]
    exact tied_turn (fun e he => (Option.some.inj he).symm) _

theorem tick_taken (hid : config.nodeId ≠ 0) (htied : h.Tied) (w : World) :
    (h.tick config w).2 = w.takenAt h.endpoint (beat config w) := by
  rcases tick_eq config htied w with ⟨hdial, heq⟩ | heq
  · rw [heq, World.takenAt]
    cases hreach : w.reach h.endpoint with
    | error status => rfl
    | ok member =>
        rw [w.reached_dials _ _ hreach] at hdial
        cases hdial
  · rw [heq, send_isOk hid]

theorem after_tied (htied : h.Tied) (ws : List World) : (h.after config ws).Tied := by
  have hstep : ∀ (h : HeartbeatLoop) (w : World), h.Tied → (h.tick config w).1.Tied :=
    fun _ w htied => tick_tied htied w
  exact Run.invariant hstep htied ws

/-! ### Without a resolver -/

theorem turn_endpoint_fixed (hfixed : config.endpointFor = none) (h : HeartbeatLoop)
    (out : Except ClientError Unit) : (turn config h out).endpoint = h.endpoint := by
  unfold turn
  split
  · rfl
  · next hint =>
      have hnowhere (leader : NodeId) :
          (config.endpointFor.bind fun resolver => resolver leader) = none := by rw [hfixed]; rfl
      simp only [hnowhere, Option.bind_fun_none]
  · rfl

theorem tick_endpoint_fixed (hfixed : config.endpointFor = none) (htied : h.Tied) (w : World) :
    (h.tick config w).1.endpoint = h.endpoint := by
  rcases tick_eq config htied w with ⟨-, heq⟩ | heq
  · rw [heq]
  · rw [heq, turn_endpoint_fixed hfixed]

theorem ticks_fixed (hfixed : config.endpointFor = none) (hid : config.nodeId ≠ 0)
    (htied : h.Tied) (ws : List World) :
    h.ticks config ws = ws.map fun w => w.takenAt h.endpoint (beat config w) := by
  induction ws generalizing h with
  | nil => rfl
  | cons w ws ih =>
      rw [ticks, tick_taken hid htied, ih (tick_tied htied w), tick_endpoint_fixed hfixed htied]
      rfl

end HeartbeatLoop

open HeartbeatLoop

/-- Without a resolver, whatever the ticks find, and whether connections and calls fail or not: a
heartbeat gets through at exactly the ticks at which a member is reached at the first endpoint and
its Raft library takes the command. -/
theorem heartbeat_fixed (config : HeartbeatConfig) (hfixed : config.endpointFor = none)
    (hid : config.nodeId ≠ 0) (w₀ : World) (ws : List World) :
    (spawn config w₀).ticks config ws = ws.map fun w =>
      w.takenAt config.endpoint (.heartbeatNode config.nodeId w.now) :=
  ticks_fixed hfixed hid (tied_spawn config w₀) ws

/-- Two members, each at an endpoint of its own, one of which leads. -/
def twoMembers (leader : NodeId) (now : UInt64) : World where
  dial := fun _ => true
  reach := fun e =>
    if e = "pd-1" then .ok 1 else if e = "pd-2" then .ok 2 else .error ⟨.unavailable, "", none⟩
  members := fun member =>
    ⟨fun _ => if member = leader then .ok .ok else .error (.forwardToLeader (some leader)), .new⟩
  now := now
  reached_dials := fun _ _ _ => rfl

/-- The lead passes to the other member, and the heartbeats stop. -/
theorem heartbeat_fixed_stops :
    (spawn ⟨7, "pd-1", none⟩ (twoMembers 1 0)).ticks ⟨7, "pd-1", none⟩
        [twoMembers 1 5, twoMembers 2 6, twoMembers 2 7] = [true, false, false] := by
  rw [heartbeat_fixed ⟨7, "pd-1", none⟩ rfl (by decide)]
  rfl

/-! ### With a resolver -/

/-- A leader that every other member forwards to, that forwards to nobody, and that is reached where
the book has it. -/
structure World.Settled (book : String → Option NodeId) (leader : NodeId) (w : World) : Prop where
  reached : ∀ e member, book e = some member → w.reach e = .ok member
  named : ∀ member, member ≠ leader → ∀ cmd,
    (w.members member).clientWrite cmd = .error (.forwardToLeader (some leader))
  leads : ∀ cmd hint, (w.members leader).clientWrite cmd ≠ .error (.forwardToLeader hint)

namespace HeartbeatLoop

variable {config : HeartbeatConfig} {h : HeartbeatLoop} {w : World}
  {book : String → Option NodeId} {leader : NodeId}

/-- The leader keeps the loop at its endpoint. -/
theorem tick_stays (hid : config.nodeId ≠ 0) (htied : h.Tied) (hw : w.Settled book leader)
    (he : book h.endpoint = some leader) : (h.tick config w).1.endpoint = h.endpoint := by
  rcases tick_eq config htied w with ⟨-, heq⟩ | heq
  · rw [heq]
  · rw [heq]
    unfold turn
    split
    · rfl
    · next hint hout =>
        exact absurd ((send_away hid (hw.reached _ _ he) hint).mp hout) (hw.leads _ hint)
    · rfl

/-- Another member sends the loop to the leader. -/
theorem tick_turns (hid : config.nodeId ≠ 0) (htied : h.Tied) (hw : w.Settled book leader)
    {member : NodeId} (he : book h.endpoint = some member) (hmember : member ≠ leader)
    {resolver : NodeId → Option String} (hresolver : config.endpointFor = some resolver)
    {e : String} (hresolve : resolver leader = some e) (hbook : book e = some leader) :
    (h.tick config w).1.endpoint = e := by
  have hreach := hw.reached _ _ he
  have hne : e ≠ h.endpoint := by
    rintro rfl
    exact hmember (Option.some.inj (he.symm.trans hbook))
  have haway : send config w h.endpoint = .error (.notLeader (some leader)) :=
    (send_away hid hreach _).mpr (hw.named member hmember _)
  rcases tick_eq config htied w with ⟨hdial, -⟩ | heq
  · rw [w.reached_dials _ _ hreach] at hdial
    cases hdial
  · rw [heq, haway]
    simp only [turn, hresolver, Option.bind_some, hresolve, if_neg hne]

/-- A loop that is at the leader's endpoint brings every heartbeat there. -/
theorem ticks_settled (hid : config.nodeId ≠ 0) (htied : h.Tied)
    (he : book h.endpoint = some leader) (ws : List World)
    (hws : ∀ w ∈ ws, w.Settled book leader) :
    h.ticks config ws = ws.map fun w => (w.members leader).takes (beat config w) := by
  induction ws generalizing h with
  | nil => rfl
  | cons w ws ih =>
      obtain ⟨hw, hws⟩ := List.forall_mem_cons.mp hws
      have hstays := tick_stays hid htied hw he
      rw [ticks, tick_taken hid htied, ih (tick_tied htied w) (hstays ▸ he) hws, World.takenAt,
        hw.reached _ _ he]
      rfl

end HeartbeatLoop

/-- With a resolver that knows the leader, whatever the loop has met before: once a leader is
settled and the loop is at the endpoint of any member, every tick but the first brings its heartbeat
to the leader, and it gets through when the Raft library there takes it. -/
theorem heartbeat_follows (config : HeartbeatConfig) (hid : config.nodeId ≠ 0)
    (resolver : NodeId → Option String) (hresolver : config.endpointFor = some resolver)
    (book : String → Option NodeId) (leader : NodeId) (e : String)
    (hresolve : resolver leader = some e) (hbook : book e = some leader)
    (w₀ : World) (earlier : List World) (w : World) (ws : List World)
    (hsettled : ∀ w' ∈ w :: ws, w'.Settled book leader) (member : NodeId)
    (hat : book ((spawn config w₀).after config earlier).endpoint = some member) :
    (((spawn config w₀).after config earlier).ticks config (w :: ws)).tail =
      ws.map fun w' => (w'.members leader).takes (.heartbeatNode config.nodeId w'.now) := by
  obtain ⟨hw, hws⟩ := List.forall_mem_cons.mp hsettled
  have htied : ((spawn config w₀).after config earlier).Tied :=
    after_tied (tied_spawn config w₀) earlier
  refine ticks_settled hid (tick_tied htied w) ?_ ws hws
  by_cases hmember : member = leader
  · subst hmember
    rw [tick_stays hid htied hw hat, hat]
  · rw [tick_turns hid htied hw hat hmember hresolver hresolve hbook, hbook]

/-- The lead passes to the other member, and the loop follows. -/
theorem heartbeat_follows_moves :
    let config : HeartbeatConfig :=
      ⟨7, "pd-1", some fun id => if id = 2 then some "pd-2" else none⟩
    (((spawn config (twoMembers 1 0)).after config [twoMembers 1 5]).ticks config
        [twoMembers 2 6, twoMembers 2 7, twoMembers 2 8]).tail = [true, true] := by
  intro config
  refine heartbeat_follows config (by decide) _ rfl
    (fun e => if e = "pd-1" then some 1 else if e = "pd-2" then some 2 else none) 2 "pd-2" rfl
    (by simp) (twoMembers 1 0) [twoMembers 1 5] (twoMembers 2 6) [twoMembers 2 7, twoMembers 2 8]
    ?_ 1 ?_
  · intro w hw
    have hsettled (now : UInt64) : (twoMembers 2 now).Settled
        (fun e => if e = "pd-1" then some 1 else if e = "pd-2" then some 2 else none) 2 :=
      { reached := fun e member he => by
          simp only [twoMembers]
          split_ifs at he ⊢ <;> simp_all
        named := fun member hmember _ => if_neg hmember
        leads := fun _ _ h => by cases h }
    simp only [List.mem_cons, List.not_mem_nil, or_false] at hw
    rcases hw with rfl | rfl | rfl <;> exact hsettled _
  · have hstays : ((spawn config (twoMembers 1 0)).after config [twoMembers 1 5]).endpoint =
        "pd-1" := by
      decide
    rw [hstays]
    rfl

end AresaDb.Pd.Admin
