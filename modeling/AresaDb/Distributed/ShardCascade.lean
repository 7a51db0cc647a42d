import AresaDb.Distributed.ShardListing
import AresaDb.Store.Edges

/-! # Deleting nodes over shards

An edge is stored with the shard of its source, entries of both indexes included, and the deletion
of a node goes through the shard of that node alone (`distributed/shard.rs`).  So an edge that
enters the node from a node of another shard is left.  An edge row that does not parse, or the row
of a deleted node that does not, makes an operation fail as it does in one store.

Each shard holds the live edges of its sources as long as every inserted edge parses and every
deleted node has live edges only from nodes of its own shard, and is read where it has any, and not
any longer: the answers are those of one store exactly along these runs (`cascade_exact_iff`). -/

namespace AresaDb.Distributed

open ByteOrder Store

/-- What an operation is for a store that is not sharded. -/
def ShardOp.toGraph : ShardOp → Option GraphOp
  | .insertNode node => some (.insertNode node)
  | .deleteNode id => some (.deleteNode id)
  | .insertEdge edge => some (.insertEdge edge)
  | .updateNode .. => none
  | .reopen => none

/-- The operations on the graph. -/
def graphOps (ops : List ShardOp) : List GraphOp := ops.filterMap ShardOp.toGraph

namespace ShardManager

def getEdgesFrom (xx : Bytes → UInt64) (m : ShardManager) (nodeId : NodeId)
    (edgeType : Option String) : Option (List Edge) :=
  (m.getShardForNode xx nodeId).storage.getEdgesFrom nodeId edgeType

/-- The shard that a configuration sends a node to. -/
def shardOf (xx : Bytes → UInt64) (config : ShardConfig) (id : NodeId) : ℕ :=
  (config.ring xx).getNode xx (uuidBytes id.uuid)

/-- Every query for the edges of a node gives the live ones, each once. -/
def AnswersLive (xx : Bytes → UInt64) (sip : Bytes → UInt64 × UInt64) (J : Serde)
    (config : ShardConfig) (ops : List ShardOp) : Prop :=
  ∀ n f, ∃ l, (after xx sip J config ops).getEdgesFrom xx n f = some l ∧ (l.map Edge.id).Nodup ∧
    ∀ e, e ∈ l ↔
      ∃ e₀, Live (graphOps ops) e₀ ∧ J.edge e₀ = e ∧ e₀.from_ = n ∧
        LocalStorage.typeAdmits f e₀ = true

/-- An edge is only inserted when it parses, and a node is only deleted when its live edges come
from nodes of its own shard, and when it has none or its row parses. -/
def Cascades (xx : Bytes → UInt64) (config : ShardConfig) (m : ShardManager) (live : Edge → Prop) :
    ShardOp → Prop
  | .insertEdge edge => edge.parses = true
  | .deleteNode id =>
      (∀ e, live e → e.to_ = id → shardOf xx config e.from_ = shardOf xx config id) ∧
        ((m.getShardForNode xx id).storage.nodes[id]?.all Node.parses = true ∨
          ∀ e, live e → ¬ (e.from_ = id ∨ e.to_ = id))
  | _ => True

/-- Every operation of a run cascades where it is made. -/
def CascadesLocally (xx : Bytes → UInt64) (sip : Bytes → UInt64 × UInt64) (J : Serde)
    (config : ShardConfig) (ops : List ShardOp) : Prop :=
  ∀ before op rest, ops = before ++ op :: rest →
    Cascades xx config (after xx sip J config before) (Live (graphOps before)) op

/-- Every shard has the live edges of the nodes that are sent to it, and their rows parse. -/
structure EdgesHeld (xx : Bytes → UInt64) (J : Serde) (config : ShardConfig) (used : EdgeId → Prop)
    (live : Edge → Prop) (m : ShardManager) : Prop where
  sameConfig : m.config = config
  ring : m.ring = config.ring xx
  shards : m.Each fun i s =>
    EdgesInv J used (fun e => live e ∧ shardOf xx config e.from_ = i) s ∧ EdgesParse s

section

variable {xx : Bytes → UInt64} {sip : Bytes → UInt64 × UInt64} {J : Serde} {config : ShardConfig}
  {used : EdgeId → Prop} {live : Edge → Prop} {m : ShardManager}

theorem EdgesHeld.route (h : EdgesHeld xx J config used live m) (id : NodeId) :
    m.route xx id = shardOf xx config id := by rw [ShardManager.route, h.ring, shardOf]

theorem edgesHeld_new (xx : Bytes → UInt64) (J : Serde) (config : ShardConfig) :
    EdgesHeld xx J config used (fun _ => False) (new xx config) := by
  refine ⟨rfl, rfl, each_new config fun i => ⟨?_, fun e row he => ?_⟩⟩
  · simp only [false_and]
    exact .create J used
  · simp [LocalStorage.create] at he

theorem EdgesHeld.getShardForNode (h : EdgesHeld xx J config used live m) (id : NodeId) :
    EdgesInv J used (fun e => live e ∧ shardOf xx config e.from_ = shardOf xx config id)
      (m.getShardForNode xx id).storage ∧ EdgesParse (m.getShardForNode xx id).storage := by
  rw [← h.route id]
  exact h.shards.getShardForNode id

/-- A shard changes, and the others have what they should have. -/
theorem EdgesHeld.setShard {used' : EdgeId → Prop} {live' : Edge → Prop}
    (h : EdgesHeld xx J config used live m) {id : NodeId} {shard : Shard}
    (hself : EdgesInv J used' (fun e => live' e ∧ shardOf xx config e.from_ = shardOf xx config id)
      shard.storage)
    (hparse : EdgesParse shard.storage)
    (hrest : ∀ i s, i ≠ shardOf xx config id →
      EdgesInv J used (fun e => live e ∧ shardOf xx config e.from_ = i) s →
        EdgesInv J used' (fun e => live' e ∧ shardOf xx config e.from_ = i) s) :
    EdgesHeld xx J config used' live' (m.setShard xx id shard) := by
  refine ⟨h.sameConfig, h.ring, h.shards.setShard ?_ ?_⟩
  · rw [h.route id]
    exact ⟨hself, hparse⟩
  · rw [h.route id]
    exact fun i s hi hs => ⟨hrest i s hi hs.1, hs.2⟩

/-- An operation of the graph on the shard of a node, that inserts and kills only edges of nodes of
that shard. -/
theorem EdgesHeld.graphStep (h : EdgesHeld xx J config used live m) (op : GraphOp) {id : NodeId}
    {shard : Shard} (hshard : shard.storage = op.run J (m.getShardForNode xx id).storage)
    (hreads : op.Reads (m.getShardForNode xx id).storage)
    (hnew : ∀ e ∈ op.inserted, ¬ used e.id) (hnodup : (op.inserted.map Edge.id).Nodup)
    (hinserted : ∀ e ∈ op.inserted, shardOf xx config e.from_ = shardOf xx config id)
    (hkilled : ∀ e, live e → op.Kills e → shardOf xx config e.from_ = shardOf xx config id) :
    EdgesHeld xx J config (fun i => used i ∨ i ∈ op.inserted.map Edge.id)
      (fun e => live e ∧ ¬ op.Kills e ∨ e ∈ op.inserted) (m.setShard xx id shard) := by
  obtain ⟨hinv, hparse⟩ := h.getShardForNode id
  obtain ⟨hstep, hstill⟩ := op.run_inv hinv hparse hreads hnew hnodup
  refine h.setShard ?_ (hshard ▸ hstill) fun i s hi hs => ?_
  · rw [hshard]
    refine hstep.congr (fun _ hused => hused) fun e => ?_
    constructor
    · rintro (⟨⟨hlive, hroute⟩, hkeep⟩ | hin)
      · exact ⟨.inl ⟨hlive, hkeep⟩, hroute⟩
      · exact ⟨.inr hin, hinserted e hin⟩
    · rintro ⟨⟨hlive, hkeep⟩ | hin, hroute⟩
      · exact .inl ⟨⟨hlive, hroute⟩, hkeep⟩
      · exact .inr hin
  · refine hs.congr (fun _ hused => .inl hused) fun e => ?_
    constructor
    · rintro ⟨hlive, rfl⟩
      exact ⟨.inl ⟨hlive, fun hkills => hi (hkilled e hlive hkills)⟩, rfl⟩
    · rintro ⟨⟨hlive, -⟩ | hin, hroute⟩
      · exact ⟨hlive, hroute⟩
      · exact absurd (hroute.symm.trans (hinserted e hin)) hi

/-- An operation that changes no edge table. -/
theorem EdgesHeld.setShard_of_edges_eq (h : EdgesHeld xx J config used live m) {id : NodeId}
    {shard : Shard} (he : shard.storage.edges = (m.getShardForNode xx id).storage.edges)
    (hf : shard.storage.edgeFromIndex = (m.getShardForNode xx id).storage.edgeFromIndex)
    (ht : shard.storage.edgeToIndex = (m.getShardForNode xx id).storage.edgeToIndex)
    (hty : shard.storage.edgeTypeIndex = (m.getShardForNode xx id).storage.edgeTypeIndex) :
    EdgesHeld xx J config used live (m.setShard xx id shard) := by
  obtain ⟨hinv, hparse⟩ := h.getShardForNode id
  refine h.setShard (hinv.of_edges_eq he hf ht hty) (fun i e hi => ?_) fun _ _ _ hs => hs
  rw [he] at hi
  exact hparse i e hi

theorem EdgesHeld.reopen (h : EdgesHeld xx J config used live m) :
    EdgesHeld xx J config used live (m.reopen xx) :=
  ⟨h.sameConfig, congrArg (ShardConfig.ring xx) h.sameConfig, h.shards.reopen⟩

theorem EdgesHeld.getEdgesFrom (h : EdgesHeld xx J config used live m) (n : NodeId)
    (f : Option String) :
    ∃ l, m.getEdgesFrom xx n f = some l ∧ (l.map Edge.id).Nodup ∧ ∀ e, e ∈ l ↔
      ∃ e₀, live e₀ ∧ J.edge e₀ = e ∧ e₀.from_ = n ∧ LocalStorage.typeAdmits f e₀ = true := by
  obtain ⟨hinv, hparse⟩ := h.getShardForNode n
  refine ⟨_, hparse.readEdges_eq _ f, ?_, fun e => ?_⟩
  · exact (hinv.nodup_edgeRows (Multimap.get_nodup _ _)).sublist (List.filter_sublist.map Edge.id)
  rw [List.mem_filter, hinv.mem_rowsFrom]
  constructor
  · rintro ⟨⟨e₀, hlive, rfl, hfrom⟩, hadmits⟩
    exact ⟨e₀, hlive.1, rfl, hfrom, hadmits⟩
  · rintro ⟨e₀, hlive, rfl, rfl, hadmits⟩
    exact ⟨⟨e₀, ⟨hlive, rfl⟩, rfl, rfl⟩, hadmits⟩

/-! ### Runs -/

theorem graphOps_concat (ops : List ShardOp) (op : ShardOp) :
    graphOps (ops ++ [op]) = graphOps ops ++ op.toGraph.toList := by
  rw [graphOps, graphOps, List.filterMap_append]
  cases hop : op.toGraph <;> simp [hop]

theorem cascadesLocally_concat {ops : List ShardOp} {op : ShardOp} :
    CascadesLocally xx sip J config (ops ++ [op]) ↔ CascadesLocally xx sip J config ops ∧
      Cascades xx config (after xx sip J config ops) (Live (graphOps ops)) op := by
  constructor
  · intro h
    refine ⟨fun before op' rest heq => h before op' (rest ++ [op]) ?_, h ops op [] rfl⟩
    rw [heq, List.append_assoc, List.cons_append]
  · rintro ⟨hops, hlast⟩ before op' rest heq
    obtain rfl | ⟨rest, last, rfl⟩ := List.eq_nil_or_concat rest
    · obtain ⟨rfl, hop⟩ := List.append_inj' heq rfl
      obtain rfl := List.singleton_inj.mp hop
      exact hlast
    · rw [List.concat_eq_append, ← List.cons_append, ← List.append_assoc] at heq
      exact hops before op' rest (List.append_inj' heq rfl).1

/-- One more operation of the graph, on the shard of a node. -/
theorem EdgesHeld.graphStep_concat {ops : List GraphOp} {op : GraphOp} {id : NodeId} {shard : Shard}
    (h : EdgesHeld xx J config (· ∈ insertedIds ops) (Live ops) m)
    (hfresh : (insertedIds (ops ++ [op])).Nodup)
    (hshard : shard.storage = op.run J (m.getShardForNode xx id).storage)
    (hreads : op.Reads (m.getShardForNode xx id).storage)
    (hinserted : ∀ e ∈ op.inserted, shardOf xx config e.from_ = shardOf xx config id)
    (hkilled : ∀ e, Live ops e → op.Kills e → shardOf xx config e.from_ = shardOf xx config id) :
    EdgesHeld xx J config (· ∈ insertedIds (ops ++ [op])) (Live (ops ++ [op]))
      (m.setShard xx id shard) := by
  rw [insertedIds_concat, List.nodup_append] at hfresh
  obtain ⟨-, hnodup, hdisjoint⟩ := hfresh
  have hheld := h.graphStep op hshard hreads
    (fun e he hin => hdisjoint e.id hin e.id (List.mem_map_of_mem he) rfl) hnodup hinserted hkilled
  have hlive : Live (ops ++ [op]) = fun e => Live ops e ∧ ¬ op.Kills e ∨ e ∈ op.inserted :=
    funext fun e => propext (live_concat _ op e)
  have hids : (· ∈ insertedIds (ops ++ [op])) =
      fun i => i ∈ insertedIds ops ∨ i ∈ op.inserted.map Edge.id := by
    funext i
    rw [insertedIds_concat, List.mem_append]
  rw [hlive, hids]
  exact hheld

/-- The deletion of a node fails, and no live edge is there to go. -/
theorem EdgesHeld.keep {ops : List GraphOp} {id : NodeId}
    (h : EdgesHeld xx J config (· ∈ insertedIds ops) (Live ops) m)
    (hnone : ∀ e, Live ops e → ¬ (e.from_ = id ∨ e.to_ = id)) :
    EdgesHeld xx J config (· ∈ insertedIds (ops ++ [.deleteNode id]))
      (Live (ops ++ [.deleteNode id])) m := by
  have hlive : Live (ops ++ [.deleteNode id]) = Live ops := by
    funext e
    refine propext ((live_concat ops _ e).trans ⟨?_, fun hlive => .inl ⟨hlive, hnone e hlive⟩⟩)
    rintro (⟨hlive, -⟩ | hin)
    · exact hlive
    · exact (List.not_mem_nil hin).elim
  have hids : insertedIds (ops ++ [.deleteNode id]) = insertedIds ops := by
    rw [insertedIds_concat]
    exact List.append_nil _
  rw [hlive, hids]
  exact h

/-- One more operation. -/
theorem EdgesHeld.step {ops : List ShardOp} {op : ShardOp}
    (h : EdgesHeld xx J config (· ∈ insertedIds (graphOps ops)) (Live (graphOps ops)) m)
    (hfresh : (insertedIds (graphOps (ops ++ [op]))).Nodup)
    (hop : Cascades xx config m (Live (graphOps ops)) op) :
    EdgesHeld xx J config (· ∈ insertedIds (graphOps (ops ++ [op])))
      (Live (graphOps (ops ++ [op]))) (m.step xx sip J op) := by
  rw [graphOps_concat] at hfresh ⊢
  cases op with
  | insertNode node =>
      exact h.graphStep_concat hfresh rfl trivial (List.forall_mem_nil _)
        fun e _ hkills => hkills.elim
  | deleteNode id =>
      obtain ⟨hlocal, hread⟩ := hop
      by_cases hrow : (m.getShardForNode xx id).storage.nodes[id]?.all Node.parses = true
      · rw [ShardManager.step, ShardManager.deleteNode, LocalStorage.deleteNode, if_pos hrow]
        refine h.graphStep_concat hfresh ?_ (.inl hrow) (List.forall_mem_nil _)
          fun e hlive hkills => ?_
        · rw [GraphOp.run, LocalStorage.deleteNode, if_pos hrow, Option.getD_some]
        · obtain hfrom | hto := hkills
          · rw [hfrom]
          · exact hlocal e hlive hto
      · rw [ShardManager.step, ShardManager.deleteNode, LocalStorage.deleteNode, if_neg hrow]
        exact h.keep (hread.resolve_left hrow)
  | insertEdge edge =>
      exact h.graphStep_concat hfresh rfl hop (List.forall_mem_singleton.mpr rfl) fun e _ hkills =>
        hkills.elim
  | updateNode now id properties =>
      have hnone : ShardOp.toGraph (.updateNode now id properties) = none := rfl
      rw [hnone, Option.toList_none, List.append_nil, ShardManager.step, ShardManager.updateNode]
      cases hupdate : (m.getShardForNode xx id).storage.updateNode J now id properties with
      | none => exact h
      | some s' =>
          obtain ⟨node, -, rfl⟩ := Option.map_eq_some_iff.mp hupdate
          exact h.setShard_of_edges_eq rfl rfl rfl rfl
  | reopen =>
      have hnone : ShardOp.toGraph .reopen = none := rfl
      rw [hnone, Option.toList_none, List.append_nil]
      exact h.reopen

theorem edgesHeld_after {ops : List ShardOp} (hfresh : (insertedIds (graphOps ops)).Nodup)
    (hlocal : CascadesLocally xx sip J config ops) :
    EdgesHeld xx J config (· ∈ insertedIds (graphOps ops)) (Live (graphOps ops))
      (after xx sip J config ops) := by
  induction ops using List.reverseRecOn with
  | nil =>
      have hlive : Live (graphOps []) = fun _ => False :=
        funext fun e => eq_false (not_live_nil e)
      rw [hlive]
      exact edgesHeld_new xx J config
  | append_singleton ops op ih =>
      obtain ⟨hops, hlast⟩ := cascadesLocally_concat.mp hlocal
      have hpast := hfresh
      rw [graphOps_concat, insertedIds, List.flatMap_append, List.map_append] at hpast
      rw [after, Run.run_concat]
      exact (ih hpast.of_append_left hops).step hfresh hlast

theorem fresh_upto {ops p : List ShardOp} (hfresh : (insertedIds (graphOps ops)).Nodup)
    (hp : p <+: ops) : (insertedIds (graphOps p)).Nodup := by
  obtain ⟨rest, rfl⟩ := hp
  rw [graphOps, List.filterMap_append, insertedIds, List.flatMap_append, List.map_append] at hfresh
  exact hfresh.of_append_left

theorem CascadesLocally.upto {ops p : List ShardOp} (h : CascadesLocally xx sip J config ops)
    (hp : p <+: ops) : CascadesLocally xx sip J config p := by
  obtain ⟨rest, rfl⟩ := hp
  intro before op after heq
  exact h before op (after ++ rest) (by rw [heq, List.append_assoc, List.cons_append])

/-! ### Answers that go wrong -/

/-- What is live is read, so its row parses. -/
theorem AnswersLive.parses {ops : List ShardOp} (h : AnswersLive xx sip J config ops) {e : Edge}
    (hlive : Live (graphOps ops) e) : e.parses = true := by
  obtain ⟨l, hl, -, hmem⟩ := h e.from_ none
  have hin : J.edge e ∈ l := (hmem _).mpr ⟨e, hlive, rfl, rfl, rfl⟩
  exact (J.parses_edge e).symm.trans (parses_of_readEdges hl _ hin)

/-- Where the edges of a node are still found after the deletion of a node, they are not at that
node. -/
theorem AnswersLive.not_killed {ops : List ShardOp} {id : NodeId} {e : Edge}
    (hheld : EdgesHeld xx J config used (Live (graphOps ops)) (after xx sip J config ops))
    (h : AnswersLive xx sip J config (ops ++ [.deleteNode id]))
    (hsame : ((after xx sip J config ops).step xx sip J (.deleteNode id)).getEdgesFrom xx
      e.from_ none = (after xx sip J config ops).getEdgesFrom xx e.from_ none)
    (hlive : Live (graphOps ops) e) : ¬ (e.from_ = id ∨ e.to_ = id) := by
  intro hends
  obtain ⟨l, hl, -, hmem⟩ := hheld.getEdgesFrom e.from_ none
  obtain ⟨l', hl', -, hmem'⟩ := h e.from_ none
  rw [after, Run.run_concat] at hl'
  obtain rfl := Option.some.inj (hl.symm.trans (hsame.symm.trans hl'))
  obtain ⟨e₀, hlive₀, heq, -⟩ := (hmem' _).mp ((hmem _).mpr ⟨e, hlive, rfl, rfl, rfl⟩)
  rw [graphOps_concat] at hlive₀
  obtain ⟨-, hkeep⟩ | hin := (live_concat _ _ e₀).mp hlive₀
  · rw [← J.edge_from e, ← J.edge_to e, ← heq] at hends
    exact hkeep hends
  · exact (List.not_mem_nil hin).elim

/-- The deletion of a node leaves the edges of the nodes of other shards. -/
theorem getEdgesFrom_deleteNode {id n : NodeId} (hroute : m.route xx id ≠ m.route xx n)
    (f : Option String) : (m.step xx sip J (.deleteNode id)).getEdgesFrom xx n f =
      m.getEdgesFrom xx n f := by
  rw [ShardManager.step, ShardManager.deleteNode]
  cases (m.getShardForNode xx id).storage.deleteNode id with
  | none => rfl
  | some storage =>
      rw [Option.map_some, Option.getD_some, ShardManager.getEdgesFrom, getShardForNode_setShard,
        if_neg hroute]
      rfl

/-- Right answers after an operation show that it cascaded. -/
theorem EdgesHeld.cascades {ops : List ShardOp} {op : ShardOp}
    (hheld : EdgesHeld xx J config used (Live (graphOps ops)) (after xx sip J config ops))
    (h : AnswersLive xx sip J config (ops ++ [op])) :
    Cascades xx config (after xx sip J config ops) (Live (graphOps ops)) op := by
  cases op with
  | insertEdge edge =>
      refine h.parses ?_
      rw [graphOps_concat]
      exact (live_concat _ _ _).mpr (.inr (List.mem_singleton_self edge))
  | deleteNode id =>
      refine ⟨fun e hlive hto => ?_, or_iff_not_imp_left.mpr fun hrow e hlive => ?_⟩
      · by_contra hroute
        refine AnswersLive.not_killed hheld h (getEdgesFrom_deleteNode ?_ none) hlive (.inr hto)
        rw [hheld.route, hheld.route]
        exact Ne.symm hroute
      · refine AnswersLive.not_killed hheld h ?_ hlive
        rw [ShardManager.step, ShardManager.deleteNode, LocalStorage.deleteNode, if_neg hrow]
        rfl
  | insertNode node => trivial
  | updateNode now id properties => trivial
  | reopen => trivial

/-- Right answers throughout a run show that every operation cascaded. -/
theorem cascadesLocally_of_answers {ops : List ShardOp}
    (hfresh : (insertedIds (graphOps ops)).Nodup)
    (h : ∀ p, p <+: ops → AnswersLive xx sip J config p) : CascadesLocally xx sip J config ops := by
  induction ops using List.reverseRecOn with
  | nil =>
      intro before op rest heq
      simp at heq
  | append_singleton ops op ih =>
      have hops : ops <+: ops ++ [op] := List.prefix_append ops [op]
      have hpast := ih (fresh_upto hfresh hops) fun p hp => h p (hp.trans hops)
      have hheld : EdgesHeld xx J config _ _ (after xx sip J config ops) :=
        edgesHeld_after (fresh_upto hfresh hops) hpast
      exact cascadesLocally_concat.mpr ⟨hpast, hheld.cascades (h _ List.prefix_rfl)⟩

end

/-- The edges of nodes are the live ones after every beginning of a run, if and only if every
inserted edge parses, and every node that is deleted has live edges only from nodes of its own shard
and, where it has live edges, a row that parses. -/
theorem cascade_exact_iff (xx : Bytes → UInt64) (sip : Bytes → UInt64 × UInt64) (J : Serde)
    (config : ShardConfig) (ops : List ShardOp) (hfresh : (insertedIds (graphOps ops)).Nodup) :
    (∀ p, p <+: ops → AnswersLive xx sip J config p) ↔ CascadesLocally xx sip J config ops := by
  refine ⟨cascadesLocally_of_answers hfresh, fun h p hp => ?_⟩
  have hheld : EdgesHeld xx J config _ _ (after xx sip J config p) :=
    edgesHeld_after (fresh_upto hfresh hp) (h.upto hp)
  exact hheld.getEdgesFrom

/-- A hash function that sends the first of two nodes to one shard and the second to another. -/
def byteHash (item : Bytes) : UInt64 :=
  .ofNat (item.getD (if item.length = 16 then 15 else 5) 0).toNat

def sampleEdge : Edge := ⟨⟨3⟩, ⟨1⟩, ⟨49⟩, "follows", ∅, 0⟩

/-- Two nodes with an edge between them; the second one is deleted. -/
def acrossShards : List ShardOp :=
  [.insertNode { sampleNode with id := ⟨1⟩ }, .insertNode { sampleNode with id := ⟨49⟩ },
    .insertEdge sampleEdge, .deleteNode ⟨49⟩]

theorem cascade_exact_iff_sample :
    (∀ p, p <+: acrossShards → AnswersLive lengthHash pairHash plainJson ⟨2, 1, by decide⟩ p) ↔
      CascadesLocally lengthHash pairHash plainJson ⟨2, 1, by decide⟩ acrossShards :=
  cascade_exact_iff lengthHash pairHash plainJson ⟨2, 1, by decide⟩ acrossShards (by decide)

/-- The edge to the deleted node is still found. -/
theorem edge_left_over :
    ¬ ∀ p, p <+: acrossShards → AnswersLive byteHash pairHash plainJson ⟨2, 1, by decide⟩ p := by
  intro h
  have hlocal : CascadesLocally byteHash pairHash plainJson ⟨2, 1, by decide⟩ acrossShards :=
    cascadesLocally_of_answers (by decide) h
  have hlast := hlocal
    [.insertNode { sampleNode with id := ⟨1⟩ }, .insertNode { sampleNode with id := ⟨49⟩ },
      .insertEdge sampleEdge] (.deleteNode ⟨49⟩) [] rfl
  have hroute := hlast.1 sampleEdge
    ⟨[.insertNode { sampleNode with id := ⟨1⟩ }, .insertNode { sampleNode with id := ⟨49⟩ }],
      .insertEdge sampleEdge, [], rfl, List.mem_singleton_self _, by simp⟩ rfl
  revert hroute
  decide +kernel

end ShardManager

end AresaDb.Distributed
