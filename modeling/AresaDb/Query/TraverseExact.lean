import AresaDb.Query.Traversal

/-! # What a traversal returns

A traversal is a breadth-first search whose entries are ids with depths.  The variables of the loop
follow the entries that the search has marked (`Mirrors`), so that in the end the nodes are those
within the depth, and the edges and the adjacency those of the ids below it (`traverse_exact`). -/

namespace AresaDb.Query

open AresaDb.Store BreadthFirst

section

variable (edges : OrdMap EdgeId Edge) (maxDepth : ℕ) (edgeTypes : Option (List String))

/-- The edges of an id that are followed. -/
def allowed (id : NodeId) : List Edge := (outgoing edges id).filter (typesAdmit edgeTypes)

/-- The search from ids with depths; at the greatest depth nothing is followed. -/
def traversalSearch : Search (NodeId × ℕ) String where
  key e := e.1.display
  next e :=
    if maxDepth ≤ e.2 then [] else (allowed edges edgeTypes e.1).map fun edge => (edge.to_, e.2 + 1)
  drops _ := false

/-- The variables of a traversal follow the marked entries. -/
structure Mirrors (nodes : OrdMap NodeId Node) (marked : List (NodeId × ℕ)) (t : Traversal) :
    Prop where
  visitedIds : t.visitedIds = (marked.map fun e => e.1.display).reverse
  visitedNodes : ∀ (k : String) (n : Node), t.visitedNodes[k]? = some n ↔
    ∃ e ∈ marked, e.1.display = k ∧ nodes[e.1]? = some n
  allEdges : t.allEdges =
    marked.flatMap fun e => if maxDepth ≤ e.2 then [] else allowed edges edgeTypes e.1
  adjacency : ∀ (k : String) (l : List String), t.adjacency[k]? = some l ↔
    ∃ e ∈ marked, e.2 < maxDepth ∧ e.1.display = k ∧
      l = (allowed edges edgeTypes e.1).map fun edge => edge.to_.display

/-- What a traversal from a node with an id is to return. -/
structure ExactTraversal (nodes : OrdMap NodeId Node) (rootId : NodeId) (r : TraversalResult) :
    Prop where
  root : nodes[rootId]? = some r.root
  depth : r.depth = maxDepth
  nodup_nodes : (r.nodes.map Node.id).Nodup
  mem_nodes : ∀ n, n ∈ r.nodes ↔ nodes[n.id]? = some n ∧
    ∃ d ≤ maxDepth, Walk (Joins edges edgeTypes) d rootId n.id
  nodup_edges : (r.edges.map Edge.id).Nodup
  mem_edges : ∀ e, e ∈ r.edges ↔ edges[e.id]? = some e ∧ typesAdmit edgeTypes e = true ∧
    ∃ d < maxDepth, Walk (Joins edges edgeTypes) d rootId e.from_
  adjacency : ∀ (k : String) (l : List String), r.adjacency[k]? = some l ↔
    ∃ id, id.display = k ∧ (∃ d < maxDepth, Walk (Joins edges edgeTypes) d rootId id) ∧
      l = (allowed edges edgeTypes id).map fun e => e.to_.display

end

section

variable {F : JsonFormat} {T : UuidText} {J : Serde} {used : EdgeId → Prop}
  {nodes : OrdMap NodeId Node} {edges : OrdMap EdgeId Edge} {s : TieredStorage} {maxDepth : ℕ}
  {edgeTypes : Option (List String)} {marked : List (NodeId × ℕ)} {t : Traversal}

theorem traversalSearch_next {e e' : NodeId × ℕ} :
    e' ∈ (traversalSearch edges maxDepth edgeTypes).next e ↔
      e.2 < maxDepth ∧ Joins edges edgeTypes e.1 e'.1 ∧ e'.2 = e.2 + 1 := by
  obtain ⟨b, d'⟩ := e'
  simp only [traversalSearch, Joins, allowed]
  split_ifs with hdepth
  · exact iff_of_false List.not_mem_nil fun h => absurd h.1 (not_lt.mpr hdepth)
  · simp only [List.mem_map, List.mem_filter, Prod.mk.injEq]
    constructor
    · rintro ⟨edge, ⟨hedge, hadmit⟩, rfl, rfl⟩
      exact ⟨not_le.mp hdepth, ⟨edge, hedge, hadmit, rfl⟩, rfl⟩
    · rintro ⟨-, ⟨edge, hedge, hadmit, rfl⟩, rfl⟩
      exact ⟨edge, ⟨hedge, hadmit⟩, rfl, rfl⟩

theorem traversalSearch_ranked :
    (traversalSearch edges maxDepth edgeTypes).Ranked (Prod.snd : NodeId × ℕ → ℕ) where
  grows e e' he' := by
    obtain ⟨-, -, hd⟩ := traversalSearch_next.mp he'
    omega
  mono a b hab a' ha' b' hb' := by
    obtain ⟨-, -, ha⟩ := traversalSearch_next.mp ha'
    obtain ⟨-, -, hb⟩ := traversalSearch_next.mp hb'
    omega
  follows a b hkey hab b' hb' := by
    obtain ⟨hlt, hjoins, hb⟩ := traversalSearch_next.mp hb'
    have hid : a.1 = b.1 := NodeId.display_injective hkey
    have hmem : (b'.1, a.2 + 1) ∈ (traversalSearch edges maxDepth edgeTypes).next a :=
      traversalSearch_next.mpr ⟨by omega, hid ▸ hjoins, rfl⟩
    refine ⟨_, hmem, rfl, ?_⟩
    dsimp only
    omega
  drops _ _ _ _ h := h

/-- The entries that a root leads to are the walks from it within the depth. -/
theorem traversalSearch_reached {rootId : NodeId} {e : NodeId × ℕ} :
    (traversalSearch edges maxDepth edgeTypes).Reached [(rootId, 0)] e ↔
      e.2 ≤ maxDepth ∧ Walk (Joins edges edgeTypes) e.2 rootId e.1 := by
  constructor
  · intro h
    induction h with
    | start he =>
        obtain rfl := List.mem_singleton.mp he
        exact ⟨Nat.zero_le _, .nil _⟩
    | @next e e' _ _ he' ih =>
        obtain ⟨hlt, hjoins, hd⟩ := traversalSearch_next.mp he'
        rw [hd]
        exact ⟨hlt, .snoc ih.2 hjoins⟩
  · obtain ⟨id, d⟩ := e
    rintro ⟨hle, hwalk⟩
    dsimp only at hle hwalk
    induction d generalizing id with
    | zero =>
        obtain rfl := Walk.zero_iff.mp hwalk
        exact .start List.mem_cons_self
    | succ d ih =>
        obtain ⟨a, hwalk, hjoins⟩ := Walk.succ_iff.mp hwalk
        refine .next (ih a (by omega) hwalk) rfl (traversalSearch_next.mpr ⟨?_, hjoins, rfl⟩)
        dsimp only
        omega

theorem traversalSearch_arcs (maxDepth : ℕ) (edgeTypes : Option (List String))
    (h : KeepsGraph J used nodes edges s) (e : NodeId × ℕ) :
    ((traversalSearch edges maxDepth edgeTypes).next e).length ≤
      (arcs s.local_.edgeFromIndex).count e.1.display := by
  simp only [traversalSearch]
  split_ifs
  · exact Nat.zero_le _
  · rw [List.length_map, allowed, ← length_get_eq_count]
    exact (List.length_filter_le _ _).trans (h.length_outgoing_le _)

/-! ### The loop -/

theorem Mirrors.mem_visitedIds (h : Mirrors edges maxDepth edgeTypes nodes marked t)
    (e : NodeId × ℕ) :
    (traversalSearch edges maxDepth edgeTypes).key e ∈
      marked.map (traversalSearch edges maxDepth edgeTypes).key ↔ e.1.display ∈ t.visitedIds := by
  rw [h.visitedIds, List.mem_reverse]
  rfl

/-- The queue plays no part. -/
theorem Mirrors.of_queue (h : Mirrors edges maxDepth edgeTypes nodes marked t)
    (queue : List (NodeId × ℕ)) :
    Mirrors edges maxDepth edgeTypes nodes marked { t with queue := queue } :=
  ⟨h.visitedIds, h.visitedNodes, h.allEdges, h.adjacency⟩

theorem exists_mem_concat {β : Type} {l : List β} {x : β} {p : β → Prop} :
    (∃ e ∈ l ++ [x], p e) ↔ (∃ e ∈ l, p e) ∨ p x := by
  simp [or_and_right, exists_or]

/-- An id is marked, with its node, its edges and where they lead. -/
theorem Mirrors.mark (h : Mirrors edges maxDepth edgeTypes nodes marked t) (id : NodeId) (depth : ℕ)
    (queue : List (NodeId × ℕ)) :
    Mirrors edges maxDepth edgeTypes nodes (marked ++ [(id, depth)])
      { queue := queue
        visitedIds := id.display :: t.visitedIds
        visitedNodes :=
          match nodes[id]? with
          | some node => t.visitedNodes.insert id.display node
          | none => t.visitedNodes
        allEdges := t.allEdges ++ if maxDepth ≤ depth then [] else allowed edges edgeTypes id
        adjacency :=
          if maxDepth ≤ depth then t.adjacency
          else t.adjacency.insert id.display
            ((allowed edges edgeTypes id).map fun edge => edge.to_.display) } where
  visitedIds := by
    rw [h.visitedIds, List.map_append, List.reverse_append]
    rfl
  visitedNodes k n := by
    rw [exists_mem_concat, ← h.visitedNodes]
    cases hnode : nodes[id]? with
    | none => simp
    | some node =>
        dsimp only
        rw [OrdMap.get_insert]
        split_ifs with hk
        · subst hk
          have hold : t.visitedNodes[id.display]? = some n → node = n := by
            intro hget
            obtain ⟨e, -, hke, hn⟩ := (h.visitedNodes _ _).mp hget
            rw [NodeId.display_injective hke, hnode] at hn
            exact Option.some.inj hn
          constructor
          · exact fun heq => .inr ⟨rfl, heq⟩
          · rintro (hget | ⟨-, heq⟩)
            · rw [hold hget]
            · exact heq
        · simp [hk]
  allEdges := by rw [h.allEdges, List.flatMap_append, List.flatMap_singleton]
  adjacency k l := by
    rw [exists_mem_concat, ← h.adjacency]
    split_ifs with hdepth
    · simp [not_lt.mpr hdepth]
    · rw [OrdMap.get_insert]
      split_ifs with hk
      · subst hk
        have hold : t.adjacency[id.display]? = some l →
            l = (allowed edges edgeTypes id).map fun edge => edge.to_.display := by
          intro hget
          obtain ⟨e, -, -, hke, hl⟩ := (h.adjacency _ _).mp hget
          rw [hl, NodeId.display_injective hke]
        constructor
        · rintro ⟨⟩
          exact .inr ⟨not_le.mp hdepth, rfl, rfl⟩
        · rintro (hget | ⟨-, -, hl⟩)
          · rw [hold hget]
          · rw [hl]
      · simp [hk]

/-- One round is one round of the search. -/
theorem Mirrors.round (h : KeepsGraph J used nodes edges s)
    (hf : Mirrors edges maxDepth edgeTypes nodes marked t) (id : NodeId) (depth : ℕ)
    (rest : List (NodeId × ℕ)) :
    ∃ t' s', t.round F T maxDepth edgeTypes s id depth rest = some (t', s') ∧
      s'.local_ = s.local_ ∧ KeepsGraph J used nodes edges s' ∧
      t'.queue = ((traversalSearch edges maxDepth edgeTypes).visit marked (id, depth) rest).queue ∧
      Mirrors edges maxDepth edgeTypes nodes
        ((traversalSearch edges maxDepth edgeTypes).visit marked (id, depth) rest).marked t' := by
  have hmem := hf.mem_visitedIds (id, depth)
  unfold Traversal.round
  dsimp only
  by_cases hkey : id.display ∈ t.visitedIds
  · rw [if_pos hkey, Search.visit_pass (.inl (hmem.mpr hkey))]
    exact ⟨_, s, rfl, rfl, h, rfl, hf.of_queue rest⟩
  · rw [if_neg hkey, Search.visit_mark (mt hmem.mp hkey) rfl]
    have hparse : NodeId.parse T id.display = some id := NodeId.parse_display T id
    obtain ⟨s', hnode, hlocal, hs'⟩ := h.getNode (F := F) hparse
    have hmark := hf.mark id depth
    rw [hnode, Option.bind_eq_bind, Option.bind_some]
    dsimp only
    split_ifs with hdepth
    · simp only [if_pos hdepth, List.append_nil] at hmark
      refine ⟨_, s', rfl, hlocal, hs', ?_, hmark rest⟩
      simp only [traversalSearch, if_pos hdepth, List.filter_nil, List.append_nil]
    · simp only [if_neg hdepth] at hmark
      rw [hs'.getEdgesFrom hparse, Option.bind_eq_bind, Option.bind_some]
      refine ⟨_, s', rfl, hlocal, hs', ?_, hmark _⟩
      simp only [traversalSearch, if_neg hdepth, List.filter_map]
      refine congrArg (rest ++ List.map _ ·) (List.filter_congr fun edge _ => ?_)
      refine decide_eq_decide.mpr (not_congr ?_)
      rw [hf.visitedIds, List.map_append]
      simp only [List.mem_cons, List.mem_reverse, List.mem_append, List.map_cons, List.map_nil,
        List.not_mem_nil, or_false]
      exact or_comm

/-- The rounds until the queue is empty are those of the search. -/
theorem Mirrors.loop {starts before : List (NodeId × ℕ)} {f : Frontier (NodeId × ℕ)}
    (hinv : (traversalSearch edges maxDepth edgeTypes).Inv Prod.snd starts before f) {fuel : ℕ}
    (h : KeepsGraph J used nodes edges s)
    (hcost : (traversalSearch edges maxDepth edgeTypes).cost (arcs s.local_.edgeFromIndex) f < fuel)
    (hf : Mirrors edges maxDepth edgeTypes nodes f.marked t) (hqueue : t.queue = f.queue) :
    ∃ t' s' marked, traverseLoop F T maxDepth edgeTypes fuel s t = some (t', s') ∧
      KeepsGraph J used nodes edges s' ∧ Mirrors edges maxDepth edgeTypes nodes marked t' ∧
      (traversalSearch edges maxDepth edgeTypes).Inv Prod.snd starts before ⟨[], marked⟩ := by
  have harcs := traversalSearch_arcs maxDepth edgeTypes h
  refine hinv.induction traversalSearch_ranked harcs (motive := fun fuel f => ∀ s t,
    KeepsGraph J used nodes edges s → Mirrors edges maxDepth edgeTypes nodes f.marked t →
      t.queue = f.queue → ∃ t' s' marked,
        traverseLoop F T maxDepth edgeTypes fuel s t = some (t', s') ∧
        KeepsGraph J used nodes edges s' ∧ Mirrors edges maxDepth edgeTypes nodes marked t' ∧
        (traversalSearch edges maxDepth edgeTypes).Inv Prod.snd starts before ⟨[], marked⟩)
    ?_ ?_ hcost s t h hf hqueue
  · intro fuel marked hinv s t h hf hqueue
    exact ⟨t, s, marked, by rw [traverseLoop, hqueue], h, hf, hinv⟩
  · intro fuel marked e rest _ ih s t h hf hqueue
    obtain ⟨t', s', hround, -, hs', hqueue', hf'⟩ := hf.round h (F := F) (T := T) e.1 e.2 rest
    obtain ⟨t'', s'', marked', hloop, hrest⟩ := ih s' t' hs' hf' hqueue'
    refine ⟨t'', s'', marked', ?_, hrest⟩
    rw [traverseLoop, hqueue]
    dsimp only
    rw [hround, Option.bind_eq_bind, Option.bind_some]
    exact hloop

/-! ### What is returned -/

theorem nodup_allowed (h : KeepsGraph J used nodes edges s) (edgeTypes : Option (List String))
    (id : NodeId) : ((allowed edges edgeTypes id).map Edge.id).Nodup := by
  have hvalues : (edges.values.map Edge.id).Nodup := by
    refine edges.nodup_values_map fun i i' e e' hi hi' heq => ?_
    rw [← h.edge_id i e hi, heq, h.edge_id i' e' hi']
  exact hvalues.sublist ((List.filter_sublist.trans List.filter_sublist).map Edge.id)

theorem mem_allowed (h : KeepsGraph J used nodes edges s) {id : NodeId} {e : Edge} :
    e ∈ allowed edges edgeTypes id ↔
      (edges[e.id]? = some e ∧ e.from_ = id) ∧ typesAdmit edgeTypes e = true := by
  rw [allowed, List.mem_filter, mem_outgoing h.edge_id]

/-- When nothing waits, the ids with a walk within the depth are marked, at no greater depth. -/
theorem marked_of_walk {rootId : NodeId}
    (hinv : (traversalSearch edges maxDepth edgeTypes).Inv Prod.snd [(rootId, 0)] [] ⟨[], marked⟩)
    {d : ℕ} {id : NodeId} (hd : d ≤ maxDepth) (hwalk : Walk (Joins edges edgeTypes) d rootId id) :
    ∃ d' ≤ d, (id, d') ∈ marked := by
  have hreached := traversalSearch_reached (e := (id, d)).mpr ⟨hd, hwalk⟩
  obtain ⟨⟨id', d'⟩, hmem, hkey, hle⟩ := hinv.complete traversalSearch_ranked rfl hreached rfl
  obtain rfl : id' = id := NodeId.display_injective hkey
  exact ⟨d', hle, hmem⟩

theorem walk_of_marked {rootId : NodeId} {queue : List (NodeId × ℕ)}
    (hinv : (traversalSearch edges maxDepth edgeTypes).Inv Prod.snd [(rootId, 0)] []
      ⟨queue, marked⟩) {e : NodeId × ℕ} (he : e ∈ marked) :
    e.2 ≤ maxDepth ∧ Walk (Joins edges edgeTypes) e.2 rootId e.1 := by
  obtain hbefore | ⟨hreached, -⟩ := hinv.sound e he
  · cases hbefore
  · exact traversalSearch_reached.mp hreached

/-- What the variables hold when nothing waits is what is to be returned. -/
theorem Mirrors.exact (h : KeepsGraph J used nodes edges s) {rootId : NodeId} {root : Node}
    (hroot : nodes[rootId]? = some root)
    (hf : Mirrors edges maxDepth edgeTypes nodes marked t)
    (hinv : (traversalSearch edges maxDepth edgeTypes).Inv Prod.snd [(rootId, 0)] [] ⟨[], marked⟩) :
    ExactTraversal edges maxDepth edgeTypes nodes rootId
      ⟨root, t.visitedNodes.values, t.allEdges, maxDepth, t.adjacency⟩ where
  root := hroot
  depth := rfl
  nodup_nodes := by
    refine t.visitedNodes.nodup_values_map fun k k' n n' hn hn' heq => ?_
    obtain ⟨e, -, rfl, he⟩ := (hf.visitedNodes k n).mp hn
    obtain ⟨e', -, rfl, he'⟩ := (hf.visitedNodes k' n').mp hn'
    rw [← h.node_id he, ← h.node_id he', heq]
  mem_nodes n := by
    rw [OrdMap.mem_values]
    constructor
    · rintro ⟨k, hk⟩
      obtain ⟨e, he, rfl, hn⟩ := (hf.visitedNodes k n).mp hk
      obtain ⟨hle, hwalk⟩ := walk_of_marked hinv he
      rw [h.node_id hn]
      exact ⟨hn, e.2, hle, hwalk⟩
    · rintro ⟨hn, d, hd, hwalk⟩
      obtain ⟨d', -, hmem⟩ := marked_of_walk hinv hd hwalk
      exact ⟨n.id.display, (hf.visitedNodes _ n).mpr ⟨(n.id, d'), hmem, rfl, hn⟩⟩
  nodup_edges := by
    have hrow : ∀ (a : NodeId × ℕ) (e : Edge),
        e ∈ (if maxDepth ≤ a.2 then [] else allowed edges edgeTypes a.1) →
          edges[e.id]? = some e ∧ e.from_ = a.1 := by
      intro a e he
      split_ifs at he
      · cases he
      · exact ((mem_allowed h).mp he).1
    rw [hf.allEdges, List.map_flatMap, List.nodup_flatMap]
    refine ⟨fun e _ => ?_, (List.pairwise_map.mp hinv.nodup).imp fun {a b} hab => ?_⟩
    · split_ifs
      · exact List.nodup_nil
      · exact nodup_allowed h edgeTypes e.1
    · intro i hi hi'
      obtain ⟨e, he, rfl⟩ := List.mem_map.mp hi
      obtain ⟨e', he', heq⟩ := List.mem_map.mp hi'
      obtain ⟨hget, hfrom⟩ := hrow a e he
      obtain ⟨hget', hfrom'⟩ := hrow b e' he'
      rw [heq] at hget'
      obtain rfl := Option.some.inj (hget'.symm.trans hget)
      exact hab (congrArg NodeId.display (hfrom.symm.trans hfrom'))
  mem_edges edge := by
    rw [hf.allEdges, List.mem_flatMap]
    constructor
    · rintro ⟨e, he, hedge⟩
      split_ifs at hedge with hdepth
      · cases hedge
      · obtain ⟨⟨hrow, hfrom⟩, hadmit⟩ := (mem_allowed h).mp hedge
        refine ⟨hrow, hadmit, e.2, not_le.mp hdepth, ?_⟩
        rw [hfrom]
        exact (walk_of_marked hinv he).2
    · rintro ⟨hrow, hadmit, d, hd, hwalk⟩
      obtain ⟨d', hd', hmem⟩ := marked_of_walk hinv hd.le hwalk
      refine ⟨(edge.from_, d'), hmem, ?_⟩
      rw [if_neg (not_le.mpr (hd'.trans_lt hd))]
      exact (mem_allowed h).mpr ⟨⟨hrow, rfl⟩, hadmit⟩
  adjacency k l := by
    rw [hf.adjacency]
    constructor
    · rintro ⟨e, he, hlt, rfl, rfl⟩
      exact ⟨e.1, rfl, ⟨e.2, hlt, (walk_of_marked hinv he).2⟩, rfl⟩
    · rintro ⟨id, rfl, ⟨d, hd, hwalk⟩, rfl⟩
      obtain ⟨d', hd', hmem⟩ := marked_of_walk hinv hd.le hwalk
      exact ⟨(id, d'), hmem, hd'.trans_lt hd, rfl, rfl⟩

/-- From every existing node a traversal ends, and returns the nodes within the depth, and the
edges and the adjacency of the ids below it. -/
theorem traverse_exact (h : KeepsGraph J used nodes edges s) {start : String} {rootId : NodeId}
    {root : Node} (hstart : NodeId.parse T start = some rootId) (hroot : nodes[rootId]? = some root)
    (maxDepth : ℕ) (edgeTypes : Option (List String)) :
    ∃ r s', traverse F T s start maxDepth edgeTypes = some (r, s') ∧
      KeepsGraph J used nodes edges s' ∧
      ExactTraversal edges maxDepth edgeTypes nodes rootId r := by
  obtain ⟨s₁, hnode, hlocal, hs₁⟩ := h.getNode (F := F) hstart
  have hbegin : (traversalSearch edges maxDepth edgeTypes).Inv Prod.snd [(rootId, 0)] []
      ⟨[(rootId, 0)], []⟩ :=
    .begin traversalSearch_ranked List.nodup_nil (fun e he => by cases he) fun e he => by cases he
  have hempty : Mirrors edges maxDepth edgeTypes nodes [] ⟨[(rootId, 0)], [], ∅, [], ∅⟩ :=
    { visitedIds := rfl
      visitedNodes := fun k n => by simp
      allEdges := rfl
      adjacency := fun k l => by simp }
  have hcost : (traversalSearch edges maxDepth edgeTypes).cost (arcs s₁.local_.edgeFromIndex)
      ⟨[(rootId, 0)], []⟩ < s₁.local_.edgeFromIndex.entries.size + 2 := by
    refine (Search.cost_le _ _).trans_lt ?_
    rw [length_arcs, List.length_singleton]
    omega
  obtain ⟨t, s₂, marked, hloop, hs₂, hf, hinv⟩ :=
    Mirrors.loop hbegin hs₁ (F := F) (T := T) hcost hempty rfl
  refine ⟨_, s₂, ?_, hs₂, hf.exact h hroot hinv⟩
  unfold traverse
  simp only [hstart, hnode, hroot, hloop, Option.bind_eq_bind, Option.bind_some]
  rfl

theorem traverse_exact_sample :
    (KeepsGraph plainJson sampleUsed sampleUsers sampleEdges sampleNetwork ∧
      NodeId.parse hexText (NodeId.display ⟨1⟩) = some ⟨1⟩ ∧
      sampleUsers[(⟨1⟩ : NodeId)]? = some (sampleUser 1)) ∧
    ∃ r s', traverse plainFormat hexText sampleNetwork (NodeId.display ⟨1⟩) 2 (some ["knows"]) =
        some (r, s') ∧
      KeepsGraph plainJson sampleUsed sampleUsers sampleEdges s' ∧
      ExactTraversal sampleEdges 2 (some ["knows"]) sampleUsers ⟨1⟩ r := by
  have hparse := NodeId.parse_display hexText ⟨1⟩
  have hroot : sampleUsers[(⟨1⟩ : NodeId)]? = some (sampleUser 1) := rfl
  exact ⟨⟨keepsGraph_sampleNetwork, hparse, hroot⟩,
    traverse_exact keepsGraph_sampleNetwork hparse hroot 2 (some ["knows"])⟩

end

end AresaDb.Query
