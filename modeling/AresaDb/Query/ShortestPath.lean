import AresaDb.Query.Traversal

/-! # What a shortest path query returns

A search for a shortest path is a breadth-first search whose entries are ids with the texts on the
way to them.  The target is looked for before anything else is, so that it is never marked: while it
is not, what can be reached is marked or waits, and the target comes out with a shortest path
(`shortestPath_exact`). -/

namespace AresaDb.Query

open AresaDb.Store BreadthFirst

section

variable (edges : OrdMap EdgeId Edge) (source target : NodeId) (maxDepth : ℕ)

/-- The search from ids with ways to them.  A way that is too long counts if it leads to the
target. -/
def pathSearch : Search (NodeId × List String) String where
  key e := e.1.display
  next e :=
    if maxDepth < e.2.length then []
    else (outgoing edges e.1).map fun edge => (edge.to_, e.2 ++ [edge.to_.display])
  drops e := e.1 ≠ target ∧ maxDepth < e.2.length

/-- The answer is a path if and only if there is one within the depth, and then the nodes along a
shortest one. -/
structure ShortestAnswer (nodes : OrdMap NodeId Node) (answer : Option (List Node)) : Prop where
  isSome : answer.isSome ↔
    ∃ path, Path (Joins edges none) path source target ∧ path.length ≤ maxDepth + 1
  shortest : ∀ found, answer = some found → ∃ path, Path (Joins edges none) path source target ∧
    path.length ≤ maxDepth + 1 ∧
    (∀ path', Path (Joins edges none) path' source target → path.length ≤ path'.length) ∧
    found = path.filterMap fun id => nodes[id]?

end

section

variable {F : JsonFormat} {T : UuidText} {J : Serde} {used : EdgeId → Prop}
  {nodes : OrdMap NodeId Node} {edges : OrdMap EdgeId Edge} {s : TieredStorage}
  {source target : NodeId} {maxDepth : ℕ}

theorem joins_none {a b : NodeId} : Joins edges none a b ↔ ∃ e ∈ outgoing edges a, e.to_ = b :=
  exists_congr fun _ => and_congr_right fun _ => and_iff_right rfl

theorem pathSearch_next {e e' : NodeId × List String} :
    e' ∈ (pathSearch edges target maxDepth).next e ↔
      e.2.length ≤ maxDepth ∧ Joins edges none e.1 e'.1 ∧ e'.2 = e.2 ++ [e'.1.display] := by
  obtain ⟨b, l'⟩ := e'
  simp only [pathSearch, joins_none]
  split_ifs with hlength
  · exact iff_of_false List.not_mem_nil fun h => absurd h.1 (not_le.mpr hlength)
  · simp only [List.mem_map, Prod.mk.injEq]
    constructor
    · rintro ⟨edge, hedge, rfl, rfl⟩
      exact ⟨not_lt.mp hlength, ⟨edge, hedge, rfl⟩, rfl⟩
    · rintro ⟨-, ⟨edge, hedge, rfl⟩, rfl⟩
      exact ⟨edge, hedge, rfl, rfl⟩

theorem pathSearch_drops {e : NodeId × List String} :
    (pathSearch edges target maxDepth).drops e = true ↔ e.1 ≠ target ∧ maxDepth < e.2.length :=
  decide_eq_true_iff

theorem pathSearch_length {e e' : NodeId × List String}
    (he' : e' ∈ (pathSearch edges target maxDepth).next e) : e'.2.length = e.2.length + 1 := by
  rw [(pathSearch_next.mp he').2.2, List.length_append, List.length_singleton]

theorem pathSearch_ranked : (pathSearch edges target maxDepth).Ranked fun e => e.2.length where
  grows e e' he' := by
    rw [pathSearch_length he']
    omega
  mono a b hab a' ha' b' hb' := by
    rw [pathSearch_length ha', pathSearch_length hb']
    omega
  follows a b hkey hab b' hb' := by
    obtain ⟨hle, hjoins, -⟩ := pathSearch_next.mp hb'
    have hid : a.1 = b.1 := NodeId.display_injective hkey
    have hmem : (b'.1, a.2 ++ [b'.1.display]) ∈ (pathSearch edges target maxDepth).next a :=
      pathSearch_next.mpr ⟨hab.trans hle, hid ▸ hjoins, rfl⟩
    refine ⟨_, hmem, rfl, ?_⟩
    dsimp only
    rw [pathSearch_length hmem, pathSearch_length hb']
    omega
  drops a b hkey hab hdrops := by
    obtain ⟨hne, hlt⟩ := pathSearch_drops.mp hdrops
    have hid : a.1 = b.1 := NodeId.display_injective hkey
    exact pathSearch_drops.mpr ⟨hid ▸ hne, hlt.trans_le hab⟩

/-- An entry holds a path to its id, which is read back from the texts. -/
theorem path_of_reached {fromId : String} (hfrom : NodeId.parse T fromId = some source)
    {e : NodeId × List String}
    (he : (pathSearch edges target maxDepth).Reached [(source, [fromId])] e) :
    e.2.length ≤ maxDepth + 1 ∧ ∃ path, Path (Joins edges none) path source e.1 ∧
      e.2.map (NodeId.parse T) = path.map some := by
  induction he with
  | start he =>
      obtain rfl := List.mem_singleton.mp he
      refine ⟨?_, [source], .nil source, ?_⟩
      · rw [List.length_singleton]
        omega
      · rw [List.map_singleton, hfrom, List.map_singleton]
  | @next e e' _ _ he' ih =>
      obtain ⟨-, path, hpath, hparse⟩ := ih
      obtain ⟨hle, hjoins, hl⟩ := pathSearch_next.mp he'
      refine ⟨?_, path ++ [e'.1], .snoc hpath hjoins, ?_⟩
      · rw [pathSearch_length he']
        omega
      · rw [hl, List.map_append, List.map_append, hparse, List.map_singleton, List.map_singleton,
          NodeId.parse_display]

/-- Every walk within the depth leads to an entry. -/
theorem reached_of_walk (target : NodeId) (fromId : String) {n : ℕ} {id : NodeId}
    (hn : n ≤ maxDepth) (hwalk : Walk (Joins edges none) n source id) :
    ∃ l : List String, l.length = n + 1 ∧
      (pathSearch edges target maxDepth).Reached [(source, [fromId])] (id, l) := by
  induction n generalizing id with
  | zero =>
      obtain rfl := Walk.zero_iff.mp hwalk
      exact ⟨[fromId], rfl, .start List.mem_cons_self⟩
  | succ n ih =>
      obtain ⟨a, hwalk, hjoins⟩ := Walk.succ_iff.mp hwalk
      obtain ⟨l, hl, hreached⟩ := ih (by omega) hwalk
      have hkept : (pathSearch edges target maxDepth).drops (a, l) = false := by
        refine Bool.eq_false_iff.mpr fun hdrops => ?_
        have hlong := (pathSearch_drops.mp hdrops).2
        dsimp only at hlong
        omega
      refine ⟨l ++ [id.display], by simp [hl], .next hreached hkept ?_⟩
      refine pathSearch_next.mpr ⟨?_, hjoins, rfl⟩
      dsimp only
      omega

theorem pathSearch_arcs (h : KeepsGraph J used nodes edges s) (e : NodeId × List String) :
    ((pathSearch edges target maxDepth).next e).length ≤
      (arcs s.local_.edgeFromIndex).count e.1.display := by
  simp only [pathSearch]
  split_ifs
  · exact Nat.zero_le _
  · rw [List.length_map, ← length_get_eq_count]
    exact h.length_outgoing_le _

/-! ### The loop -/

/-- The nodes of a path, but for ids without one. -/
theorem readPath_eq (h : KeepsGraph J used nodes edges s) {texts : List String} {path : List NodeId}
    (hparse : texts.map (NodeId.parse T) = path.map some) :
    ∃ s', readPath F T s texts = some (path.filterMap fun id => nodes[id]?, s') ∧
      KeepsGraph J used nodes edges s' := by
  induction texts generalizing s path with
  | nil =>
      obtain rfl := List.map_eq_nil_iff.mp hparse.symm
      exact ⟨s, rfl, h⟩
  | cons text texts ih =>
      obtain ⟨id, path, rfl, hid, hrest⟩ := List.map_eq_cons_iff.mp hparse.symm
      obtain ⟨s₁, hnode, -, hs₁⟩ := h.getNode (F := F) hid.symm
      obtain ⟨s₂, hread, hs₂⟩ := ih hs₁ hrest.symm
      refine ⟨s₂, ?_, hs₂⟩
      simp only [readPath, hnode, hread, Option.bind_eq_bind, Option.bind_some, List.filterMap_cons]
      cases nodes[id]? <;> rfl

/-- When the target comes out it has the shortest of the ways to it. -/
theorem shortest_of_inv {fromId : String} {e : NodeId × List String}
    {rest marked : List (NodeId × List String)}
    (hinv : (pathSearch edges target maxDepth).Inv (fun e => e.2.length) [(source, [fromId])] []
      ⟨e :: rest, marked⟩)
    (hgoal : target.display ∉ marked.map (pathSearch edges target maxDepth).key)
    (hlength : e.2.length ≤ maxDepth + 1) (path : List NodeId)
    (hpath : Path (Joins edges none) path source target) : e.2.length ≤ path.length := by
  have hpos := hpath.length_pos
  obtain hlong | hshort := le_or_gt (maxDepth + 2) path.length
  · omega
  · have hn : path.length - 1 ≤ maxDepth := by omega
    obtain ⟨l, hl, hreached⟩ := reached_of_walk target fromId hn hpath.walk
    have hkept : (pathSearch edges target maxDepth).drops (target, l) = false :=
      Bool.eq_false_iff.mpr fun hdrops => (pathSearch_drops.mp hdrops).1 rfl
    obtain ⟨w, hw, hkey, -⟩ | ⟨w, hw, hle⟩ := hinv.covered pathSearch_ranked hreached hkept
    · exact absurd (List.mem_map.mpr ⟨w, hw, hkey⟩) hgoal
    · dsimp only at hle
      obtain rfl | hw := List.mem_cons.mp hw
      · omega
      · have hfirst := List.rel_of_pairwise_cons hinv.sorted hw
        omega

/-- When nothing waits there is no way to the target. -/
theorem no_path_of_inv {fromId : String} {marked : List (NodeId × List String)}
    (hinv : (pathSearch edges target maxDepth).Inv (fun e => e.2.length) [(source, [fromId])] []
      ⟨[], marked⟩)
    (hgoal : target.display ∉ marked.map (pathSearch edges target maxDepth).key) :
    ¬ ∃ path, Path (Joins edges none) path source target ∧ path.length ≤ maxDepth + 1 := by
  rintro ⟨path, hpath, hlength⟩
  have hn : path.length - 1 ≤ maxDepth := by omega
  obtain ⟨l, -, hreached⟩ := reached_of_walk target fromId hn hpath.walk
  have hkept : (pathSearch edges target maxDepth).drops (target, l) = false :=
    Bool.eq_false_iff.mpr fun hdrops => (pathSearch_drops.mp hdrops).1 rfl
  obtain ⟨w, hw, hkey, -⟩ := hinv.complete pathSearch_ranked rfl hreached hkept
  exact hgoal (List.mem_map.mpr ⟨w, hw, hkey⟩)

/-- What is queued are the ways over the edges to ids that are not visited. -/
theorem pathSearch_queued {current : NodeId} {texts : List String}
    (hshort : ¬ maxDepth < texts.length)
    {marked : List (NodeId × List String)} {visited : List String}
    (hvisited : ∀ k, k ∈ visited ↔ k ∈ marked.map (pathSearch edges target maxDepth).key) :
    ((pathSearch edges target maxDepth).next (current, texts)).filter
        (fun e => (pathSearch edges target maxDepth).key e ∉
          marked.map (pathSearch edges target maxDepth).key) =
      ((outgoing edges current).filter fun edge => edge.to_.display ∉ visited).map
        fun edge => (edge.to_, texts ++ [edge.to_.display]) := by
  simp only [pathSearch, if_neg hshort, List.filter_map]
  refine congrArg (List.map _) (List.filter_congr fun edge _ => ?_)
  exact decide_eq_decide.mpr (not_congr (hvisited edge.to_.display).symm)

/-- The rounds of the loop are those of the search, until the target comes out. -/
theorem shortestPathLoop_exact {fromId : String} (hfrom : NodeId.parse T fromId = some source)
    {f : Frontier (NodeId × List String)}
    (hinv : (pathSearch edges target maxDepth).Inv (fun e => e.2.length) [(source, [fromId])] [] f)
    {fuel : ℕ} (h : KeepsGraph J used nodes edges s)
    (hcost : (pathSearch edges target maxDepth).cost (arcs s.local_.edgeFromIndex) f < fuel)
    {visited : List String}
    (hvisited : ∀ k, k ∈ visited ↔ k ∈ f.marked.map (pathSearch edges target maxDepth).key)
    (hgoal : target.display ∉ visited) :
    ∃ answer s', shortestPathLoop F T target.display maxDepth fuel s f.queue visited =
        some (answer, s') ∧
      KeepsGraph J used nodes edges s' ∧
      ShortestAnswer edges source target maxDepth nodes answer := by
  refine hinv.induction pathSearch_ranked (pathSearch_arcs h) (motive := fun fuel f => ∀ visited,
    (∀ k, k ∈ visited ↔ k ∈ f.marked.map (pathSearch edges target maxDepth).key) →
      target.display ∉ visited → ∃ answer s',
        shortestPathLoop F T target.display maxDepth fuel s f.queue visited = some (answer, s') ∧
        KeepsGraph J used nodes edges s' ∧
        ShortestAnswer edges source target maxDepth nodes answer)
    ?_ ?_ hcost visited hvisited hgoal
  · intro fuel marked hinv visited hvisited hgoal
    rw [hvisited] at hgoal
    refine ⟨none, s, rfl, h, ?_, fun found hfound => by cases hfound⟩
    exact iff_of_false Bool.false_ne_true (no_path_of_inv hinv hgoal)
  · intro fuel marked e rest hinv ih visited hvisited hgoal
    obtain ⟨current, texts⟩ := e
    rw [shortestPathLoop]
    dsimp only
    by_cases htarget : current.display = target.display
    · obtain rfl := NodeId.display_injective htarget
      rw [hvisited] at hgoal
      obtain ⟨hlength, path, hpath, hparse⟩ :=
        path_of_reached hfrom (hinv.queued _ List.mem_cons_self)
      dsimp only at hlength hpath hparse
      obtain ⟨s', hread, hs'⟩ := readPath_eq h (F := F) hparse
      have htexts : texts.length = path.length := by
        have hmap := congrArg List.length hparse
        rwa [List.length_map, List.length_map] at hmap
      have hshortest := shortest_of_inv hinv hgoal hlength
      dsimp only at hshortest
      rw [htexts] at hlength hshortest
      refine ⟨some (path.filterMap fun id => nodes[id]?), s', ?_, hs',
        iff_of_true rfl ⟨path, hpath, hlength⟩, fun found hfound => ?_⟩
      · rw [if_pos rfl, hread]
        rfl
      · obtain rfl := Option.some.inj hfound
        exact ⟨path, hpath, hlength, hshortest, rfl⟩
    · rw [if_neg htarget]
      have hne : current ≠ target := fun heq => htarget (congrArg NodeId.display heq)
      by_cases hpass : current.display ∈ visited ∨ maxDepth < texts.length
      · have hpassed : (pathSearch edges target maxDepth).key (current, texts) ∈
            marked.map (pathSearch edges target maxDepth).key ∨
              (pathSearch edges target maxDepth).drops (current, texts) = true :=
          hpass.imp (hvisited current.display).mp fun hlong => pathSearch_drops.mpr ⟨hne, hlong⟩
        rw [Search.visit_pass hpassed] at ih
        rw [if_pos hpass]
        exact ih visited hvisited hgoal
      · obtain ⟨hkey, hshort⟩ := not_or.mp hpass
        have hkept : (pathSearch edges target maxDepth).drops (current, texts) = false :=
          Bool.eq_false_iff.mpr fun hdrops => hshort (pathSearch_drops.mp hdrops).2
        have hedges := h.getEdgesFrom (NodeId.parse_display T current)
        have hvisited' : ∀ k, k ∈ current.display :: visited ↔
            k ∈ (marked ++ [(current, texts)]).map (pathSearch edges target maxDepth).key := by
          intro k
          rw [List.map_append, List.mem_append, ← hvisited, List.mem_cons, or_comm]
          exact or_congr_right List.mem_singleton.symm
        have hunmarked : (pathSearch edges target maxDepth).key (current, texts) ∉
            marked.map (pathSearch edges target maxDepth).key :=
              mt (hvisited current.display).mpr hkey
        rw [Search.visit_mark hunmarked hkept, pathSearch_queued hshort hvisited'] at ih
        rw [if_neg hpass, hedges]
        refine ih (current.display :: visited) hvisited' ?_
        rw [List.mem_cons, not_or]
        exact ⟨fun heq => htarget heq.symm, hgoal⟩

/-- A search ends, with a shortest path when there is one within the depth, and with nothing when
there is none. -/
theorem shortestPath_exact (h : KeepsGraph J used nodes edges s) {fromId : String}
    (hfrom : NodeId.parse T fromId = some source) (target : NodeId) (maxDepth : ℕ) :
    ∃ answer s', shortestPath F T s fromId target.display maxDepth = some (answer, s') ∧
      KeepsGraph J used nodes edges s' ∧
      ShortestAnswer edges source target maxDepth nodes answer := by
  have hbegin : (pathSearch edges target maxDepth).Inv (fun e => e.2.length) [(source, [fromId])] []
      ⟨[(source, [fromId])], []⟩ :=
    .begin pathSearch_ranked List.nodup_nil (fun e he => by cases he) fun e he => by cases he
  have hcost : (pathSearch edges target maxDepth).cost (arcs s.local_.edgeFromIndex)
      ⟨[(source, [fromId])], []⟩ < s.local_.edgeFromIndex.entries.size + 2 := by
    refine (Search.cost_le _ _).trans_lt ?_
    rw [length_arcs, List.length_singleton]
    omega
  unfold shortestPath
  rw [hfrom, Option.bind_eq_bind, Option.bind_some]
  exact shortestPathLoop_exact hfrom hbegin h hcost (fun _ => Iff.rfl) List.not_mem_nil

theorem shortestPath_exact_sample :
    (KeepsGraph plainJson sampleUsed sampleUsers sampleEdges sampleNetwork ∧
      NodeId.parse hexText (NodeId.display ⟨1⟩) = some ⟨1⟩) ∧
    ∃ answer s', shortestPath plainFormat hexText sampleNetwork (NodeId.display ⟨1⟩)
        (NodeId.display ⟨3⟩) 2 = some (answer, s') ∧
      KeepsGraph plainJson sampleUsed sampleUsers sampleEdges s' ∧
      ShortestAnswer sampleEdges ⟨1⟩ ⟨3⟩ 2 sampleUsers answer := by
  have hparse := NodeId.parse_display hexText ⟨1⟩
  exact ⟨⟨keepsGraph_sampleNetwork, hparse⟩,
    shortestPath_exact keepsGraph_sampleNetwork hparse ⟨3⟩ 2⟩

end

end AresaDb.Query
