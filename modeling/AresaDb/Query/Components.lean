import AresaDb.Query.Traversal

/-! # What the connected components are

Each search for a component is a breadth-first search over the edges both ways; how far an id is
plays no part.  The searches share what is visited, and before each of them what is visited is
closed: it is made of whole components.  So a search from an id that is not visited visits exactly
its component (`component_exact`), and the lists are the components of the nodes of the type
(`connectedComponents_exact`). -/

namespace AresaDb.Query

open AresaDb.Store BreadthFirst

section

variable (edges : OrdMap EdgeId Edge)

/-- Some edge joins two ids, one way or the other. -/
def Adjacent (a b : NodeId) : Prop :=
  ∃ (i : EdgeId) (e : Edge), edges[i]? = some e ∧
    (e.from_ = a ∧ e.to_ = b ∨ e.from_ = b ∧ e.to_ = a)

def Connected : NodeId → NodeId → Prop := Relation.ReflTransGen (Adjacent edges)

/-- The search along the edges both ways. -/
def componentSearch : Search NodeId String where
  key := NodeId.display
  next id := (outgoing edges id).map Edge.to_ ++ (incoming edges id).map Edge.from_
  drops _ := false

/-- The lists are the components of the nodes of a type. -/
structure ExactComponents (nodes : OrdMap NodeId Node) (nodeType : String)
    (components : List (List Node)) : Prop where
  component : ∀ c ∈ components, ∃ n ∈ c, n.nodeType = nodeType ∧
    ∀ n', n' ∈ c ↔ nodes[n'.id]? = some n' ∧ Connected edges n.id n'.id
  covered : ∀ n : Node, nodes[n.id]? = some n → n.nodeType = nodeType → ∃ c ∈ components, n ∈ c
  nodup : (components.flatten.map Node.id).Nodup
  shared : ∀ n ∈ components.flatten, ∀ n' ∈ components.flatten,
    (∃ c ∈ components, n ∈ c ∧ n' ∈ c) ↔ Connected edges n.id n'.id

/-- What is marked is made of whole components. -/
structure Whole (marked : List NodeId) : Prop where
  nodup : marked.Nodup
  closed : ∀ a ∈ marked, ∀ b, Adjacent edges a b → b ∈ marked

end

section

variable {F : JsonFormat} {T : UuidText} {J : Serde} {used : EdgeId → Prop}
  {nodes : OrdMap NodeId Node} {edges : OrdMap EdgeId Edge} {s : TieredStorage}
  {marked : List NodeId}

theorem adjacent_comm {a b : NodeId} : Adjacent edges a b ↔ Adjacent edges b a :=
  exists_congr fun _ => exists_congr fun _ => and_congr_right fun _ => or_comm

theorem Connected.symm {a b : NodeId} (h : Connected edges a b) : Connected edges b a := by
  induction h with
  | refl => exact .refl
  | tail _ hbc ih => exact .head (adjacent_comm.mp hbc) ih

theorem Whole.connected (h : Whole edges marked) {a b : NodeId} (hab : Connected edges a b)
    (ha : a ∈ marked) : b ∈ marked := by
  induction hab with
  | refl => exact ha
  | tail _ hbc ih => exact h.closed _ ih _ hbc

theorem componentSearch_next (h : KeepsGraph J used nodes edges s) {a b : NodeId} :
    b ∈ (componentSearch edges).next a ↔ Adjacent edges a b := by
  simp only [componentSearch, List.mem_append, List.mem_map, mem_outgoing h.edge_id,
    mem_incoming h.edge_id]
  constructor
  · rintro (⟨e, ⟨hrow, rfl⟩, rfl⟩ | ⟨e, ⟨hrow, rfl⟩, rfl⟩)
    · exact ⟨e.id, e, hrow, .inl ⟨rfl, rfl⟩⟩
    · exact ⟨e.id, e, hrow, .inr ⟨rfl, rfl⟩⟩
  · rintro ⟨i, e, hrow, ⟨hfrom, hto⟩ | ⟨hfrom, hto⟩⟩
    · rw [← h.edge_id i e hrow] at hrow
      exact .inl ⟨e, ⟨hrow, hfrom⟩, hto⟩
    · rw [← h.edge_id i e hrow] at hrow
      exact .inr ⟨e, ⟨hrow, hto⟩, hfrom⟩

/-- All ids are alike far. -/
theorem componentSearch_ranked : (componentSearch edges).Ranked fun _ => () where
  grows _ _ _ := le_rfl
  mono _ _ _ _ _ _ _ := le_rfl
  follows a b hkey _ b' hb' := by
    obtain rfl : a = b := NodeId.display_injective hkey
    exact .of_mem hb'
  drops _ _ _ _ h := h

theorem componentSearch_reached (h : KeepsGraph J used nodes edges s) {a b : NodeId} :
    (componentSearch edges).Reached [a] b ↔ Connected edges a b := by
  constructor
  · intro hreached
    induction hreached with
    | start hb =>
        obtain rfl := List.mem_singleton.mp hb
        exact .refl
    | next _ _ hnext ih => exact ih.tail ((componentSearch_next h).mp hnext)
  · intro hab
    induction hab with
    | refl => exact .start List.mem_cons_self
    | tail _ hbc ih => exact .next ih rfl ((componentSearch_next h).mpr hbc)

theorem componentSearch_arcs (h : KeepsGraph J used nodes edges s) (id : NodeId) :
    ((componentSearch edges).next id).length ≤
      (arcs s.local_.edgeFromIndex ++ arcs s.local_.edgeToIndex).count id.display := by
  simp only [componentSearch]
  rw [List.length_append, List.length_map, List.length_map, List.count_append,
    ← length_get_eq_count, ← length_get_eq_count]
  exact Nat.add_le_add (h.length_outgoing_le _) (h.length_incoming_le _)

/-! ### One component -/

theorem mem_found (h : KeepsGraph J used nodes edges s) {l : List NodeId} {n : Node} :
    n ∈ l.filterMap (fun id => nodes[id]?) ↔ n.id ∈ l ∧ nodes[n.id]? = some n := by
  rw [List.mem_filterMap]
  constructor
  · rintro ⟨id, hid, hn⟩
    rw [h.node_id hn]
    exact ⟨hid, hn⟩
  · rintro ⟨hid, hn⟩
    exact ⟨n.id, hid, hn⟩

theorem nodup_found (h : KeepsGraph J used nodes edges s) {l : List NodeId} (hl : l.Nodup) :
    ((l.filterMap fun id => nodes[id]?).map Node.id).Nodup := by
  rw [List.Nodup, List.pairwise_map, List.pairwise_filterMap]
  refine hl.imp fun {a b} hab n hn n' hn' heq => hab ?_
  rw [← h.node_id hn, ← h.node_id hn', heq]

/-- The rounds of the loop are those of the search. -/
theorem componentLoop_eq {start : NodeId} {before : List NodeId} {f : Frontier NodeId}
    (hinv : (componentSearch edges).Inv (fun _ => ()) [start] before f) {fuel : ℕ}
    (h : KeepsGraph J used nodes edges s)
    (hcost : (componentSearch edges).cost
      (arcs s.local_.edgeFromIndex ++ arcs s.local_.edgeToIndex) f < fuel)
    {visited : List String} (hvisited : ∀ id : NodeId, id.display ∈ visited ↔ id ∈ f.marked)
    {new : List NodeId} (hnew : f.marked = before ++ new) :
    ∃ new' visited' s',
      componentLoop F T fuel s f.queue visited (new.filterMap fun id => nodes[id]?) =
        some (new'.filterMap fun id => nodes[id]?, visited', s') ∧
      KeepsGraph J used nodes edges s' ∧
      (∀ id : NodeId, id.display ∈ visited' ↔ id ∈ before ++ new') ∧
      (componentSearch edges).Inv (fun _ => ()) [start] before ⟨[], before ++ new'⟩ := by
  refine hinv.induction componentSearch_ranked (componentSearch_arcs h) (motive := fun fuel f =>
    ∀ s visited new, KeepsGraph J used nodes edges s →
      (∀ id : NodeId, id.display ∈ visited ↔ id ∈ f.marked) → f.marked = before ++ new →
        ∃ new' visited' s',
          componentLoop F T fuel s f.queue visited (new.filterMap fun id => nodes[id]?) =
            some (new'.filterMap fun id => nodes[id]?, visited', s') ∧
          KeepsGraph J used nodes edges s' ∧
          (∀ id : NodeId, id.display ∈ visited' ↔ id ∈ before ++ new') ∧
          (componentSearch edges).Inv (fun _ => ()) [start] before ⟨[], before ++ new'⟩)
    ?_ ?_ hcost s visited new h hvisited hnew
  · intro fuel marked hinv s visited new h hvisited hnew
    dsimp only at hvisited hnew
    rw [hnew] at hinv hvisited
    exact ⟨new, visited, s, rfl, h, hvisited, hinv⟩
  · intro fuel marked current rest _ ih s visited new h hvisited hnew
    dsimp only at hvisited hnew
    have hmem : ∀ (l : List NodeId) (id : NodeId),
        (componentSearch edges).key id ∈ l.map (componentSearch edges).key ↔ id ∈ l :=
      fun l id => List.mem_map_of_injective NodeId.display_injective
    rw [componentLoop]
    by_cases hkey : current.display ∈ visited
    · have hpass : (componentSearch edges).key current ∈ marked.map (componentSearch edges).key ∨
          (componentSearch edges).drops current = true :=
        .inl ((hmem marked current).mpr ((hvisited current).mp hkey))
      rw [Search.visit_pass hpass] at ih
      rw [if_pos hkey]
      exact ih s visited new h hvisited hnew
    · have hunmarked : (componentSearch edges).key current ∉
          marked.map (componentSearch edges).key := by
        rwa [hmem, ← hvisited]
      rw [Search.visit_mark hunmarked rfl] at ih
      rw [if_neg hkey]
      have hparse := NodeId.parse_display T current
      obtain ⟨s₁, hnode, -, hs₁⟩ := h.getNode (F := F) hparse
      have hvisited' : ∀ id : NodeId,
          id.display ∈ current.display :: visited ↔ id ∈ marked ++ [current] := by
        intro id
        rw [List.mem_cons, hvisited, NodeId.display_injective.eq_iff, List.mem_append,
          List.mem_singleton, or_comm]
      have hqueue : ((componentSearch edges).next current).filter (fun id =>
          (componentSearch edges).key id ∉ (marked ++ [current]).map (componentSearch edges).key) =
          ((outgoing edges current).map Edge.to_ ++ (incoming edges current).map Edge.from_).filter
            fun id => id.display ∉ current.display :: visited := by
        refine List.filter_congr fun id _ => decide_eq_decide.mpr (not_congr ?_)
        rw [hmem, hvisited']
      have hfound : [current].filterMap (fun id => nodes[id]?) = nodes[current]?.toList := by
        rw [List.filterMap_cons, List.filterMap_nil]
        cases nodes[current]? <;> rfl
      rw [hqueue] at ih
      have hih := ih s₁ (current.display :: visited) (new ++ [current]) hs₁ hvisited' ?_
      · simp only [hnode, hs₁.getEdgesFrom hparse, hs₁.getEdgesTo hparse, Option.bind_eq_bind,
          Option.bind_some]
        rw [List.filterMap_append, hfound] at hih
        exact hih
      · rw [hnew, List.append_assoc]

/-- A search from an id that is not visited visits its component. -/
theorem component_exact (h : KeepsGraph J used nodes edges s) (hwhole : Whole edges marked)
    {visited : List String} (hvisited : ∀ id : NodeId, id.display ∈ visited ↔ id ∈ marked)
    {start : NodeId} (hstart : start ∉ marked) :
    ∃ component visited' marked' s',
      componentLoop F T (s.local_.edgeFromIndex.entries.size +
        s.local_.edgeToIndex.entries.size + 2)
        s [start] visited [] = some (component, visited', s') ∧
      KeepsGraph J used nodes edges s' ∧ Whole edges marked' ∧
      (∀ id : NodeId, id.display ∈ visited' ↔ id ∈ marked') ∧
      (∀ id, id ∈ marked' ↔ id ∈ marked ∨ Connected edges start id) ∧
      (component.map Node.id).Nodup ∧
      ∀ n, n ∈ component ↔ nodes[n.id]? = some n ∧ Connected edges start n.id := by
  have hbegin : (componentSearch edges).Inv (fun _ => ()) [start] marked ⟨[start], marked⟩ :=
    .begin componentSearch_ranked (hwhole.nodup.map NodeId.display_injective)
      (fun a ha b hb _ => .of_mem (hwhole.closed a ha b ((componentSearch_next h).mp hb)))
      fun _ _ => le_rfl
  have hcost : (componentSearch edges).cost
      (arcs s.local_.edgeFromIndex ++ arcs s.local_.edgeToIndex) ⟨[start], marked⟩ <
        s.local_.edgeFromIndex.entries.size + s.local_.edgeToIndex.entries.size + 2 := by
    refine (Search.cost_le _ _).trans_lt ?_
    rw [List.length_append, length_arcs, length_arcs, List.length_singleton]
    omega
  obtain ⟨new, visited', s', hloop, hs', hvisited', hinv⟩ :=
    componentLoop_eq hbegin (F := F) (T := T) h hcost hvisited (List.append_nil marked).symm
  have hnodup : (marked ++ new).Nodup := List.Nodup.of_map _ hinv.nodup
  have hnew : ∀ id, id ∈ new ↔ Connected edges start id := by
    intro id
    constructor
    · intro hid
      obtain hbefore | ⟨hreached, -⟩ := hinv.sound id (List.mem_append_right _ hid)
      · exact absurd hid ((List.nodup_append.mp hnodup).2.2 id hbefore id · rfl)
      · exact (componentSearch_reached h).mp hreached
    · intro hid
      obtain ⟨id', hid', hkey, -⟩ := hinv.complete componentSearch_ranked rfl
        ((componentSearch_reached h).mpr hid) rfl
      obtain rfl := NodeId.display_injective hkey
      obtain hbefore | hnew := List.mem_append.mp hid'
      · exact absurd (hwhole.connected hid.symm hbefore) hstart
      · exact hnew
  have hmem : ∀ id, id ∈ marked ++ new ↔ id ∈ marked ∨ Connected edges start id := by
    intro id
    rw [List.mem_append, hnew]
  refine ⟨_, visited', marked ++ new, s', hloop, hs', ⟨hnodup, fun a ha b hab => ?_⟩, hvisited',
    hmem, nodup_found h (List.nodup_append.mp hnodup).2.1, fun n => ?_⟩
  · rw [hmem] at ha ⊢
    exact ha.imp (hwhole.closed a · b hab) (·.tail hab)
  · rw [mem_found h, hnew, and_comm]

/-! ### All of them -/

/-- Each search finds the component of a node that was not visited. -/
theorem componentsLoop_exact (h : KeepsGraph J used nodes edges s) {l : List Node}
    (hl : ∀ n ∈ l, nodes[n.id]? = some n) (hwhole : Whole edges marked) (visited : List String)
    (hvisited : ∀ id : NodeId, id.display ∈ visited ↔ id ∈ marked) :
    ∃ components s', componentsLoop F T s l visited = some (components, s') ∧
      KeepsGraph J used nodes edges s' ∧
      (∀ c ∈ components, ∃ n ∈ c, n ∈ l ∧ n.id ∉ marked ∧ (c.map Node.id).Nodup ∧
        ∀ n', n' ∈ c ↔ nodes[n'.id]? = some n' ∧ Connected edges n.id n'.id) ∧
      (∀ n ∈ l, n.id ∈ marked ∨ ∃ c ∈ components, n ∈ c) ∧
      components.Pairwise fun c c' => ∀ n ∈ c, ∀ n' ∈ c', ¬ Connected edges n.id n'.id := by
  induction l generalizing s marked visited with
  | nil => exact ⟨[], s, rfl, h, nofun, nofun, .nil⟩
  | cons n l ih =>
      have hrest := fun n hn => hl n (List.mem_cons_of_mem _ hn)
      have hn := hl n List.mem_cons_self
      rw [componentsLoop]
      by_cases hmarked : n.id ∈ marked
      · obtain ⟨components, s', hloop, hs', hcomponent, hcovered, hapart⟩ :=
          ih h hrest hwhole visited hvisited
        refine ⟨components, s', ?_, hs', fun c hc => ?_, fun n' hn' => ?_, hapart⟩
        · rw [if_pos ((hvisited n.id).mpr hmarked), hloop]
        · obtain ⟨seed, hseed, hin, hout⟩ := hcomponent c hc
          exact ⟨seed, hseed, List.mem_cons_of_mem _ hin, hout⟩
        · obtain rfl | hn' := List.mem_cons.mp hn'
          · exact .inl hmarked
          · exact hcovered n' hn'
      · obtain ⟨component, visited₁, marked₁, s₁, hfirst, hs₁, hwhole₁, hvisited₁, hmarked₁, hnodup,
          hmem⟩ := component_exact h (F := F) (T := T) hwhole hvisited hmarked
        obtain ⟨components, s₂, hloop, hs₂, hcomponent, hcovered, hapart⟩ :=
          ih hs₁ hrest hwhole₁ visited₁ hvisited₁
        have hseed : n ∈ component := (hmem n).mpr ⟨hn, .refl⟩
        refine ⟨component :: components, s₂, ?_, hs₂, fun c hc => ?_, fun n' hn' => ?_,
          List.pairwise_cons.mpr ⟨fun c hc a ha b hb hab => ?_, hapart⟩⟩
        · have hne : component.isEmpty = false := by
            rw [List.isEmpty_eq_false_iff]
            exact List.ne_nil_of_mem hseed
          rw [if_neg (mt (hvisited n.id).mp hmarked)]
          simp only [hfirst, hloop, hne, Option.bind_eq_bind, Option.bind_some]
          rfl
        · obtain rfl | hc := List.mem_cons.mp hc
          · exact ⟨n, hseed, List.mem_cons_self, hmarked, hnodup, hmem⟩
          · obtain ⟨seed, hin, hseed, hout, hexact⟩ := hcomponent c hc
            refine ⟨seed, hin, List.mem_cons_of_mem _ hseed, fun hin => hout ?_, hexact⟩
            exact (hmarked₁ seed.id).mpr (.inl hin)
        · obtain rfl | hn' := List.mem_cons.mp hn'
          · exact .inr ⟨component, List.mem_cons_self, hseed⟩
          · obtain hmarked' | ⟨c, hc, hin⟩ := hcovered n' hn'
            · obtain hmarked' | hconn := (hmarked₁ n'.id).mp hmarked'
              · exact .inl hmarked'
              · exact .inr ⟨component, List.mem_cons_self, (hmem n').mpr ⟨hrest n' hn', hconn⟩⟩
            · exact .inr ⟨c, List.mem_cons_of_mem _ hc, hin⟩
        · -- A later component has a node that was not visited yet.
          obtain ⟨seed, -, -, hout, -, hexact⟩ := hcomponent c hc
          have hna := ((hmem a).mp ha).2
          have hsb := ((hexact b).mp hb).2
          exact hout ((hmarked₁ seed.id).mpr (.inr ((hna.trans hab).trans hsb.symm)))

/-- The lists are one for each component of a node of the type, and hold every node of it once. -/
theorem connectedComponents_exact (h : KeepsGraph J used nodes edges s) (nodeType : String) :
    ∃ components s', connectedComponents F T s nodeType = some (components, s') ∧
      KeepsGraph J used nodes edges s' ∧ ExactComponents edges nodes nodeType components := by
  obtain ⟨s₁, hall, -, hs₁⟩ := h.getAllByType (F := F) nodeType
  have hseeds : ∀ n, n ∈ nodes.values.filter (fun n => n.nodeType = nodeType) ↔
      nodes[n.id]? = some n ∧ n.nodeType = nodeType := by
    intro n
    rw [List.mem_filter, OrdMap.mem_values, decide_eq_true_iff]
    refine and_congr_left fun _ => ⟨?_, fun hn => ⟨n.id, hn⟩⟩
    rintro ⟨id, hn⟩
    rwa [h.node_id hn]
  have hempty : Whole edges [] := ⟨List.nodup_nil, nofun⟩
  obtain ⟨components, s₂, hloop, hs₂, hcomponent, hcovered, hapart⟩ :=
    componentsLoop_exact hs₁ (F := F) (T := T) (fun n hn => ((hseeds n).mp hn).1) hempty
      [] fun _ => iff_of_false List.not_mem_nil List.not_mem_nil
  refine ⟨components, s₂, ?_, hs₂, fun c hc => ?_, fun n hn htype => ?_, ?_, fun n hn n' hn' => ?_⟩
  · rw [connectedComponents, hall, Option.bind_eq_bind, Option.bind_some]
    exact hloop
  · obtain ⟨n, hin, hseed, -, -, hexact⟩ := hcomponent c hc
    exact ⟨n, hin, ((hseeds n).mp hseed).2, hexact⟩
  · exact (hcovered n ((hseeds n).mpr ⟨hn, htype⟩)).resolve_left List.not_mem_nil
  · rw [List.map_flatten, List.nodup_flatten]
    refine ⟨fun ids hids => ?_, List.pairwise_map.mpr
      (hapart.imp fun {c c'} hcc' id hid hid' => ?_)⟩
    · obtain ⟨c, hc, rfl⟩ := List.mem_map.mp hids
      obtain ⟨-, -, -, -, hnodup, -⟩ := hcomponent c hc
      exact hnodup
    · obtain ⟨n, hn, rfl⟩ := List.mem_map.mp hid
      obtain ⟨n', hn', heq⟩ := List.mem_map.mp hid'
      refine hcc' n hn n' hn' ?_
      rw [heq]
      exact .refl
  · obtain ⟨c, hc, hin⟩ := List.mem_flatten.mp hn
    obtain ⟨c', hc', hin'⟩ := List.mem_flatten.mp hn'
    constructor
    · rintro ⟨c, hc, hin, hin'⟩
      obtain ⟨seed, -, -, -, -, hexact⟩ := hcomponent c hc
      exact ((hexact n).mp hin).2.symm.trans ((hexact n').mp hin').2
    · intro hconn
      obtain ⟨seed, -, -, -, -, hexact⟩ := hcomponent c hc
      obtain ⟨seed', -, -, -, -, hexact'⟩ := hcomponent c' hc'
      have hn' := ((hexact' n').mp hin').1
      exact ⟨c, hc, hin, (hexact n').mpr ⟨hn', ((hexact n).mp hin).2.trans hconn⟩⟩

theorem connectedComponents_exact_sample :
    KeepsGraph plainJson sampleUsed sampleUsers sampleEdges sampleNetwork ∧
    ∃ components s',
      connectedComponents plainFormat hexText sampleNetwork "user" = some (components, s') ∧
      KeepsGraph plainJson sampleUsed sampleUsers sampleEdges s' ∧
      ExactComponents sampleEdges sampleUsers "user" components :=
  ⟨keepsGraph_sampleNetwork, connectedComponents_exact keepsGraph_sampleNetwork "user"⟩

end

end AresaDb.Query
