import AresaDb.Store.Transaction

/-! # When a transaction means the same as its operations

The two storages list the same rows exactly when they agree id by id: on the row of every edge and
on the entries of the edges that have a row, and on the type entries of the nodes that have one.
Then they answer alike (`SameRows.answers`), and where all rows parse only then
(`SameAnswers.edgeSettled`, `SameAnswers.nodeSettled`).  An operation on another id leaves an id as
it is, but for the edges a node deletion takes along, and those never come back by themselves
(`edge_gone_run`).  So an id is settled at the end when it was settled by the last operation on it,
and that is what `Safe` asks of each operation (`answers_eq_iff_safe`). -/

namespace AresaDb.Store

open LocalStorage

/-! ### Answers id by id -/

/-- The edge has the same row on both sides and, if it has one, the same entries. -/
structure EdgeSettled (d t : LocalStorage) (i : EdgeId) : Prop where
  row : d.edges[i]? = t.edges[i]?
  fromIndex : t.edges[i]? ≠ none → ∀ n, (n, i) ∈ t.edgeFromIndex → (n, i) ∈ d.edgeFromIndex
  toIndex : t.edges[i]? ≠ none → ∀ n, (n, i) ∈ t.edgeToIndex → (n, i) ∈ d.edgeToIndex
  typeIndex : t.edges[i]? ≠ none → ∀ ty, (ty, i) ∈ d.edgeTypeIndex ↔ (ty, i) ∈ t.edgeTypeIndex

/-- The node, if it has a row, is listed under the same types on both sides. -/
def NodeSettled (d t : LocalStorage) (id : NodeId) : Prop :=
  t.nodes[id]? ≠ none → ∀ ty, (ty, id) ∈ t.nodeTypeIndex → (ty, id) ∈ d.nodeTypeIndex

theorem EdgeSettled.refl (s : LocalStorage) (i : EdgeId) : EdgeSettled s s i :=
  ⟨rfl, fun _ _ h => h, fun _ _ h => h, fun _ _ => Iff.rfl⟩

/-- An edge without a row is settled whatever its entries. -/
theorem EdgeSettled.of_none {d t : LocalStorage} {i : EdgeId} (hd : d.edges[i]? = none)
    (ht : t.edges[i]? = none) : EdgeSettled d t i :=
  ⟨hd.trans ht.symm, fun h => absurd ht h, fun h => absurd ht h, fun h => absurd ht h⟩

section

variable {s d t : LocalStorage}

theorem readEdges_congr {κ : Type} [LinearOrder κ] {m n : Multimap κ EdgeId} (k : κ)
    (hrow : ∀ i : EdgeId, d.edges[i]? = t.edges[i]?)
    (hmn : ∀ i : EdgeId, t.edges[i]? ≠ none → ((k, i) ∈ m ↔ (k, i) ∈ n)) :
    (m.get k).filterMap (fun i => d.edges[i]?) = (n.get k).filterMap fun i => t.edges[i]? := by
  refine Multimap.filterMap_get_congr hrow ?_
  intro i e hi
  rw [hrow] at hi
  exact hmn i (by rw [hi]; exact Option.some_ne_none e)

/-- Equal lookups under a key list the same ids, of those that have a row. -/
theorem mem_of_lookup_eq {κ : Type} [LinearOrder κ] {m n : Multimap κ EdgeId} {k : κ}
    (hd : Keyed d) (ht : Keyed t) {i : EdgeId} {e : Edge} (hi : t.edges[i]? = some e)
    (h : (m.get k).filterMap (fun i => d.edges[i]?) = (n.get k).filterMap fun i => t.edges[i]?)
    (hmem : (k, i) ∈ n) : (k, i) ∈ m := by
  obtain rfl := ht.edges i e hi
  have he := (Multimap.mem_filterMap_get ht.edges k e).mpr ⟨hmem, hi⟩
  rw [← h] at he
  exact ((Multimap.mem_filterMap_get hd.edges k e).mp he).1

/-- Two storages list the same rows, update times aside. -/
structure SameRows (d t : LocalStorage) : Prop where
  node : ∀ id : NodeId, (d.nodes[id]?).map Node.untimed = (t.nodes[id]?).map Node.untimed
  ofType : ∀ nodeType, (d.rowsOfType nodeType).map Node.untimed =
    (t.rowsOfType nodeType).map Node.untimed
  values : d.nodes.values.map Node.untimed = t.nodes.values.map Node.untimed
  edge : ∀ i : EdgeId, d.edges[i]? = t.edges[i]?
  outgoing : ∀ n, d.edgeRows (d.edgeFromIndex.get n) = t.edgeRows (t.edgeFromIndex.get n)
  incoming : ∀ n, d.edgeRows (d.edgeToIndex.get n) = t.edgeRows (t.edgeToIndex.get n)
  byType : ∀ ty, d.edgeRows (d.edgeTypeIndex.get ty) = t.edgeRows (t.edgeTypeIndex.get ty)

theorem sameRows_of_settled (h : Lags d t) (hedges : ∀ i, EdgeSettled d t i)
    (hnodes : ∀ id, NodeSettled d t id) : SameRows d t where
  node := h.nodes
  ofType nodeType := by
    unfold rowsOfType
    rw [List.map_filterMap, List.map_filterMap]
    refine Multimap.filterMap_get_congr h.nodes ?_
    intro id n hn
    refine ⟨h.typeIndex _, hnodes id ?_ nodeType⟩
    intro ht
    rw [h.nodes, ht] at hn
    exact Option.some_ne_none n hn.symm
  values := OrdMap.values_map_congr _ h.nodes
  edge i := (hedges i).row
  outgoing n := readEdges_congr n (fun i => (hedges i).row) fun i hi =>
    ⟨h.fromIndex _, (hedges i).fromIndex hi n⟩
  incoming n := readEdges_congr n (fun i => (hedges i).row) fun i hi =>
    ⟨h.toIndex _, (hedges i).toIndex hi n⟩
  byType ty := readEdges_congr ty (fun i => (hedges i).row) fun i hi => (hedges i).typeIndex hi ty

/-- Rows that are the same but for their times are read alike. -/
theorem readRows_congr {rows rows' : List Node}
    (h : rows.map Node.untimed = rows'.map Node.untimed) :
    (readRows Node.parses rows).map (List.map Node.untimed) =
      (readRows Node.parses rows').map (List.map Node.untimed) := by
  have hall : ∀ l : List Node, l.all Node.parses = (l.map Node.untimed).all Node.parses := by
    intro l
    rw [List.all_map]
    rfl
  unfold readRows
  rw [hall rows, hall rows', h]
  split_ifs
  · exact congrArg some h
  · rfl

theorem SameRows.answers (h : SameRows d t) : SameAnswers d t where
  getNode id := by
    have hall : ∀ row : Option Node, row.all Node.parses =
        (row.map Node.untimed).all Node.parses := by
      intro row
      cases row <;> rfl
    unfold LocalStorage.getNode readRow
    rw [hall (d.nodes[id]?), hall (t.nodes[id]?), h.node]
    split_ifs
    · exact congrArg some (h.node id)
    · rfl
  getNodesByType nodeType limit := by
    refine readRows_congr ?_
    rw [takeLimit_map, takeLimit_map, h.ofType]
  getAllNodes limit := by
    refine readRows_congr ?_
    rw [takeLimit_map, takeLimit_map, h.values]
  getEdge i := congrArg (readRow Edge.parses) (h.edge i)
  getEdgesFrom n f := by
    unfold LocalStorage.getEdgesFrom readEdges
    rw [h.outgoing]
  getEdgesTo n f := by
    unfold LocalStorage.getEdgesTo readEdges
    rw [h.incoming]
  getEdgesByType ty limit := by
    unfold LocalStorage.getEdgesByType
    rw [h.byType]

/-- Every row parses. -/
structure RowsParse (s : LocalStorage) : Prop where
  nodes : ∀ (id : NodeId) (n : Node), s.nodes[id]? = some n → n.parses = true
  edges : ∀ (i : EdgeId) (e : Edge), s.edges[i]? = some e → e.parses = true

theorem RowsParse.readNodes (h : RowsParse s) (ids : List NodeId) :
    readRows Node.parses (ids.filterMap fun id => s.nodes[id]?) =
      some (ids.filterMap fun id => s.nodes[id]?) := by
  refine if_pos (List.all_eq_true.mpr fun n hn => ?_)
  obtain ⟨id, -, hid⟩ := List.mem_filterMap.mp hn
  exact h.nodes id n hid

theorem RowsParse.readEdges (h : RowsParse s) (ids : List EdgeId) :
    readRows Edge.parses (s.edgeRows ids) = some (s.edgeRows ids) := by
  refine if_pos (List.all_eq_true.mpr fun e he => ?_)
  obtain ⟨i, -, hi⟩ := List.mem_filterMap.mp he
  exact h.edges i e hi

theorem RowsParse.readEdges_none (h : RowsParse s) (ids : List EdgeId) :
    s.readEdges ids none = some (s.edgeRows ids) := by
  unfold LocalStorage.readEdges
  rw [h.readEdges, Option.map_some]
  exact congrArg some (List.filter_eq_self.mpr fun _ _ => rfl)

/-- Where all rows parse, the answers show the rows. -/
theorem SameAnswers.edgeSettled (h : SameAnswers d t) (hd : Keyed d) (ht : Keyed t)
    (hpd : RowsParse d) (hpt : RowsParse t) (i : EdgeId) : EdgeSettled d t i := by
  have hread : ∀ {s : LocalStorage}, RowsParse s →
      ∀ i : EdgeId, s.getEdge i = some s.edges[i]? := by
    intro s hs i
    unfold LocalStorage.getEdge readRow
    rw [if_pos]
    cases hi : s.edges[i]? with
    | none => rfl
    | some e => exact hs.edges i e hi
  have hrow : ∀ i : EdgeId, d.edges[i]? = t.edges[i]? := fun i =>
    Option.some.inj ((hread hpd i).symm.trans ((h.getEdge i).trans (hread hpt i)))
  refine ⟨hrow i, fun hi n => ?_, fun hi n => ?_, fun hi ty => ?_⟩
  all_goals obtain ⟨e, he⟩ := Option.ne_none_iff_exists'.mp hi
  · have hlist := h.getEdgesFrom n none
    unfold LocalStorage.getEdgesFrom at hlist
    rw [hpd.readEdges_none, hpt.readEdges_none] at hlist
    exact mem_of_lookup_eq hd ht he (Option.some.inj hlist)
  · have hlist := h.getEdgesTo n none
    unfold LocalStorage.getEdgesTo at hlist
    rw [hpd.readEdges_none, hpt.readEdges_none] at hlist
    exact mem_of_lookup_eq hd ht he (Option.some.inj hlist)
  · have hlist := h.getEdgesByType ty none
    unfold LocalStorage.getEdgesByType takeLimit at hlist
    rw [hpd.readEdges, hpt.readEdges] at hlist
    have hlist := Option.some.inj hlist
    exact ⟨mem_of_lookup_eq ht hd ((hrow i).trans he) hlist.symm, mem_of_lookup_eq hd ht he hlist⟩

theorem SameAnswers.nodeSettled (h : SameAnswers d t) (hd : Keyed d) (ht : Keyed t)
    (hpd : RowsParse d) (hpt : RowsParse t) (id : NodeId) : NodeSettled d t id := by
  intro hid ty hmem
  obtain ⟨n, hn⟩ := Option.ne_none_iff_exists'.mp hid
  obtain rfl := ht.nodes id n hn
  have hlist := h.getNodesByType ty none
  unfold LocalStorage.getNodesByType takeLimit rowsOfType at hlist
  rw [hpd.readNodes, hpt.readNodes] at hlist
  have hlist := Option.some.inj hlist
  have hin : n.untimed ∈ ((t.nodeTypeIndex.get ty).filterMap fun id => t.nodes[id]?).map
      Node.untimed :=
    List.mem_map_of_mem ((Multimap.mem_filterMap_get ht.nodes ty n).mpr ⟨hmem, hn⟩)
  rw [← hlist, List.mem_map] at hin
  obtain ⟨n', hn', hsame⟩ := hin
  have hlisted := ((Multimap.mem_filterMap_get hd.nodes ty n').mp hn').1
  injection hsame with hid
  rwa [hid] at hlisted

end

/-! ### What an operation leaves of an id -/

/-- The row and the entries of an edge are kept. -/
structure KeepsEdge (i : EdgeId) (s s' : LocalStorage) : Prop where
  row : s'.edges[i]? = s.edges[i]?
  fromIndex : ∀ n, (n, i) ∈ s'.edgeFromIndex ↔ (n, i) ∈ s.edgeFromIndex
  toIndex : ∀ n, (n, i) ∈ s'.edgeToIndex ↔ (n, i) ∈ s.edgeToIndex
  typeIndex : ∀ ty, (ty, i) ∈ s'.edgeTypeIndex ↔ (ty, i) ∈ s.edgeTypeIndex

/-- Whether a node has a row is kept, and its type entries are. -/
structure KeepsNode (id : NodeId) (s s' : LocalStorage) : Prop where
  row : s'.nodes[id]? = none ↔ s.nodes[id]? = none
  typeIndex : ∀ ty, (ty, id) ∈ s'.nodeTypeIndex ↔ (ty, id) ∈ s.nodeTypeIndex

theorem KeepsEdge.refl (i : EdgeId) (s : LocalStorage) : KeepsEdge i s s :=
  ⟨rfl, fun _ => Iff.rfl, fun _ => Iff.rfl, fun _ => Iff.rfl⟩

theorem KeepsNode.refl (id : NodeId) (s : LocalStorage) : KeepsNode id s s :=
  ⟨Iff.rfl, fun _ => Iff.rfl⟩

theorem KeepsEdge.trans {i : EdgeId} {s₁ s₂ s₃ : LocalStorage} (h : KeepsEdge i s₁ s₂)
    (h' : KeepsEdge i s₂ s₃) : KeepsEdge i s₁ s₃ :=
  ⟨h'.row.trans h.row, fun n => (h'.fromIndex n).trans (h.fromIndex n),
    fun n => (h'.toIndex n).trans (h.toIndex n), fun ty => (h'.typeIndex ty).trans (h.typeIndex ty)⟩

theorem KeepsNode.trans {id : NodeId} {s₁ s₂ s₃ : LocalStorage} (h : KeepsNode id s₁ s₂)
    (h' : KeepsNode id s₂ s₃) : KeepsNode id s₁ s₃ :=
  ⟨h'.row.trans h.row, fun ty => (h'.typeIndex ty).trans (h.typeIndex ty)⟩

theorem mem_insert_of_ne {κ ι : Type} [LinearOrder κ] [LinearOrder ι] (m : Multimap κ ι) (k : κ)
    {i j : ι} (hne : j ≠ i) (k' : κ) : (k', i) ∈ m.insert k j ↔ (k', i) ∈ m := by
  rw [Multimap.mem_insert, or_iff_right]
  exact fun heq => hne (congrArg Prod.snd heq).symm

theorem keepsEdge_removeEdge (s : LocalStorage) {i j : EdgeId} (hne : j ≠ i) :
    KeepsEdge i s (s.removeEdge j) := by
  obtain ⟨hfrom, hto, htype⟩ := @mem_index_removeEdge s j
  refine ⟨?_, fun n => ?_, fun n => ?_, fun ty => ?_⟩
  · rw [edges_removeEdge, OrdMap.get_erase_of_ne _ hne]
  · exact ⟨(hfrom (n, i)).1, (hfrom (n, i)).2 hne.symm⟩
  · exact ⟨(hto (n, i)).1, (hto (n, i)).2 hne.symm⟩
  · exact ⟨(htype (ty, i)).1, (htype (ty, i)).2 hne.symm⟩

/-- A node deletion keeps an edge, or takes it along. -/
theorem removeNode_edge (s : LocalStorage) (id : NodeId) (i : EdgeId) :
    KeepsEdge i s (s.removeNode id) ∨
      ((id, i) ∈ s.edgeFromIndex ∨ (id, i) ∈ s.edgeToIndex) ∧
        (s.removeNode id).edges[i]? = none := by
  have hrow := get_edges_removeNode s id i
  by_cases hmem : (id, i) ∈ s.edgeFromIndex ∨ (id, i) ∈ s.edgeToIndex
  · rw [if_pos hmem] at hrow
    exact .inr ⟨hmem, hrow⟩
  · rw [if_neg hmem] at hrow
    obtain ⟨hfrom, hto⟩ := not_or.mp hmem
    refine .inl ⟨hrow, fun n => ?_, fun n => ?_, fun ty => ?_⟩
    · rw [mem_fromIndex_removeNode, and_iff_right_iff_imp]
      rintro hn rfl
      exact hfrom hn
    · rw [mem_toIndex_removeNode, and_iff_right_iff_imp]
      rintro hn rfl
      exact hto hn
    · rw [edgeTypeIndex_removeNode]

section

variable {J : Serde} {s : LocalStorage} {o : TimedOp}

theorem keepsEdge_commit {i : EdgeId} (hoff : ¬ o.op.OnEdge i) :
    KeepsEdge i s (o.committed J s) := by
  obtain ⟨op, directAt, commitAt⟩ := o
  cases op with
  | insertEdge edge =>
      have hne : edge.id ≠ i := hoff
      refine ⟨OrdMap.get_insert_of_ne _ _ hne, ?_, ?_, fun _ => Iff.rfl⟩
      · exact mem_insert_of_ne _ _ hne
      · exact mem_insert_of_ne _ _ hne
  | deleteEdge j =>
      exact ⟨OrdMap.get_erase_of_ne _ hoff, fun _ => Iff.rfl, fun _ => Iff.rfl, fun _ => Iff.rfl⟩
  | updateNode id properties =>
      simp only [TimedOp.committed]
      split <;> exact ⟨rfl, fun _ => Iff.rfl, fun _ => Iff.rfl, fun _ => Iff.rfl⟩
  | insertNode node => exact ⟨rfl, fun _ => Iff.rfl, fun _ => Iff.rfl, fun _ => Iff.rfl⟩
  | deleteNode id => exact ⟨rfl, fun _ => Iff.rfl, fun _ => Iff.rfl, fun _ => Iff.rfl⟩

/-- The operation deletes a node that lists the edge. -/
def TransactionOp.TakesAlong (s : LocalStorage) (i : EdgeId) : TransactionOp → Prop
  | deleteNode id => (id, i) ∈ s.edgeFromIndex ∨ (id, i) ∈ s.edgeToIndex
  | _ => False

/-- An operation on another edge, or on a node, keeps an edge or takes it along. -/
theorem direct_edge {i : EdgeId} (hoff : ¬ o.op.OnEdge i) :
    KeepsEdge i s (o.applied J s) ∨ o.op.TakesAlong s i ∧ (o.applied J s).edges[i]? = none := by
  obtain ⟨op, directAt, commitAt⟩ := o
  cases op with
  | insertEdge edge =>
      have hne : edge.id ≠ i := hoff
      refine .inl ⟨OrdMap.get_insert_of_ne _ _ hne, ?_, ?_, ?_⟩
      · exact mem_insert_of_ne _ _ hne
      · exact mem_insert_of_ne _ _ hne
      · exact mem_insert_of_ne _ _ hne
  | deleteEdge j => exact .inl (keepsEdge_removeEdge s hoff)
  | updateNode id properties =>
      refine .inl ?_
      simp only [TimedOp.applied]
      cases s.nodes[id]? with
      | none => exact .refl i s
      | some node => exact ⟨rfl, fun _ => Iff.rfl, fun _ => Iff.rfl, fun _ => Iff.rfl⟩
  | insertNode node =>
      exact .inl ⟨rfl, fun _ => Iff.rfl, fun _ => Iff.rfl, fun _ => Iff.rfl⟩
  | deleteNode id => exact removeNode_edge s id i

theorem keepsNode_commit {id : NodeId} (hoff : ¬ o.op.OnNode id) :
    KeepsNode id s (o.committed J s) := by
  obtain ⟨op, directAt, commitAt⟩ := o
  cases op with
  | insertNode node =>
      have hne : node.id ≠ id := hoff
      refine ⟨?_, mem_insert_of_ne _ _ hne⟩
      simp only [TimedOp.committed]
      rw [OrdMap.get_insert_of_ne _ _ hne]
  | updateNode id' properties =>
      simp only [TimedOp.committed]
      cases hrow : s.nodes[id']? with
      | none => exact .refl id s
      | some node =>
          refine ⟨?_, fun _ => Iff.rfl⟩
          simp only [OrdMap.get_insert]
          split_ifs with hid
          · rw [← hid, hrow]
            simp
          · exact Iff.rfl
  | deleteNode id' =>
      refine ⟨?_, fun _ => Iff.rfl⟩
      simp only [TimedOp.committed]
      rw [OrdMap.get_erase_of_ne _ hoff]
  | insertEdge edge => exact ⟨Iff.rfl, fun _ => Iff.rfl⟩
  | deleteEdge j => exact ⟨Iff.rfl, fun _ => Iff.rfl⟩

theorem keepsNode_direct {id : NodeId} (hoff : ¬ o.op.OnNode id) :
    KeepsNode id s (o.applied J s) := by
  obtain ⟨op, directAt, commitAt⟩ := o
  cases op with
  | insertNode node => exact keepsNode_commit (o := ⟨.insertNode node, directAt, commitAt⟩) hoff
  | updateNode id' properties =>
      have hkeeps := keepsNode_commit (J := J) (s := s)
        (o := ⟨.updateNode id' properties, commitAt, directAt⟩) hoff
      simp only [TimedOp.applied, TimedOp.committed] at hkeeps ⊢
      cases hrow : s.nodes[id']? with
      | none => exact .refl id s
      | some node =>
          rw [hrow] at hkeeps
          exact hkeeps
  | deleteNode id' =>
      have hne : id' ≠ id := hoff
      refine ⟨?_, fun ty => ⟨mem_typeIndex_removeNode.1, mem_typeIndex_removeNode.2 hne.symm⟩⟩
      simp only [TimedOp.applied]
      rw [nodes_removeNode, OrdMap.get_erase_of_ne _ hne]
  | insertEdge edge => exact ⟨Iff.rfl, fun _ => Iff.rfl⟩
  | deleteEdge j =>
      obtain ⟨hrows, hindex⟩ := nodes_removeEdge s j
      constructor
      · simp only [TimedOp.applied]
        rw [hrows]
      · intro ty
        simp only [TimedOp.applied]
        rw [hindex]

end

/-! ### Runs that leave an id alone -/

section

variable {J : Serde} {s : LocalStorage} {after : List TimedOp}

theorem keepsEdge_commit_run {i : EdgeId} (hoff : ∀ o ∈ after, ¬ o.op.OnEdge i) :
    KeepsEdge i s (committed J s after) := by
  induction after generalizing s with
  | nil => exact .refl i s
  | cons o after ih =>
      have hstep : KeepsEdge i s (o.committed J s) := keepsEdge_commit (hoff o (by simp))
      exact hstep.trans (ih fun o' ho' => hoff o' (by simp [ho']))

theorem keepsNode_commit_run {id : NodeId} (hoff : ∀ o ∈ after, ¬ o.op.OnNode id) :
    KeepsNode id s (committed J s after) := by
  induction after generalizing s with
  | nil => exact .refl id s
  | cons o after ih =>
      have hstep : KeepsNode id s (o.committed J s) := keepsNode_commit (hoff o (by simp))
      exact hstep.trans (ih fun o' ho' => hoff o' (by simp [ho']))

theorem keepsNode_direct_run {id : NodeId} (hoff : ∀ o ∈ after, ¬ o.op.OnNode id) :
    KeepsNode id s (applied J s after) := by
  induction after generalizing s with
  | nil => exact .refl id s
  | cons o after ih =>
      have hstep : KeepsNode id s (o.applied J s) := keepsNode_direct (hoff o (by simp))
      exact hstep.trans (ih fun o' ho' => hoff o' (by simp [ho']))

/-- An edge that is gone stays gone. -/
theorem edge_gone_run {i : EdgeId} (hoff : ∀ o ∈ after, ¬ o.op.OnEdge i)
    (hs : s.edges[i]? = none) : (applied J s after).edges[i]? = none := by
  induction after generalizing s with
  | nil => exact hs
  | cons o after ih =>
      refine ih (fun o' ho' => hoff o' (by simp [ho'])) ?_
      rcases direct_edge (J := J) (s := s) (hoff o (by simp)) with hkeeps | ⟨_, hgone⟩
      · exact hkeeps.row.trans hs
      · exact hgone

/-- An edge that is still there was kept by every operation. -/
theorem keepsEdge_direct_run {i : EdgeId} (hoff : ∀ o ∈ after, ¬ o.op.OnEdge i)
    (hrow : (applied J s after).edges[i]? ≠ none) : KeepsEdge i s (applied J s after) := by
  induction after generalizing s with
  | nil => exact .refl i s
  | cons o after ih =>
      have hoff' : ∀ o' ∈ after, ¬ o'.op.OnEdge i := fun o' ho' => hoff o' (by simp [ho'])
      rcases direct_edge (J := J) (s := s) (hoff o (by simp)) with hkeeps | ⟨_, hgone⟩
      · exact hkeeps.trans (ih hoff' hrow)
      · exact absurd (edge_gone_run hoff' hgone) hrow

end

/-! ### The last operation on an id -/

section

variable {J : Serde} {s d t : LocalStorage} {before after : List TimedOp}

theorem EdgeSettled.of_keeps {i : EdgeId} {d' t' : LocalStorage} (h : EdgeSettled d t i)
    (hd : KeepsEdge i d d') (ht : KeepsEdge i t t') : EdgeSettled d' t' i := by
  refine ⟨hd.row.trans (h.row.trans ht.row.symm), fun hi n hn => ?_, fun hi n hn => ?_,
    fun hi ty => ?_⟩
  all_goals rw [ht.row] at hi
  · exact (hd.fromIndex n).mpr (h.fromIndex hi n ((ht.fromIndex n).mp hn))
  · exact (hd.toIndex n).mpr (h.toIndex hi n ((ht.toIndex n).mp hn))
  · rw [hd.typeIndex, ht.typeIndex]
    exact h.typeIndex hi ty

theorem KeepsEdge.symm {i : EdgeId} {s s' : LocalStorage} (h : KeepsEdge i s s') :
    KeepsEdge i s' s :=
  ⟨h.row.symm, fun n => (h.fromIndex n).symm, fun n => (h.toIndex n).symm,
    fun ty => (h.typeIndex ty).symm⟩

theorem NodeSettled.of_keeps {id : NodeId} {d' t' : LocalStorage} (h : NodeSettled d t id)
    (hd : KeepsNode id d d') (ht : KeepsNode id t t') : NodeSettled d' t' id := by
  intro hid ty hty
  rw [Ne, ht.row] at hid
  exact (hd.typeIndex ty).mpr (h hid ty ((ht.typeIndex ty).mp hty))

theorem KeepsNode.symm {id : NodeId} {s s' : LocalStorage} (h : KeepsNode id s s') :
    KeepsNode id s' s :=
  ⟨h.row.symm, fun ty => (h.typeIndex ty).symm⟩

/-- What the insertion of an edge must find to leave it settled. -/
theorem edgeSettled_insertEdge (edge : Edge) (o : TimedOp) (ho : o.op = .insertEdge edge) :
    EdgeSettled (o.applied J d) (o.committed J t) edge.id ↔
      (∀ n, (n, edge.id) ∈ t.edgeFromIndex → n = edge.from_ ∨ (n, edge.id) ∈ d.edgeFromIndex) ∧
      (∀ n, (n, edge.id) ∈ t.edgeToIndex → n = edge.to_ ∨ (n, edge.id) ∈ d.edgeToIndex) ∧
      ∀ ty, (ty, edge.id) ∈ t.edgeTypeIndex ↔
        ty = edge.edgeType ∨ (ty, edge.id) ∈ d.edgeTypeIndex := by
  have hmem : ∀ {κ : Type} [LinearOrder κ] (m : Multimap κ EdgeId) (k k' : κ),
      (k', edge.id) ∈ m.insert k edge.id ↔ k' = k ∨ (k', edge.id) ∈ m := by
    intro κ _ m k k'
    rw [Multimap.mem_insert, Prod.mk.injEq, and_iff_left rfl]
  obtain ⟨op, directAt, commitAt⟩ := o
  obtain rfl : op = .insertEdge edge := ho
  have hrow : (t.edges.insert edge.id (J.edge edge))[edge.id]? ≠ none := by simp
  constructor
  · intro h
    refine ⟨fun n hn => ?_, fun n hn => ?_, fun ty => ?_⟩
    · exact (hmem _ _ _).mp (h.fromIndex hrow n ((hmem _ _ _).mpr (.inr hn)))
    · exact (hmem _ _ _).mp (h.toIndex hrow n ((hmem _ _ _).mpr (.inr hn)))
    · exact (h.typeIndex hrow ty).symm.trans (hmem _ _ _)
  · rintro ⟨hfrom, hto, htype⟩
    refine ⟨?_, fun _ n hn => ?_, fun _ n hn => ?_, fun _ ty => ?_⟩
    · exact (OrdMap.get_insert_self _ _ _).trans (OrdMap.get_insert_self _ _ _).symm
    · exact (hmem _ _ _).mpr (((hmem _ _ _).mp hn).elim .inl (hfrom n))
    · exact (hmem _ _ _).mpr (((hmem _ _ _).mp hn).elim .inl (hto n))
    · exact (hmem _ _ _).trans (htype ty).symm

/-- What the insertion of a node must find to leave it settled. -/
theorem nodeSettled_insertNode (node : Node) (o : TimedOp) (ho : o.op = .insertNode node) :
    NodeSettled (o.applied J d) (o.committed J t) node.id ↔
      ∀ ty, (ty, node.id) ∈ t.nodeTypeIndex →
        ty = node.nodeType ∨ (ty, node.id) ∈ d.nodeTypeIndex := by
  have hmem : ∀ (m : Multimap String NodeId) (k k' : String),
      (k', node.id) ∈ m.insert k node.id ↔ k' = k ∨ (k', node.id) ∈ m := by
    intro m k k'
    rw [Multimap.mem_insert, Prod.mk.injEq, and_iff_left rfl]
  obtain ⟨op, directAt, commitAt⟩ := o
  obtain rfl : op = .insertNode node := ho
  have hrow : (t.nodes.insert node.id (J.node node))[node.id]? ≠ none := by simp
  constructor
  · intro h ty hty
    exact (hmem _ _ _).mp (h hrow ty ((hmem _ _ _).mpr (.inr hty)))
  · intro h _ ty hty
    exact (hmem _ _ _).mpr (((hmem _ _ _).mp hty).elim .inl (h ty))

theorem insertEdge_settled_iff (edge : Edge) (o : TimedOp) (ho : o.op = .insertEdge edge)
    (hoff : ∀ o' ∈ after, ¬ o'.op.OnEdge edge.id) :
    EdgeSettled (o.applied J (applied J s before)) (o.committed J (committed J s before)) edge.id ↔
      StepSafe s before (applied J s before) o.op after := by
  rw [edgeSettled_insertEdge edge o ho, ho]
  simp only [mem_fromIndex_commit, mem_toIndex_commit, edgeTypeIndex_commit]
  exact ⟨fun h _ => h, fun h => h hoff⟩

theorem insertNode_settled_iff (node : Node) (o : TimedOp) (ho : o.op = .insertNode node)
    (hoff : ∀ o' ∈ after, ¬ o'.op.OnNode node.id) :
    NodeSettled (o.applied J (applied J s before)) (o.committed J (committed J s before)) node.id ↔
      StepSafe s before (applied J s before) o.op after := by
  rw [nodeSettled_insertNode node o ho, ho]
  simp only [mem_typeIndex_commit]
  exact ⟨fun h _ => h, fun h => h hoff⟩

end

/-! ### From safe operations to equal answers -/

section

variable {J : Serde} {s : LocalStorage} {ops : List TimedOp}

/-- A safe deletion of a node takes along only edges that come back, or are deleted, by id. -/
theorem StepSafe.takesAlong {before after : List TimedOp} {d : LocalStorage} {op : TransactionOp}
    (h : StepSafe s before d op after) {i : EdgeId} (htakes : op.TakesAlong d i)
    (hrow : d.edges[i]? ≠ none) : ∃ o' ∈ after, o'.op.OnEdge i := by
  cases op with
  | deleteNode id => exact h i htakes hrow
  | _ => exact htakes.elim

theorem edgeSettled_of_safe (h : ∀ before o after, ops = before ++ o :: after →
      StepSafe s before (applied J s before) o.op after) {before after : List TimedOp}
    (hops : ops = before ++ after) {i : EdgeId} (hoff : ∀ o ∈ after, ¬ o.op.OnEdge i) :
    EdgeSettled (applied J s before) (committed J s before) i := by
  induction before using List.reverseRecOn generalizing after with
  | nil => exact .refl s i
  | append_singleton before o ih =>
      rw [List.append_assoc, List.singleton_append] at hops
      have hsafe := h before o after hops
      rw [applied, committed, Run.run_concat, Run.run_concat]
      by_cases hon : o.op.OnEdge i
      · cases hop : o.op with
        | insertEdge edge =>
            rw [hop] at hon
            obtain rfl : edge.id = i := hon
            exact (insertEdge_settled_iff edge o hop hoff).mpr hsafe
        | deleteEdge j =>
            rw [hop] at hon
            obtain rfl : j = i := hon
            simp only [TimedOp.applied, TimedOp.committed, hop]
            refine .of_none ?_ (OrdMap.get_erase_self _ _)
            rw [edges_removeEdge, OrdMap.get_erase_self]
        | _ => rw [hop] at hon; exact hon.elim
      · have hsettled := ih hops (List.forall_mem_cons.mpr ⟨hon, hoff⟩)
        have hcommit := keepsEdge_commit (J := J) (s := committed J s before) hon
        rcases direct_edge (J := J) (s := applied J s before) hon with hkeeps | ⟨htakes, hgone⟩
        · exact hsettled.of_keeps hkeeps hcommit
        · have hnone : (applied J s before).edges[i]? = none := by
            by_contra hrow
            obtain ⟨o', ho', hon'⟩ := hsafe.takesAlong htakes hrow
            exact hoff o' ho' hon'
          exact .of_none hgone (hcommit.row.trans (hsettled.row.symm.trans hnone))

theorem nodeSettled_of_safe (h : ∀ before o after, ops = before ++ o :: after →
      StepSafe s before (applied J s before) o.op after) {before after : List TimedOp}
    (hops : ops = before ++ after) {id : NodeId} (hoff : ∀ o ∈ after, ¬ o.op.OnNode id) :
    NodeSettled (applied J s before) (committed J s before) id := by
  induction before using List.reverseRecOn generalizing after with
  | nil => exact fun _ _ hty => hty
  | append_singleton before o ih =>
      rw [List.append_assoc, List.singleton_append] at hops
      have hsafe := h before o after hops
      rw [applied, committed, Run.run_concat, Run.run_concat]
      by_cases hon : o.op.OnNode id
      · cases hop : o.op with
        | insertNode node =>
            rw [hop] at hon
            obtain rfl : node.id = id := hon
            exact (insertNode_settled_iff node o hop hoff).mpr hsafe
        | deleteNode id' =>
            rw [hop] at hon
            obtain rfl : id' = id := hon
            intro hrow
            simp only [TimedOp.committed, hop] at hrow
            exact absurd (OrdMap.get_erase_self _ _) hrow
        | _ => rw [hop] at hon; exact hon.elim
      · have hsettled := ih hops (List.forall_mem_cons.mpr ⟨hon, hoff⟩)
        exact hsettled.of_keeps (keepsNode_direct hon) (keepsNode_commit hon)

/-! ### From equal answers to safe operations -/

theorem direct_append (J : Serde) (s : LocalStorage) (before : List TimedOp) (o : TimedOp)
    (after : List TimedOp) : applied J s (before ++ o :: after) =
      applied J (o.applied J (applied J s before)) after := by
  unfold applied
  rw [Run.run_append, Run.run_cons]

theorem commit_append (J : Serde) (s : LocalStorage) (before : List TimedOp) (o : TimedOp)
    (after : List TimedOp) : committed J s (before ++ o :: after) =
      committed J (o.committed J (committed J s before)) after := by
  unfold committed
  rw [Run.run_append, Run.run_cons]

theorem stepSafe_of_settled (hedges : ∀ i, EdgeSettled (applied J s ops) (committed J s ops) i)
    (hnodes : ∀ id, NodeSettled (applied J s ops) (committed J s ops) id)
      {before after : List TimedOp}
    {o : TimedOp} (hops : ops = before ++ o :: after) :
    StepSafe s before (applied J s before) o.op after := by
  subst hops
  rw [direct_append, commit_append] at hedges hnodes
  cases hop : o.op with
  | insertNode node =>
      intro hoff
      have hbefore := (hnodes node.id).of_keeps (keepsNode_direct_run hoff).symm
        (keepsNode_commit_run hoff).symm
      have hsafe := (insertNode_settled_iff node o hop hoff).mp hbefore
      rw [hop] at hsafe
      exact hsafe hoff
  | updateNode id properties => trivial
  | deleteNode id =>
      intro i hmem hrow
      by_contra hnone
      have hoff : ∀ o' ∈ after, ¬ o'.op.OnEdge i := fun o' ho' hon => hnone ⟨o', ho', hon⟩
      -- The direct storage loses the edge for good, the committed one still has it.
      obtain ⟨e, he⟩ := Option.ne_none_iff_exists'.mp hrow
      have hgone : (o.applied J (applied J s before)).edges[i]? = none := by
        simp only [TimedOp.applied, hop]
        rw [get_edges_removeNode, if_pos hmem]
      have hthere : (o.committed J (committed J s before)).edges[i]? = some e := by
        have hoff' : ¬ o.op.OnEdge i := by
          rw [hop]
          exact not_false
        rw [(keepsEdge_commit hoff').row]
        exact (lags_run J s before).rows i e he
      have hfinal := (hedges i).row
      rw [edge_gone_run hoff hgone, (keepsEdge_commit_run hoff).row, hthere] at hfinal
      cases hfinal
  | insertEdge edge =>
      intro hoff
      have hrow : (o.committed J (committed J s before)).edges[edge.id]? ≠ none := by
        simp [TimedOp.committed, hop]
      have hkeeps := keepsEdge_commit_run (J := J) (s := o.committed J (committed J s before)) hoff
      have hdirect : (applied J (o.applied J (applied J s before)) after).edges[edge.id]? ≠
          none := by
        rw [(hedges edge.id).row, hkeeps.row]
        exact hrow
      have hbefore := (hedges edge.id).of_keeps (keepsEdge_direct_run hoff hdirect).symm hkeeps.symm
      have hsafe := (insertEdge_settled_iff edge o hop hoff).mp hbefore
      rw [hop] at hsafe
      exact hsafe hoff
  | deleteEdge i => trivial

end

/-! ### Rows under their own ids -/

theorem keyed_insert {κ δ : Type} [LinearOrder κ] {m : OrdMap κ δ} {key : δ → κ}
    (h : ∀ (i : κ) (x : δ), m[i]? = some x → key x = i) {k : κ} {y : δ} (hy : key y = k) (i : κ)
    (x : δ) (hx : (m.insert k y)[i]? = some x) : key x = i := by
  rw [OrdMap.get_insert] at hx
  split_ifs at hx with hi
  · rw [← Option.some.inj hx, hy, hi]
  · exact h i x hx

theorem keyed_erase {κ δ : Type} [LinearOrder κ] {m : OrdMap κ δ} {key : δ → κ}
    (h : ∀ (i : κ) (x : δ), m[i]? = some x → key x = i) (k i : κ)
    (x : δ) (hx : (m.erase k)[i]? = some x) : key x = i := by
  rw [OrdMap.get_erase] at hx
  split_ifs at hx
  exact h i x hx

namespace Keyed

variable {J : Serde} {s : LocalStorage} (hs : Keyed s)
include hs

theorem commit_step (o : TimedOp) : Keyed (o.committed J s) := by
  obtain ⟨op, directAt, commitAt⟩ := o
  cases op with
  | insertNode node => exact ⟨keyed_insert hs.nodes rfl, hs.edges⟩
  | updateNode id properties =>
      simp only [TimedOp.committed]
      cases hrow : s.nodes[id]? with
      | none => exact hs
      | some node => exact ⟨keyed_insert hs.nodes (hs.nodes id node hrow), hs.edges⟩
  | deleteNode id => exact ⟨keyed_erase hs.nodes id, hs.edges⟩
  | insertEdge edge => exact ⟨hs.nodes, keyed_insert hs.edges rfl⟩
  | deleteEdge i => exact ⟨hs.nodes, keyed_erase hs.edges i⟩

theorem direct_step (o : TimedOp) : Keyed (o.applied J s) := by
  obtain ⟨op, directAt, commitAt⟩ := o
  cases op with
  | insertNode node => exact ⟨keyed_insert hs.nodes rfl, hs.edges⟩
  | updateNode id properties =>
      simp only [TimedOp.applied]
      cases hrow : s.nodes[id]? with
      | none => exact hs
      | some node => exact ⟨keyed_insert hs.nodes (hs.nodes id node hrow), hs.edges⟩
  | deleteNode id =>
      constructor
      · simp only [TimedOp.applied]
        rw [nodes_removeNode]
        exact keyed_erase hs.nodes id
      · intro i e hi
        simp only [TimedOp.applied] at hi
        rw [get_edges_removeNode] at hi
        split_ifs at hi
        exact hs.edges i e hi
  | insertEdge edge => exact ⟨hs.nodes, keyed_insert hs.edges rfl⟩
  | deleteEdge i =>
      simp only [TimedOp.applied]
      constructor
      · rw [(nodes_removeEdge s i).1]
        exact hs.nodes
      · rw [edges_removeEdge]
        exact keyed_erase hs.edges i

theorem committed (ops : List TimedOp) : Keyed (committed J s ops) :=
  Run.invariant (fun _ o h => h.commit_step o) hs ops

theorem applied (ops : List TimedOp) : Keyed (applied J s ops) :=
  Run.invariant (fun _ o h => h.direct_step o) hs ops

end Keyed

/-! ### Rows that parse -/

/-- The rows that the operation writes parse. -/
def TransactionOp.Writes (d : LocalStorage) : TransactionOp → Prop
  | insertNode node => node.parses = true
  | updateNode id properties =>
      ∀ node, d.nodes[id]? = some node → (touchNode 0 node properties).parses = true
  | insertEdge edge => edge.parses = true
  | _ => True

/-- All rows parse, at first and as they are written. -/
structure Legible (J : Serde) (s : LocalStorage) (ops : List TimedOp) : Prop where
  first : RowsParse s
  writes : Run.Along (TimedOp.direct J) (fun d o => o.op.Writes d) s ops

theorem parses_insert {κ δ : Type} [LinearOrder κ] {m : OrdMap κ δ} {parses : δ → Bool}
    (h : ∀ (i : κ) (x : δ), m[i]? = some x → parses x = true) {k : κ} {y : δ}
    (hy : parses y = true) (i : κ) (x : δ) (hx : (m.insert k y)[i]? = some x) :
    parses x = true := by
  rw [OrdMap.get_insert] at hx
  split_ifs at hx with hi
  · rwa [← Option.some.inj hx]
  · exact h i x hx

theorem parses_erase {κ δ : Type} [LinearOrder κ] {m : OrdMap κ δ} {parses : δ → Bool}
    (h : ∀ (i : κ) (x : δ), m[i]? = some x → parses x = true) (k i : κ) (x : δ)
    (hx : (m.erase k)[i]? = some x) : parses x = true := by
  rw [OrdMap.get_erase] at hx
  split_ifs at hx
  exact h i x hx

/-- Whether a row parses does not depend on its times. -/
theorem parses_touchNode (J : Serde) (now : Timestamp) {node node' : Node}
    (h : node'.untimed = node.untimed) {properties : Value}
    (hparses : (touchNode 0 node properties).parses = true) :
    (J.node (touchNode now node' properties)).parses = true := by
  have hprops : node'.untimed.properties = node.untimed.properties := by rw [h]
  rw [J.parses_node]
  unfold Node.parses touchNode at hparses ⊢
  rwa [show node'.properties = node.properties from hprops]

namespace RowsParse

variable {J : Serde} {d t : LocalStorage} {o : TimedOp}

theorem reads (h : RowsParse d) (op : TransactionOp) : op.Reads d := by
  have hnode : ∀ id : NodeId, (d.nodes[id]?).all Node.parses = true := by
    intro id
    cases hid : d.nodes[id]? with
    | none => rfl
    | some node => exact h.nodes id node hid
  cases op with
  | updateNode id properties => exact hnode id
  | deleteNode id => exact hnode id
  | deleteEdge i =>
      show (d.edges[i]?).all Edge.parses = true
      cases hi : d.edges[i]? with
      | none => rfl
      | some e => exact h.edges i e hi
  | insertNode node => trivial
  | insertEdge edge => trivial

theorem direct_step (h : RowsParse d) (hwrites : o.op.Writes d) :
    RowsParse (o.applied J d) := by
  obtain ⟨op, directAt, commitAt⟩ := o
  cases op with
  | insertNode node =>
      exact ⟨parses_insert h.nodes ((J.parses_node node).trans hwrites), h.edges⟩
  | updateNode id properties =>
      simp only [TimedOp.applied]
      cases hrow : d.nodes[id]? with
      | none => exact h
      | some node =>
          exact ⟨parses_insert h.nodes (parses_touchNode J _ rfl (hwrites node hrow)), h.edges⟩
  | deleteNode id =>
      constructor
      · simp only [TimedOp.applied]
        rw [nodes_removeNode]
        exact parses_erase h.nodes id
      · intro i e hi
        simp only [TimedOp.applied] at hi
        rw [get_edges_removeNode] at hi
        split_ifs at hi
        exact h.edges i e hi
  | insertEdge edge =>
      exact ⟨h.nodes, parses_insert h.edges ((J.parses_edge edge).trans hwrites)⟩
  | deleteEdge i =>
      simp only [TimedOp.applied]
      constructor
      · rw [(nodes_removeEdge d i).1]
        exact h.nodes
      · rw [edges_removeEdge]
        exact parses_erase h.edges i

/-- The commit writes what the direct operation does, times aside. -/
theorem commit_step (h : RowsParse t) (hlags : Lags d t) (hwrites : o.op.Writes d) :
    RowsParse (o.committed J t) := by
  obtain ⟨op, directAt, commitAt⟩ := o
  cases op with
  | insertNode node =>
      exact ⟨parses_insert h.nodes ((J.parses_node node).trans hwrites), h.edges⟩
  | updateNode id properties =>
      simp only [TimedOp.committed]
      cases hrow : t.nodes[id]? with
      | none => exact h
      | some node' =>
          have hid := hlags.nodes id
          rw [hrow, Option.map_some] at hid
          obtain ⟨node, hnode, hsame⟩ := Option.map_eq_some_iff.mp hid
          have hnew := parses_touchNode J commitAt hsame.symm (hwrites node hnode)
          exact ⟨parses_insert h.nodes hnew, h.edges⟩
  | deleteNode id => exact ⟨parses_erase h.nodes id, h.edges⟩
  | insertEdge edge =>
      exact ⟨h.nodes, parses_insert h.edges ((J.parses_edge edge).trans hwrites)⟩
  | deleteEdge i => exact ⟨h.nodes, parses_erase h.edges i⟩

end RowsParse

namespace Legible

variable {J : Serde} {s : LocalStorage} {ops : List TimedOp}

theorem reads (h : Legible J s ops) : Reads J s ops := by
  have hstep : ∀ (d : LocalStorage) (o : TimedOp), RowsParse d → o.op.Writes d →
      RowsParse (TimedOp.direct J d o) := by
    intro d o hd hwrites
    rw [TimedOp.direct_eq (hd.reads o.op)]
    exact hd.direct_step hwrites
  exact h.writes.imp_of_invariant hstep (fun d o hd _ => hd.reads o.op) h.first

/-- Both sides keep to rows that parse. -/
theorem rowsParse (h : Legible J s ops) :
    RowsParse (applied J s ops) ∧ RowsParse (committed J s ops) := by
  induction ops using List.reverseRecOn with
  | nil => exact ⟨h.first, h.first⟩
  | append_singleton ops o ih =>
      obtain ⟨hpast, ho⟩ := Run.along_concat.mp h.writes
      have hbefore : Legible J s ops := ⟨h.first, hpast⟩
      obtain ⟨hdirect, hcommit⟩ := ih hbefore
      have hwrites : o.op.Writes (applied J s ops) := by
        rw [← direct_eq_applied hbefore.reads]
        exact ho
      rw [applied, committed, Run.run_concat, Run.run_concat]
      exact ⟨hdirect.direct_step hwrites, hcommit.commit_step (lags_run J s ops) hwrites⟩

end Legible

/-! ### The result -/

section

variable {J : Serde} {s : LocalStorage} {ops : List TimedOp}

/-- Where no read fails, what is asked of an operation is asked of what is written before it. -/
theorem safe_iff_applied (h : Reads J s ops) :
    Safe J s ops ↔ ∀ before o after, ops = before ++ o :: after →
      StepSafe s before (applied J s before) o.op after := by
  have hbefore : ∀ before o after, ops = before ++ o :: after →
      direct J s before = applied J s before := by
    intro before o after hops
    exact direct_eq_applied (Run.Along.upto h ⟨o :: after, hops.symm⟩)
  constructor
  · intro hsafe before o after hops
    rw [← hbefore before o after hops]
    exact hsafe before o after hops
  · intro hsafe before o after hops
    rw [hbefore before o after hops]
    exact hsafe before o after hops

theorem sameMeaning_iff_answers (h : Reads J s ops) :
    SameMeaning J s ops ↔ SameAnswers (applied J s ops) (committed J s ops) := by
  unfold SameMeaning
  rw [commit_eq_committed h, direct_eq_applied h]
  constructor
  · rintro ⟨t, ht, hsame⟩
    rwa [Option.some.inj ht]
  · exact fun hsame => ⟨_, rfl, hsame⟩

theorem sameMeaning_of_safe (hreads : Reads J s ops) (hsafe : Safe J s ops) :
    SameMeaning J s ops := by
  rw [sameMeaning_iff_answers hreads]
  rw [safe_iff_applied hreads] at hsafe
  have hops : ops = ops ++ [] := (List.append_nil ops).symm
  refine (sameRows_of_settled (lags_run J s ops) (fun i => ?_) fun id => ?_).answers
  · exact edgeSettled_of_safe hsafe hops (by simp)
  · exact nodeSettled_of_safe hsafe hops (by simp)

theorem safe_of_sameMeaning (hs : Keyed s) (h : Legible J s ops) (hsame : SameMeaning J s ops) :
    Safe J s ops := by
  rw [sameMeaning_iff_answers h.reads] at hsame
  rw [safe_iff_applied h.reads]
  obtain ⟨hdirect, hcommit⟩ := h.rowsParse
  intro before o after hops
  refine stepSafe_of_settled (fun i => ?_) (fun id => ?_) hops
  · exact hsame.edgeSettled (hs.applied ops) (hs.committed ops) hdirect hcommit i
  · exact hsame.nodeSettled (hs.applied ops) (hs.committed ops) hdirect hcommit id

end

/-- A committed transaction answers as its operations applied directly do when none of them fails
on a row it reads and each is safe; and where all rows parse, only when each is safe. -/
theorem answers_eq_iff_safe (J : Serde) (s : LocalStorage) (hs : Keyed s) (ops : List TimedOp) :
    (Reads J s ops ∧ Safe J s ops → SameMeaning J s ops) ∧
      (Legible J s ops → (SameMeaning J s ops ↔ Reads J s ops ∧ Safe J s ops)) := by
  have hsafe : Reads J s ops ∧ Safe J s ops → SameMeaning J s ops := by
    rintro ⟨hreads, hsafe⟩
    exact sameMeaning_of_safe hreads hsafe
  exact ⟨hsafe, fun h => ⟨fun hsame => ⟨h.reads, safe_of_sameMeaning hs h hsame⟩, hsafe⟩⟩

theorem keyed_create : Keyed create :=
  ⟨fun id n h => by simp [create] at h, fun i e h => by simp [create] at h⟩

def sampleNode : Node := ⟨⟨1⟩, "user", ∅, 0, 0⟩

/-- The insertion of a node and an update of it. -/
def sampleUpdate : List TimedOp :=
  [⟨.insertNode sampleNode, 0, 5⟩, ⟨.updateNode ⟨1⟩ (.object [("age", .int 3)]), 1, 6⟩]

theorem safe_sampleUpdate : Safe plainJson create sampleUpdate := by
  intro before o after hops
  rcases before with _ | ⟨o₁, _ | ⟨o₂, before⟩⟩
  · obtain ⟨rfl, -⟩ := List.cons.inj hops
    rintro - ty (hty | ⟨o', ho', _⟩)
    · exact absurd hty (Multimap.not_mem_empty _)
    · exact absurd ho' List.not_mem_nil
  · obtain ⟨-, hrest⟩ := List.cons.inj hops
    obtain ⟨rfl, -⟩ := List.cons.inj hrest
    trivial
  · have hlen := congrArg List.length hops
    simp [sampleUpdate] at hlen

theorem legible_sampleUpdate : Legible plainJson create sampleUpdate := by
  refine ⟨⟨?_, ?_⟩, ?_⟩
  · intro id n h
    simp [create] at h
  · intro i e h
    simp [create] at h
  · refine ⟨?_, fun node hnode => ?_, trivial⟩
    · show sampleNode.parses = true
      decide +kernel
    · have hrow : some (plainJson.node sampleNode) = some node :=
        (OrdMap.get_insert_self _ _ _).symm.trans hnode
      obtain rfl := Option.some.inj hrow
      decide +kernel

theorem answers_eq_iff_safe_sample :
    Keyed create ∧ Legible plainJson create sampleUpdate ∧
      SameMeaning plainJson create sampleUpdate :=
  ⟨keyed_create, legible_sampleUpdate,
    ((answers_eq_iff_safe _ create keyed_create sampleUpdate).2 legible_sampleUpdate).mpr
      ⟨legible_sampleUpdate.reads, safe_sampleUpdate⟩⟩

/-- One new edge, in a new database. -/
def sampleInsert : List TimedOp :=
  [⟨.insertEdge ⟨⟨1⟩, ⟨10⟩, ⟨11⟩, "follows", ∅, 0⟩, 0, 0⟩]

/-- The committed storage does not list the edge under its type. -/
theorem transaction_answers_differ : ¬ SameMeaning plainJson create sampleInsert := by
  rintro ⟨t, ht, h⟩
  obtain rfl := Option.some.inj ht
  have hlength := congrArg (Option.map List.length) (h.getEdgesByType "follows" none)
  exact absurd hlength (by decide +kernel)

end AresaDb.Store
