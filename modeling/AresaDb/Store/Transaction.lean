import AresaDb.Lib.Run
import AresaDb.Store.Local

/-! # Transactions against direct operations

A transaction buffers operations and writes them in one commit (`Transaction::commit` of
`storage/local.rs`).  The commit has its own code for each operation, and three of the five do less
than the operation of the storage itself: deleting a node leaves its edges and its type entry,
inserting an edge does not list it under its type, and deleting an edge leaves its index entries.

The direct storage therefore lags behind the committed one (`Lags`): it has the same nodes, and no
row or entry of the node type, from and to indexes that the committed storage lacks.  Whether the
difference shows is a matter of each id by itself, and of the last operation on it
(`Safe`, `answers_eq_iff_safe`).

That is so as long as no operation fails on a row that does not parse (`Reads`): a direct operation
that fails leaves the storage as it is, an update that fails undoes the whole of the commit, and the
commit deletes rows without reading them. -/

namespace AresaDb.Store

open LocalStorage

/-- A buffered operation. -/
inductive TransactionOp where
  | insertNode (node : Node)
  | updateNode (id : NodeId) (properties : Value)
  | deleteNode (id : NodeId)
  | insertEdge (edge : Edge)
  | deleteEdge (id : EdgeId)

/-- An operation with the time at which it runs directly, and at which the commit runs it. -/
structure TimedOp where
  op : TransactionOp
  directAt : Timestamp
  commitAt : Timestamp

/-- The operation of the storage; one that fails changes nothing. -/
def TimedOp.direct (J : Serde) (s : LocalStorage) (o : TimedOp) : LocalStorage :=
  match o.op with
  | .insertNode node => s.insertNode J node
  | .updateNode id properties => (s.updateNode J o.directAt id properties).getD s
  | .deleteNode id => (s.deleteNode id).getD s
  | .insertEdge edge => s.insertEdge J edge
  | .deleteEdge id => (s.deleteEdge id).getD s

/-- One round of the loop of the commit. -/
def TimedOp.commit (J : Serde) (s : LocalStorage) (o : TimedOp) : Option LocalStorage :=
  match o.op with
  | .insertNode node =>
      some { s with
        nodes := s.nodes.insert node.id (J.node node)
        nodeTypeIndex := s.nodeTypeIndex.insert node.nodeType node.id }
  | .updateNode id properties =>
      (readRow Node.parses s.nodes[id]?).map fun
        | some node =>
            { s with nodes := s.nodes.insert id (J.node (touchNode o.commitAt node properties)) }
        | none => s
  | .deleteNode id => some { s with nodes := s.nodes.erase id }
  | .insertEdge edge =>
      some { s with
        edges := s.edges.insert edge.id (J.edge edge)
        edgeFromIndex := s.edgeFromIndex.insert edge.from_ edge.id
        edgeToIndex := s.edgeToIndex.insert edge.to_ edge.id }
  | .deleteEdge id => some { s with edges := s.edges.erase id }

/-- The operations applied to the storage one after the other. -/
def direct (J : Serde) (s : LocalStorage) (ops : List TimedOp) : LocalStorage :=
  Run.run (TimedOp.direct J) s ops

/-- The operations buffered and committed; nothing is written when a round fails. -/
def commit (J : Serde) (s : LocalStorage) (ops : List TimedOp) : Option LocalStorage :=
  ops.foldlM (TimedOp.commit J) s

/-! ### Answers -/

/-- A node without the time of its last update. -/
def Node.untimed (n : Node) : Node := { n with updatedAt := 0 }

/-- Two storages answer every query alike, with the rows or with an error, update times aside. -/
structure SameAnswers (d t : LocalStorage) : Prop where
  getNode : ∀ id, (d.getNode id).map (Option.map Node.untimed) =
    (t.getNode id).map (Option.map Node.untimed)
  getNodesByType : ∀ nodeType limit,
    (d.getNodesByType nodeType limit).map (List.map Node.untimed) =
      (t.getNodesByType nodeType limit).map (List.map Node.untimed)
  getAllNodes : ∀ limit, (d.getAllNodes limit).map (List.map Node.untimed) =
    (t.getAllNodes limit).map (List.map Node.untimed)
  getEdge : ∀ id, d.getEdge id = t.getEdge id
  getEdgesFrom : ∀ n f, d.getEdgesFrom n f = t.getEdgesFrom n f
  getEdgesTo : ∀ n f, d.getEdgesTo n f = t.getEdgesTo n f
  getEdgesByType : ∀ edgeType limit, d.getEdgesByType edgeType limit =
    t.getEdgesByType edgeType limit

/-- The transaction can be committed, and the storage then answers as after the direct operations.
-/
def SameMeaning (J : Serde) (s : LocalStorage) (ops : List TimedOp) : Prop :=
  ∃ t, commit J s ops = some t ∧ SameAnswers (direct J s ops) t

/-- Rows are stored under their own ids. -/
structure Keyed (s : LocalStorage) : Prop where
  nodes : ∀ (id : NodeId) (n : Node), s.nodes[id]? = some n → n.id = id
  edges : ∀ (i : EdgeId) (e : Edge), s.edges[i]? = some e → e.id = i

/-! ### The condition -/

namespace TransactionOp

/-- The operation inserts or deletes the node. -/
def OnNode (id : NodeId) : TransactionOp → Prop
  | insertNode node => node.id = id
  | deleteNode id' => id' = id
  | _ => False

/-- The operation inserts or deletes the edge. -/
def OnEdge (i : EdgeId) : TransactionOp → Prop
  | insertEdge edge => edge.id = i
  | deleteEdge i' => i' = i
  | _ => False

/-- The operation lists a node under its type. -/
def ListsType : TransactionOp → String × NodeId → Prop
  | insertNode node, p => p = (node.nodeType, node.id)
  | _, _ => False

/-- The operation lists an edge under its source. -/
def ListsFrom : TransactionOp → NodeId × EdgeId → Prop
  | insertEdge edge, p => p = (edge.from_, edge.id)
  | _, _ => False

/-- The operation lists an edge under its target. -/
def ListsTo : TransactionOp → NodeId × EdgeId → Prop
  | insertEdge edge, p => p = (edge.to_, edge.id)
  | _, _ => False

end TransactionOp

/-- The entry was in the index at first, or an operation put it there. -/
def EverListed {π : Type} (first : π → Prop) (lists : TransactionOp → π → Prop) (ops : List TimedOp)
    (p : π) : Prop :=
  first p ∨ ∃ o ∈ ops, lists o.op p

/-- What must hold of an operation after `before`, with `d` the storage the direct operations have
reached and `after` the operations still to come.

* The last operation on a node id, when it is an insertion: the types ever listed for the id are
  its type and those still listed.
* A deletion of a node: the edges it takes along are all inserted or deleted again by id later.
* The last operation on an edge id, when it is an insertion: the nodes ever listed for the id are
  its ends and those still listed, and the type index lists it under the types it was listed under
  in the first place, its own type among them. -/
def StepSafe (s : LocalStorage) (before : List TimedOp) (d : LocalStorage) (o : TransactionOp)
    (after : List TimedOp) : Prop :=
  match o with
  | .insertNode node =>
      (∀ o' ∈ after, ¬ o'.op.OnNode node.id) →
        ∀ ty, EverListed (· ∈ s.nodeTypeIndex) TransactionOp.ListsType before (ty, node.id) →
          ty = node.nodeType ∨ (ty, node.id) ∈ d.nodeTypeIndex
  | .deleteNode id =>
      ∀ i, (id, i) ∈ d.edgeFromIndex ∨ (id, i) ∈ d.edgeToIndex → d.edges[i]? ≠ none →
        ∃ o' ∈ after, o'.op.OnEdge i
  | .insertEdge edge =>
      (∀ o' ∈ after, ¬ o'.op.OnEdge edge.id) →
        (∀ n, EverListed (· ∈ s.edgeFromIndex) TransactionOp.ListsFrom before (n, edge.id) →
          n = edge.from_ ∨ (n, edge.id) ∈ d.edgeFromIndex) ∧
        (∀ n, EverListed (· ∈ s.edgeToIndex) TransactionOp.ListsTo before (n, edge.id) →
          n = edge.to_ ∨ (n, edge.id) ∈ d.edgeToIndex) ∧
        ∀ ty, (ty, edge.id) ∈ s.edgeTypeIndex ↔
          ty = edge.edgeType ∨ (ty, edge.id) ∈ d.edgeTypeIndex
  | _ => True

/-- The condition of every operation of a sequence. -/
def Safe (J : Serde) (s : LocalStorage) (ops : List TimedOp) : Prop :=
  ∀ before o after, ops = before ++ o :: after → StepSafe s before (direct J s before) o.op after

/-- The row that the operation reads, if there is one, parses. -/
def TransactionOp.Reads (s : LocalStorage) : TransactionOp → Prop
  | updateNode id _ | deleteNode id => (s.nodes[id]?).all Node.parses = true
  | deleteEdge id => (s.edges[id]?).all Edge.parses = true
  | _ => True

/-- An update finds a row that parses, or none. -/
def TransactionOp.UpdateReads (t : LocalStorage) : TransactionOp → Prop
  | updateNode id _ => (t.nodes[id]?).all Node.parses = true
  | _ => True

/-- No operation of a sequence fails on a row that does not parse. -/
def Reads (J : Serde) (s : LocalStorage) (ops : List TimedOp) : Prop :=
  Run.Along (TimedOp.direct J) (fun d o => o.op.Reads d) s ops

/-! ### What is written

Once what an operation reads has parsed, this is what it and the commit write. -/

def TimedOp.applied (J : Serde) (s : LocalStorage) (o : TimedOp) : LocalStorage :=
  match o.op with
  | .insertNode node => s.insertNode J node
  | .updateNode id properties =>
      match s.nodes[id]? with
      | some node =>
          { s with nodes := s.nodes.insert id (J.node (touchNode o.directAt node properties)) }
      | none => s
  | .deleteNode id => s.removeNode id
  | .insertEdge edge => s.insertEdge J edge
  | .deleteEdge id => s.removeEdge id

def TimedOp.committed (J : Serde) (s : LocalStorage) (o : TimedOp) : LocalStorage :=
  match o.op with
  | .insertNode node =>
      { s with
        nodes := s.nodes.insert node.id (J.node node)
        nodeTypeIndex := s.nodeTypeIndex.insert node.nodeType node.id }
  | .updateNode id properties =>
      match s.nodes[id]? with
      | some node =>
          { s with nodes := s.nodes.insert id (J.node (touchNode o.commitAt node properties)) }
      | none => s
  | .deleteNode id => { s with nodes := s.nodes.erase id }
  | .insertEdge edge =>
      { s with
        edges := s.edges.insert edge.id (J.edge edge)
        edgeFromIndex := s.edgeFromIndex.insert edge.from_ edge.id
        edgeToIndex := s.edgeToIndex.insert edge.to_ edge.id }
  | .deleteEdge id => { s with edges := s.edges.erase id }

def applied (J : Serde) (s : LocalStorage) (ops : List TimedOp) : LocalStorage :=
  Run.run (TimedOp.applied J) s ops

def committed (J : Serde) (s : LocalStorage) (ops : List TimedOp) : LocalStorage :=
  Run.run (TimedOp.committed J) s ops

theorem TimedOp.direct_eq {J : Serde} {s : LocalStorage} {o : TimedOp} (h : o.op.Reads s) :
    o.direct J s = o.applied J s := by
  obtain ⟨op, directAt, commitAt⟩ := o
  cases op with
  | updateNode id properties =>
      simp only [TimedOp.direct, TimedOp.applied, LocalStorage.updateNode]
      cases hrow : s.nodes[id]? with
      | none => rfl
      | some node =>
          have hparses : node.parses = true := by simpa [TransactionOp.Reads, hrow] using h
          rw [Option.filter_some, if_pos hparses]
          rfl
  | deleteNode id =>
      simp only [TimedOp.direct, TimedOp.applied, LocalStorage.deleteNode]
      rw [if_pos (by exact h), Option.getD_some]
  | deleteEdge id =>
      simp only [TimedOp.direct, TimedOp.applied, LocalStorage.deleteEdge]
      rw [if_pos (by exact h), Option.getD_some]
  | insertNode node => rfl
  | insertEdge edge => rfl

/-! ### One operation on both sides -/

/-- The direct storage has the nodes of the committed one and no row or entry beyond it. -/
structure Lags (d t : LocalStorage) : Prop where
  nodes : ∀ id : NodeId, d.nodes[id]?.map Node.untimed = t.nodes[id]?.map Node.untimed
  typeIndex : ∀ p, p ∈ d.nodeTypeIndex → p ∈ t.nodeTypeIndex
  rows : ∀ (i : EdgeId) (e : Edge), d.edges[i]? = some e → t.edges[i]? = some e
  fromIndex : ∀ p, p ∈ d.edgeFromIndex → p ∈ t.edgeFromIndex
  toIndex : ∀ p, p ∈ d.edgeToIndex → p ∈ t.edgeToIndex

theorem Lags.refl (s : LocalStorage) : Lags s s :=
  ⟨fun _ => rfl, fun _ h => h, fun _ _ h => h, fun _ h => h, fun _ h => h⟩

theorem mem_insert_of_imp {κ ι : Type} [LinearOrder κ] [LinearOrder ι] {m n : Multimap κ ι}
    (h : ∀ p, p ∈ m → p ∈ n) (k : κ) (i : ι) : ∀ p, p ∈ m.insert k i → p ∈ n.insert k i := by
  intro p hp
  rw [Multimap.mem_insert] at hp ⊢
  exact hp.imp_right (h p)

/-- An update touches the same properties whenever it runs. -/
theorem untimed_touchNode (J : Serde) (now : Timestamp) (node : Node) (properties : Value) :
    (J.node (touchNode now node properties)).untimed =
      J.node (touchNode 0 node.untimed properties) := rfl

section

variable {J : Serde} {d t : LocalStorage}

theorem Lags.insertNode (h : Lags d t) (node : Node) : Lags (d.insertNode J node)
    { t with
      nodes := t.nodes.insert node.id (J.node node)
      nodeTypeIndex := t.nodeTypeIndex.insert node.nodeType node.id } where
  nodes id := by
    show ((d.nodes.insert _ _)[id]?).map _ = ((t.nodes.insert _ _)[id]?).map _
    rw [OrdMap.get_insert, OrdMap.get_insert]
    split_ifs
    · rfl
    · exact h.nodes id
  typeIndex := mem_insert_of_imp h.typeIndex _ _
  rows := h.rows
  fromIndex := h.fromIndex
  toIndex := h.toIndex

theorem Lags.updateNode (h : Lags d t) (o : TimedOp) (id : NodeId) (properties : Value)
    (ho : o.op = .updateNode id properties) : Lags (o.applied J d) (o.committed J t) := by
  have hid := h.nodes id
  unfold TimedOp.applied TimedOp.committed
  rw [ho]
  cases hd : d.nodes[id]? with
  | none =>
      rw [hd, Option.map_none] at hid
      have ht : t.nodes[id]? = none := Option.map_eq_none_iff.mp hid.symm
      simp only [hd, ht]
      exact h
  | some node =>
      rw [hd, Option.map_some] at hid
      obtain ⟨node', ht, hnode⟩ := Option.map_eq_some_iff.mp hid.symm
      simp only [hd, ht]
      refine ⟨fun id' => ?_, h.typeIndex, h.rows, h.fromIndex, h.toIndex⟩
      show ((d.nodes.insert _ _)[id']?).map _ = ((t.nodes.insert _ _)[id']?).map _
      rw [OrdMap.get_insert, OrdMap.get_insert]
      split_ifs
      · rw [Option.map_some, Option.map_some, untimed_touchNode, untimed_touchNode, hnode]
      · exact h.nodes id'

theorem Lags.deleteNode (h : Lags d t) (id : NodeId) :
    Lags (d.removeNode id) { t with nodes := t.nodes.erase id } where
  nodes id' := by
    show ((d.removeNode id).nodes[id']?).map _ = ((t.nodes.erase id)[id']?).map _
    rw [nodes_removeNode, OrdMap.get_erase, OrdMap.get_erase]
    split_ifs
    · rfl
    · exact h.nodes id'
  typeIndex p hp := h.typeIndex p (mem_typeIndex_removeNode.1 hp)
  rows i e hi := by
    rw [get_edges_removeNode] at hi
    split_ifs at hi
    exact h.rows i e hi
  fromIndex p hp := h.fromIndex p (mem_fromIndex_removeNode.mp hp).2
  toIndex p hp := h.toIndex p (mem_toIndex_removeNode.mp hp).2

theorem Lags.insertEdge (h : Lags d t) (edge : Edge) : Lags (d.insertEdge J edge)
    { t with
      edges := t.edges.insert edge.id (J.edge edge)
      edgeFromIndex := t.edgeFromIndex.insert edge.from_ edge.id
      edgeToIndex := t.edgeToIndex.insert edge.to_ edge.id } where
  nodes := h.nodes
  typeIndex := h.typeIndex
  rows i e hi := by
    replace hi : (d.edges.insert edge.id (J.edge edge))[i]? = some e := hi
    show (t.edges.insert edge.id (J.edge edge))[i]? = some e
    rw [OrdMap.get_insert] at hi ⊢
    split_ifs at hi ⊢
    · exact hi
    · exact h.rows i e hi
  fromIndex := mem_insert_of_imp h.fromIndex _ _
  toIndex := mem_insert_of_imp h.toIndex _ _

theorem nodes_removeEdge (s : LocalStorage) (i : EdgeId) :
    (s.removeEdge i).nodes = s.nodes ∧ (s.removeEdge i).nodeTypeIndex = s.nodeTypeIndex := by
  unfold LocalStorage.removeEdge
  split <;> exact ⟨rfl, rfl⟩

theorem Lags.deleteEdge (h : Lags d t) (i : EdgeId) :
    Lags (d.removeEdge i) { t with edges := t.edges.erase i } where
  nodes id := by
    rw [(nodes_removeEdge d i).1]
    exact h.nodes id
  typeIndex p hp := by
    rw [(nodes_removeEdge d i).2] at hp
    exact h.typeIndex p hp
  rows j e hj := by
    rw [edges_removeEdge, OrdMap.get_erase] at hj
    show (t.edges.erase i)[j]? = some e
    rw [OrdMap.get_erase]
    split_ifs at hj ⊢
    exact h.rows j e hj
  fromIndex p hp := h.fromIndex p ((mem_index_removeEdge.1 p).1 hp)
  toIndex p hp := h.toIndex p ((mem_index_removeEdge.2.1 p).1 hp)

theorem Lags.step (h : Lags d t) (o : TimedOp) : Lags (o.applied J d) (o.committed J t) := by
  obtain ⟨op, directAt, commitAt⟩ := o
  cases op with
  | insertNode node => exact h.insertNode node
  | updateNode id properties => exact h.updateNode _ id properties rfl
  | deleteNode id => exact h.deleteNode id
  | insertEdge edge => exact h.insertEdge edge
  | deleteEdge i => exact h.deleteEdge i

end

theorem lags_run (J : Serde) (s : LocalStorage) (ops : List TimedOp) :
    Lags (applied J s ops) (committed J s ops) := by
  induction ops using List.reverseRecOn with
  | nil => exact .refl s
  | append_singleton ops o ih =>
      rw [applied, committed, Run.run_concat, Run.run_concat]
      exact ih.step o

/-! ### Where nothing fails -/

/-- The nodes on both sides parse alike. -/
theorem Lags.all_parses {d t : LocalStorage} (h : Lags d t) (id : NodeId) :
    (t.nodes[id]?).all Node.parses = (d.nodes[id]?).all Node.parses := by
  have hall : ∀ row : Option Node, row.all Node.parses =
      (row.map Node.untimed).all Node.parses := by
    intro row
    cases row <;> rfl
  rw [hall, ← h.nodes, ← hall]

/-- What a direct operation reads, the commit can read too. -/
theorem Lags.updateReads {d t : LocalStorage} (h : Lags d t) {op : TransactionOp}
    (hreads : op.Reads d) : op.UpdateReads t := by
  cases op with
  | updateNode id properties => exact (h.all_parses id).trans hreads
  | _ => trivial

theorem direct_eq_applied {J : Serde} {s : LocalStorage} {ops : List TimedOp}
    (h : Reads J s ops) : direct J s ops = applied J s ops := by
  induction ops using List.reverseRecOn with
  | nil => rfl
  | append_singleton ops o ih =>
      obtain ⟨hpast, ho⟩ := Run.along_concat.mp h
      rw [direct, applied, Run.run_concat, Run.run_concat]
      rw [TimedOp.direct_eq (show o.op.Reads (Run.run (TimedOp.direct J) s ops) from ho)]
      exact congrArg (TimedOp.applied J · o) (ih hpast)

/-- An update is the only operation that fails in a commit. -/
theorem TimedOp.commit_eq_some {J : Serde} {t : LocalStorage} {o : TimedOp}
    (h : o.op.UpdateReads t) : o.commit J t = some (o.committed J t) := by
  obtain ⟨op, directAt, commitAt⟩ := o
  cases op with
  | updateNode id properties =>
      simp only [TimedOp.commit, TimedOp.committed, readRow]
      rw [if_pos (by exact h), Option.map_some]
  | insertNode node => rfl
  | deleteNode id => rfl
  | insertEdge edge => rfl
  | deleteEdge id => rfl

theorem TimedOp.commit_eq_none {J : Serde} {t : LocalStorage} {o : TimedOp}
    (h : ¬ o.op.UpdateReads t) : o.commit J t = none := by
  obtain ⟨op, directAt, commitAt⟩ := o
  cases op with
  | updateNode id properties =>
      simp only [TimedOp.commit, readRow]
      rw [if_neg (by exact h), Option.map_none]
  | insertNode node => exact absurd trivial h
  | deleteNode id => exact absurd trivial h
  | insertEdge edge => exact absurd trivial h
  | deleteEdge id => exact absurd trivial h

/-- A commit succeeds when its updates find rows that parse, and else writes nothing. -/
theorem commit_eq_some {J : Serde} {s : LocalStorage} {ops : List TimedOp}
    (h : Run.Along (TimedOp.committed J) (fun t o => o.op.UpdateReads t) s ops) :
    commit J s ops = some (committed J s ops) := by
  induction ops generalizing s with
  | nil => rfl
  | cons o ops ih =>
      unfold commit at ih ⊢
      rw [List.foldlM_cons, TimedOp.commit_eq_some h.1]
      exact ih h.2

theorem commit_eq_none {J : Serde} {s : LocalStorage} {ops : List TimedOp}
    (h : ¬ Run.Along (TimedOp.committed J) (fun t o => o.op.UpdateReads t) s ops) :
    commit J s ops = none := by
  induction ops generalizing s with
  | nil => exact absurd trivial h
  | cons o ops ih =>
      unfold commit at ih ⊢
      rw [List.foldlM_cons]
      by_cases ho : o.op.UpdateReads s
      · rw [TimedOp.commit_eq_some ho]
        exact ih fun hrest => h ⟨ho, hrest⟩
      · rw [TimedOp.commit_eq_none ho]
        rfl

theorem commit_eq_committed {J : Serde} {s : LocalStorage} {ops : List TimedOp}
    (h : Reads J s ops) : commit J s ops = some (committed J s ops) := by
  refine commit_eq_some ?_
  induction ops using List.reverseRecOn with
  | nil => trivial
  | append_singleton ops o ih =>
      obtain ⟨hpast, ho⟩ := Run.along_concat.mp h
      have hreads : o.op.Reads (applied J s ops) := by
        rw [← direct_eq_applied hpast]
        exact ho
      exact Run.along_concat.mpr ⟨ih hpast, (lags_run J s ops).updateReads hreads⟩

/-! ### What the commit has listed -/

section

variable (J : Serde) (s : LocalStorage) (ops : List TimedOp)

theorem mem_typeIndex_commit (p : String × NodeId) :
    p ∈ (committed J s ops).nodeTypeIndex ↔
      EverListed (· ∈ s.nodeTypeIndex) TransactionOp.ListsType ops p := by
  refine Run.mem_run_iff (fun s p => p ∈ s.nodeTypeIndex)
    (fun o p => TransactionOp.ListsType o.op p) ?_ s ops p
  intro s ⟨op, directAt, commitAt⟩ p
  cases op with
  | insertNode node => exact Multimap.mem_insert.trans or_comm
  | updateNode id properties =>
      simp only [TimedOp.committed, TransactionOp.ListsType, or_false]
      split <;> rfl
  | _ => simp [TimedOp.committed, TransactionOp.ListsType]

theorem mem_fromIndex_commit (p : NodeId × EdgeId) :
    p ∈ (committed J s ops).edgeFromIndex ↔
      EverListed (· ∈ s.edgeFromIndex) TransactionOp.ListsFrom ops p := by
  refine Run.mem_run_iff (fun s p => p ∈ s.edgeFromIndex)
    (fun o p => TransactionOp.ListsFrom o.op p) ?_ s ops p
  intro s ⟨op, directAt, commitAt⟩ p
  cases op with
  | insertEdge edge => exact Multimap.mem_insert.trans or_comm
  | updateNode id properties =>
      simp only [TimedOp.committed, TransactionOp.ListsFrom, or_false]
      split <;> rfl
  | _ => simp [TimedOp.committed, TransactionOp.ListsFrom]

theorem mem_toIndex_commit (p : NodeId × EdgeId) :
    p ∈ (committed J s ops).edgeToIndex ↔
      EverListed (· ∈ s.edgeToIndex) TransactionOp.ListsTo ops p := by
  refine Run.mem_run_iff (fun s p => p ∈ s.edgeToIndex)
    (fun o p => TransactionOp.ListsTo o.op p) ?_ s ops p
  intro s ⟨op, directAt, commitAt⟩ p
  cases op with
  | insertEdge edge => exact Multimap.mem_insert.trans or_comm
  | updateNode id properties =>
      simp only [TimedOp.committed, TransactionOp.ListsTo, or_false]
      split <;> rfl
  | _ => simp [TimedOp.committed, TransactionOp.ListsTo]

/-- A commit never touches the type index of edges. -/
theorem edgeTypeIndex_commit : (committed J s ops).edgeTypeIndex = s.edgeTypeIndex := by
  have hstep : ∀ (t : LocalStorage) (o : TimedOp), t.edgeTypeIndex = s.edgeTypeIndex →
      (o.committed J t).edgeTypeIndex = s.edgeTypeIndex := by
    intro t ⟨op, directAt, commitAt⟩ ht
    cases op with
    | updateNode id properties =>
        simp only [TimedOp.committed]
        split <;> exact ht
    | _ => exact ht
  exact Run.invariant hstep rfl ops

end

end AresaDb.Store
