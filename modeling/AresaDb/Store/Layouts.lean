import AresaDb.Store.Transaction

/-! # Two layouts in one database

A lookup falls back from the index records to the rows node by node, while the listing of all nodes
falls back only when there is no index record at all, and the listing by type goes by the type
index.  The listings agree with the lookups when rows without an index record do not stand beside
index records, and the type index lists every node under its type alone (`Layout.Consistent`).

The types of rows and records and the entries of the type index are all that matters for that; they
make up the layout of a database, an abstract state that every operation acts on
(`layout_layoutEffect`).  `Layout.Safe` says of an operation on a consistent layout exactly when it
leaves a consistent one (`Consistent.step_iff`).

Besides, a row without an index record is parsed by every lookup and listing that meets it, so the
rows that an operation leaves must parse (`Leaves`), unless it fails itself (`Fails`) and leaves
everything as it is.  Along a run the listings agree at every moment if and only if every operation
is safe in this sense.  Migration never shows: it changes neither lookups nor listings. -/

namespace AresaDb.Store

open LocalStorage

/-! ### Operations -/

/-- Operations of the legacy layout, of the tiered one, and the migration between them. -/
inductive LayoutOp where
  | insertNode (node : Node)
  | updateNode (now : Timestamp) (id : NodeId) (properties : Value)
  | deleteNode (id : NodeId)
  | commit (ops : List TimedOp)
  | insertNodeTiered (id : NodeId) (index : NodeIndex) (payload : Props)
  | updateNodeTiered (id : NodeId) (index : NodeIndex) (payload : Props)
  | deleteNodeTiered (id : NodeId)
  | migrateToTiered

/-- An operation that fails changes nothing. -/
def LocalStorage.layoutStep (J : Serde) (s : LocalStorage) : LayoutOp → LocalStorage
  | .insertNode node => s.insertNode J node
  | .updateNode now id properties => (s.updateNode J now id properties).getD s
  | .deleteNode id => (s.deleteNode id).getD s
  | .commit ops => (Store.commit J s ops).getD s
  | .insertNodeTiered id index payload => s.insertNodeTiered id index payload
  | .updateNodeTiered id index payload => (s.updateNodeTiered J id index payload).getD s
  | .deleteNodeTiered id => (s.deleteNodeTiered id).getD s
  | .migrateToTiered => (s.migrateToTiered J).getD s

/-! ### Layouts -/

/-- The types of the rows and of the index records, and the types a node is listed under. -/
@[ext] structure Layout where
  row : NodeId → Option String
  index : NodeId → Option String
  listed : NodeId → String → Prop

def LocalStorage.layout (s : LocalStorage) : Layout where
  row id := s.nodes[id]?.map Node.nodeType
  index id := s.nodeIndexes[id]?.map NodeIndex.nodeType
  listed id t := (t, id) ∈ s.nodeTypeIndex

/-- The type of a row after a buffered operation: that of an insertion, none after a deletion. -/
def TransactionOp.rowType (id : NodeId) (r : Option String) : TransactionOp → Option String
  | insertNode node => if node.id = id then some node.nodeType else r
  | deleteNode id' => if id' = id then none else r
  | _ => r

/-- The type of a row after a commit: that of the last insertion or deletion of the buffer. -/
def rowAfter (id : NodeId) (r : Option String) (ops : List TimedOp) : Option String :=
  ops.foldl (fun r o => o.op.rowType id r) r

/-- The row of a node after the commit of a buffered operation. -/
def TimedOp.rowLeft (J : Serde) (id : NodeId) (r : Option Node) (o : TimedOp) : Option Node :=
  match o.op with
  | .insertNode node => if node.id = id then some (J.node node) else r
  | .updateNode id' properties =>
      if id' = id then r.map fun node => J.node (touchNode o.commitAt node properties) else r
  | .deleteNode id' => if id' = id then none else r
  | _ => r

/-- The row of a node after a commit. -/
def rowLeft (J : Serde) (id : NodeId) (r : Option Node) (ops : List TimedOp) : Option Node :=
  ops.foldl (TimedOp.rowLeft J id) r

namespace Layout

/-- The type of a node: that of its index record, else that of its row. -/
def type (v : Layout) (id : NodeId) : Option String := (v.index id).or (v.row id)

/-- No index record is there. -/
def Legacy (v : Layout) : Prop := ∀ id, v.index id = none

/-- The rows of the other nodes have an index record. -/
def OthersTiered (v : Layout) (id : NodeId) : Prop :=
  ∀ i, i ≠ id → v.row i ≠ none → v.index i ≠ none

/-- Rows without an index record do not stand beside index records, and the type index lists a node
under its type and no other. -/
structure Consistent (v : Layout) : Prop where
  whole : v.Legacy ∨ ∀ id, v.row id ≠ none → v.index id ≠ none
  types : ∀ id u, v.type id = some u → ∀ t, v.listed id t ↔ t = u

/-- Give one node another row, index record and types. -/
def change (v : Layout) (id : NodeId) (row index : Option String) (listed : String → Prop) :
    Layout where
  row := Function.update v.row id row
  index := Function.update v.index id index
  listed := Function.update v.listed id listed

open Classical in
/-- What an operation does to a layout. -/
noncomputable def step (v : Layout) : LayoutOp → Layout
  | .insertNode node =>
      v.change node.id (some node.nodeType) (v.index node.id)
        fun t => t = node.nodeType ∨ v.listed node.id t
  | .updateNode _ _ _ => v
  | .deleteNode id => v.change id none (v.index id) fun t => v.listed id t ∧ v.row id ≠ some t
  | .commit ops =>
      { v with
        row := fun id => rowAfter id (v.row id) ops
        listed := fun id t => v.listed id t ∨ ∃ o ∈ ops, o.op.ListsType (t, id) }
  | .insertNodeTiered id index _ =>
      v.change id (v.row id) (some index.nodeType) fun t => t = index.nodeType ∨ v.listed id t
  | .updateNodeTiered id index _ =>
      v.change id (some index.nodeType) (some index.nodeType) (v.listed id)
  | .deleteNodeTiered id => v.change id none none fun t => v.listed id t ∧ v.type id ≠ some t
  | .migrateToTiered => if v.Legacy then { v with index := v.row } else v

/-- When an operation on a consistent layout leaves a consistent one.

* A legacy insertion: no index record is there, or the node has one; and the node is listed under
  no other type.
* A legacy deletion: the node has not both a row and an index record of one type.
* A commit, for each node, given the type of the row it leaves: as for an insertion if it leaves a
  row; and all types the node was ever listed under are its type.
* A tiered insertion: no other node has a row and no index record; and the node is listed under no
  other type.
* A tiered update: the same of the other nodes; and the node is listed under its type alone.

The other operations are always safe. -/
def Safe (v : Layout) : LayoutOp → Prop
  | .insertNode node =>
      (v.Legacy ∨ v.index node.id ≠ none) ∧ ∀ t, v.listed node.id t → t = node.nodeType
  | .deleteNode id => ∀ u, v.row id = some u → v.index id ≠ some u
  | .commit ops => ∀ id,
      (rowAfter id (v.row id) ops ≠ none → v.Legacy ∨ v.index id ≠ none) ∧
        ∀ u, (v.index id).or (rowAfter id (v.row id) ops) = some u →
          ∀ t, v.listed id t ∨ (∃ o ∈ ops, o.op.ListsType (t, id)) → t = u
  | .insertNodeTiered id index _ => v.OthersTiered id ∧ ∀ t, v.listed id t → t = index.nodeType
  | .updateNodeTiered id index _ => v.OthersTiered id ∧ ∀ t, v.listed id t ↔ t = index.nodeType
  | _ => True

/-! ### One operation on a layout -/

variable {v : Layout}

/-- A changed layout is consistent if it is as a whole and at the changed node. -/
theorem Consistent.change_iff (h : v.Consistent) {id : NodeId} {row index : Option String}
    {listed : String → Prop} :
    (v.change id row index listed).Consistent ↔
      (index = none ∧ (∀ i, i ≠ id → v.index i = none) ∨
        (row ≠ none → index ≠ none) ∧ v.OthersTiered id) ∧
      ∀ u, index.or row = some u → ∀ t, listed t ↔ t = u := by
  have hat : ∀ {α : Type} (f : NodeId → α) (a : α) (p : α → Prop),
      (∀ i, p (Function.update f id a i)) ↔ p a ∧ ∀ i, i ≠ id → p (f i) := by
    intro α f a p
    exact Function.forall_update_iff f (fun _ => p)
  constructor
  · intro h'
    refine ⟨h'.whole.imp (hat _ _ (· = none)).mp fun hall => ⟨?_, fun i hi hrow => ?_⟩, ?_⟩
    · have hid := hall id
      simp only [change, Function.update_self] at hid
      exact hid
    · have hother := hall i
      simp only [change, Function.update_of_ne hi] at hother
      exact hother hrow
    · have hid := h'.types id
      simp only [type, change, Function.update_self] at hid
      exact hid
  · rintro ⟨hwhole, hid⟩
    refine ⟨hwhole.imp (hat _ _ (· = none)).mpr fun hall i => ?_, fun i => ?_⟩
    · by_cases hi : i = id
      · subst hi
        simp only [change, Function.update_self]
        exact hall.1
      · simp only [change, Function.update_of_ne hi]
        exact hall.2 i hi
    · by_cases hi : i = id
      · subst hi
        simp only [type, change, Function.update_self]
        exact hid
      · simp only [type, change, Function.update_of_ne hi]
        exact h.types i

/-- An operation that leaves the node no row and the index record it had. -/
theorem Consistent.whole_of_no_row (h : v.Consistent) (id : NodeId) :
    v.index id = none ∧ (∀ i, i ≠ id → v.index i = none) ∨
      ((none : Option String) ≠ none → v.index id ≠ none) ∧ v.OthersTiered id := by
  rcases h.whole with hl | hall
  · exact .inl ⟨hl id, fun i _ => hl i⟩
  · exact .inr ⟨fun hne => absurd rfl hne, fun i _ => hall i⟩

theorem Consistent.insertNode_iff (h : v.Consistent) (node : Node) :
    (v.step (.insertNode node)).Consistent ↔ v.Safe (.insertNode node) := by
  refine h.change_iff.trans (and_congr ?_ ?_)
  · constructor
    · rintro (⟨hid, hrest⟩ | ⟨hid, -⟩)
      · refine .inl fun i => ?_
        by_cases hi : i = node.id
        · rw [hi]
          exact hid
        · exact hrest i hi
      · exact .inr (hid (Option.some_ne_none _))
    · rintro (hl | hid)
      · exact .inl ⟨hl node.id, fun i _ => hl i⟩
      · refine .inr ⟨fun _ => hid, fun i _ hrow => ?_⟩
        rcases h.whole with hl | hall
        · exact absurd (hl node.id) hid
        · exact hall i hrow
  · cases hx : v.index node.id with
    | none =>
        simp only [Option.none_or, Option.some.injEq, forall_eq', or_iff_left_iff_imp]
    | some x =>
        -- the record's type is listed, so it must be the type of the row
        have hold := h.types node.id x (by rw [type, hx]; rfl)
        simp only [Option.some_or, Option.some.injEq, forall_eq', hold]
        constructor
        · intro hall t ht
          rw [ht]
          exact ((hall node.nodeType).mp (.inl rfl)).symm
        · intro hall t
          rw [hall x rfl]
          exact or_self_iff

theorem Consistent.deleteNode_iff (h : v.Consistent) (id : NodeId) :
    (v.step (.deleteNode id)).Consistent ↔ v.Safe (.deleteNode id) := by
  refine h.change_iff.trans ((and_iff_right (h.whole_of_no_row id)).trans ?_)
  rw [Option.or_none]
  constructor
  · intro hall u hu hx
    exact ((hall u hx u).mpr rfl).2 hu
  · intro hall u hx t
    rw [h.types id u (by rw [type, hx]; rfl)]
    constructor
    · exact fun ht => ht.1
    · rintro rfl
      exact ⟨rfl, fun hu => hall t hu hx⟩

/-- An operation that gives the node an index record. -/
theorem whole_of_index {id : NodeId} {row : Option String} {t : String} :
    ((some t = none ∧ ∀ i, i ≠ id → v.index i = none) ∨
      (row ≠ none → some t ≠ none) ∧ v.OthersTiered id) ↔ v.OthersTiered id := by
  simp

theorem Consistent.insertNodeTiered_iff (h : v.Consistent) (id : NodeId) (index : NodeIndex)
    (payload : Props) :
    (v.step (.insertNodeTiered id index payload)).Consistent ↔
      v.Safe (.insertNodeTiered id index payload) := by
  refine h.change_iff.trans (and_congr whole_of_index ?_)
  simp only [Option.some_or, Option.some.injEq, forall_eq', or_iff_left_iff_imp]

theorem Consistent.updateNodeTiered_iff (h : v.Consistent) (id : NodeId) (index : NodeIndex)
    (payload : Props) :
    (v.step (.updateNodeTiered id index payload)).Consistent ↔
      v.Safe (.updateNodeTiered id index payload) := by
  refine h.change_iff.trans (and_congr whole_of_index ?_)
  simp only [Option.some_or, Option.some.injEq, forall_eq']

theorem Consistent.deleteNodeTiered (h : v.Consistent) (id : NodeId) :
    (v.step (.deleteNodeTiered id)).Consistent := by
  refine h.change_iff.mpr ⟨?_, fun u hu => by cases hu⟩
  rcases h.whole with hl | hall
  · exact .inl ⟨rfl, fun i _ => hl i⟩
  · exact .inr ⟨fun hne => absurd rfl hne, fun i _ => hall i⟩

theorem Consistent.migrateToTiered (h : v.Consistent) :
    (v.step .migrateToTiered).Consistent := by
  unfold step
  split_ifs with hl
  · refine ⟨.inr fun _ hi => hi, fun id u hu => h.types id u ?_⟩
    rw [type, Option.or_self] at hu
    rw [type, hl id]
    exact hu
  · exact h

/-- The row a commit leaves was there before, or an insertion of the buffer lists it. -/
theorem rowAfter_listed {id : NodeId} {r : Option String} {ops : List TimedOp} {u : String}
    (h : rowAfter id r ops = some u) : r = some u ∨ ∃ o ∈ ops, o.op.ListsType (u, id) := by
  induction ops using List.reverseRecOn with
  | nil => exact .inl h
  | append_singleton ops o ih =>
      rw [rowAfter, List.foldl_concat] at h
      have hmore : (r = some u ∨ ∃ o' ∈ ops, o'.op.ListsType (u, id)) →
          r = some u ∨ ∃ o' ∈ ops ++ [o], o'.op.ListsType (u, id) :=
        Or.imp_right fun ⟨o', ho', hlist⟩ => ⟨o', List.mem_append_left _ ho', hlist⟩
      cases hop : o.op with
      | insertNode node =>
          rw [hop, TransactionOp.rowType] at h
          split_ifs at h with hid
          · refine .inr ⟨o, List.mem_append_right _ (List.mem_singleton_self o), ?_⟩
            rw [hop, ← hid, ← Option.some.inj h]
            rfl
          · exact hmore (ih h)
      | deleteNode id' =>
          rw [hop, TransactionOp.rowType] at h
          split_ifs at h
          exact hmore (ih h)
      | updateNode id' properties =>
          rw [hop] at h
          exact hmore (ih h)
      | insertEdge edge =>
          rw [hop] at h
          exact hmore (ih h)
      | deleteEdge i =>
          rw [hop] at h
          exact hmore (ih h)

/-- A node without an index record is listed under the type of its row. -/
def Listed (v : Layout) : Prop := ∀ id u, v.index id = none → v.row id = some u → v.listed id u

theorem Listed.change (h : v.Listed) {id : NodeId} {row index : Option String}
    {listed : String → Prop} (hid : ∀ u, index = none → row = some u → listed u) :
    (v.change id row index listed).Listed := by
  intro i u hindex hrow
  by_cases hi : i = id
  · subst hi
    simp only [Layout.change, Function.update_self] at hindex hrow ⊢
    exact hid u hindex hrow
  · simp only [Layout.change, Function.update_of_ne hi] at hindex hrow ⊢
    exact h i u hindex hrow

theorem Listed.step (h : v.Listed) (op : LayoutOp) : (v.step op).Listed := by
  cases op with
  | insertNode node => exact h.change fun u _ hu => .inl (Option.some.inj hu).symm
  | updateNode now id properties => exact h
  | deleteNode id => exact h.change fun u _ hu => by cases hu
  | commit ops =>
      intro id u hindex hrow
      exact (rowAfter_listed hrow).imp_left fun hrow => h id u hindex hrow
  | insertNodeTiered id index payload => exact h.change fun u hindex _ => by cases hindex
  | updateNodeTiered id index payload => exact h.change fun u hindex _ => by cases hindex
  | deleteNodeTiered id => exact h.change fun u _ hu => by cases hu
  | migrateToTiered =>
      unfold Layout.step
      split_ifs with hl
      · intro id u hindex hrow
        exact h id u (hl id) hrow
      · exact h

theorem Consistent.commit_iff (h : v.Consistent) (ops : List TimedOp) :
    (v.step (.commit ops)).Consistent ↔ v.Safe (.commit ops) := by
  have hwhole : (v.Legacy ∨ ∀ id, rowAfter id (v.row id) ops ≠ none → v.index id ≠ none) ↔
      ∀ id, rowAfter id (v.row id) ops ≠ none → v.Legacy ∨ v.index id ≠ none := by
    by_cases hl : v.Legacy
    · simp [hl]
    · simp [hl]
  constructor
  · intro h' id
    exact ⟨hwhole.mp h'.whole id, fun u hu t ht => (h'.types id u hu t).mp ht⟩
  · intro hs
    refine ⟨hwhole.mpr fun id => (hs id).1, fun id u hu t => ⟨(hs id).2 u hu t, ?_⟩⟩
    rintro rfl
    -- the type of the node is listed: it was before, or the commit lists it
    change (v.index id).or (rowAfter id (v.row id) ops) = some t at hu
    cases hx : v.index id with
    | some x =>
        rw [hx, Option.some_or] at hu
        exact .inl ((h.types id t (by rw [type, hx]; exact hu) t).mpr rfl)
    | none =>
        rw [hx, Option.none_or] at hu
        refine (rowAfter_listed hu).imp_left fun hrow => ?_
        exact (h.types id t (by rw [type, hx]; exact hrow) t).mpr rfl

/-- **What is safe**: an operation on a consistent layout leaves a consistent one if and only if it
is safe. -/
theorem Consistent.step_iff (h : v.Consistent) (op : LayoutOp) :
    (v.step op).Consistent ↔ v.Safe op := by
  cases op with
  | insertNode node => exact h.insertNode_iff node
  | updateNode now id properties => exact iff_of_true h trivial
  | deleteNode id => exact h.deleteNode_iff id
  | commit ops => exact h.commit_iff ops
  | insertNodeTiered id index payload => exact h.insertNodeTiered_iff id index payload
  | updateNodeTiered id index payload => exact h.updateNodeTiered_iff id index payload
  | deleteNodeTiered id => exact iff_of_true (h.deleteNodeTiered id) trivial
  | migrateToTiered => exact iff_of_true h.migrateToTiered trivial

end Layout

/-! ### The tables behind a layout -/

theorem map_get_insert {α β : Type} (m : OrdMap NodeId α) (f : α → β) (id : NodeId) (a : α) :
    (fun i : NodeId => (m.insert id a)[i]?.map f) =
      Function.update (fun i : NodeId => m[i]?.map f) id (some (f a)) := by
  funext i
  rw [OrdMap.get_insert, Function.update_apply]
  by_cases hi : i = id
  · rw [if_pos hi, if_pos hi.symm]
    rfl
  · rw [if_neg hi, if_neg fun he => hi he.symm]

theorem map_get_erase {α β : Type} (m : OrdMap NodeId α) (f : α → β) (id : NodeId) :
    (fun i : NodeId => (m.erase id)[i]?.map f) =
      Function.update (fun i : NodeId => m[i]?.map f) id none := by
  funext i
  rw [OrdMap.get_erase, Function.update_apply]
  by_cases hi : i = id
  · rw [if_pos hi, if_pos hi.symm]
    rfl
  · rw [if_neg hi, if_neg fun he => hi he.symm]

/-- The types a node is listed under, after an entry was added. -/
theorem mem_insert_eq (m : Multimap String NodeId) (k : String) (id : NodeId) :
    (fun (i : NodeId) t => (t, i) ∈ m.insert k id) =
      Function.update (fun i t => (t, i) ∈ m) id fun t => t = k ∨ (t, id) ∈ m := by
  funext i t
  rw [Function.update_apply, Multimap.mem_insert, Prod.mk.injEq]
  split_ifs with hi
  · simp [hi]
  · simp [hi]

/-- The types a node is listed under, after the entry of its type was removed. -/
theorem mem_remove_eq (m : Multimap String NodeId) (k : Option String) (id : NodeId) :
    (fun (i : NodeId) t => (t, i) ∈ match k with | some t => m.remove t id | none => m) =
      Function.update (fun i t => (t, i) ∈ m) id fun t => (t, id) ∈ m ∧ k ≠ some t := by
  funext i t
  rw [Function.update_apply]
  cases k with
  | none =>
      split_ifs with hi
      · simp [hi]
      · rfl
  | some u =>
      rw [Multimap.mem_remove, ne_eq, Prod.mk.injEq]
      split_ifs with hi
      · simp [hi, and_comm, eq_comm]
      · simp [hi]

namespace LocalStorage

variable (J : Serde) (s : LocalStorage)

@[simp] theorem layout_row (id : NodeId) : s.layout.row id = s.nodes[id]?.map Node.nodeType := rfl

@[simp] theorem layout_index (id : NodeId) :
    s.layout.index id = s.nodeIndexes[id]?.map NodeIndex.nodeType := rfl

@[simp] theorem layout_listed (id : NodeId) (t : String) :
    s.layout.listed id t ↔ (t, id) ∈ s.nodeTypeIndex := Iff.rfl

theorem typeOf_eq (id : NodeId) : s.typeOf id = s.layout.type id := by
  rw [typeOf, Layout.type, layout_index, layout_row]
  cases s.nodeIndexes[id]? with
  | none => rfl
  | some index => rfl

/-! ### What an operation writes -/

/-- The operation fails on what it reads. -/
def Fails : LayoutOp → Prop
  | .updateNode _ id _ | .deleteNode id => (s.nodes[id]?).all Node.parses = false
  | .commit ops =>
      ¬ Run.Along (TimedOp.committed J) (fun t o => o.op.UpdateReads t) s ops
  | .updateNodeTiered _ _ payload => parses payload = false
  | .deleteNodeTiered id => s.recordParses id = false
  | .migrateToTiered => s.nodeIndexes.isEmpty = true ∧ s.nodes.values.all Node.parses = false
  | _ => False

/-- What an operation writes when it does not fail. -/
def layoutEffect : LayoutOp → LocalStorage
  | .insertNode node => s.insertNode J node
  | .updateNode now id properties =>
      match s.nodes[id]? with
      | some node =>
          { s with nodes := s.nodes.insert id (J.node (touchNode now node properties)) }
      | none => s
  | .deleteNode id => s.removeNode id
  | .commit ops => committed J s ops
  | .insertNodeTiered id index payload => s.insertNodeTiered id index payload
  | .updateNodeTiered id index payload => s.writeNodeTiered J id index payload
  | .deleteNodeTiered id => s.removeNodeTiered id
  | .migrateToTiered => if s.nodeIndexes.isEmpty then s.splitRows J else s

variable {s} in
theorem layoutStep_of_fails {op : LayoutOp} (h : s.Fails J op) : s.layoutStep J op = s := by
  cases op with
  | updateNode now id properties =>
      simp only [layoutStep, updateNode]
      cases hn : s.nodes[id]? with
      | none => rfl
      | some node =>
          have hnot : ¬ node.parses = true := by simpa [Fails, hn] using h
          rw [Option.filter_some, if_neg hnot]
          rfl
  | deleteNode id =>
      simp only [layoutStep, deleteNode]
      rw [if_neg (by simpa [Fails] using h), Option.getD_none]
  | commit ops =>
      simp only [layoutStep]
      rw [commit_eq_none h, Option.getD_none]
  | updateNodeTiered id index payload =>
      simp only [layoutStep, updateNodeTiered]
      rw [if_neg (by simpa [Fails] using h), Option.getD_none]
  | deleteNodeTiered id =>
      simp only [layoutStep, deleteNodeTiered]
      rw [if_neg (by simpa [Fails] using h), Option.getD_none]
  | migrateToTiered =>
      obtain ⟨hempty, hparses⟩ := h
      simp only [layoutStep, migrateToTiered]
      rw [if_pos hempty, if_neg (Bool.not_eq_true _ ▸ hparses), Option.getD_none]
  | insertNode node => exact h.elim
  | insertNodeTiered id index payload => exact h.elim

variable {s} in
theorem layoutStep_eq {op : LayoutOp} (h : ¬ s.Fails J op) :
    s.layoutStep J op = s.layoutEffect J op := by
  cases op with
  | updateNode now id properties =>
      simp only [layoutStep, layoutEffect, updateNode]
      cases hn : s.nodes[id]? with
      | none => rfl
      | some node =>
          have hparses : node.parses = true := by simpa [Fails, hn] using h
          rw [Option.filter_some, if_pos hparses]
          rfl
  | deleteNode id =>
      simp only [layoutStep, layoutEffect, deleteNode]
      rw [if_pos (by simpa [Fails] using h), Option.getD_some]
  | commit ops =>
      simp only [layoutStep, layoutEffect]
      rw [commit_eq_some (not_not.mp h), Option.getD_some]
  | updateNodeTiered id index payload =>
      simp only [layoutStep, layoutEffect, updateNodeTiered]
      rw [if_pos (by simpa [Fails] using h), Option.getD_some]
  | deleteNodeTiered id =>
      simp only [layoutStep, layoutEffect, deleteNodeTiered]
      rw [if_pos (by simpa [Fails] using h), Option.getD_some]
  | migrateToTiered =>
      simp only [layoutStep, layoutEffect, migrateToTiered]
      by_cases hempty : s.nodeIndexes.isEmpty = true
      · have hparses : s.nodes.values.all Node.parses = true := by
          by_contra hnot
          exact h ⟨hempty, Bool.not_eq_true _ ▸ hnot⟩
        rw [if_pos hempty, if_pos hempty, if_pos hparses, Option.getD_some]
      · rw [if_neg hempty, if_neg hempty, Option.getD_some]
  | insertNode node => rfl
  | insertNodeTiered id index payload => rfl

theorem layout_insertNode (node : Node) :
    (s.insertNode J node).layout = s.layout.step (.insertNode node) := by
  refine Layout.ext (map_get_insert _ _ _ _) ?_ (mem_insert_eq _ _ _)
  exact (Function.update_eq_self node.id s.layout.index).symm

theorem layout_updateNode (now : Timestamp) (id : NodeId) (properties : Value) :
    (s.layoutEffect J (.updateNode now id properties)).layout = s.layout := by
  simp only [layoutEffect]
  cases hn : s.nodes[id]? with
  | none => rfl
  | some node =>
      refine Layout.ext ((map_get_insert _ _ _ _).trans ?_) rfl rfl
      have hrow : s.layout.row id = some node.nodeType := by
        rw [layout_row, hn]
        rfl
      exact (congrArg _ hrow.symm).trans (Function.update_eq_self id s.layout.row)

/-- Removing edges changes no layout. -/
theorem layout_deleteEdgesOf (id : NodeId) : (s.deleteEdgesOf id).layout = s.layout := by
  rw [deleteEdgesOf_eq]
  rfl

theorem layout_deleteNode (id : NodeId) :
    (s.removeNode id).layout = s.layout.step (.deleteNode id) := by
  unfold removeNode
  rw [layout_deleteEdgesOf]
  refine Layout.ext (map_get_erase _ _ _) (Function.update_eq_self id s.layout.index).symm ?_
  refine Eq.trans ?_ (mem_remove_eq s.nodeTypeIndex (s.layout.row id) id)
  rw [layout_row]
  cases s.nodes[id]? with
  | none => rfl
  | some node => rfl

theorem layout_insertNodeTiered (id : NodeId) (index : NodeIndex) (payload : Props) :
    (s.insertNodeTiered id index payload).layout =
      s.layout.step (.insertNodeTiered id index payload) := by
  refine Layout.ext ?_ (map_get_insert _ _ _ _) (mem_insert_eq _ _ _)
  exact (Function.update_eq_self id s.layout.row).symm

theorem layout_updateNodeTiered (id : NodeId) (index : NodeIndex) (payload : Props) :
    (s.writeNodeTiered J id index payload).layout =
      s.layout.step (.updateNodeTiered id index payload) := by
  refine Layout.ext (map_get_insert _ _ _ _) (map_get_insert _ _ _ _) ?_
  exact (Function.update_eq_self id s.layout.listed).symm

theorem layout_deleteNodeTiered (id : NodeId) :
    (s.removeNodeTiered id).layout = s.layout.step (.deleteNodeTiered id) := by
  unfold removeNodeTiered
  rw [layout_deleteEdgesOf]
  refine Layout.ext (map_get_erase _ _ _) (map_get_erase _ _ _) ?_
  have htype := mem_remove_eq s.nodeTypeIndex (s.typeOf id) id
  rw [typeOf_eq] at htype ⊢
  exact htype

/-- One buffered operation changes the row of its node. -/
theorem nodes_commit_step (o : TimedOp) (id : NodeId) :
    (o.committed J s).nodes[id]? = o.rowLeft J id s.nodes[id]? := by
  obtain ⟨op, directAt, commitAt⟩ := o
  cases op with
  | insertNode node =>
      refine (OrdMap.get_insert s.nodes node.id id (J.node node)).trans ?_
      simp only [TimedOp.rowLeft]
      split_ifs
      · rfl
      · rfl
  | updateNode id' properties =>
      simp only [TimedOp.committed, TimedOp.rowLeft]
      by_cases hid : id' = id
      · rw [if_pos hid, hid]
        cases hn : s.nodes[id]? with
        | none => exact hn
        | some node => exact OrdMap.get_insert_self _ _ _
      · rw [if_neg hid]
        cases s.nodes[id']? with
        | none => rfl
        | some node => exact OrdMap.get_insert_of_ne _ _ hid
  | deleteNode id' =>
      refine (OrdMap.get_erase s.nodes id' id).trans ?_
      simp only [TimedOp.rowLeft]
      split_ifs
      · rfl
      · rfl
  | insertEdge edge => rfl
  | deleteEdge i => rfl

theorem nodes_committed (ops : List TimedOp) (id : NodeId) :
    (committed J s ops).nodes[id]? = rowLeft J id s.nodes[id]? ops := by
  induction ops using List.reverseRecOn with
  | nil => rfl
  | append_singleton ops o ih =>
      rw [committed, Run.run_concat, nodes_commit_step, rowLeft, List.foldl_concat]
      exact congrArg (o.rowLeft J id) ih

/-- The type of the row that is left is that of the last insertion, if no deletion follows it. -/
theorem type_rowLeft (id : NodeId) (r : Option Node) (ops : List TimedOp) :
    (rowLeft J id r ops).map Node.nodeType = rowAfter id (r.map Node.nodeType) ops := by
  induction ops using List.reverseRecOn with
  | nil => rfl
  | append_singleton ops o ih =>
      rw [rowLeft, List.foldl_concat, rowAfter, List.foldl_concat, ← rowAfter, ← ih, ← rowLeft]
      obtain ⟨op, directAt, commitAt⟩ := o
      cases op with
      | insertNode node =>
          simp only [TimedOp.rowLeft, TransactionOp.rowType]
          split_ifs
          · rfl
          · rfl
      | updateNode id' properties =>
          simp only [TimedOp.rowLeft, TransactionOp.rowType]
          split_ifs
          · exact Option.map_map _ _ _
          · rfl
      | deleteNode id' =>
          simp only [TimedOp.rowLeft, TransactionOp.rowType]
          split_ifs
          · rfl
          · rfl
      | insertEdge edge => rfl
      | deleteEdge i => rfl

/-- The tables of the tiered layout. -/
def tiered : OrdMap NodeId NodeIndex × OrdMap NodeId Props := (s.nodeIndexes, s.nodePayloads)

theorem tiered_commit (ops : List TimedOp) : (committed J s ops).tiered = s.tiered := by
  have hstep : ∀ (s' : LocalStorage) (o : TimedOp), s'.tiered = s.tiered →
      (o.committed J s').tiered = s.tiered := by
    intro s' ⟨op, directAt, commitAt⟩ h
    cases op with
    | updateNode id properties =>
        unfold TimedOp.committed
        dsimp only
        split
        · exact h
        · exact h
    | _ => exact h
  exact Run.invariant hstep rfl ops

theorem layout_commit (ops : List TimedOp) :
    (committed J s ops).layout = s.layout.step (.commit ops) := by
  have hrow : ∀ id, (committed J s ops).layout.row id = rowAfter id (s.layout.row id) ops := by
    intro id
    rw [layout_row, nodes_committed, type_rowLeft]
    rfl
  refine Layout.ext (funext hrow) ?_ ?_
  · funext id
    rw [layout_index, (Prod.mk.inj (tiered_commit J s ops)).1]
    rfl
  · funext id t
    exact propext (mem_typeIndex_commit J s ops (t, id))

theorem isEmpty_nodeIndexes_iff : s.nodeIndexes.isEmpty = true ↔ s.layout.Legacy := by
  rw [Std.ExtTreeMap.isEmpty_iff]
  constructor
  · intro h id
    rw [layout_index, h, OrdMap.get_empty]
    rfl
  · intro h
    refine OrdMap.ext fun id => ?_
    rw [OrdMap.get_empty]
    exact Option.map_eq_none_iff.mp (h id)

/-- Without index records, migration makes one of every row. -/
theorem nodeIndexes_splitRows (h : s.nodeIndexes.isEmpty = true) :
    (s.splitRows J).nodeIndexes = s.nodes.map fun _ n => rowIndex J n := by
  unfold splitRows
  rw [Std.ExtTreeMap.isEmpty_iff.mp h]
  exact OrdMap.insertAll_toList _ _

theorem layout_migrateToTiered :
    (s.layoutEffect J .migrateToTiered).layout = s.layout.step .migrateToTiered := by
  simp only [layoutEffect]
  by_cases he : s.nodeIndexes.isEmpty = true
  · have hindex := nodeIndexes_splitRows J s he
    rw [Layout.step, if_pos ((isEmpty_nodeIndexes_iff s).mp he), if_pos he]
    refine Layout.ext rfl ?_ rfl
    funext id
    rw [layout_index, hindex, OrdMap.get_map, Option.map_map]
    rfl
  · rw [Layout.step, if_neg fun hl => he ((isEmpty_nodeIndexes_iff s).mpr hl), if_neg he]

theorem nodeIndexes_removeNode (id : NodeId) : (s.removeNode id).nodeIndexes = s.nodeIndexes := by
  unfold removeNode
  rw [deleteEdgesOf_eq]

theorem tables_removeNodeTiered (id : NodeId) :
    (s.removeNodeTiered id).nodeIndexes = s.nodeIndexes.erase id ∧
      (s.removeNodeTiered id).nodes = s.nodes.erase id := by
  unfold removeNodeTiered
  rw [deleteEdgesOf_eq]
  exact ⟨rfl, rfl⟩

/-- **The layout is all that matters**: what an operation does to it depends on it alone. -/
theorem layout_layoutEffect (op : LayoutOp) :
    (s.layoutEffect J op).layout = s.layout.step op := by
  cases op with
  | insertNode node => exact layout_insertNode J s node
  | updateNode now id properties => exact layout_updateNode J s now id properties
  | deleteNode id => exact layout_deleteNode s id
  | commit ops => exact layout_commit J s ops
  | insertNodeTiered id index payload => exact layout_insertNodeTiered s id index payload
  | updateNodeTiered id index payload => exact layout_updateNodeTiered J s id index payload
  | deleteNodeTiered id => exact layout_deleteNodeTiered s id
  | migrateToTiered => exact layout_migrateToTiered J s

/-! ### Rows that lookups can read -/

/-- Every row that a lookup reads parses. -/
def Readable : Prop := ∀ id, s.recordParses id = true

/-- The rows that an operation leaves without an index record parse. -/
def Leaves : LayoutOp → Prop
  | .insertNode node => s.nodeIndexes[node.id]? = none → node.parses = true
  | .updateNode _ id properties =>
      ∀ node, s.nodes[id]? = some node → s.nodeIndexes[id]? = none →
        (touchNode 0 node properties).parses = true
  | .commit ops =>
      ∀ id : NodeId, s.nodeIndexes[id]? = none →
        (rowLeft J id s.nodes[id]? ops).all Node.parses = true
  | _ => True

theorem recordParses_iff (id : NodeId) :
    s.recordParses id = true ↔
      (s.nodeIndexes[id]? = none → (s.nodes[id]?).all Node.parses = true) := by
  unfold recordParses
  cases s.nodeIndexes[id]? with
  | none => simp
  | some index => simp

variable {s}

/-- An operation on one node leaves what lookups read of the others. -/
theorem Readable.at_iff (h : s.Readable) (s' : LocalStorage) (id : NodeId)
    (hindexes : ∀ i : NodeId, i ≠ id → s'.nodeIndexes[i]? = s.nodeIndexes[i]?)
    (hrows : ∀ i : NodeId, i ≠ id → s'.nodes[i]? = s.nodes[i]?) :
    s'.Readable ↔ s'.recordParses id = true := by
  constructor
  · exact fun h' => h' id
  · intro hid i
    by_cases hi : i = id
    · rw [hi]
      exact hid
    · have hi' := h i
      rw [recordParses_iff] at hi' ⊢
      rw [hindexes i hi, hrows i hi]
      exact hi'

theorem Readable.insertNode_iff (h : s.Readable) (node : Node) :
    (s.insertNode J node).Readable ↔ s.Leaves J (.insertNode node) := by
  have hrows : ∀ i : NodeId, i ≠ node.id → (s.insertNode J node).nodes[i]? = s.nodes[i]? :=
    fun i hi => OrdMap.get_insert_of_ne _ _ (Ne.symm hi)
  refine (h.at_iff (s.insertNode J node) node.id (fun _ _ => rfl) hrows).trans ?_
  rw [recordParses_iff]
  have hself : (s.insertNode J node).nodes[node.id]? = some (J.node node) :=
    OrdMap.get_insert_self _ _ _
  rw [hself, Option.all_some, J.parses_node]
  rfl

theorem Readable.updateNode_iff (h : s.Readable) (now : Timestamp) (id : NodeId)
    (properties : Value) :
    (s.layoutEffect J (.updateNode now id properties)).Readable ↔
      s.Leaves J (.updateNode now id properties) := by
  simp only [layoutEffect, Leaves]
  cases hn : s.nodes[id]? with
  | none => exact iff_of_true h fun node hnode => absurd hnode.symm (Option.some_ne_none node)
  | some node =>
      have hself : ∀ new : Node, (s.nodes.insert id new)[id]? = some new :=
        OrdMap.get_insert_self _ _
      refine Iff.trans (h.at_iff _ id (fun i _ => ?_) fun i hi => ?_) ?_
      · rfl
      · exact OrdMap.get_insert_of_ne _ _ (Ne.symm hi)
      · rw [recordParses_iff]
        show (s.nodeIndexes[id]? = none → (s.nodes.insert id _)[id]?.all Node.parses = true) ↔ _
        rw [hself, Option.all_some, J.parses_node]
        constructor
        · intro hall node' hnode' hindex
          rw [← Option.some.inj hnode']
          exact hall hindex
        · exact fun hall hindex => hall node rfl hindex

/-- An operation that leaves the node an index record, or no row. -/
theorem Readable.of_left (h : s.Readable) {s' : LocalStorage} (id : NodeId)
    (hindexes : ∀ i : NodeId, i ≠ id → s'.nodeIndexes[i]? = s.nodeIndexes[i]?)
    (hrows : ∀ i : NodeId, i ≠ id → s'.nodes[i]? = s.nodes[i]?)
    (hid : s'.nodeIndexes[id]? ≠ none ∨ s'.nodes[id]? = none) : s'.Readable := by
  refine (h.at_iff s' id hindexes hrows).mpr ((s'.recordParses_iff id).mpr fun hnone => ?_)
  rcases hid with hindex | hrow
  · exact absurd hnone hindex
  · rw [hrow]
    rfl

theorem readable_commit_iff (ops : List TimedOp) :
    (committed J s ops).Readable ↔ s.Leaves J (.commit ops) := by
  refine forall_congr' fun id => ?_
  rw [recordParses_iff, (Prod.mk.inj (tiered_commit J s ops)).1, nodes_committed]

theorem Readable.migrateToTiered (h : s.Readable) :
    (s.layoutEffect J .migrateToTiered).Readable := by
  simp only [layoutEffect]
  split_ifs with he
  · intro id
    refine ((s.splitRows J).recordParses_iff id).mpr fun hnone => ?_
    rw [nodeIndexes_splitRows J s he, OrdMap.get_map, Option.map_eq_none_iff] at hnone
    show (s.nodes[id]?).all Node.parses = true
    rw [hnone]
    rfl
  · exact h

/-- What is left is readable when the rows left are. -/
theorem Readable.effect_iff (h : s.Readable) (op : LayoutOp) :
    (s.layoutEffect J op).Readable ↔ s.Leaves J op := by
  cases op with
  | insertNode node => exact h.insertNode_iff J node
  | updateNode now id properties => exact h.updateNode_iff J now id properties
  | deleteNode id =>
      refine iff_of_true (h.of_left id (fun i _ => ?_) (fun i hi => ?_) (.inr ?_)) trivial
      · exact congrArg (fun m : OrdMap NodeId NodeIndex => m[i]?) (nodeIndexes_removeNode s id)
      · exact (congrArg (fun m : OrdMap NodeId Node => m[i]?) (nodes_removeNode s id)).trans
          (OrdMap.get_erase_of_ne _ (Ne.symm hi))
      · exact (congrArg (fun m : OrdMap NodeId Node => m[id]?) (nodes_removeNode s id)).trans
          (OrdMap.get_erase_self _ _)
  | commit ops => exact readable_commit_iff J ops
  | insertNodeTiered id index payload =>
      refine iff_of_true (h.of_left id (fun i hi => ?_) (fun _ _ => rfl) (.inl ?_)) trivial
      · exact OrdMap.get_insert_of_ne _ _ (Ne.symm hi)
      · show (s.nodeIndexes.insert id index)[id]? ≠ none
        rw [OrdMap.get_insert_self]
        exact Option.some_ne_none _
  | updateNodeTiered id index payload =>
      refine iff_of_true (h.of_left id (fun i hi => ?_) (fun i hi => ?_) (.inl ?_)) trivial
      · exact OrdMap.get_insert_of_ne _ _ (Ne.symm hi)
      · exact OrdMap.get_insert_of_ne _ _ (Ne.symm hi)
      · show (s.nodeIndexes.insert id index)[id]? ≠ none
        rw [OrdMap.get_insert_self]
        exact Option.some_ne_none _
  | deleteNodeTiered id =>
      obtain ⟨hindexes, hrows⟩ := tables_removeNodeTiered s id
      refine iff_of_true (h.of_left id (fun i hi => ?_) (fun i hi => ?_) (.inr ?_)) trivial
      · exact (congrArg (fun m : OrdMap NodeId NodeIndex => m[i]?) hindexes).trans
          (OrdMap.get_erase_of_ne _ (Ne.symm hi))
      · exact (congrArg (fun m : OrdMap NodeId Node => m[i]?) hrows).trans
          (OrdMap.get_erase_of_ne _ (Ne.symm hi))
      · exact (congrArg (fun m : OrdMap NodeId Node => m[id]?) hrows).trans
          (OrdMap.get_erase_self _ _)
  | migrateToTiered => exact iff_of_true (h.migrateToTiered J) trivial

variable (s)

/-! ### Listings -/

/-- The listings succeed and agree with the lookups: all nodes that have an index record or a row
are listed, each once, and of a type those that are of it. -/
structure ListingsExact : Prop where
  all : ∃ listed, s.getAllNodeIndexes J none = some listed ∧ (listed.map Prod.fst).Nodup ∧
    ∀ id, id ∈ listed.map Prod.fst ↔ ∃ index, s.getNodeIndex J id = some (some index)
  byType : ∀ t, ∃ listed, s.getNodeIndexesByType J t none = some listed ∧
    ∀ id, id ∈ listed.map Prod.fst ↔
      ∃ index, s.getNodeIndex J id = some (some index) ∧ index.nodeType = t

theorem recordOf_type (id : NodeId) :
    (s.recordOf J id).map NodeIndex.nodeType = s.layout.type id := by
  rw [recordOf, Layout.type, layout_index, layout_row]
  cases s.nodeIndexes[id]? with
  | none => exact Option.map_map _ _ _
  | some index => rfl

theorem mem_keys_iff {α : Type} (m : OrdMap NodeId α) (id : NodeId) :
    id ∈ m.toList.map Prod.fst ↔ m[id]? ≠ none := by
  rw [List.mem_map, Option.ne_none_iff_exists']
  constructor
  · rintro ⟨⟨i, a⟩, hmem, rfl⟩
    exact ⟨a, (OrdMap.mem_toList m i a).mp hmem⟩
  · rintro ⟨a, ha⟩
    exact ⟨(id, a), (OrdMap.mem_toList m id a).mpr ha, rfl⟩

theorem nodup_keys {α : Type} (m : OrdMap NodeId α) : (m.toList.map Prod.fst).Nodup := by
  have hsorted := (OrdMap.toList_sorted m).map Prod.fst fun _ _ h => h
  exact hsorted.imp fun h => ne_of_lt h

/-- The records of all nodes: those of one of the two tables. -/
def allRecords : List (NodeId × NodeIndex) :=
  if s.nodeIndexes.isEmpty then s.nodes.toList.map fun e => (e.1, rowIndex J e.2)
  else s.nodeIndexes.toList

theorem ids_allRecords :
    (s.allRecords J).map Prod.fst =
      if s.nodeIndexes.isEmpty then s.nodes.toList.map Prod.fst
      else s.nodeIndexes.toList.map Prod.fst := by
  unfold allRecords
  split_ifs
  · rw [List.map_map]
    rfl
  · rfl

theorem all_iff :
    (∀ id, id ∈ (s.allRecords J).map Prod.fst ↔ s.recordOf J id ≠ none) ↔
      s.layout.Legacy ∨ ∀ id, s.layout.row id ≠ none → s.layout.index id ≠ none := by
  have hlookup : ∀ id, s.recordOf J id ≠ none ↔ s.layout.type id ≠ none := by
    intro id
    rw [← recordOf_type J s, ne_eq, ne_eq, Option.map_eq_none_iff]
  rw [ids_allRecords]
  simp only [hlookup]
  split_ifs with he
  · have hl := (isEmpty_nodeIndexes_iff s).mp he
    refine iff_of_true (fun id => ?_) (.inl hl)
    rw [mem_keys_iff, Layout.type, hl id, Option.none_or, layout_row, ne_eq, ne_eq,
      Option.map_eq_none_iff]
  · rw [or_iff_right fun hl => he ((isEmpty_nodeIndexes_iff s).mpr hl)]
    refine forall_congr' fun id => ?_
    rw [mem_keys_iff, Layout.type, layout_index, layout_row]
    cases s.nodeIndexes[id]? with
    | none => simp
    | some index => simp

theorem mem_ids_recordsOfType (t : String) (id : NodeId) :
    id ∈ (s.recordsOfType J t).map Prod.fst ↔ s.layout.listed id t ∧ s.recordOf J id ≠ none := by
  unfold recordsOfType
  simp only [List.mem_map, List.mem_filterMap, Multimap.mem_get, Option.map_eq_some_iff,
    layout_listed, Option.ne_none_iff_exists']
  constructor
  · rintro ⟨_, ⟨i, hlisted, index, hindex, rfl⟩, rfl⟩
    exact ⟨hlisted, index, hindex⟩
  · rintro ⟨hlisted, index, hindex⟩
    exact ⟨(id, index), ⟨id, hlisted, index, hindex, rfl⟩, rfl⟩

theorem byType_iff :
    (∀ t id, id ∈ (s.recordsOfType J t).map Prod.fst ↔
        ∃ index, s.recordOf J id = some index ∧ index.nodeType = t) ↔
      ∀ id u, s.layout.type id = some u → ∀ t, s.layout.listed id t ↔ t = u := by
  rw [forall_comm]
  refine forall_congr' fun id => ?_
  rw [← recordOf_type J s]
  simp only [mem_ids_recordsOfType]
  cases s.recordOf J id with
  | none => simp
  | some index => simp [eq_comm]

section

variable {s} (h : s.Readable)
include h

/-- Where every row that is read parses, lookups and listings succeed. -/
theorem Readable.getNodeIndex (id : NodeId) :
    s.getNodeIndex J id = some (s.recordOf J id) := by
  have hid := (s.recordParses_iff id).mp (h id)
  unfold LocalStorage.getNodeIndex LocalStorage.recordOf readRow
  cases hindex : s.nodeIndexes[id]? with
  | none =>
      simp only
      rw [if_pos (hid hindex), Option.map_some]
  | some index => rfl

theorem Readable.lookup_iff (id : NodeId) :
    (∃ index, s.getNodeIndex J id = some (some index)) ↔ s.recordOf J id ≠ none := by
  rw [h.getNodeIndex, Option.ne_none_iff_exists']
  simp only [Option.some.injEq]

theorem Readable.getNodeIndexesByType (t : String) (limit : Option ℕ) :
    s.getNodeIndexesByType J t limit = some (takeLimit limit (s.recordsOfType J t)) :=
  if_pos (List.all_eq_true.mpr fun e _ => h e.1)

theorem Readable.rows (he : s.nodeIndexes.isEmpty = true) {e : NodeId × Node}
    (hmem : e ∈ s.nodes.toList) : e.2.parses = true := by
  have hid := (s.recordParses_iff e.1).mp (h e.1)
  rw [Std.ExtTreeMap.isEmpty_iff.mp he, OrdMap.get_empty,
    (OrdMap.mem_toList s.nodes e.1 e.2).mp hmem] at hid
  exact hid rfl

theorem Readable.getAllNodeIndexes : s.getAllNodeIndexes J none = some (s.allRecords J) := by
  unfold LocalStorage.getAllNodeIndexes allRecords takeLimit
  simp only [Std.ExtTreeMap.isEmpty_toList]
  split_ifs with he
  · unfold readRows
    rw [if_pos (List.all_eq_true.mpr fun e hmem => h.rows he hmem), Option.map_some]
  · rfl

theorem Readable.listingsExact_iff : s.ListingsExact J ↔ s.layout.Consistent := by
  have hbyType : ∀ t id, (∃ index, s.getNodeIndex J id = some (some index) ∧ index.nodeType = t) ↔
      ∃ index, s.recordOf J id = some index ∧ index.nodeType = t := by
    intro t id
    rw [h.getNodeIndex]
    simp only [Option.some.injEq]
  constructor
  · rintro ⟨⟨listed, hlisted, -, hmem⟩, htypes⟩
    obtain rfl := Option.some.inj (hlisted.symm.trans (h.getAllNodeIndexes J))
    refine ⟨(all_iff J s).mp fun id => (hmem id).trans (h.lookup_iff J id), ?_⟩
    refine (byType_iff J s).mp fun t id => ?_
    obtain ⟨listed, hlisted, hmem⟩ := htypes t
    obtain rfl := Option.some.inj (hlisted.symm.trans (h.getNodeIndexesByType J t none))
    exact (hmem id).trans (hbyType t id)
  · intro hc
    constructor
    · refine ⟨s.allRecords J, h.getAllNodeIndexes J, ?_, fun id => ?_⟩
      · rw [ids_allRecords]
        split_ifs
        · exact nodup_keys _
        · exact nodup_keys _
      · exact ((all_iff J s).mpr hc.whole id).trans (h.lookup_iff J id).symm
    · intro t
      refine ⟨s.recordsOfType J t, h.getNodeIndexesByType J t none, fun id => ?_⟩
      exact ((byType_iff J s).mpr hc.types t id).trans (hbyType t id).symm

end

/-- A row that no lookup can read makes the listing of its type fail. -/
theorem ListingsExact.readable {s : LocalStorage} (h : s.ListingsExact J)
    (hlisted : s.layout.Listed) : s.Readable := by
  intro id
  by_contra hunread
  rw [recordParses_iff] at hunread
  obtain ⟨hindex, hrow⟩ := Classical.not_imp.mp hunread
  cases hn : s.nodes[id]? with
  | none =>
      rw [hn] at hrow
      exact hrow rfl
  | some node =>
      obtain ⟨listed, hok, -⟩ := h.byType node.nodeType
      obtain ⟨hall, -⟩ := readRows_eq_some hok
      have hentry : (id, rowIndex J node) ∈ s.recordsOfType J node.nodeType := by
        refine List.mem_filterMap.mpr ⟨id, Multimap.mem_get.mpr ?_, ?_⟩
        · refine hlisted id node.nodeType ?_ ?_
          · rw [layout_index, hindex]
            rfl
          · rw [layout_row, hn]
            rfl
        · rw [recordOf, hindex, hn]
          rfl
      exact hunread ((s.recordParses_iff id).mp (List.all_eq_true.mp hall _ hentry))

/-- **When listings agree with lookups**: where rows parse, for a consistent layout. -/
theorem listingsExact_iff {s : LocalStorage} (hlisted : s.layout.Listed) :
    s.ListingsExact J ↔ s.Readable ∧ s.layout.Consistent := by
  constructor
  · intro h
    have hreadable := h.readable J hlisted
    exact ⟨hreadable, (hreadable.listingsExact_iff J).mp h⟩
  · rintro ⟨hreadable, hc⟩
    exact (hreadable.listingsExact_iff J).mpr hc

/-! ### Migration -/

/-- Migration changes no lookup and no listing. -/
structure Unchanged (s s' : LocalStorage) : Prop where
  nodeIndex : ∀ id, s'.getNodeIndex J id = s.getNodeIndex J id
  payload : ∀ id, s'.getPayload J id = s.getPayload J id
  all : ∀ limit, s'.getAllNodeIndexes J limit = s.getAllNodeIndexes J limit
  byType : ∀ t limit, s'.getNodeIndexesByType J t limit = s.getNodeIndexesByType J t limit

/-- The answers after a call of the migration are those before it. -/
def MigrationSilent : Prop := Unchanged J s (s.layoutStep J .migrateToTiered)

/-- A payload of its own has an index record. -/
def Paired : Prop := ∀ id : NodeId, s.nodeIndexes[id]? = none → s.nodePayloads[id]? = none

variable {s}

/-- Without index records there are no payloads either, so migration makes one of every row. -/
theorem Paired.nodePayloads_splitRows (h : s.Paired) (he : s.nodeIndexes.isEmpty = true) :
    (s.splitRows J).nodePayloads = s.nodes.map fun _ n => rowPayload J n := by
  have hempty : s.nodePayloads = ∅ := by
    refine OrdMap.ext fun id => ?_
    rw [OrdMap.get_empty]
    refine h id ?_
    rw [Std.ExtTreeMap.isEmpty_iff.mp he, OrdMap.get_empty]
  unfold splitRows
  rw [hempty]
  exact OrdMap.insertAll_toList _ _

theorem Paired.layoutEffect (h : s.Paired) (op : LayoutOp) : (s.layoutEffect J op).Paired := by
  have hkept : ∀ s' : LocalStorage, s'.tiered = s.tiered → s'.Paired := by
    intro s' hs'
    obtain ⟨hindex, hpayload⟩ := Prod.mk.inj hs'
    unfold Paired
    rw [hindex, hpayload]
    exact h
  have hinsert : ∀ (id : NodeId) (index : NodeIndex) (payload : Props) (i : NodeId),
      (s.nodeIndexes.insert id index)[i]? = none →
          (s.nodePayloads.insert id payload)[i]? = none := by
    intro id index payload i hi
    rw [OrdMap.get_insert] at hi ⊢
    split_ifs at hi ⊢
    exact h i hi
  have hedges : ∀ (s' : LocalStorage) (id : NodeId), (s'.deleteEdgesOf id).tiered = s'.tiered := by
    intro s' id
    rw [deleteEdgesOf_eq]
    rfl
  cases op with
  | insertNode node => exact hkept _ rfl
  | updateNode now id properties =>
      refine hkept _ ?_
      simp only [LocalStorage.layoutEffect]
      cases s.nodes[id]? with
      | none => rfl
      | some node => rfl
  | deleteNode id => exact hkept _ (hedges _ _)
  | commit ops => exact hkept _ (tiered_commit J s ops)
  | insertNodeTiered id index payload => exact hinsert id index payload
  | updateNodeTiered id index payload => exact hinsert id index payload
  | deleteNodeTiered id =>
      obtain ⟨hindex, hpayload⟩ := Prod.mk.inj (hedges _ id)
      change (s.removeNodeTiered id).Paired
      unfold removeNodeTiered Paired
      rw [hindex, hpayload]
      intro i hi
      rw [OrdMap.get_erase] at hi ⊢
      split_ifs at hi ⊢
      · rfl
      · exact h i hi
  | migrateToTiered =>
      simp only [LocalStorage.layoutEffect]
      by_cases he : s.nodeIndexes.isEmpty = true
      · rw [if_pos he]
        intro i hi
        rw [nodeIndexes_splitRows J s he, OrdMap.get_map, Option.map_eq_none_iff] at hi
        rw [h.nodePayloads_splitRows J he, OrdMap.get_map, hi]
        rfl
      · rw [if_neg he]
        exact h

/-- Rows that parse are found in their two halves as they were found whole. -/
theorem Paired.splitRows_unchanged (h : s.Paired) (he : s.nodeIndexes.isEmpty = true)
    (hparses : s.nodes.values.all Node.parses = true) : Unchanged J s (s.splitRows J) := by
  have hindexes := nodeIndexes_splitRows J s he
  have hpayloads := h.nodePayloads_splitRows J he
  have hempty := Std.ExtTreeMap.isEmpty_iff.mp he
  have hnodes : (s.splitRows J).nodes = s.nodes := rfl
  have hrow : ∀ (id : NodeId) (n : Node), s.nodes[id]? = some n → n.parses = true := by
    intro id n hn
    exact List.all_eq_true.mp hparses n ((OrdMap.mem_values s.nodes n).mpr ⟨id, hn⟩)
  have hreadable : s.Readable := by
    intro id
    refine (s.recordParses_iff id).mpr fun _ => ?_
    cases hn : s.nodes[id]? with
    | none => rfl
    | some n => exact hrow id n hn
  have hreadable' : (s.splitRows J).Readable := by
    have heffect := hreadable.migrateToTiered J
    simp only [LocalStorage.layoutEffect] at heffect
    rwa [if_pos he] at heffect
  have hrecord : ∀ id, (s.splitRows J).recordOf J id = s.recordOf J id := by
    intro id
    unfold recordOf
    rw [hindexes, hnodes, OrdMap.get_map, hempty, OrdMap.get_empty]
    cases s.nodes[id]? with
    | none => rfl
    | some node => rfl
  refine ⟨fun id => ?_, fun id => ?_, fun limit => ?_, fun t limit => ?_⟩
  · rw [hreadable.getNodeIndex, hreadable'.getNodeIndex, hrecord]
  · have hnone : s.nodePayloads[id]? = none := by
      refine h id ?_
      rw [hempty, OrdMap.get_empty]
    unfold LocalStorage.getPayload
    rw [hpayloads, hnodes, OrdMap.get_map, hnone]
    cases hn : s.nodes[id]? with
    | none => rfl
    | some node =>
        unfold readRow
        rw [Option.all_some, if_pos (hrow id node hn)]
        rfl
  · have hlist : (s.splitRows J).nodeIndexes.toList =
        s.nodes.toList.map fun e => (e.1, rowIndex J e.2) := by
      rw [hindexes, Std.ExtTreeMap.toList_map]
    have hnil : s.nodeIndexes.toList = [] := by
      rw [hempty]
      rfl
    have htake : takeLimit limit ([] : List (NodeId × NodeIndex)) = [] := by
      cases limit with
      | none => rfl
      | some n => exact List.take_nil
    have hread : readRows (fun e : NodeId × Node => e.2.parses) (takeLimit limit s.nodes.toList) =
        some (takeLimit limit s.nodes.toList) := by
      refine if_pos (List.all_eq_true.mpr fun e he => ?_)
      have hmem := (takeLimit_sublist limit s.nodes.toList).subset he
      exact hrow e.1 e.2 ((OrdMap.mem_toList s.nodes e.1 e.2).mp hmem)
    unfold LocalStorage.getAllNodeIndexes
    rw [hlist, hnil, htake, ← takeLimit_map]
    show (if _ then (readRows _ (takeLimit limit s.nodes.toList)).map _ else _) =
      if _ then (readRows _ (takeLimit limit s.nodes.toList)).map _ else _
    rw [hread, Option.map_some, if_pos List.isEmpty_nil, ite_self]
  · rw [hreadable.getNodeIndexesByType, hreadable'.getNodeIndexesByType]
    unfold recordsOfType
    simp only [hrecord]
    rfl

theorem Paired.migrationSilent (h : s.Paired) : s.MigrationSilent J := by
  have hrefl : Unchanged J s s := ⟨fun _ => rfl, fun _ => rfl, fun _ => rfl, fun _ _ => rfl⟩
  unfold MigrationSilent
  by_cases hfails : s.Fails J .migrateToTiered
  · rw [layoutStep_of_fails J hfails]
    exact hrefl
  · rw [layoutStep_eq J hfails]
    simp only [LocalStorage.layoutEffect]
    by_cases he : s.nodeIndexes.isEmpty = true
    · rw [if_pos he]
      refine h.splitRows_unchanged J he ?_
      by_contra hnot
      exact hfails ⟨he, Bool.not_eq_true _ ▸ hnot⟩
    · rw [if_neg he]
      exact hrefl

/-! ### Runs of operations -/

/-- The database after operations on a new one. -/
def laidOut (J : Serde) (ops : List LayoutOp) : LocalStorage :=
  Run.run (LocalStorage.layoutStep J) create ops

theorem consistent_create : create.layout.Consistent := by
  refine ⟨.inl fun id => ?_, fun id u hu => ?_⟩
  · rw [layout_index, create, OrdMap.get_empty]
    rfl
  · rw [Layout.type, layout_index, layout_row, create, OrdMap.get_empty, OrdMap.get_empty] at hu
    cases hu

/-- What an operation keeps whenever it takes effect holds after every run. -/
theorem laidOut_invariant {Inv : LocalStorage → Prop}
    (hstep : ∀ s op, Inv s → Inv (s.layoutEffect J op)) (h : Inv create) (ops : List LayoutOp) :
    Inv (laidOut J ops) := by
  refine Run.invariant (fun s op hs => ?_) h ops
  by_cases hfails : s.Fails J op
  · rw [layoutStep_of_fails J hfails]
    exact hs
  · rw [layoutStep_eq J hfails]
    exact hstep s op hs

theorem paired_laidOut (ops : List LayoutOp) : (laidOut J ops).Paired :=
  laidOut_invariant J (fun _ op h => h.layoutEffect J op) (fun _ _ => OrdMap.get_empty _) ops

theorem listed_laidOut (ops : List LayoutOp) : (laidOut J ops).layout.Listed := by
  have hstep : ∀ (s : LocalStorage) (op : LayoutOp), s.layout.Listed →
      (s.layoutEffect J op).layout.Listed := by
    intro s op h
    rw [layout_layoutEffect]
    exact h.step op
  refine laidOut_invariant J hstep ?_ ops
  intro id u _ hrow
  rw [layout_row, create, OrdMap.get_empty] at hrow
  cases hrow

/-- An operation fails, or is safe and leaves rows that parse. -/
def Admits (J : Serde) (s : LocalStorage) (op : LayoutOp) : Prop :=
  s.Fails J op ∨ s.layout.Safe op ∧ s.Leaves J op

theorem readable_consistent_step (op : LayoutOp) (h : s.Readable ∧ s.layout.Consistent) :
    ((s.layoutStep J op).Readable ∧ (s.layoutStep J op).layout.Consistent) ↔ Admits J s op := by
  unfold Admits
  by_cases hfails : s.Fails J op
  · rw [layoutStep_of_fails J hfails]
    exact iff_of_true h (.inl hfails)
  · rw [layoutStep_eq J hfails, or_iff_right hfails, layout_layoutEffect, h.2.step_iff,
      h.1.effect_iff, and_comm]

/-- **Listings agree with lookups across the two layouts** at every moment of a run, and migration
never shows, if and only if every operation of the run fails, or is safe for the layout it finds and
leaves rows that parse. -/
theorem listings_exact_iff (J : Serde) (ops : List LayoutOp) :
    (∀ p, p <+: ops → (laidOut J p).ListingsExact J ∧ (laidOut J p).MigrationSilent J) ↔
      Run.Along (LocalStorage.layoutStep J) (Admits J) create ops := by
  have hcreate : create.Readable ∧ create.layout.Consistent := by
    refine ⟨fun id => ?_, consistent_create⟩
    refine (create.recordParses_iff id).mpr fun _ => ?_
    rw [create, OrdMap.get_empty]
    rfl
  have hstep : ∀ (s : LocalStorage) (op : LayoutOp), (s.Readable ∧ s.layout.Consistent) →
      ((s.layoutStep J op).Readable ∧ (s.layoutStep J op).layout.Consistent ↔ Admits J s op) :=
    fun _ op h => readable_consistent_step J op h
  refine Iff.trans ?_ (Run.along_iff_of_step hstep hcreate).symm
  refine forall_congr' fun p => imp_congr_right fun _ => ?_
  rw [listingsExact_iff J (listed_laidOut J p),
    and_iff_left ((paired_laidOut J p).migrationSilent J)]
  rfl

/-- A node is inserted in the tiered layout and another one as a row: the listing has only the
first, the lookup finds both. -/
theorem row_unlisted :
    ¬ (laidOut plainJson [.insertNodeTiered ⟨1⟩ ⟨"user", 0, 0, .local, 2, 0⟩ ∅,
      .insertNode ⟨⟨2⟩, "user", ∅, 0, 0⟩]).ListingsExact plainJson := by
  rintro ⟨⟨listed, hlisted, -, hmem⟩, -⟩
  have hfound := (hmem ⟨2⟩).mpr ⟨⟨"user", 0, 0, .local, 2, 0⟩, by decide +kernel⟩
  have hids : (getAllNodeIndexes plainJson (laidOut plainJson
      [.insertNodeTiered ⟨1⟩ ⟨"user", 0, 0, .local, 2, 0⟩ ∅,
        .insertNode ⟨⟨2⟩, "user", ∅, 0, 0⟩]) none).map (List.map Prod.fst) = some [⟨1⟩] := by
    decide +kernel
  rw [hlisted, Option.map_some, Option.some.injEq] at hids
  rw [hids] at hfound
  exact absurd hfound (by decide)

end LocalStorage

end AresaDb.Store
