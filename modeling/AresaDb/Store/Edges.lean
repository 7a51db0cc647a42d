import AresaDb.Lib.Run
import AresaDb.Store.Local

/-! # The edge store over whole runs

Edges are kept in four tables: the rows, and an index each by source, by target and by type.
Inserting an edge writes all four and deleting it clears all four, but deleting a node leaves
entries of the removed edges behind in the index of the other side and in the type index.  The
invariant that carries the file is therefore one-sided (`EdgesInv`): every live edge is in all its
indexes, and an entry whose row is still there is right.  That is enough for readers, which look
every entry up, and it is kept because an id is inserted only once: a dangling entry never meets a
row again.

Nothing is parsed before it is written.  A row that does not parse makes every query fail that comes
to it, and a deletion that has to read it (`GraphOp.Reads`). -/

namespace AresaDb.Store

open LocalStorage

/-! ### Runs -/

/-- An operation on the graph. -/
inductive GraphOp where
  | insertEdge (edge : Edge)
  | insertEdgesBatch (edges : List Edge)
  | deleteEdge (id : EdgeId)
  | insertNode (node : Node)
  | deleteNode (id : NodeId)
  | deleteNodeTiered (id : NodeId)

namespace GraphOp

/-- The storage after an operation; one that fails leaves it as it is. -/
def run (J : Serde) (s : LocalStorage) : GraphOp → LocalStorage
  | insertEdge edge => s.insertEdge J edge
  | insertEdgesBatch edges => s.insertEdgesBatch J edges
  | deleteEdge id => (s.deleteEdge id).getD s
  | insertNode node => s.insertNode J node
  | deleteNode id => (s.deleteNode id).getD s
  | deleteNodeTiered id => (s.deleteNodeTiered id).getD s

/-- The edges an operation inserts. -/
def inserted : GraphOp → List Edge
  | insertEdge edge => [edge]
  | insertEdgesBatch edges => edges
  | _ => []

/-- The operation deletes the edge or one of its endpoints. -/
def Kills : GraphOp → Edge → Prop
  | deleteEdge id, e => e.id = id
  | deleteNode id, e => e.from_ = id ∨ e.to_ = id
  | deleteNodeTiered id, e => e.from_ = id ∨ e.to_ = id
  | _, _ => False

/-- The operation writes edge rows that parse, and a node that it deletes has a row that does, or no
edges. -/
def Reads (s : LocalStorage) : GraphOp → Prop
  | insertEdge edge => edge.parses = true
  | insertEdgesBatch edges => ∀ e ∈ edges, e.parses = true
  | deleteNode id => (s.nodes[id]?).all Node.parses = true ∨
      ∀ (i : EdgeId) (e : Edge), s.edges[i]? = some e → ¬ (e.from_ = id ∨ e.to_ = id)
  | deleteNodeTiered id => s.recordParses id = true ∨
      ∀ (i : EdgeId) (e : Edge), s.edges[i]? = some e → ¬ (e.from_ = id ∨ e.to_ = id)
  | _ => True

end GraphOp

/-- The storage after a list of operations on a new database. -/
def runGraph (J : Serde) (ops : List GraphOp) : LocalStorage := Run.run (GraphOp.run J) create ops

/-- The ids of all the edges a list of operations inserts. -/
def insertedIds (ops : List GraphOp) : List EdgeId := (ops.flatMap GraphOp.inserted).map Edge.id

/-- The edge was inserted, and no later operation deletes it or one of its endpoints. -/
def Live (ops : List GraphOp) (e : Edge) : Prop :=
  ∃ before op after, ops = before ++ op :: after ∧ e ∈ op.inserted ∧ ∀ op' ∈ after, ¬ op'.Kills e

theorem not_live_nil (e : Edge) : ¬ Live [] e := by
  rintro ⟨before, op, after, h, _⟩
  simp at h

/-- What one more operation does to the live edges. -/
theorem live_concat (ops : List GraphOp) (op : GraphOp) (e : Edge) :
    Live (ops ++ [op]) e ↔ Live ops e ∧ ¬ op.Kills e ∨ e ∈ op.inserted := by
  constructor
  · rintro ⟨before, op', after, heq, hin, hafter⟩
    rcases List.eq_nil_or_concat after with rfl | ⟨after, last, rfl⟩
    · obtain ⟨-, hlast⟩ := List.append_inj' heq rfl
      obtain rfl := List.singleton_inj.mp hlast
      exact .inr hin
    · rw [List.concat_eq_append, ← List.cons_append, ← List.append_assoc] at heq
      obtain ⟨rfl, hlast⟩ := List.append_inj' heq rfl
      obtain rfl := List.singleton_inj.mp hlast
      refine .inl ⟨⟨before, op', after, rfl, hin, ?_⟩, ?_⟩
      · intro op'' hmem
        exact hafter op'' (by simp [hmem])
      · exact hafter op (by simp)
  · rintro (⟨⟨before, op', after, rfl, hin, hafter⟩, hkills⟩ | hin)
    · refine ⟨before, op', after ++ [op], by simp, hin, ?_⟩
      intro op'' hmem
      rcases List.mem_append.mp hmem with hmem | hmem
      · exact hafter op'' hmem
      · rw [List.mem_singleton.mp hmem]
        exact hkills
    · exact ⟨ops, op, [], rfl, hin, by simp⟩

/-! ### The invariant -/

/-- The edge tables hold the live edges, and no id but a used one. -/
structure EdgesInv (J : Serde) (used : EdgeId → Prop) (live : Edge → Prop) (s : LocalStorage) :
    Prop where
  rows : ∀ (i : EdgeId) (e : Edge), s.edges[i]? = some e ↔ ∃ e₀, live e₀ ∧ e₀.id = i ∧ J.edge e₀ = e
  live_used : ∀ e₀, live e₀ → used e₀.id
  fromIndex : s.edgeFromIndex.Covering s.edges Edge.from_ used
  toIndex : s.edgeToIndex.Covering s.edges Edge.to_ used
  typeIndex : s.edgeTypeIndex.Covering s.edges Edge.edgeType used

namespace EdgesInv

variable {J : Serde} {used : EdgeId → Prop} {live : Edge → Prop} {s : LocalStorage}

theorem create (J : Serde) (used : EdgeId → Prop) :
    EdgesInv J used (fun _ => False) LocalStorage.create where
  rows i e := by simp [LocalStorage.create]
  live_used e₀ h := h.elim
  fromIndex := .empty _ _
  toIndex := .empty _ _
  typeIndex := .empty _ _

theorem insertEdge (h : EdgesInv J used live s) {e : Edge} (he : ¬ used e.id) :
    EdgesInv J (fun i => used i ∨ i = e.id) (fun e₀ => live e₀ ∨ e₀ = e) (s.insertEdge J e) where
  rows i e' := by
    show (s.edges.insert e.id (J.edge e))[i]? = some e' ↔ _
    rw [OrdMap.get_insert]
    split_ifs with hi
    · subst hi
      rw [Option.some.injEq]
      constructor
      · rintro rfl
        exact ⟨e, .inr rfl, rfl, rfl⟩
      · rintro ⟨e₀, hlive | rfl, hid, rfl⟩
        · exact absurd (hid ▸ h.live_used e₀ hlive) he
        · rfl
    · rw [h.rows]
      constructor
      · rintro ⟨e₀, hlive, hid, rfl⟩
        exact ⟨e₀, .inl hlive, hid, rfl⟩
      · rintro ⟨e₀, hlive | rfl, hid, rfl⟩
        · exact ⟨e₀, hlive, hid, rfl⟩
        · exact absurd hid hi
  live_used e₀ := by
    rintro (hlive | rfl)
    · exact .inl (h.live_used e₀ hlive)
    · exact .inr rfl
  fromIndex := h.fromIndex.insert he (J.edge e)
  toIndex := h.toIndex.insert he (J.edge e)
  typeIndex := h.typeIndex.insert he (J.edge e)

theorem insertEdgesBatch (h : EdgesInv J used live s) {es : List Edge}
    (hes : ∀ e ∈ es, ¬ used e.id) (hnodup : (es.map Edge.id).Nodup) :
    EdgesInv J (fun i => used i ∨ i ∈ es.map Edge.id) (fun e₀ => live e₀ ∨ e₀ ∈ es)
      (s.insertEdgesBatch J es) := by
  induction es generalizing used live s with
  | nil => simpa using h
  | cons e es ih =>
      obtain ⟨hnot, hnodup⟩ := List.nodup_cons.mp hnodup
      have hstep := ih (h.insertEdge (hes e (by simp))) ?_ hnodup
      · simpa only [List.map_cons, List.mem_cons, ← or_assoc, insertEdgesBatch_cons] using hstep
      · rintro e' he' (hused | hid)
        · exact hes e' (by simp [he']) hused
        · exact hnot (hid ▸ List.mem_map_of_mem he')

/-- Edges go: the rows that are left are those of the edges that are left, and every entry of such
a row stays. -/
theorem shrink {K : Edge → Prop} {s' : LocalStorage} (h : EdgesInv J used live s)
    (hK : ∀ e₀, K (J.edge e₀) ↔ K e₀)
    (hrows : ∀ (i : EdgeId) (e : Edge), s'.edges[i]? = some e ↔ s.edges[i]? = some e ∧ ¬ K e)
    (hfrom : ∀ e, e ∈ s'.edgeFromIndex → e ∈ s.edgeFromIndex)
    (hfrom' : ∀ (i : EdgeId) (e : Edge), s'.edges[i]? = some e → (e.from_, i) ∈ s.edgeFromIndex →
      (e.from_, i) ∈ s'.edgeFromIndex)
    (hto : ∀ e, e ∈ s'.edgeToIndex → e ∈ s.edgeToIndex)
    (hto' : ∀ (i : EdgeId) (e : Edge), s'.edges[i]? = some e → (e.to_, i) ∈ s.edgeToIndex →
      (e.to_, i) ∈ s'.edgeToIndex)
    (htype : ∀ e, e ∈ s'.edgeTypeIndex → e ∈ s.edgeTypeIndex)
    (htype' : ∀ (i : EdgeId) (e : Edge), s'.edges[i]? = some e →
      (e.edgeType, i) ∈ s.edgeTypeIndex → (e.edgeType, i) ∈ s'.edgeTypeIndex) :
    EdgesInv J used (fun e₀ => live e₀ ∧ ¬ K e₀) s' where
  rows i e := by
    rw [hrows, h.rows]
    constructor
    · rintro ⟨⟨e₀, hlive, hid, rfl⟩, hnot⟩
      exact ⟨e₀, ⟨hlive, fun hk => hnot ((hK e₀).mpr hk)⟩, hid, rfl⟩
    · rintro ⟨e₀, ⟨hlive, hnot⟩, hid, rfl⟩
      exact ⟨⟨e₀, hlive, hid, rfl⟩, fun hk => hnot ((hK e₀).mp hk)⟩
  live_used e₀ he₀ := h.live_used e₀ he₀.1
  fromIndex := h.fromIndex.shrink (fun i e hi => ((hrows i e).mp hi).1) hfrom hfrom'
  toIndex := h.toIndex.shrink (fun i e hi => ((hrows i e).mp hi).1) hto hto'
  typeIndex := h.typeIndex.shrink (fun i e hi => ((hrows i e).mp hi).1) htype htype'

theorem row_id (h : EdgesInv J used live s) {i : EdgeId} {e : Edge} (hi : s.edges[i]? = some e) :
    e.id = i := by
  obtain ⟨e₀, _, hid, rfl⟩ := (h.rows i e).mp hi
  exact hid

theorem removeEdge (h : EdgesInv J used live s) (id : EdgeId) :
    EdgesInv J used (fun e₀ => live e₀ ∧ ¬ e₀.id = id) (s.removeEdge id) := by
  have hrows : ∀ (i : EdgeId) (e : Edge),
      (s.removeEdge id).edges[i]? = some e ↔ s.edges[i]? = some e ∧ ¬ e.id = id := by
    intro i e
    have herase : (s.removeEdge id).edges = s.edges.erase id := by
      unfold LocalStorage.removeEdge
      split <;> rfl
    rw [herase, OrdMap.get_erase]
    split_ifs with hi
    · subst hi
      simp only [false_iff, not_and, not_not]
      exact fun hi => h.row_id hi
    · constructor
      · intro he
        exact ⟨he, fun hid => hi (hid ▸ h.row_id he)⟩
      · exact And.left
  -- The entries that go are of the removed id.
  have hne : ∀ {κ : Type} {k k' : κ} (i : EdgeId) (e : Edge),
      (s.removeEdge id).edges[i]? = some e → (k, i) ≠ (k', id) := by
    intro κ k k' i e hi heq
    obtain ⟨hrow, hid⟩ := (hrows i e).mp hi
    exact hid ((h.row_id hrow).trans (congrArg Prod.snd heq))
  cases hrow : s.edges[id]? with
  | none =>
      have hs : s.removeEdge id = { s with edges := s.edges.erase id } := by
        unfold LocalStorage.removeEdge
        rw [hrow]
      refine h.shrink (fun _ => Iff.rfl) hrows ?_ ?_ ?_ ?_ ?_ ?_ <;> rw [hs]
      all_goals first | exact fun _ he => he | exact fun _ _ _ he => he
  | some edge =>
      have hs : s.removeEdge id =
          { s with
            edges := s.edges.erase id
            edgeFromIndex := s.edgeFromIndex.remove edge.from_ id
            edgeToIndex := s.edgeToIndex.remove edge.to_ id
            edgeTypeIndex := s.edgeTypeIndex.remove edge.edgeType id } := by
        unfold LocalStorage.removeEdge
        rw [hrow]
      refine h.shrink (fun _ => Iff.rfl) hrows ?_ ?_ ?_ ?_ ?_ ?_
      · rw [hs]
        exact fun _ he => (Multimap.mem_remove.mp he).2
      · intro i e hi he
        rw [hs]
        exact Multimap.mem_remove.mpr ⟨hne i e hi, he⟩
      · rw [hs]
        exact fun _ he => (Multimap.mem_remove.mp he).2
      · intro i e hi he
        rw [hs]
        exact Multimap.mem_remove.mpr ⟨hne i e hi, he⟩
      · rw [hs]
        exact fun _ he => (Multimap.mem_remove.mp he).2
      · intro i e hi he
        rw [hs]
        exact Multimap.mem_remove.mpr ⟨hne i e hi, he⟩

theorem deleteEdgesOf (h : EdgesInv J used live s) (id : NodeId) :
    EdgesInv J used (fun e₀ => live e₀ ∧ ¬ (e₀.from_ = id ∨ e₀.to_ = id)) (s.deleteEdgesOf id) := by
  have hrows : ∀ (i : EdgeId) (e : Edge), (s.deleteEdgesOf id).edges[i]? = some e ↔
      s.edges[i]? = some e ∧ ¬ (e.from_ = id ∨ e.to_ = id) := by
    intro i e
    rw [get_edges_deleteEdgesOf]
    split_ifs with hmem
    · simp only [false_iff, not_and, not_not]
      intro hi
      exact hmem.imp (fun hm => h.fromIndex.sound id i e hm hi)
        (fun hm => h.toIndex.sound id i e hm hi)
    · constructor
      · intro hi
        refine ⟨hi, fun hends => hmem ?_⟩
        refine hends.imp (fun hf => ?_) (fun ht => ?_)
        · exact hf ▸ h.fromIndex.covers i e hi
        · exact ht ▸ h.toIndex.covers i e hi
      · exact And.left
  refine h.shrink (fun _ => Iff.rfl) hrows ?_ ?_ ?_ ?_ ?_ ?_
  · exact fun _ he => (mem_fromIndex_deleteEdgesOf.mp he).2
  · intro i e hi he
    exact mem_fromIndex_deleteEdgesOf.mpr ⟨fun hf => ((hrows i e).mp hi).2 (.inl hf), he⟩
  · exact fun _ he => (mem_toIndex_deleteEdgesOf.mp he).2
  · intro i e hi he
    exact mem_toIndex_deleteEdgesOf.mpr ⟨fun ht => ((hrows i e).mp hi).2 (.inr ht), he⟩
  · rw [typeIndex_deleteEdgesOf]
    exact fun _ he => he
  · rw [typeIndex_deleteEdgesOf]
    exact fun _ _ _ he => he

/-- The invariant is about the edge tables alone. -/
theorem of_edges_eq {s' : LocalStorage} (h : EdgesInv J used live s) (he : s'.edges = s.edges)
    (hf : s'.edgeFromIndex = s.edgeFromIndex) (ht : s'.edgeToIndex = s.edgeToIndex)
    (hty : s'.edgeTypeIndex = s.edgeTypeIndex) : EdgesInv J used live s' := by
  obtain ⟨h₁, h₂, h₃, h₄, h₅⟩ := h
  rw [← he] at h₁ h₃ h₄ h₅
  exact ⟨h₁, h₂, hf ▸ h₃, ht ▸ h₄, hty ▸ h₅⟩

/-- More used ids, and the same live edges. -/
theorem congr {used' : EdgeId → Prop} {live' : Edge → Prop} (h : EdgesInv J used live s)
    (hused : ∀ i, used i → used' i) (hlive : ∀ e, live e ↔ live' e) : EdgesInv J used' live' s := by
  obtain rfl : live = live' := funext fun e => propext (hlive e)
  exact ⟨h.rows, fun e he => hused _ (h.live_used e he), h.fromIndex.mono hused,
    h.toIndex.mono hused, h.typeIndex.mono hused⟩

/-! ### Queries -/

/-- The rows that an index lists are those of the live edges under the key. -/
theorem mem_rowsFrom (h : EdgesInv J used live s) (n : NodeId) (e : Edge) :
    e ∈ s.edgeRows (s.edgeFromIndex.get n) ↔ ∃ e₀, live e₀ ∧ J.edge e₀ = e ∧ e₀.from_ = n := by
  unfold edgeRows
  rw [h.fromIndex.mem_filterMap_get]
  constructor
  · rintro ⟨i, hi, hn⟩
    obtain ⟨e₀, hlive, _, rfl⟩ := (h.rows i e).mp hi
    exact ⟨e₀, hlive, rfl, hn⟩
  · rintro ⟨e₀, hlive, rfl, hn⟩
    exact ⟨e₀.id, (h.rows _ _).mpr ⟨e₀, hlive, rfl, rfl⟩, hn⟩

theorem mem_rowsTo (h : EdgesInv J used live s) (n : NodeId) (e : Edge) :
    e ∈ s.edgeRows (s.edgeToIndex.get n) ↔ ∃ e₀, live e₀ ∧ J.edge e₀ = e ∧ e₀.to_ = n := by
  unfold edgeRows
  rw [h.toIndex.mem_filterMap_get]
  constructor
  · rintro ⟨i, hi, hn⟩
    obtain ⟨e₀, hlive, _, rfl⟩ := (h.rows i e).mp hi
    exact ⟨e₀, hlive, rfl, hn⟩
  · rintro ⟨e₀, hlive, rfl, hn⟩
    exact ⟨e₀.id, (h.rows _ _).mpr ⟨e₀, hlive, rfl, rfl⟩, hn⟩

theorem mem_rowsByType (h : EdgesInv J used live s) (t : String) (e : Edge) :
    e ∈ s.edgeRows (s.edgeTypeIndex.get t) ↔ ∃ e₀, live e₀ ∧ J.edge e₀ = e ∧ e₀.edgeType = t := by
  unfold edgeRows
  rw [h.typeIndex.mem_filterMap_get]
  constructor
  · rintro ⟨i, hi, ht⟩
    obtain ⟨e₀, hlive, _, rfl⟩ := (h.rows i e).mp hi
    exact ⟨e₀, hlive, rfl, ht⟩
  · rintro ⟨e₀, hlive, rfl, ht⟩
    exact ⟨e₀.id, (h.rows _ _).mpr ⟨e₀, hlive, rfl, rfl⟩, ht⟩

/-- Rows looked up under different ids have different ids. -/
theorem nodup_edgeRows (h : EdgesInv J used live s) {ids : List EdgeId} (hids : ids.Nodup) :
    ((s.edgeRows ids).map Edge.id).Nodup := by
  have hsub : List.Sublist ((s.edgeRows ids).map Edge.id) ids := by
    unfold edgeRows
    induction ids with
    | nil => simp
    | cons i ids ih =>
        have ih := ih (List.nodup_cons.mp hids).2
        cases hi : s.edges[i]? with
        | none =>
            rw [List.filterMap_cons_none hi]
            exact ih.cons i
        | some e =>
            rw [List.filterMap_cons_some hi, List.map_cons, h.row_id hi]
            exact ih.cons_cons i
  exact hids.sublist hsub

end EdgesInv

/-- Every edge row parses. -/
def EdgesParse (s : LocalStorage) : Prop :=
  ∀ (i : EdgeId) (e : Edge), s.edges[i]? = some e → e.parses = true

namespace EdgesParse

variable {s : LocalStorage}

theorem readRows_eq (h : EdgesParse s) (ids : List EdgeId) :
    readRows Edge.parses (s.edgeRows ids) = some (s.edgeRows ids) := by
  refine if_pos (List.all_eq_true.mpr fun e he => ?_)
  obtain ⟨i, -, hi⟩ := List.mem_filterMap.mp he
  exact h i e hi

/-- No query fails. -/
theorem readEdges_eq (h : EdgesParse s) (ids : List EdgeId) (f : Option String) :
    s.readEdges ids f = some ((s.edgeRows ids).filter (typeAdmits f)) := by
  unfold readEdges
  rw [h.readRows_eq]
  rfl

theorem getEdgesByType_eq (h : EdgesParse s) (t : String) :
    s.getEdgesByType t none = some (s.edgeRows (s.edgeTypeIndex.get t)) :=
  h.readRows_eq _

/-- Edges go. -/
theorem of_subset (h : EdgesParse s) {s' : LocalStorage}
    (hrows : ∀ (i : EdgeId) (e : Edge), s'.edges[i]? = some e → s.edges[i]? = some e) :
    EdgesParse s' := fun i e he => h i e (hrows i e he)

theorem removeEdge (h : EdgesParse s) (id : EdgeId) : EdgesParse (s.removeEdge id) := by
  refine h.of_subset fun i e he => ?_
  rw [edges_removeEdge, OrdMap.get_erase] at he
  split_ifs at he
  exact he

theorem removeNode (h : EdgesParse s) (id : NodeId) : EdgesParse (s.removeNode id) := by
  refine h.of_subset fun i e he => ?_
  rw [get_edges_removeNode] at he
  split_ifs at he
  exact he

theorem removeNodeTiered (h : EdgesParse s) (id : NodeId) : EdgesParse (s.removeNodeTiered id) := by
  refine h.of_subset fun i e he => ?_
  unfold LocalStorage.removeNodeTiered at he
  rw [get_edges_deleteEdgesOf] at he
  split_ifs at he
  exact he

theorem insertEdge (h : EdgesParse s) {J : Serde} {edge : Edge} (hedge : edge.parses = true) :
    EdgesParse (s.insertEdge J edge) := by
  intro i e he
  rw [show (s.insertEdge J edge).edges = s.edges.insert edge.id (J.edge edge) from rfl,
    OrdMap.get_insert] at he
  split_ifs at he
  · obtain rfl := Option.some.inj he
    exact (J.parses_edge edge).trans hedge
  · exact h i e he

theorem insertEdgesBatch (h : EdgesParse s) {J : Serde} {edges : List Edge}
    (hedges : ∀ e ∈ edges, e.parses = true) : EdgesParse (s.insertEdgesBatch J edges) := by
  induction edges generalizing s with
  | nil => exact h
  | cons e es ih =>
      obtain ⟨he, hes⟩ := List.forall_mem_cons.mp hedges
      exact ih (h.insertEdge he) hes

end EdgesParse

/-- What a query returns has been parsed. -/
theorem parses_of_readEdges {s : LocalStorage} {ids : List EdgeId} {f : Option String}
    {l : List Edge} (h : s.readEdges ids f = some l) : ∀ e ∈ l, e.parses = true := by
  obtain ⟨rows, hrows, rfl⟩ := Option.map_eq_some_iff.mp h
  obtain ⟨hall, rfl⟩ := readRows_eq_some hrows
  exact fun e he => List.all_eq_true.mp hall e (List.mem_filter.mp he).1

/-- The deletion of a node fails, and no edge is there to go. -/
theorem EdgesInv.keep {J : Serde} {used : EdgeId → Prop} {live : Edge → Prop} {s : LocalStorage}
    (h : EdgesInv J used live s) {id : NodeId}
    (hnone : ∀ (i : EdgeId) (e : Edge), s.edges[i]? = some e → ¬ (e.from_ = id ∨ e.to_ = id)) :
    EdgesInv J used (fun e₀ => live e₀ ∧ ¬ (e₀.from_ = id ∨ e₀.to_ = id)) s := by
  refine h.congr (fun _ hi => hi) fun e => (and_iff_left_of_imp fun hlive => ?_).symm
  exact hnone e.id (J.edge e) ((h.rows _ _).mpr ⟨e, hlive, rfl, rfl⟩)

/-- Every operation keeps the invariant when it inserts under new ids, and reads what it must. -/
theorem GraphOp.run_inv {J : Serde} {used : EdgeId → Prop} {live : Edge → Prop} {s : LocalStorage}
    (h : EdgesInv J used live s) (hparse : EdgesParse s) (op : GraphOp) (hreads : op.Reads s)
    (hnew : ∀ e ∈ op.inserted, ¬ used e.id) (hnodup : (op.inserted.map Edge.id).Nodup) :
    EdgesInv J (fun i => used i ∨ i ∈ op.inserted.map Edge.id)
      (fun e₀ => live e₀ ∧ ¬ op.Kills e₀ ∨ e₀ ∈ op.inserted) (op.run J s) ∧
      EdgesParse (op.run J s) := by
  cases op with
  | insertEdge edge =>
      have hstep := h.insertEdge (hnew edge (by simp [inserted]))
      exact ⟨by simpa [GraphOp.run, inserted, Kills] using hstep, hparse.insertEdge hreads⟩
  | insertEdgesBatch edges =>
      have hstep := h.insertEdgesBatch hnew hnodup
      exact ⟨by simpa [GraphOp.run, inserted, Kills] using hstep, hparse.insertEdgesBatch hreads⟩
  | deleteEdge id =>
      have hall : (s.edges[id]?).all Edge.parses = true := by
        cases hi : s.edges[id]? with
        | none => rfl
        | some e => exact hparse id e hi
      have hrun : (GraphOp.deleteEdge id).run J s = s.removeEdge id := by
        rw [GraphOp.run, LocalStorage.deleteEdge, if_pos hall, Option.getD_some]
      rw [hrun]
      exact ⟨by simpa [inserted, Kills] using h.removeEdge id, hparse.removeEdge id⟩
  | insertNode node =>
      have hstep : EdgesInv J used live (s.insertNode J node) := h.of_edges_eq rfl rfl rfl rfl
      exact ⟨by simpa [GraphOp.run, inserted, Kills] using hstep, hparse⟩
  | deleteNode id =>
      simp only [GraphOp.run, LocalStorage.deleteNode]
      by_cases hrow : (s.nodes[id]?).all Node.parses = true
      · have hstep : EdgesInv J used (fun e₀ => live e₀ ∧ ¬ (e₀.from_ = id ∨ e₀.to_ = id))
            (s.removeNode id) := by
          unfold LocalStorage.removeNode
          refine EdgesInv.deleteEdgesOf ?_ id
          exact h.of_edges_eq rfl rfl rfl rfl
        rw [if_pos hrow, Option.getD_some]
        exact ⟨by simpa [inserted, Kills] using hstep, hparse.removeNode id⟩
      · have hstep := h.keep (hreads.resolve_left hrow)
        rw [if_neg hrow, Option.getD_none]
        exact ⟨by simpa [inserted, Kills] using hstep, hparse⟩
  | deleteNodeTiered id =>
      simp only [GraphOp.run, LocalStorage.deleteNodeTiered]
      by_cases hrow : s.recordParses id = true
      · have hstep : EdgesInv J used (fun e₀ => live e₀ ∧ ¬ (e₀.from_ = id ∨ e₀.to_ = id))
            (s.removeNodeTiered id) := by
          unfold LocalStorage.removeNodeTiered
          refine EdgesInv.deleteEdgesOf ?_ id
          exact h.of_edges_eq rfl rfl rfl rfl
        rw [if_pos hrow, Option.getD_some]
        exact ⟨by simpa [inserted, Kills] using hstep, hparse.removeNodeTiered id⟩
      · have hstep := h.keep (hreads.resolve_left hrow)
        rw [if_neg hrow, Option.getD_none]
        exact ⟨by simpa [inserted, Kills] using hstep, hparse⟩

theorem insertedIds_concat (ops : List GraphOp) (op : GraphOp) :
    insertedIds (ops ++ [op]) = insertedIds ops ++ op.inserted.map Edge.id := by
  simp [insertedIds]

/-- The edge tables hold exactly the live edges, and their rows parse. -/
def Holding (J : Serde) (ops : List GraphOp) : Prop :=
  EdgesInv J (· ∈ insertedIds ops) (Live ops) (runGraph J ops) ∧ EdgesParse (runGraph J ops)

theorem holding_nil (J : Serde) : Holding J [] := by
  have hlive : Live [] = fun _ => False := by
    funext e
    exact eq_false (not_live_nil e)
  refine ⟨?_, fun i e he => ?_⟩
  · rw [hlive]
    exact .create J _
  · rw [show (runGraph J []).edges[i]? = none from OrdMap.get_empty i] at he
    cases he

theorem Holding.concat {J : Serde} {ops : List GraphOp} (h : Holding J ops) {op : GraphOp}
    (hfresh : (insertedIds (ops ++ [op])).Nodup) (hreads : op.Reads (runGraph J ops)) :
    Holding J (ops ++ [op]) := by
  rw [insertedIds_concat, List.nodup_append] at hfresh
  obtain ⟨-, hnodup, hdisj⟩ := hfresh
  have hnew : ∀ e ∈ op.inserted, e.id ∉ insertedIds ops :=
    fun e he hin => hdisj e.id hin e.id (List.mem_map_of_mem he) rfl
  have hstep := op.run_inv h.1 h.2 hreads hnew hnodup
  have hlive : Live (ops ++ [op]) = fun e₀ => Live ops e₀ ∧ ¬ op.Kills e₀ ∨ e₀ ∈ op.inserted := by
    funext e
    exact propext (live_concat ops op e)
  have hids : (· ∈ insertedIds (ops ++ [op])) =
      fun i => i ∈ insertedIds ops ∨ i ∈ op.inserted.map Edge.id := by
    funext i
    rw [insertedIds_concat, List.mem_append]
  unfold Holding
  rw [hlive, hids, runGraph, Run.run_concat]
  exact hstep

theorem holding_run (J : Serde) {ops : List GraphOp} (hfresh : (insertedIds ops).Nodup)
    (hreads : Run.Along (GraphOp.run J) (fun s op => op.Reads s) create ops) : Holding J ops := by
  induction ops using List.reverseRecOn with
  | nil => exact holding_nil J
  | append_singleton ops op ih =>
      obtain ⟨hpast, hop⟩ := Run.along_concat.mp hreads
      refine (ih ?_ hpast).concat hfresh hop
      rw [insertedIds_concat, List.nodup_append] at hfresh
      exact hfresh.1

/-! ### The result -/

/-- The queries by source, by target and by type return the live edges they ask for, each once and
as the JSON of its row reads.  In particular none returns an edge of a node that has just been
deleted. -/
structure QueriesExact (J : Serde) (ops : List GraphOp) : Prop where
  outgoing : ∀ n f, ∃ l, (runGraph J ops).getEdgesFrom n f = some l ∧ (l.map Edge.id).Nodup ∧
    ∀ e, e ∈ l ↔ ∃ e₀, Live ops e₀ ∧ J.edge e₀ = e ∧ e₀.from_ = n ∧ typeAdmits f e₀ = true
  incoming : ∀ n f, ∃ l, (runGraph J ops).getEdgesTo n f = some l ∧ (l.map Edge.id).Nodup ∧
    ∀ e, e ∈ l ↔ ∃ e₀, Live ops e₀ ∧ J.edge e₀ = e ∧ e₀.to_ = n ∧ typeAdmits f e₀ = true
  byType : ∀ t, ∃ l, (runGraph J ops).getEdgesByType t none = some l ∧ (l.map Edge.id).Nodup ∧
    ∀ e, e ∈ l ↔ ∃ e₀, Live ops e₀ ∧ J.edge e₀ = e ∧ e₀.edgeType = t
  deleted : ∀ before id, ops = before ++ [.deleteNode id] ∨ ops = before ++ [.deleteNodeTiered id] →
    ∀ l, ((∃ n f, (runGraph J ops).getEdgesFrom n f = some l ∨
          (runGraph J ops).getEdgesTo n f = some l) ∨
        ∃ t, (runGraph J ops).getEdgesByType t none = some l) →
      ∀ e ∈ l, e.from_ ≠ id ∧ e.to_ ≠ id

theorem Holding.queriesExact {J : Serde} {ops : List GraphOp} (h : Holding J ops) :
    QueriesExact J ops := by
  have hinv := h.1
  have hfiltered : ∀ {ids : List EdgeId} {P : Edge → Prop} (f : Option String),
      (∀ e, e ∈ (runGraph J ops).edgeRows ids ↔ ∃ e₀, Live ops e₀ ∧ J.edge e₀ = e ∧ P e₀) →
      ∀ e, e ∈ ((runGraph J ops).edgeRows ids).filter (typeAdmits f) ↔
        ∃ e₀, Live ops e₀ ∧ J.edge e₀ = e ∧ P e₀ ∧ typeAdmits f e₀ = true := by
    intro ids P f hrows e
    rw [List.mem_filter, hrows]
    constructor
    · rintro ⟨⟨e₀, hlive, rfl, hP⟩, hf⟩
      exact ⟨e₀, hlive, rfl, hP, hf⟩
    · rintro ⟨e₀, hlive, rfl, hP, hf⟩
      exact ⟨⟨e₀, hlive, rfl, hP⟩, hf⟩
  have hnodup : ∀ {ids : List EdgeId} (f : Option String), ids.Nodup →
      ((((runGraph J ops).edgeRows ids).filter (typeAdmits f)).map Edge.id).Nodup :=
    fun f hids => (hinv.nodup_edgeRows hids).sublist (List.filter_sublist.map Edge.id)
  have hfrom := fun n f => hfiltered f (hinv.mem_rowsFrom n)
  have hto := fun n f => hfiltered f (hinv.mem_rowsTo n)
  refine ⟨fun n f => ⟨_, h.2.readEdges_eq _ f, hnodup f (Multimap.get_nodup _ _), hfrom n f⟩,
    fun n f => ⟨_, h.2.readEdges_eq _ f, hnodup f (Multimap.get_nodup _ _), hto n f⟩,
    fun t => ⟨_, h.2.getEdgesByType_eq t, hinv.nodup_edgeRows (Multimap.get_nodup _ _),
      hinv.mem_rowsByType t⟩, ?_⟩
  intro before id hops l hl e he
  obtain ⟨e₀, hlive, rfl⟩ : ∃ e₀, Live ops e₀ ∧ J.edge e₀ = e := by
    rcases hl with ⟨n, f, hl | hl⟩ | ⟨t, hl⟩
    · obtain rfl := Option.some.inj ((h.2.readEdges_eq _ f).symm.trans hl)
      obtain ⟨e₀, hlive, heq, _⟩ := (hfrom n f e).mp he
      exact ⟨e₀, hlive, heq⟩
    · obtain rfl := Option.some.inj ((h.2.readEdges_eq _ f).symm.trans hl)
      obtain ⟨e₀, hlive, heq, _⟩ := (hto n f e).mp he
      exact ⟨e₀, hlive, heq⟩
    · obtain rfl := Option.some.inj ((h.2.getEdgesByType_eq t).symm.trans hl)
      obtain ⟨e₀, hlive, heq, _⟩ := (hinv.mem_rowsByType t e).mp he
      exact ⟨e₀, hlive, heq⟩
  have hnot : ¬ (e₀.from_ = id ∨ e₀.to_ = id) := by
    rcases hops with rfl | rfl
    · exact (((live_concat _ _ _).mp hlive).resolve_right (by simp [GraphOp.inserted])).2
    · exact (((live_concat _ _ _).mp hlive).resolve_right (by simp [GraphOp.inserted])).2
  exact not_or.mp hnot

/-- What is live is read, so its row parses. -/
theorem QueriesExact.parses {J : Serde} {ops : List GraphOp} (h : QueriesExact J ops) {e : Edge}
    (hlive : Live ops e) : e.parses = true := by
  obtain ⟨l, hl, -, hmem⟩ := h.outgoing e.from_ none
  have hin : J.edge e ∈ l := (hmem _).mpr ⟨e, hlive, rfl, rfl, rfl⟩
  exact (J.parses_edge e).symm.trans (parses_of_readEdges hl _ hin)

/-- A deletion that fails leaves the edges of the node. -/
theorem QueriesExact.no_edges {J : Serde} {ops : List GraphOp} {op : GraphOp} {id : NodeId}
    (h : Holding J ops) (hexact : QueriesExact J (ops ++ [op]))
    (hsame : runGraph J (ops ++ [op]) = runGraph J ops) (hnone : op.inserted = [])
    (hkills : ∀ e, op.Kills e ↔ e.from_ = id ∨ e.to_ = id) (i : EdgeId) (e : Edge)
    (hi : (runGraph J ops).edges[i]? = some e) : ¬ (e.from_ = id ∨ e.to_ = id) := by
  intro hends
  obtain ⟨e₀, hlive, -, rfl⟩ := (h.1.rows i e).mp hi
  obtain ⟨l, hl, -, hmem⟩ := hexact.outgoing e₀.from_ none
  obtain ⟨l', hl', -, hmem'⟩ := h.queriesExact.outgoing e₀.from_ none
  rw [hsame] at hl
  obtain rfl := Option.some.inj (hl.symm.trans hl')
  obtain ⟨e₁, hlive₁, heq, -⟩ := (hmem _).mp ((hmem' _).mpr ⟨e₀, hlive, rfl, rfl, rfl⟩)
  have hnot := ((live_concat ops op e₁).mp hlive₁).resolve_right (by simp [hnone])
  refine hnot.2 ((hkills e₁).mpr ?_)
  rw [← J.edge_from e₁, ← J.edge_to e₁, heq]
  exact hends

/-- An operation that does not read what it must makes a query go wrong. -/
theorem Holding.reads {J : Serde} {ops : List GraphOp} (h : Holding J ops) {op : GraphOp}
    (hexact : QueriesExact J (ops ++ [op])) : op.Reads (runGraph J ops) := by
  have hrun : runGraph J (ops ++ [op]) = op.run J (runGraph J ops) := Run.run_concat _ _ _ _
  cases op with
  | insertEdge edge =>
      exact hexact.parses ((live_concat _ _ _).mpr (.inr (List.mem_singleton_self edge)))
  | insertEdgesBatch edges =>
      exact fun e he => hexact.parses ((live_concat _ _ _).mpr (.inr he))
  | deleteNode id =>
      refine or_iff_not_imp_left.mpr fun hrow => ?_
      refine QueriesExact.no_edges h hexact (hrun.trans ?_) rfl fun e => Iff.rfl
      rw [GraphOp.run, LocalStorage.deleteNode, if_neg hrow, Option.getD_none]
  | deleteNodeTiered id =>
      refine or_iff_not_imp_left.mpr fun hrow => ?_
      refine QueriesExact.no_edges h hexact (hrun.trans ?_) rfl fun e => Iff.rfl
      rw [GraphOp.run, LocalStorage.deleteNodeTiered, if_neg hrow, Option.getD_none]
  | deleteEdge id => trivial
  | insertNode node => trivial

/-- As long as no edge id is inserted twice, the edge store is exact after every beginning of a run
exactly when every operation of the run reads what it must. -/
theorem edge_queries_exact_iff (J : Serde) (ops : List GraphOp)
    (hfresh : (insertedIds ops).Nodup) :
    (∀ before, before <+: ops → QueriesExact J before) ↔
      Run.Along (GraphOp.run J) (fun s op => op.Reads s) create ops := by
  constructor
  · intro h
    induction ops using List.reverseRecOn with
    | nil => trivial
    | append_singleton ops op ih =>
        have hpast : (insertedIds ops).Nodup := by
          rw [insertedIds_concat, List.nodup_append] at hfresh
          exact hfresh.1
        have hreads := ih hpast fun before hbefore =>
          h before (hbefore.trans (List.prefix_append _ _))
        exact Run.along_concat.mpr
          ⟨hreads, (holding_run J hpast hreads).reads (h _ List.prefix_rfl)⟩
  · intro hreads before hbefore
    obtain ⟨after, rfl⟩ := hbefore
    have hpast : (insertedIds before).Nodup := by
      unfold insertedIds at hfresh
      rw [List.flatMap_append, List.map_append] at hfresh
      exact (List.nodup_append.mp hfresh).1
    exact (holding_run J hpast (hreads.upto (List.prefix_append _ _))).queriesExact

/-- Two edges of one batch, one of them a loop, and the deletion of a node of both. -/
def sampleGraph : List GraphOp :=
  [.insertEdgesBatch
      [⟨⟨1⟩, ⟨10⟩, ⟨10⟩, "self", ∅, 0⟩, ⟨⟨2⟩, ⟨10⟩, ⟨11⟩, "follows", ∅, 0⟩],
    .insertEdge ⟨⟨3⟩, ⟨11⟩, ⟨12⟩, "follows", ∅, 0⟩, .deleteNodeTiered ⟨10⟩]

theorem edge_queries_exact_iff_sample :
    (insertedIds sampleGraph).Nodup ∧
      ((∀ before, before <+: sampleGraph → QueriesExact plainJson before) ↔
        Run.Along (GraphOp.run plainJson) (fun s op => op.Reads s) create sampleGraph) := by
  have hfresh : (insertedIds sampleGraph).Nodup := by decide
  exact ⟨hfresh, edge_queries_exact_iff plainJson sampleGraph hfresh⟩

/-- Null inside so many arrays. -/
def nested : ℕ → Value
  | 0 => .null
  | n + 1 => .array [nested n]

/-- The text of the properties is of 127 levels, that of the row of 128. -/
def sampleDeep : Edge := ⟨⟨1⟩, ⟨10⟩, ⟨11⟩, "follows", (∅ : Props).insert "path" (nested 126), 0⟩

/-- The edge is inserted, and the query for it fails. -/
theorem edge_not_read :
    ¬ ∀ (J : Serde) (ops : List GraphOp), (insertedIds ops).Nodup → QueriesExact J ops := by
  intro h
  have hlive : Live [.insertEdge sampleDeep] sampleDeep :=
    (live_concat [] _ _).mpr (.inr (List.mem_singleton_self _))
  have hparses := (h plainJson [.insertEdge sampleDeep] (by decide)).parses hlive
  exact absurd hparses (by decide +kernel)

end AresaDb.Store
