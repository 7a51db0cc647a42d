import AresaDb.Lib.BreadthFirst
import AresaDb.Lib.Run
import AresaDb.Store.Graph

/-! # Parallel traversal

`parallel_traverse` starts one task for each start id (`storage/parallel.rs`).  A task opens the
file of the storage once more, searches breadth-first and keeps its own depths, but the ids that are
visited are shared: what one task has marked, the others pass over.  The steps of the tasks come in
any order.

The caller has the file open all the while.  A library that opens a file for one handle only refuses
every task, and nothing is returned unless there is nothing to start from (`parallelTraverse_iff`).

With a library that shares the file an id is expanded by the task that marks it, as deep as that
task says.  So a run returns the nodes within the depth of a start if no task comes to an id at a
smaller depth than it was marked with (`parallelTraverse_exact`); a run where one does may miss
nodes (`third_id_missed`). -/

namespace AresaDb.Store

open BreadthFirst

/-! ### Tasks -/

/-- Whether the library opens a file that has so many handles. -/
structure FileLock where
  opens : ℕ → Bool

/-- A file that is open cannot be opened again. -/
def FileLock.Exclusive (lock : FileLock) : Prop :=
  ∀ handles, lock.opens handles = true → handles = 0

/-- What the tasks share. -/
structure Shared where
  visited : List String
  nodes : List Node
  edges : List Edge
  /-- How often the file is open. -/
  handles : ℕ

/-- How far a task has come in its loop. -/
inductive Stage where
  /-- The file is opened. -/
  | opening
  /-- The next id is popped, and marked. -/
  | popping
  | reading (id : NodeId) (depth : ℕ)
  | expanding (id : NodeId) (depth : ℕ)
  /-- The edges that are left to check. -/
  | checking (depth : ℕ) (edges : List Edge)
  | mergingNodes
  | mergingEdges
  | finished
  /-- The file does not open, or a row does not parse. -/
  | failed

structure Task where
  queue : List (NodeId × ℕ)
  localNodes : List Node
  localEdges : List Edge
  stage : Stage

/-- A call in progress. -/
structure Parallel where
  shared : Shared
  tasks : List Task

/-- An optional list of edge types admits an edge. -/
def filterAdmits (edgeFilter : Option (List String)) (edge : Edge) : Bool :=
  match edgeFilter with
  | some types => types.contains edge.edgeType
  | none => true

section

variable (lock : FileLock) (storage : LocalStorage) (maxDepth : ℕ)
  (edgeFilter : Option (List String))

/-- The handle of a task that is over is closed. -/
def Shared.close (shared : Shared) : Shared := { shared with handles := shared.handles - 1 }

def Task.step (shared : Shared) (t : Task) : Shared × Task :=
  match t.stage with
  | .opening =>
      if lock.opens shared.handles then
        ({ shared with handles := shared.handles + 1 }, { t with stage := .popping })
      else (shared, { t with stage := .failed })
  | .popping =>
      match t.queue with
      | [] => (shared, { t with stage := .mergingNodes })
      | (id, depth) :: rest =>
          if id.display ∈ shared.visited then (shared, { t with queue := rest })
          else
            ({ shared with visited := id.display :: shared.visited },
              { t with queue := rest, stage := .reading id depth })
  | .reading id depth =>
      match storage.getNode id with
      | some node =>
          (shared,
            { t with
              localNodes := t.localNodes ++ node.toList
              stage := if maxDepth ≤ depth then .popping else .expanding id depth })
      | none => (shared.close, { t with stage := .failed })
  | .expanding id depth =>
      match storage.getEdgesFrom id none with
      | some edges => (shared, { t with stage := .checking depth edges })
      | none => (shared.close, { t with stage := .failed })
  | .checking _ [] => (shared, { t with stage := .popping })
  | .checking depth (edge :: edges) =>
      if filterAdmits edgeFilter edge then
        let queue :=
          if edge.to_.display ∈ shared.visited then t.queue else t.queue ++ [(edge.to_, depth + 1)]
        (shared,
          { t with
            queue := queue
            localEdges := t.localEdges ++ [edge]
            stage := .checking depth edges })
      else (shared, { t with stage := .checking depth edges })
  | .mergingNodes =>
      ({ shared with nodes := shared.nodes ++ t.localNodes }, { t with stage := .mergingEdges })
  | .mergingEdges =>
      ({ shared with edges := shared.edges ++ t.localEdges }.close, { t with stage := .finished })
  | .finished => (shared, t)
  | .failed => (shared, t)

/-- The next step of a task. -/
def Parallel.step (p : Parallel) (i : ℕ) : Parallel :=
  match p.tasks[i]? with
  | some t =>
      ⟨(t.step lock storage maxDepth edgeFilter p.shared).1,
        p.tasks.set i (t.step lock storage maxDepth edgeFilter p.shared).2⟩
  | none => p

end

/-- One task for each start id; the caller has a handle. -/
def Parallel.spawn (startIds : List NodeId) : Parallel :=
  ⟨⟨[], [], [], 1⟩, startIds.map fun startId => ⟨[(startId, 0)], [], [], .opening⟩⟩

def Stage.isFinished : Stage → Bool
  | .finished => true
  | _ => false

/-- The nodes that are returned when all tasks have succeeded. -/
def Parallel.result (p : Parallel) : Option (List Node) :=
  if p.tasks.all fun t => t.stage.isFinished then some p.shared.nodes else none

/-! ### Depths -/

section

variable (edgeFilter : Option (List String))

/-- The id that the next step of a task marks, with its depth. -/
def Task.marks (visited : List String) (t : Task) : List (NodeId × ℕ) :=
  match t.stage, t.queue with
  | .popping, (id, depth) :: _ => if id.display ∈ visited then [] else [(id, depth)]
  | _, _ => []

/-- The id that the next step of a task passes over, with the depth that the task comes to it at. -/
def Task.passes (visited : List String) (t : Task) : List (NodeId × ℕ) :=
  match t.stage, t.queue with
  | .popping, (id, depth) :: _ => if id.display ∈ visited then [(id, depth)] else []
  | .checking depth (edge :: _), _ =>
      if filterAdmits edgeFilter edge ∧ edge.to_.display ∈ visited then [(edge.to_, depth + 1)]
      else []
  | _, _ => []

end

/-- A call in progress with the depths at which ids were marked, which nothing in the code keeps. -/
structure Traced where
  parallel : Parallel
  marks : List (NodeId × ℕ)

section

variable (lock : FileLock) (storage : LocalStorage) (maxDepth : ℕ)
  (edgeFilter : Option (List String))

def Traced.step (r : Traced) (i : ℕ) : Traced where
  parallel := r.parallel.step lock storage maxDepth edgeFilter i
  marks := r.marks ++ (r.parallel.tasks[i]?.elim [] fun t => t.marks r.parallel.shared.visited)

/-- What the step passes over was not marked deeper. -/
def Traced.NoneShallower (r : Traced) (i : ℕ) : Prop :=
  ∀ t ∈ r.parallel.tasks[i]?, ∀ e ∈ t.passes edgeFilter r.parallel.shared.visited,
    ∃ m ∈ r.marks, m.1 = e.1 ∧ m.2 ≤ e.2

instance (r : Traced) (i : ℕ) : Decidable (r.NoneShallower edgeFilter i) :=
  inferInstanceAs (Decidable (∀ t ∈ r.parallel.tasks[i]?, _))

/-- An edge that the filter admits leads from an id to another. -/
def Leads (a b : NodeId) : Prop :=
  ∃ e ∈ storage.edgeRows (storage.edgeFromIndex.get a), filterAdmits edgeFilter e = true ∧ e.to_ = b

/-- The nodes are those within the depth of a start id, each once. -/
def ExactUnion (startIds : List NodeId) (nodes : List Node) : Prop :=
  ∃ ids : List NodeId, ids.Nodup ∧
    (∀ id, id ∈ ids ↔
      ∃ startId ∈ startIds, ∃ d ≤ maxDepth, Walk (Leads storage edgeFilter) d startId id) ∧
    nodes.Perm (ids.filterMap fun id => storage.nodes[id]?)

end

/-! ### What a step does -/

section

variable (storage : LocalStorage) (maxDepth : ℕ) (edgeFilter : Option (List String))

/-- The steps of a task, with the ids that are marked and passed over. -/
inductive Moves (shared : Shared) : Task → Shared → Task → List (NodeId × ℕ) →
    List (NodeId × ℕ) → Prop
  | opens (queue : List (NodeId × ℕ)) (nodes : List Node) (edges : List Edge) :
      Moves shared ⟨queue, nodes, edges, .opening⟩ { shared with handles := shared.handles + 1 }
        ⟨queue, nodes, edges, .popping⟩ [] []
  | leave (nodes : List Node) (edges : List Edge) :
      Moves shared ⟨[], nodes, edges, .popping⟩ shared ⟨[], nodes, edges, .mergingNodes⟩ [] []
  | pass {id : NodeId} (depth : ℕ) (rest : List (NodeId × ℕ)) (nodes : List Node)
      (edges : List Edge) (hvisited : id.display ∈ shared.visited) :
      Moves shared ⟨(id, depth) :: rest, nodes, edges, .popping⟩ shared
        ⟨rest, nodes, edges, .popping⟩ [] [(id, depth)]
  | mark {id : NodeId} (depth : ℕ) (rest : List (NodeId × ℕ)) (nodes : List Node)
      (edges : List Edge) (hfree : id.display ∉ shared.visited) :
      Moves shared ⟨(id, depth) :: rest, nodes, edges, .popping⟩
        { shared with visited := id.display :: shared.visited }
        ⟨rest, nodes, edges, .reading id depth⟩ [(id, depth)] []
  | read (id : NodeId) (depth : ℕ) (queue : List (NodeId × ℕ)) (nodes : List Node)
      (edges : List Edge) :
      Moves shared ⟨queue, nodes, edges, .reading id depth⟩ shared
        ⟨queue, nodes ++ storage.nodes[id]?.toList, edges,
          if maxDepth ≤ depth then .popping else .expanding id depth⟩ [] []
  | expand (id : NodeId) (depth : ℕ) (queue : List (NodeId × ℕ)) (nodes : List Node)
      (edges : List Edge) :
      Moves shared ⟨queue, nodes, edges, .expanding id depth⟩ shared
        ⟨queue, nodes, edges, .checking depth (storage.edgeRows (storage.edgeFromIndex.get id))⟩
        [] []
  | checked (depth : ℕ) (queue : List (NodeId × ℕ)) (nodes : List Node) (edges : List Edge) :
      Moves shared ⟨queue, nodes, edges, .checking depth []⟩ shared
        ⟨queue, nodes, edges, .popping⟩ [] []
  | refuse {edge : Edge} (left : List Edge) (depth : ℕ) (queue : List (NodeId × ℕ))
      (nodes : List Node) (edges : List Edge) (hfilter : ¬ filterAdmits edgeFilter edge = true) :
      Moves shared ⟨queue, nodes, edges, .checking depth (edge :: left)⟩ shared
        ⟨queue, nodes, edges, .checking depth left⟩ [] []
  | skip {edge : Edge} (left : List Edge) (depth : ℕ) (queue : List (NodeId × ℕ))
      (nodes : List Node) (edges : List Edge) (hfilter : filterAdmits edgeFilter edge = true)
      (hvisited : edge.to_.display ∈ shared.visited) :
      Moves shared ⟨queue, nodes, edges, .checking depth (edge :: left)⟩ shared
        ⟨queue, nodes, edges ++ [edge], .checking depth left⟩ [] [(edge.to_, depth + 1)]
  | push {edge : Edge} (left : List Edge) (depth : ℕ) (queue : List (NodeId × ℕ))
      (nodes : List Node) (edges : List Edge) (hfilter : filterAdmits edgeFilter edge = true)
      (hfree : edge.to_.display ∉ shared.visited) :
      Moves shared ⟨queue, nodes, edges, .checking depth (edge :: left)⟩ shared
        ⟨queue ++ [(edge.to_, depth + 1)], nodes, edges ++ [edge], .checking depth left⟩ [] []
  | mergeNodes (queue : List (NodeId × ℕ)) (nodes : List Node) (edges : List Edge) :
      Moves shared ⟨queue, nodes, edges, .mergingNodes⟩
        { shared with nodes := shared.nodes ++ nodes } ⟨queue, nodes, edges, .mergingEdges⟩ [] []
  | mergeEdges (queue : List (NodeId × ℕ)) (nodes : List Node) (edges : List Edge) :
      Moves shared ⟨queue, nodes, edges, .mergingEdges⟩
        { shared with edges := shared.edges ++ edges }.close ⟨queue, nodes, edges, .finished⟩ [] []
  | rest (queue : List (NodeId × ℕ)) (nodes : List Node) (edges : List Edge) :
      Moves shared ⟨queue, nodes, edges, .finished⟩ shared ⟨queue, nodes, edges, .finished⟩ [] []
  | fail (queue : List (NodeId × ℕ)) (nodes : List Node) (edges : List Edge) (stage : Stage)
      (handles : ℕ) :
      Moves shared ⟨queue, nodes, edges, stage⟩ { shared with handles := handles }
        ⟨queue, nodes, edges, .failed⟩ [] []

variable {storage maxDepth edgeFilter}

/-- Without a type, what is read are the rows that are listed. -/
theorem getEdgesFrom_eq_some {id : NodeId} {rows : List Edge}
    (h : storage.getEdgesFrom id none = some rows) :
    rows = storage.edgeRows (storage.edgeFromIndex.get id) := by
  obtain ⟨listed, hlisted, rfl⟩ := Option.map_eq_some_iff.mp h
  rw [(readRows_eq_some hlisted).2]
  exact List.filter_eq_self.mpr fun _ _ => rfl

theorem Task.moves (lock : FileLock) (storage : LocalStorage) (maxDepth : ℕ)
    (edgeFilter : Option (List String)) (shared : Shared) (t : Task) :
    Moves storage maxDepth edgeFilter shared t (t.step lock storage maxDepth edgeFilter shared).1
      (t.step lock storage maxDepth edgeFilter shared).2 (t.marks shared.visited)
      (t.passes edgeFilter shared.visited) := by
  obtain ⟨queue, nodes, edges, stage⟩ := t
  cases stage with
  | opening =>
      simp only [Task.step, Task.marks, Task.passes]
      split_ifs
      · exact .opens queue nodes edges
      · exact .fail queue nodes edges _ _
  | popping =>
      cases queue with
      | nil => exact .leave nodes edges
      | cons e rest =>
          obtain ⟨id, depth⟩ := e
          by_cases hvisited : id.display ∈ shared.visited
          · simp only [Task.step, Task.marks, Task.passes, if_pos hvisited]
            exact .pass depth rest nodes edges hvisited
          · simp only [Task.step, Task.marks, Task.passes, if_neg hvisited]
            exact .mark depth rest nodes edges hvisited
  | reading id depth =>
      simp only [Task.step, Task.marks, Task.passes]
      cases hread : storage.getNode id with
      | some node =>
          obtain rfl := (readRow_eq_some hread).2
          exact .read id depth queue nodes edges
      | none => exact .fail queue nodes edges _ _
  | expanding id depth =>
      simp only [Task.step, Task.marks, Task.passes]
      cases hread : storage.getEdgesFrom id none with
      | some rows =>
          obtain rfl := getEdgesFrom_eq_some hread
          exact .expand id depth queue nodes edges
      | none => exact .fail queue nodes edges _ _
  | checking depth left =>
      cases left with
      | nil => exact .checked depth queue nodes edges
      | cons edge left =>
          simp only [Task.step, Task.marks, Task.passes]
          by_cases hfilter : filterAdmits edgeFilter edge = true
          · by_cases hvisited : edge.to_.display ∈ shared.visited
            · simp only [hfilter, hvisited, if_true, and_self]
              exact .skip left depth queue nodes edges hfilter hvisited
            · simp only [hfilter, hvisited, if_true, if_false, and_false]
              exact .push left depth queue nodes edges hfilter hvisited
          · simp only [hfilter]
            exact .refuse left depth queue nodes edges hfilter
  | mergingNodes => exact .mergeNodes queue nodes edges
  | mergingEdges => exact .mergeEdges queue nodes edges
  | finished => exact .rest queue nodes edges
  | failed => exact .fail queue nodes edges _ _

/-! ### What holds of a task -/

/-- The entry is a walk from a start id, within the depth. -/
def Within (storage : LocalStorage) (maxDepth : ℕ) (edgeFilter : Option (List String))
    (startIds : List NodeId) (e : NodeId × ℕ) : Prop :=
  e.2 ≤ maxDepth ∧ ∃ startId ∈ startIds, Walk (Leads storage edgeFilter) e.2 startId e.1

/-- The ids that a task is about to come to are within the depth. -/
structure Task.Sound (storage : LocalStorage) (maxDepth : ℕ) (edgeFilter : Option (List String))
    (startIds : List NodeId) (t : Task) : Prop where
  queue : ∀ e ∈ t.queue, Within storage maxDepth edgeFilter startIds e
  stage : match t.stage with
    | .reading id depth => Within storage maxDepth edgeFilter startIds (id, depth)
    | .expanding id depth =>
        Within storage maxDepth edgeFilter startIds (id, depth) ∧ depth < maxDepth
    | .checking depth left => ∀ edge ∈ left, filterAdmits edgeFilter edge = true →
        Within storage maxDepth edgeFilter startIds (edge.to_, depth + 1)
    | .mergingNodes | .mergingEdges | .finished => t.queue = []
    | .opening | .popping | .failed => True

/-- A task will come to an id, at no greater depth. -/
def Task.Awaits (storage : LocalStorage) (maxDepth : ℕ) (edgeFilter : Option (List String))
    (t : Task) (id : NodeId) (depth : ℕ) : Prop :=
  (∃ e ∈ t.queue, e.1 = id ∧ e.2 ≤ depth) ∨
    match t.stage with
    | .reading id' depth' => depth' < maxDepth ∧ Leads storage edgeFilter id' id ∧
      depth' + 1 ≤ depth
    | .expanding id' depth' => Leads storage edgeFilter id' id ∧ depth' + 1 ≤ depth
    | .checking depth' left =>
        (∃ edge ∈ left, filterAdmits edgeFilter edge = true ∧ edge.to_ = id) ∧ depth' + 1 ≤ depth
    | _ => False

/-- The nodes that a task has found, or is about to find, and has not handed over. -/
def Task.holds (storage : LocalStorage) (t : Task) : List Node :=
  match t.stage with
  | .reading id _ => t.localNodes ++ storage.nodes[id]?.toList
  | .mergingEdges | .finished => []
  | _ => t.localNodes

section

variable {startIds : List NodeId} {shared shared' : Shared} {t t' : Task}
  {new passed : List (NodeId × ℕ)}

theorem Within.next {e : NodeId × ℕ} (h : Within storage maxDepth edgeFilter startIds e)
    {b : NodeId} (hdepth : e.2 < maxDepth) (hb : Leads storage edgeFilter e.1 b) :
    Within storage maxDepth edgeFilter startIds (b, e.2 + 1) := by
  obtain ⟨-, startId, hstart, hwalk⟩ := h
  exact ⟨hdepth, startId, hstart, .snoc hwalk hb⟩

theorem Moves.visited (h : Moves storage maxDepth edgeFilter shared t shared' t' new passed) :
    shared'.visited = (new.map fun e => e.1.display) ++ shared.visited := by
  cases h <;> rfl

/-- What is marked was not visited. -/
theorem Moves.free (h : Moves storage maxDepth edgeFilter shared t shared' t' new passed) :
    (new.map Prod.fst).Nodup ∧ ∀ e ∈ new, e.1.display ∉ shared.visited := by
  cases h with
  | mark _ _ _ _ hfree =>
      exact ⟨List.nodup_singleton _, fun e he => by rwa [List.mem_singleton.mp he]⟩
  | _ => exact ⟨List.nodup_nil, nofun⟩

theorem Moves.within (h : Moves storage maxDepth edgeFilter shared t shared' t' new passed)
    (ht : t.Sound storage maxDepth edgeFilter startIds) :
    ∀ e ∈ new, Within storage maxDepth edgeFilter startIds e := by
  cases h with
  | mark => exact fun e he => ht.queue e (List.mem_cons.mpr (.inl (List.mem_singleton.mp he)))
  | _ => exact nofun

theorem Moves.sound (h : Moves storage maxDepth edgeFilter shared t shared' t' new passed)
    (ht : t.Sound storage maxDepth edgeFilter startIds) :
    t'.Sound storage maxDepth edgeFilter startIds := by
  have hqueue := ht.queue
  have hstage := ht.stage
  cases h with
  | opens => exact ⟨hqueue, trivial⟩
  | leave => exact ⟨hqueue, rfl⟩
  | pass => exact ⟨fun e he => hqueue e (List.mem_cons_of_mem _ he), trivial⟩
  | mark =>
      exact ⟨fun e he => hqueue e (List.mem_cons_of_mem _ he), hqueue _ List.mem_cons_self⟩
  | read id depth =>
      refine ⟨hqueue, ?_⟩
      dsimp only
      split_ifs with hdepth
      · trivial
      · exact ⟨hstage, not_le.mp hdepth⟩
  | expand id depth =>
      exact ⟨hqueue, fun edge hedge hadmit => hstage.1.next hstage.2 ⟨edge, hedge, hadmit, rfl⟩⟩
  | checked => exact ⟨hqueue, trivial⟩
  | refuse | skip => exact ⟨hqueue, fun edge hedge => hstage edge (List.mem_cons_of_mem _ hedge)⟩
  | push left depth queue nodes edges hfilter =>
      refine ⟨fun e he => ?_, fun edge hedge => hstage edge (List.mem_cons_of_mem _ hedge)⟩
      obtain he | he := List.mem_append.mp he
      · exact hqueue e he
      · rw [List.mem_singleton.mp he]
        exact hstage _ List.mem_cons_self hfilter
  | mergeNodes | mergeEdges | rest => exact ⟨hqueue, hstage⟩
  | fail => exact ⟨hqueue, trivial⟩

/-- What is handed over, held and marked makes up for what was. -/
theorem Moves.nodes (h : Moves storage maxDepth edgeFilter shared t shared' t' new passed)
    (hfailed : t'.stage ≠ .failed) :
    (shared'.nodes ++ t'.holds storage).Perm
      (shared.nodes ++ t.holds storage ++ new.filterMap fun e => storage.nodes[e.1]?) := by
  refine .of_eq ?_
  cases h with
  | @mark id =>
      simp only [Task.holds, List.filterMap_cons, List.filterMap_nil, List.append_assoc]
      cases storage.nodes[id]? <;> rfl
  | read id depth =>
      simp only [Task.holds, List.filterMap_nil, List.append_nil]
      split_ifs <;> rfl
  | fail => exact absurd rfl hfailed
  | _ => simp [Task.holds, Shared.close]

/-- What was awaited still is, is marked now or is passed over. -/
theorem Moves.awaits (h : Moves storage maxDepth edgeFilter shared t shared' t' new passed)
    (hfailed : t'.stage ≠ .failed) {id : NodeId} {depth : ℕ}
    (hawaits : t.Awaits storage maxDepth edgeFilter id depth) :
    t'.Awaits storage maxDepth edgeFilter id depth ∨
        ∃ e ∈ new ++ passed, e.1 = id ∧ e.2 ≤ depth := by
  cases h with
  | opens | leave => exact .inl (hawaits.imp_right False.elim)
  | pass depth' rest nodes edges =>
      obtain ⟨e, he, hid⟩ | hstage := hawaits
      · obtain rfl | he := List.mem_cons.mp he
        · exact .inr ⟨_, List.mem_cons_self, hid⟩
        · exact .inl (.inl ⟨e, he, hid⟩)
      · cases hstage
  | mark depth' rest nodes edges =>
      obtain ⟨e, he, hid⟩ | hstage := hawaits
      · obtain rfl | he := List.mem_cons.mp he
        · exact .inr ⟨_, List.mem_cons_self, hid⟩
        · exact .inl (.inl ⟨e, he, hid⟩)
      · cases hstage
  | read id' depth' =>
      refine .inl (hawaits.imp_right fun ⟨hlt, hleads, hle⟩ => ?_)
      dsimp only
      rw [if_neg (not_le.mpr hlt)]
      exact ⟨hleads, hle⟩
  | expand => exact .inl hawaits
  | checked =>
      refine .inl (hawaits.imp_right fun ⟨⟨edge, hedge, _⟩, _⟩ => ?_)
      cases hedge
  | refuse left depth' queue nodes edges hfilter =>
      refine .inl (hawaits.imp_right fun ⟨⟨edge, hedge, hadmit, hto⟩, hle⟩ => ?_)
      obtain rfl | hedge := List.mem_cons.mp hedge
      · exact absurd hadmit hfilter
      · exact ⟨⟨edge, hedge, hadmit, hto⟩, hle⟩
  | skip left depth' =>
      obtain hqueue | ⟨⟨edge, hedge, hadmit, hto⟩, hle⟩ := hawaits
      · exact .inl (.inl hqueue)
      · obtain rfl | hedge := List.mem_cons.mp hedge
        · exact .inr ⟨_, List.mem_cons_self, hto, hle⟩
        · exact .inl (.inr ⟨⟨edge, hedge, hadmit, hto⟩, hle⟩)
  | push left depth' =>
      left
      obtain ⟨e, he, hid⟩ | ⟨⟨edge, hedge, hadmit, hto⟩, hle⟩ := hawaits
      · exact .inl ⟨e, List.mem_append_left _ he, hid⟩
      · obtain rfl | hedge := List.mem_cons.mp hedge
        · exact .inl ⟨_, List.mem_append_right _ List.mem_cons_self, hto, hle⟩
        · exact .inr ⟨⟨edge, hedge, hadmit, hto⟩, hle⟩
  | mergeNodes | mergeEdges | rest => exact .inl hawaits
  | fail => exact absurd rfl hfailed

/-- Where a marked id leads is awaited. -/
theorem Moves.awaits_new (h : Moves storage maxDepth edgeFilter shared t shared' t' new passed)
    {e : NodeId × ℕ} (he : e ∈ new) (hdepth : e.2 < maxDepth) {b : NodeId}
    (hb : Leads storage edgeFilter e.1 b) :
    t'.Awaits storage maxDepth edgeFilter b (e.2 + 1) := by
  cases h with
  | mark =>
      obtain rfl := List.mem_singleton.mp he
      exact .inr ⟨hdepth, hb, le_rfl⟩
  | _ => cases he

end

/-! ### What holds of a run -/

/-- Some task could not read a row. -/
def Traced.Failed (r : Traced) : Prop := ∃ t ∈ r.parallel.tasks, t.stage = .failed

/-- An id is marked, or a task will come to it, at no greater depth. -/
def Traced.Handles (storage : LocalStorage) (maxDepth : ℕ) (edgeFilter : Option (List String))
    (r : Traced) (id : NodeId) (depth : ℕ) : Prop :=
  (∃ m ∈ r.marks, m.1 = id ∧ m.2 ≤ depth) ∨
    ∃ t ∈ r.parallel.tasks, t.Awaits storage maxDepth edgeFilter id depth

/-- What is marked is within the depth, and its nodes are held by a task or handed over. -/
structure Traced.Sound (storage : LocalStorage) (maxDepth : ℕ) (edgeFilter : Option (List String))
    (startIds : List NodeId) (r : Traced) : Prop where
  visited : ∀ id : NodeId, id.display ∈ r.parallel.shared.visited ↔ id ∈ r.marks.map Prod.fst
  nodup : (r.marks.map Prod.fst).Nodup
  within : ∀ m ∈ r.marks, Within storage maxDepth edgeFilter startIds m
  tasks : ∀ t ∈ r.parallel.tasks, t.Sound storage maxDepth edgeFilter startIds
  nodes : (r.parallel.shared.nodes ++ r.parallel.tasks.flatMap (Task.holds storage)).Perm
    (r.marks.filterMap fun m => storage.nodes[m.1]?)

/-- The start ids are handled, and so is where marked ids lead. -/
structure Traced.Complete (storage : LocalStorage) (maxDepth : ℕ)
    (edgeFilter : Option (List String)) (startIds : List NodeId) (r : Traced) : Prop where
  starts : ∀ startId ∈ startIds, r.Handles storage maxDepth edgeFilter startId 0
  closed : ∀ m ∈ r.marks, m.2 < maxDepth → ∀ b, Leads storage edgeFilter m.1 b →
    r.Handles storage maxDepth edgeFilter b (m.2 + 1)

section

variable {lock : FileLock} {startIds : List NodeId} {r : Traced} {i : ℕ} {t : Task}

theorem Traced.step_some (h : r.parallel.tasks[i]? = some t) :
    r.step lock storage maxDepth edgeFilter i =
      ⟨⟨(t.step lock storage maxDepth edgeFilter r.parallel.shared).1,
        r.parallel.tasks.set i (t.step lock storage maxDepth edgeFilter r.parallel.shared).2⟩,
        r.marks ++ t.marks r.parallel.shared.visited⟩ := by
  simp only [step, Parallel.step, h, Option.elim_some]

theorem Traced.step_none (h : r.parallel.tasks[i]? = none) :
    r.step lock storage maxDepth edgeFilter i = r := by
  simp only [step, Parallel.step, h, Option.elim_none, List.append_nil]

/-- The task that moves, and the others. -/
theorem perm_of_getElem? {α : Type} {l : List α} {a : α} (h : l[i]? = some a) (b : α) :
    l.Perm (a :: l.eraseIdx i) ∧ (l.set i b).Perm (b :: l.eraseIdx i) := by
  obtain ⟨hi, rfl⟩ := List.getElem?_eq_some_iff.mp h
  exact ⟨(List.getElem_cons_eraseIdx_perm hi).symm, List.set_perm_cons_eraseIdx hi b⟩

theorem mem_map_display {l : List (NodeId × ℕ)} {id : NodeId} :
    id.display ∈ l.map (fun e => e.1.display) ↔ id ∈ l.map Prod.fst := by
  simp only [List.mem_map, NodeId.display_injective.eq_iff]

/-- A task that has failed stays so. -/
theorem Traced.Failed.step (h : r.Failed) (i : ℕ) :
    (r.step lock storage maxDepth edgeFilter i).Failed := by
  obtain ⟨t₀, ht₀, hfailed⟩ := h
  cases ht : r.parallel.tasks[i]? with
  | none =>
      rw [Traced.step_none ht]
      exact ⟨t₀, ht₀, hfailed⟩
  | some t =>
      rw [Traced.step_some ht]
      obtain ⟨hold, hnew⟩ :=
        perm_of_getElem? ht (t.step lock storage maxDepth edgeFilter r.parallel.shared).2
      obtain rfl | hrest := List.mem_cons.mp (hold.mem_iff.mp ht₀)
      · refine ⟨_, hnew.mem_iff.mpr List.mem_cons_self, ?_⟩
        simp only [Task.step, hfailed]
      · exact ⟨t₀, hnew.mem_iff.mpr (List.mem_cons_of_mem _ hrest), hfailed⟩

/-- One step keeps what is marked sound, unless it fails. -/
theorem Traced.Sound.step (h : r.Sound storage maxDepth edgeFilter startIds) (i : ℕ) :
    (r.step lock storage maxDepth edgeFilter i).Failed ∨
      (r.step lock storage maxDepth edgeFilter i).Sound storage maxDepth edgeFilter startIds := by
  cases ht : r.parallel.tasks[i]? with
  | none =>
      rw [Traced.step_none ht]
      exact .inr h
  | some t =>
      rw [Traced.step_some ht]
      have hmoves := t.moves lock storage maxDepth edgeFilter r.parallel.shared
      obtain ⟨hold, hnew⟩ :=
        perm_of_getElem? ht (t.step lock storage maxDepth edgeFilter r.parallel.shared).2
      have hsound := h.tasks t (List.mem_of_getElem? ht)
      by_cases hfailed : (t.step lock storage maxDepth edgeFilter r.parallel.shared).2.stage =
        .failed
      · exact .inl ⟨_, hnew.mem_iff.mpr List.mem_cons_self, hfailed⟩
      · refine .inr ⟨fun id => ?_, ?_, fun m hm => ?_, fun t' ht' => ?_, ?_⟩
        · rw [hmoves.visited, List.mem_append, List.map_append, List.mem_append, h.visited, or_comm,
            mem_map_display]
        · obtain ⟨hnodup, hfree⟩ := hmoves.free
          rw [List.map_append, List.nodup_append]
          refine ⟨h.nodup, hnodup, fun id hid id' hid' heq => ?_⟩
          obtain ⟨e, he, rfl⟩ := List.mem_map.mp hid'
          refine hfree e he ((h.visited e.1).mpr ?_)
          rwa [← heq]
        · obtain hm | hm := List.mem_append.mp hm
          · exact h.within m hm
          · exact hmoves.within hsound m hm
        · obtain rfl | ht' := List.mem_cons.mp (hnew.mem_iff.mp ht')
          · exact hmoves.sound hsound
          · exact h.tasks t' (hold.mem_iff.mpr (List.mem_cons_of_mem _ ht'))
        · -- The nodes of the task that moves are exchanged for what it holds now.
          have hnodes := hmoves.nodes hfailed
          have hrest := (hold.flatMap_right (Task.holds storage)).append_left
            r.parallel.shared.nodes
          have hkept := hrest.symm.trans h.nodes
          rw [List.flatMap_cons] at hkept
          rw [List.filterMap_append]
          refine .trans ?_ (hkept.append_right _)
          refine ((hnew.flatMap_right (Task.holds storage)).append_left _).trans ?_
          rw [List.flatMap_cons, ← List.append_assoc]
          refine (hnodes.append_right _).trans ?_
          simp only [List.append_assoc]
          exact .append_left _ (.append_left _ List.perm_append_comm)

/-- One step that passes over nothing that was marked deeper leaves all of it handled. -/
theorem Traced.Complete.step (h : r.Complete storage maxDepth edgeFilter startIds) (i : ℕ)
    (hshallow : r.NoneShallower edgeFilter i) :
    (r.step lock storage maxDepth edgeFilter i).Failed ∨
      (r.step lock storage maxDepth edgeFilter i).Complete storage maxDepth edgeFilter
          startIds := by
  cases ht : r.parallel.tasks[i]? with
  | none =>
      rw [Traced.step_none ht]
      exact .inr h
  | some t =>
      have hpassed := hshallow t ht
      rw [Traced.step_some ht]
      have hmoves := t.moves lock storage maxDepth edgeFilter r.parallel.shared
      obtain ⟨hold, hnew⟩ :=
        perm_of_getElem? ht (t.step lock storage maxDepth edgeFilter r.parallel.shared).2
      by_cases hfailed : (t.step lock storage maxDepth edgeFilter r.parallel.shared).2.stage =
        .failed
      · exact .inl ⟨_, hnew.mem_iff.mpr List.mem_cons_self, hfailed⟩
      · right
        have hmarked : ∀ (id : NodeId) (depth : ℕ),
            (∃ m ∈ r.marks, m.1 = id ∧ m.2 ≤ depth) →
              ∃ m ∈ r.marks ++ t.marks r.parallel.shared.visited, m.1 = id ∧ m.2 ≤ depth :=
          fun id depth ⟨m, hm, hid⟩ => ⟨m, List.mem_append_left _ hm, hid⟩
        have hhandles : ∀ (id : NodeId) (depth : ℕ),
            r.Handles storage maxDepth edgeFilter id depth →
              Traced.Handles storage maxDepth edgeFilter
              ⟨⟨(t.step lock storage maxDepth edgeFilter r.parallel.shared).1,
                r.parallel.tasks.set i (t.step lock storage maxDepth edgeFilter
                  r.parallel.shared).2⟩,
                r.marks ++ t.marks r.parallel.shared.visited⟩ id depth := by
          rintro id depth (hid | ⟨t₀, ht₀, hawaits⟩)
          · exact .inl (hmarked id depth hid)
          · obtain rfl | ht₀ := List.mem_cons.mp (hold.mem_iff.mp ht₀)
            · obtain hawaits | ⟨e, he, rfl, hle⟩ := hmoves.awaits hfailed hawaits
              · exact .inr ⟨_, hnew.mem_iff.mpr List.mem_cons_self, hawaits⟩
              · obtain he | he := List.mem_append.mp he
                · exact .inl ⟨e, List.mem_append_right _ he, rfl, hle⟩
                · obtain ⟨m, hm, hid, hle'⟩ := hpassed e he
                  exact .inl (hmarked e.1 depth ⟨m, hm, hid, hle'.trans hle⟩)
            · exact .inr ⟨t₀, hnew.mem_iff.mpr (List.mem_cons_of_mem _ ht₀), hawaits⟩
        refine ⟨fun id hid => hhandles id 0 (h.starts id hid), fun m hm hdepth b hb => ?_⟩
        obtain hm | hm := List.mem_append.mp hm
        · exact hhandles b _ (h.closed m hm hdepth b hb)
        · exact .inr ⟨_, hnew.mem_iff.mpr List.mem_cons_self, hmoves.awaits_new hm hdepth hb⟩

/-- A call begins with nothing marked. -/
def Traced.spawn (startIds : List NodeId) : Traced := ⟨.spawn startIds, []⟩

theorem Traced.sound_spawn (storage : LocalStorage) (maxDepth : ℕ)
    (edgeFilter : Option (List String)) (startIds : List NodeId) :
    (Traced.spawn startIds).Sound storage maxDepth edgeFilter startIds where
  visited _ := iff_of_false List.not_mem_nil List.not_mem_nil
  nodup := List.nodup_nil
  within := nofun
  tasks t ht := by
    obtain ⟨startId, hstart, rfl⟩ := List.mem_map.mp ht
    refine ⟨fun e he => ?_, trivial⟩
    obtain rfl := List.mem_singleton.mp he
    exact ⟨Nat.zero_le _, startId, hstart, .nil startId⟩
  nodes := by
    have hholds : (Traced.spawn startIds).parallel.tasks.flatMap (Task.holds storage) = [] := by
      refine List.flatMap_eq_nil_iff.mpr fun t ht => ?_
      obtain ⟨startId, -, rfl⟩ := List.mem_map.mp ht
      rfl
    rw [hholds]
    exact .nil

theorem Traced.complete_spawn (storage : LocalStorage) (maxDepth : ℕ)
    (edgeFilter : Option (List String)) (startIds : List NodeId) :
    (Traced.spawn startIds).Complete storage maxDepth edgeFilter startIds where
  starts startId hstart := .inr ⟨_, List.mem_map.mpr ⟨startId, hstart, rfl⟩,
    .inl ⟨_, List.mem_cons_self, rfl, le_rfl⟩⟩
  closed := nofun

/-- The depths play no part in the run. -/
theorem run_traced (r : Traced) (moves : List ℕ) :
    (Run.run (Traced.step lock storage maxDepth edgeFilter) r moves).parallel =
      Run.run (Parallel.step lock storage maxDepth edgeFilter) r.parallel moves := by
  induction moves generalizing r with
  | nil => rfl
  | cons i moves ih => exact ih _

theorem result_eq_some {p : Parallel} {nodes : List Node} (h : p.result = some nodes) :
    (∀ t ∈ p.tasks, t.stage = .finished) ∧ nodes = p.shared.nodes := by
  unfold Parallel.result at h
  split_ifs at h with hall
  refine ⟨fun t ht => ?_, (Option.some.inj h).symm⟩
  have hfinished := List.all_eq_true.mp hall t ht
  cases hstage : t.stage <;> simp_all [Stage.isFinished]

/-- When all tasks have finished, what was handed over is what is marked. -/
theorem Traced.Sound.result (h : r.Sound storage maxDepth edgeFilter startIds) {nodes : List Node}
    (hresult : r.parallel.result = some nodes) :
    nodes.Perm ((r.marks.map Prod.fst).filterMap fun id => storage.nodes[id]?) := by
  obtain ⟨hfinished, rfl⟩ := result_eq_some hresult
  have hholds : r.parallel.tasks.flatMap (Task.holds storage) = [] := by
    refine List.flatMap_eq_nil_iff.mpr fun t ht => ?_
    simp only [Task.holds, hfinished t ht]
  have hnodes := h.nodes
  rw [hholds, List.append_nil] at hnodes
  rwa [List.filterMap_map]

/-- When all tasks have finished, what is within the depth is marked, no deeper. -/
theorem Traced.Complete.marked (h : r.Complete storage maxDepth edgeFilter startIds)
    (hsound : r.Sound storage maxDepth edgeFilter startIds)
    (hfinished : ∀ t ∈ r.parallel.tasks, t.stage = .finished) {startId : NodeId}
    (hstart : startId ∈ startIds) {d : ℕ} {id : NodeId} (hd : d ≤ maxDepth)
    (hwalk : Walk (Leads storage edgeFilter) d startId id) :
    ∃ m ∈ r.marks, m.1 = id ∧ m.2 ≤ d := by
  have hhandles : ∀ (id : NodeId) (depth : ℕ), r.Handles storage maxDepth edgeFilter id depth →
      ∃ m ∈ r.marks, m.1 = id ∧ m.2 ≤ depth := by
    rintro id depth (hmarked | ⟨t, ht, hawaits⟩)
    · exact hmarked
    · have hqueue := (hsound.tasks t ht).stage
      have hstage := hfinished t ht
      simp only [hstage] at hqueue
      simp only [Task.Awaits, hstage, hqueue] at hawaits
      simp at hawaits
  induction hwalk with
  | nil => exact hhandles _ 0 (h.starts _ hstart)
  | @snoc n a b c hwalk hbc ih =>
      obtain ⟨m, hm, rfl, hle⟩ := ih hstart (by omega)
      obtain ⟨m', hm', hid, hle'⟩ := hhandles c _ (h.closed m hm (by omega) c hbc)
      exact ⟨m', hm', hid, by omega⟩

/-- Whatever the library does, a run in which no task comes to an id at a smaller depth than it was
marked with returns the nodes within the depth of a start id, each once, if it returns any. -/
theorem parallelTraverse_exact (lock : FileLock) (storage : LocalStorage) (maxDepth : ℕ)
    (edgeFilter : Option (List String)) (startIds : List NodeId) (moves : List ℕ)
    (hshallow : Run.Along (Traced.step lock storage maxDepth edgeFilter)
      (Traced.NoneShallower edgeFilter) (.spawn startIds) moves) (nodes : List Node)
    (hresult : (Run.run (Parallel.step lock storage maxDepth edgeFilter) (.spawn startIds)
      moves).result = some nodes) :
    ExactUnion storage maxDepth edgeFilter startIds nodes := by
  have hstep : ∀ (r : Traced) (i : ℕ), (r.Failed ∨ r.Sound storage maxDepth edgeFilter startIds ∧
        r.Complete storage maxDepth edgeFilter startIds) → r.NoneShallower edgeFilter i →
      (r.step lock storage maxDepth edgeFilter i).Failed ∨
        (r.step lock storage maxDepth edgeFilter i).Sound storage maxDepth edgeFilter startIds ∧
        (r.step lock storage maxDepth edgeFilter i).Complete storage maxDepth edgeFilter
            startIds := by
    rintro r i (hfailed | ⟨hsound, hcomplete⟩) hshallow
    · exact .inl (hfailed.step i)
    · obtain hfailed | hsound := hsound.step i
      · exact .inl hfailed
      · exact (hcomplete.step i hshallow).imp_right fun hcomplete => ⟨hsound, hcomplete⟩
  have hrun : (Run.run (Traced.step lock storage maxDepth edgeFilter) (.spawn startIds)
    moves).parallel =
      Run.run (Parallel.step lock storage maxDepth edgeFilter) (.spawn startIds) moves :=
    run_traced (.spawn startIds) moves
  rw [← hrun] at hresult
  obtain ⟨hfinished, -⟩ := result_eq_some hresult
  obtain ⟨t, ht, hfailed⟩ | ⟨hsound, hcomplete⟩ := hshallow.invariant hstep
    (.inr ⟨Traced.sound_spawn storage maxDepth edgeFilter startIds,
      Traced.complete_spawn storage maxDepth edgeFilter startIds⟩)
  · rw [hfinished t ht] at hfailed
    cases hfailed
  · refine ⟨_, hsound.nodup, fun id => ⟨fun hid => ?_, ?_⟩, hsound.result hresult⟩
    · obtain ⟨m, hm, rfl⟩ := List.mem_map.mp hid
      obtain ⟨hle, startId, hstart, hwalk⟩ := hsound.within m hm
      exact ⟨startId, hstart, m.2, hle, hwalk⟩
    · rintro ⟨startId, hstart, d, hd, hwalk⟩
      obtain ⟨m, hm, hid, -⟩ := hcomplete.marked hsound hfinished hstart hd hwalk
      exact List.mem_map.mpr ⟨m, hm, hid⟩

end

end

/-! ### One handle -/

section

variable {lock : FileLock} {startIds : List NodeId} {p : Parallel}

/-- The file stays open, and no task has opened it. -/
structure Parallel.Waiting (startIds : List NodeId) (p : Parallel) : Prop where
  handles : 0 < p.shared.handles
  length : p.tasks.length = startIds.length
  tasks : ∀ t ∈ p.tasks, t.stage = .opening ∨ t.stage = .failed

theorem Parallel.waiting_spawn (startIds : List NodeId) :
    (Parallel.spawn startIds).Waiting startIds where
  handles := Nat.one_pos
  length := List.length_map _
  tasks t ht := by
    obtain ⟨startId, -, rfl⟩ := List.mem_map.mp ht
    exact .inl rfl

theorem Parallel.Waiting.step (h : p.Waiting startIds) (hlock : lock.Exclusive) (i : ℕ) :
    (p.step lock storage maxDepth edgeFilter i).Waiting startIds := by
  unfold Parallel.step
  cases ht : p.tasks[i]? with
  | none => exact h
  | some t =>
      have hstep : (t.step lock storage maxDepth edgeFilter p.shared).1 = p.shared ∧
          (t.step lock storage maxDepth edgeFilter p.shared).2.stage = .failed := by
        have hopen : ¬ lock.opens p.shared.handles = true :=
          fun hopens => h.handles.ne' (hlock _ hopens)
        rcases h.tasks t (List.mem_of_getElem? ht) with hstage | hstage
        · simp only [Task.step, hstage, if_neg hopen, and_self]
        · simp only [Task.step, hstage, and_self]
      refine ⟨?_, List.length_set.trans h.length, fun t' ht' => ?_⟩
      · change 0 < (t.step lock storage maxDepth edgeFilter p.shared).1.handles
        rw [hstep.1]
        exact h.handles
      rcases List.mem_or_eq_of_mem_set ht' with ht' | rfl
      · exact h.tasks t' ht'
      · exact .inr hstep.2

theorem Parallel.Waiting.result (h : p.Waiting startIds) (hne : startIds ≠ []) :
    p.result = none := by
  have hlength : 0 < p.tasks.length := h.length ▸ List.length_pos_of_ne_nil hne
  obtain ⟨t, ht⟩ := List.exists_mem_of_length_pos hlength
  unfold Parallel.result
  refine if_neg fun hall => ?_
  have hfinished := List.all_eq_true.mp hall t ht
  rcases h.tasks t ht with hstage | hstage <;> rw [hstage] at hfinished <;> cases hfinished

end

/-- With a library that opens a file for one handle only, a run returns the nodes within the depth
of a start id if and only if there is none to start from. -/
theorem parallelTraverse_iff (lock : FileLock) (hlock : lock.Exclusive) (storage : LocalStorage)
    (maxDepth : ℕ) (edgeFilter : Option (List String)) (startIds : List NodeId) (moves : List ℕ) :
    (∃ nodes, (Run.run (Parallel.step lock storage maxDepth edgeFilter) (.spawn startIds)
          moves).result = some nodes ∧
        ExactUnion storage maxDepth edgeFilter startIds nodes) ↔
      startIds = [] := by
  have hstep : ∀ (p : Parallel) (i : ℕ), p.Waiting startIds →
      (p.step lock storage maxDepth edgeFilter i).Waiting startIds := fun _ i hp => hp.step hlock i
  have hwaiting : (Run.run (Parallel.step lock storage maxDepth edgeFilter) (.spawn startIds)
      moves).Waiting startIds := Run.invariant hstep (Parallel.waiting_spawn startIds) moves
  constructor
  · rintro ⟨nodes, hresult, -⟩
    by_contra hne
    rw [hwaiting.result hne] at hresult
    cases hresult
  · rintro rfl
    have hstay : ∀ (p : Parallel) (i : ℕ), p = .spawn [] →
        p.step lock storage maxDepth edgeFilter i = .spawn [] := by
      rintro p i rfl
      rfl
    have hsame : Run.run (Parallel.step lock storage maxDepth edgeFilter) (.spawn []) moves =
        .spawn [] := Run.invariant hstay rfl moves
    refine ⟨[], by rw [hsame]; rfl, [], List.nodup_nil, fun id => ?_, .nil⟩
    exact iff_of_false List.not_mem_nil fun ⟨_, hstart, _⟩ => List.not_mem_nil hstart

/-- The lock of a file that one handle at a time may have. -/
def oneHandle : FileLock := ⟨fun handles => handles == 0⟩

theorem exclusive_oneHandle : oneHandle.Exclusive := fun _ => beq_iff_eq.mp

/-- A file that any number of handles may have. -/
def sharedFile : FileLock := ⟨fun _ => true⟩

/-! ### Two orders -/

/-- The first id leads to the second and that to the third. -/
def sampleChain : LocalStorage :=
  ((((LocalStorage.create.insertNode plainJson (sampleUser 1)).insertNode plainJson
    (sampleUser 2)).insertNode plainJson (sampleUser 3)).insertEdge plainJson
    (sampleKnows 1 1 2)).insertEdge plainJson (sampleKnows 2 2 3)

theorem parallelTraverse_iff_sample :
    (∃ nodes, (Run.run (Parallel.step oneHandle sampleChain 3 none) (.spawn []) [0]).result =
          some nodes ∧
        ExactUnion sampleChain 3 none [] nodes) ∧
      ((∃ nodes, (Run.run (Parallel.step oneHandle sampleChain 3 none) (.spawn [⟨1⟩]) [0]).result =
            some nodes ∧
          ExactUnion sampleChain 3 none [⟨1⟩] nodes) → False) := by
  have h := parallelTraverse_iff oneHandle exclusive_oneHandle sampleChain 3 none
  exact ⟨(h [] [0]).mpr rfl, fun hexact => List.cons_ne_nil _ _ ((h [⟨1⟩] [0]).mp hexact)⟩

/-- The only task from the first id ends without an answer. -/
theorem chain_not_traversed :
    ¬ ∀ (lock : FileLock), lock.Exclusive → ∀ (storage : LocalStorage) (maxDepth : ℕ)
      (edgeFilter : Option (List String)) (startIds : List NodeId) (moves : List ℕ),
      (∀ t ∈ (Run.run (Parallel.step lock storage maxDepth edgeFilter) (.spawn startIds)
        moves).tasks, t.stage = .finished ∨ t.stage = .failed) →
      ∃ nodes, (Run.run (Parallel.step lock storage maxDepth edgeFilter) (.spawn startIds)
          moves).result = some nodes ∧
        ExactUnion storage maxDepth edgeFilter startIds nodes := by
  intro h
  have htasks : (Run.run (Parallel.step oneHandle sampleChain 3 none) (.spawn [⟨1⟩]) [0]).tasks =
      [⟨[(⟨1⟩, 0)], [], [], .failed⟩] := rfl
  obtain ⟨nodes, hresult, -⟩ := h oneHandle exclusive_oneHandle sampleChain 3 none [⟨1⟩] [0]
    (by rw [htasks]; simp)
  cases hresult

/-- The task from the second id is over before the other begins. -/
def sampleMoves : List ℕ := List.replicate 11 1 ++ List.replicate 9 0

theorem parallelTraverse_exact_sample :
    ∃ nodes, (Run.Along (Traced.step sharedFile sampleChain 1 none) (Traced.NoneShallower none)
        (.spawn [⟨1⟩, ⟨2⟩]) sampleMoves ∧
      (Run.run (Parallel.step sharedFile sampleChain 1 none) (.spawn [⟨1⟩, ⟨2⟩])
        sampleMoves).result = some nodes) ∧
      ExactUnion sampleChain 1 none [⟨1⟩, ⟨2⟩] nodes := by
  have hshallow : Run.Along (Traced.step sharedFile sampleChain 1 none) (Traced.NoneShallower none)
      (.spawn [⟨1⟩, ⟨2⟩]) sampleMoves := by decide +kernel
  have hsome : (Run.run (Parallel.step sharedFile sampleChain 1 none) (.spawn [⟨1⟩, ⟨2⟩])
      sampleMoves).result.isSome := by decide +kernel
  obtain ⟨nodes, hresult⟩ := Option.isSome_iff_exists.mp hsome
  exact ⟨nodes, ⟨hshallow, hresult⟩,
    parallelTraverse_exact sharedFile sampleChain 1 none [⟨1⟩, ⟨2⟩] sampleMoves hshallow
      nodes hresult⟩

/-- The task from the first id marks the second at the greatest depth, before the other begins. -/
theorem third_id_missed :
    ¬ ∀ (lock : FileLock) (storage : LocalStorage) (maxDepth : ℕ)
      (edgeFilter : Option (List String)) (startIds : List NodeId) (moves : List ℕ)
        (nodes : List Node),
      (Run.run (Parallel.step lock storage maxDepth edgeFilter) (.spawn startIds) moves).result =
        some nodes → ExactUnion storage maxDepth edgeFilter startIds nodes := by
  intro h
  have hids : (Run.run (Parallel.step sharedFile sampleChain 1 none) (.spawn [⟨1⟩, ⟨2⟩])
      (List.replicate 11 0 ++ List.replicate 5 1)).result.map (List.map Node.id) =
        some [⟨1⟩, ⟨2⟩] := by decide +kernel
  obtain ⟨nodes, hresult, hnodes⟩ := Option.map_eq_some_iff.mp hids
  obtain ⟨ids, -, hwithin, hperm⟩ := h _ _ _ _ _ _ nodes hresult
  have hedges : sampleChain.edgeRows (sampleChain.edgeFromIndex.get ⟨2⟩) =
    [sampleKnows 2 2 3] := rfl
  have hleads : Leads sampleChain none ⟨2⟩ ⟨3⟩ :=
    ⟨sampleKnows 2 2 3, hedges ▸ List.mem_singleton_self _, rfl, rfl⟩
  have hthird : (⟨3⟩ : NodeId) ∈ ids :=
    (hwithin ⟨3⟩).mpr ⟨⟨2⟩, by simp, 1, le_rfl, .snoc (.nil _) hleads⟩
  have hnode : sampleChain.nodes[(⟨3⟩ : NodeId)]? = some (sampleUser 3) := rfl
  have hfound : sampleUser 3 ∈ nodes :=
    hperm.mem_iff.mpr (List.mem_filterMap.mpr ⟨⟨3⟩, hthird, hnode⟩)
  have hid := List.mem_map_of_mem (f := Node.id) hfound
  rw [hnodes] at hid
  simp [sampleUser] at hid

end AresaDb.Store
