import AresaDb.Query.Reads

/-! # Index plans and scan plans

A plan that begins with an index lookup does with the nodes it returns what the plan of a planner
without indexes does with all nodes of the type.  The lookup is for equality whatever the operator
of the condition, and a SELECT drops every condition on a column that the planner believes indexed.
The two plans select the same nodes when the lookup misses none that satisfies the conditions, and a
SELECT gets none from it that does not.  A scan of a type fails on a payload that does not parse,
where a lookup may pass it over (`PlanExact`, `index_plan_same`). -/

namespace AresaDb.Query

open AresaDb.Store QueryPlanner

/-! ### What the first step returns -/

/-- The first step of the plan returns the node, of the nodes of the type: the lookup finds it, or
there is nothing to look up. -/
def lookupAdmits (J : Serde) (s : TieredStorage) (P : QueryPlanner) (q : ParsedQuery) (n : Node) :
    Bool :=
  match q.conditions.find? fun c => P.Indexes q.target c with
  | some c =>
      if s.local_.propertyFields.Registered q.target c.column then hasText J c.column c.value n
      else true
  | none => true

/-- The conditions on columns that the planner does not believe indexed. -/
def unindexedConditions (P : QueryPlanner) (q : ParsedQuery) : List Condition :=
  q.conditions.filter fun c => ¬ P.Indexes q.target c

/-- The first step of the plan loses no node that satisfies the conditions, and a SELECT is left
with none that does not. -/
structure FindsAll (J : Serde) (R : RegexEngine) (nodes : OrdMap NodeId Node) (s : TieredStorage)
    (P : QueryPlanner) (q : ParsedQuery) : Prop where
  complete : ∀ (id : NodeId) (n : Node), nodes[id]? = some n → n.nodeType = q.target →
    matchesConditions R n q.conditions → lookupAdmits J s P q n
  sound : q.operation = .select →
    ∀ (id : NodeId) (n : Node), nodes[id]? = some n → n.nodeType = q.target →
      lookupAdmits J s P q n → matchesConditions R n (unindexedConditions P q) →
        matchesConditions R n q.conditions

/-- The first step of the plan reads a node whose payload does not parse. -/
def ReadFails (J : Serde) (nodes : OrdMap NodeId Node) (s : TieredStorage) (P : QueryPlanner)
    (q : ParsedQuery) : Prop :=
  ∃ (id : NodeId) (n : Node), nodes[id]? = some n ∧ n.nodeType = q.target ∧
    lookupAdmits J s P q n ∧ parses n.properties = false

/-- The plan fails, and the scan with it; or the scan can read all nodes of the type, and the plan
finds what it does. -/
def PlanExact (J : Serde) (R : RegexEngine) (nodes : OrdMap NodeId Node) (s : TieredStorage)
    (P : QueryPlanner) (q : ParsedQuery) : Prop :=
  ReadFails J nodes s P q ∨ ¬ ReadFails J nodes s .new q ∧ FindsAll J R nodes s P q

/-- The remaining conditions of a SELECT. -/
theorem remainingConditions_eq (P : QueryPlanner) (q : ParsedQuery) :
    P.remainingConditions q (P.planScan q.target q.conditions).2 = unindexedConditions P q := by
  unfold remainingConditions unindexedConditions planScan
  refine List.filter_congr fun c hc => ?_
  cases hfind : q.conditions.find? fun c => P.Indexes q.target c with
  | none =>
      have hnot : ¬ P.Indexes q.target c := by
        simpa using List.find?_eq_none.mp hfind c hc
      simp [hnot]
  | some c₀ =>
      simp only [if_true, List.mem_map, List.mem_filter, decide_eq_true_eq, decide_eq_decide,
        not_iff_not]
      constructor
      · rintro ⟨c', ⟨_, hindexed⟩, hcolumn⟩
        unfold Indexes at hindexed ⊢
        rwa [← hcolumn]
      · exact fun hindexed => ⟨c, ⟨hc, hindexed⟩, rfl⟩

section

variable {J : Serde} {U : Unicode} {R : RegexEngine} {V : Value → Option Value} {D : Draws}
  {nodes : OrdMap NodeId Node} {s : TieredStorage} {P : QueryPlanner} {q : ParsedQuery}

/-- The nodes that the first step of a plan reads. -/
def scannedNodes (J : Serde) (nodes : OrdMap NodeId Node) (s : TieredStorage) (P : QueryPlanner)
    (q : ParsedQuery) : List Node :=
  (nodesOfType nodes s q.target).filter (lookupAdmits J s P q)

theorem Serves.executeScan (h : Serves J nodes s) :
    ∃ s', Coherent nodes s' ∧
      executeStep J U R V D ⟨s, none, none, 0⟩ (P.planScan q.target q.conditions).1 =
        if allRead (scannedNodes J nodes s P q) then
          some ⟨s', some (scannedNodes J nodes s P q), none, 0⟩
        else none := by
  -- Where the step is a scan it reads every node of the type.
  have hscan : ∀ {s' : TieredStorage}, (∀ n, lookupAdmits J s P q n = true) →
      s.getNodesByType J q.target none =
        (if allRead (nodesOfType nodes s q.target) then
          some (nodesOfType nodes s q.target, s') else none) →
      Execution.scan J ⟨s, none, none, 0⟩ q.target =
        if allRead (scannedNodes J nodes s P q) then
          some ⟨s', some (scannedNodes J nodes s P q), none, 0⟩
        else none := by
    intro s' hall hread
    have hnodes : scannedNodes J nodes s P q = nodesOfType nodes s q.target :=
      List.filter_eq_self.mpr fun n _ => hall n
    unfold Execution.scan
    rw [hnodes, hread]
    split_ifs <;> rfl
  unfold planScan
  cases hfind : q.conditions.find? fun c => P.Indexes q.target c with
  | none =>
      obtain ⟨s', hread, hs'⟩ := h.getNodesByType q.target
      refine ⟨s', hs', hscan (fun n => ?_) hread⟩
      unfold lookupAdmits
      rw [hfind]
  | some c =>
      by_cases hreg : s.local_.propertyFields.Registered q.target c.column
      · obtain ⟨s', hread, hs'⟩ := h.indexLookup hreg c.value
        refine ⟨s', hs', ?_⟩
        have hnodes : scannedNodes J nodes s P q =
            (nodesOfType nodes s q.target).filter (hasText J c.column c.value) := by
          unfold scannedNodes
          refine List.filter_congr fun n _ => ?_
          unfold lookupAdmits
          rw [hfind]
          exact if_pos hreg
        rw [hnodes]
        simp only [executeStep, hread]
        split_ifs <;> rfl
      · obtain ⟨s', hread, hs'⟩ := h.getNodesByType q.target
        refine ⟨s', hs', ?_⟩
        simp only [executeStep, indexLookup_of_unregistered hreg, Option.bind_eq_bind,
          Option.bind_some]
        refine hscan (fun n => ?_) hread
        unfold lookupAdmits
        rw [hfind]
        exact if_neg hreg

/-- The first step of a plan on any storage, if it succeeds. -/
theorem scan_spec {nodeType : String} {conditions : List Condition} {x : Execution}
    (h : executeStep J U R V D ⟨s, none, none, 0⟩ (P.planScan nodeType conditions).1 = some x) :
    ∃ s' l, x = ⟨s', some l, none, 0⟩ ∧ (l.map Node.id).Nodup := by
  have hscan : ∀ {s : TieredStorage}, Execution.scan J ⟨s, none, none, 0⟩ nodeType = some x →
      ∃ s' l, x = ⟨s', some l, none, 0⟩ ∧ (l.map Node.id).Nodup := by
    intro s h
    obtain ⟨⟨l, s'⟩, hread, rfl⟩ := Option.map_eq_some_iff.mp h
    exact ⟨s', l, rfl, (getNodesByType_ids hread).1⟩
  unfold planScan at h
  cases hfind : conditions.find? fun c => P.Indexes nodeType c with
  | none =>
      rw [hfind] at h
      exact hscan h
  | some c =>
      rw [hfind] at h
      obtain ⟨⟨found, s'⟩, hlookup, h⟩ := Option.bind_eq_some_iff.mp h
      cases found with
      | none => exact hscan h
      | some l =>
          obtain rfl := Option.some.inj h
          exact ⟨s', l, rfl, indexLookup_ids hlookup⟩

/-- The ids that the first step of a plan reads. -/
def scannedIds (J : Serde) (s : TieredStorage) (P : QueryPlanner) (q : ParsedQuery) :
    List NodeId :=
  let listed := s.local_.nodeTypeIndex.get q.target
  match q.conditions.find? fun c => P.Indexes q.target c with
  | some c => (s.local_.indexLookup J q.target c.column c.value).getD listed
  | none => listed

/-- The first step of a plan on any storage reads these ids. -/
theorem executeScan_nodes (s : TieredStorage) (P : QueryPlanner) (q : ParsedQuery) :
    (executeStep J U R V D ⟨s, none, none, 0⟩ (P.planScan q.target q.conditions).1).bind
        Execution.nodes = nodesAt J s (scannedIds J s P q) := by
  have hscan : (Execution.scan J ⟨s, none, none, 0⟩ q.target).bind Execution.nodes =
      nodesAt J s (s.local_.nodeTypeIndex.get q.target) := by
    rw [← map_fst_getNodesByType]
    unfold Execution.scan
    cases s.getNodesByType J q.target none <;> rfl
  unfold planScan scannedIds
  cases hfind : q.conditions.find? fun c => P.Indexes q.target c with
  | none => exact hscan
  | some c =>
      cases hids : s.local_.indexLookup J q.target c.column c.value with
      | none =>
          have hlookup : s.indexLookup J q.target c.column c.value = some (none, s) := by
            unfold TieredStorage.indexLookup
            rw [hids]
          simp only [executeStep, hlookup, Option.bind_eq_bind, Option.bind_some, hids,
            Option.getD_none]
          exact hscan
      | some ids =>
          have hread := map_fst_indexLookup hids
          simp only [executeStep, hids, Option.getD_some]
          cases hlookup : s.indexLookup J q.target c.column c.value with
          | none =>
              rw [hlookup, Option.map_none] at hread
              exact (Option.map_eq_none_iff.mp hread.symm).symm
          | some r =>
              obtain ⟨found, s'⟩ := r
              rw [hlookup, Option.map_some] at hread
              obtain ⟨l, hl, rfl⟩ := Option.map_eq_some_iff.mp hread.symm
              simp only [Option.bind_eq_bind, Option.bind_some, Option.pure_def]
              exact hl.symm

/-! ### Steps on the list of nodes -/

/-- The steps replace the list of nodes by a function of it. -/
def Rewrites (J : Serde) (U : Unicode) (R : RegexEngine) (viaJson : Value → Option Value)
    (D : Draws) (steps : List PlanStep) (f : List Node → List Node) : Prop :=
  ∀ (x : Execution) (l : List Node), x.nodes = some l →
    steps.foldlM (executeStep J U R viaJson D) x = some { x with nodes := some (f l) }

theorem rewrites_nil : Rewrites J U R V D [] id := by
  intro x l hx
  obtain ⟨store, nodes, inserted, rowsAffected⟩ := x
  obtain rfl : nodes = some l := hx
  rfl

theorem Rewrites.append {steps₁ steps₂ : List PlanStep} {f g : List Node → List Node}
    (h₁ : Rewrites J U R V D steps₁ f) (h₂ : Rewrites J U R V D steps₂ g) :
    Rewrites J U R V D (steps₁ ++ steps₂) (g ∘ f) := by
  intro x l hx
  rw [List.foldlM_append, h₁ x l hx]
  exact h₂ _ (f l) rfl

theorem rewrites_singleton {step : PlanStep} {f : List Node → List Node}
    (h : ∀ (x : Execution) (l : List Node), x.nodes = some l →
      executeStep J U R V D x step = some { x with nodes := some (f l) }) :
    Rewrites J U R V D [step] f := by
  intro x l hx
  rw [List.foldlM_cons, h x l hx]
  rfl

theorem rewrites_filterStep (conditions : List Condition) :
    Rewrites J U R V D (filterStep conditions)
      (List.filter fun n => matchesConditions R n conditions) := by
  unfold filterStep
  split_ifs with hnil
  · subst hnil
    have hid : (List.filter fun n => matchesConditions R n []) = id := by
      funext l
      exact List.filter_true l
    rw [hid]
    exact rewrites_nil
  · refine rewrites_singleton fun x l hx => ?_
    simp only [executeStep, hx, Option.map_some]

/-- The steps of a SELECT after its filter. -/
def arrangeSteps (q : ParsedQuery) : List PlanStep :=
  q.orderBy.map (fun order => .sort order.column order.descending) ++
    q.limit.toList.map (fun limit => .limit limit (q.offset.getD 0)) ++
    if q.columns = [] then [] else [.project q.columns]

/-- One sort after the other. -/
def sortAll (orders : List OrderBy) (l : List Node) : List Node :=
  orders.foldl (fun l order => sortNodes order.column order.descending l) l

/-- What these steps make of a list. -/
def arrange (q : ParsedQuery) (l : List Node) : List Node :=
  match q.limit with
  | some count => ((sortAll q.orderBy l).drop (q.offset.getD 0)).take count
  | none => sortAll q.orderBy l

theorem sortAll_perm (orders : List OrderBy) (l : List Node) : (sortAll orders l).Perm l := by
  induction orders generalizing l with
  | nil => exact .refl l
  | cons order orders ih => exact (ih _).trans (List.mergeSort_perm _ _)

/-- Without a limit the list keeps its members. -/
theorem arrange_perm {q : ParsedQuery} (hlimit : q.limit = none) (l : List Node) :
    (arrange q l).Perm l := by
  unfold arrange
  rw [hlimit]
  exact sortAll_perm q.orderBy l

theorem rewrites_sorts (orders : List OrderBy) :
    Rewrites J U R V D (orders.map fun order => .sort order.column order.descending)
      (sortAll orders) := by
  induction orders with
  | nil => exact rewrites_nil
  | cons order orders ih =>
      have hsort : Rewrites J U R V D [.sort order.column order.descending]
          (sortNodes order.column order.descending) := by
        refine rewrites_singleton fun x l hx => ?_
        simp only [executeStep, hx, Option.map_some]
      exact hsort.append ih

theorem rewrites_arrangeSteps (q : ParsedQuery) :
    Rewrites J U R V D (arrangeSteps q) (arrange q) := by
  have hproject : Rewrites J U R V D
      (if q.columns = [] then [] else [.project q.columns]) id := by
    split_ifs
    · exact rewrites_nil
    · refine rewrites_singleton fun x l hx => ?_
      obtain ⟨store, nodes, inserted, rowsAffected⟩ := x
      obtain rfl : nodes = some l := hx
      rfl
  have hsorts := rewrites_sorts (J := J) (U := U) (R := R) (V := V) (D := D) q.orderBy
  unfold arrangeSteps arrange
  cases q.limit with
  | none => exact (hsorts.append rewrites_nil).append hproject
  | some count =>
      have hcut : Rewrites J U R V D [.limit count (q.offset.getD 0)]
          fun l => (l.drop (q.offset.getD 0)).take count := by
        refine rewrites_singleton fun x l hx => ?_
        simp only [executeStep, hx, Option.map_some]
      exact (hsorts.append hcut).append hproject

/-! ### Whole plans -/

/-- The nodes that the plan of a query selects, updates or deletes. -/
def selectedNodes (J : Serde) (U : Unicode) (R : RegexEngine) (viaJson : Value → Option Value)
    (D : Draws) (s : TieredStorage) (P : QueryPlanner) (q : ParsedQuery) : Option (List Node) :=
  (executePlan J U R viaJson D s (P.plan q)).bind Execution.nodes

/-- What the first step and the filter of a plan leave. -/
def foundNodes (J : Serde) (R : RegexEngine) (nodes : OrdMap NodeId Node) (s : TieredStorage)
    (P : QueryPlanner) (q : ParsedQuery) (conditions : List Condition) : List Node :=
  (scannedNodes J nodes s P q).filter fun n => matchesConditions R n conditions

/-- The plan after its first step. -/
theorem Serves.execute_cons (h : Serves J nodes s) (P : QueryPlanner) (q : ParsedQuery)
    (conditions : List Condition) (rest : List PlanStep) :
    ∃ s', Coherent nodes s' ∧
      ((P.planScan q.target q.conditions).1 :: filterStep conditions ++ rest).foldlM
          (executeStep J U R V D) ⟨s, none, none, 0⟩ =
        if allRead (scannedNodes J nodes s P q) then
          rest.foldlM (executeStep J U R V D)
            ⟨s', some (foundNodes J R nodes s P q conditions), none, 0⟩
        else none := by
  obtain ⟨s', hs', hscan⟩ := h.executeScan (U := U) (R := R) (V := V) (D := D) (P := P)
    (q := q)
  refine ⟨s', hs', ?_⟩
  rw [List.cons_append, List.foldlM_cons, hscan]
  split_ifs
  · rw [Option.bind_eq_bind, Option.bind_some, List.foldlM_append,
      rewrites_filterStep conditions _ _ rfl]
    rfl
  · rfl

/-- The steps of a SELECT. -/
theorem steps_select (hop : q.operation = .select) :
    (P.plan q).steps = (P.planScan q.target q.conditions).1 ::
      filterStep (unindexedConditions P q) ++ arrangeSteps q := by
  unfold plan arrangeSteps
  simp only [hop, remainingConditions_eq, List.append_assoc, List.cons_append]

/-- A SELECT arranges what it finds, if it can read what it scans. -/
theorem Serves.selectedNodes_select (h : Serves J nodes s) (hop : q.operation = .select)
    (P : QueryPlanner) :
    selectedNodes J U R V D s P q =
      if allRead (scannedNodes J nodes s P q) then
        some (arrange q (foundNodes J R nodes s P q (unindexedConditions P q)))
      else none := by
  obtain ⟨s', -, hrun⟩ := h.execute_cons (U := U) (R := R) (V := V) (D := D) P q
    (unindexedConditions P q) (arrangeSteps q)
  unfold selectedNodes executePlan
  rw [steps_select hop, hrun, rewrites_arrangeSteps q _ _ rfl]
  split_ifs <;> rfl

/-- What the scan and the filter of a SELECT find in any storage. -/
def selectFound (J : Serde) (U : Unicode) (R : RegexEngine) (viaJson : Value → Option Value)
    (D : Draws) (s : TieredStorage) (P : QueryPlanner) (q : ParsedQuery) :
    Option (TieredStorage × List Node) :=
  (executeStep J U R viaJson D ⟨s, none, none, 0⟩ (P.planScan q.target q.conditions).1).bind
    fun x => x.nodes.map fun l =>
      (x.store, l.filter fun n => matchesConditions R n (unindexedConditions P q))

theorem selectFound_nodes (s : TieredStorage) (P : QueryPlanner) (q : ParsedQuery) :
    (selectFound J U R V D s P q).map Prod.snd =
      (nodesAt J s (scannedIds J s P q)).map
        (List.filter fun n => matchesConditions R n (unindexedConditions P q)) := by
  rw [← executeScan_nodes (U := U) (R := R) (V := V) (D := D)]
  unfold selectFound
  cases executeStep J U R V D ⟨s, none, none, 0⟩ (P.planScan q.target q.conditions).1 with
  | none => rfl
  | some x =>
      simp only [Option.bind_some, Option.map_map]
      rfl

theorem selectFound_nodup {e : TieredStorage × List Node}
    (h : selectFound J U R V D s P q = some e) : (e.2.map Node.id).Nodup := by
  obtain ⟨x, hfirst, h⟩ := Option.bind_eq_some_iff.mp h
  obtain ⟨s', l, rfl, hl⟩ := scan_spec hfirst
  obtain rfl := Option.some.inj h
  exact hl.sublist (List.filter_sublist.map Node.id)

/-- A SELECT on any storage arranges what it finds. -/
theorem executePlan_select (hop : q.operation = .select) (s : TieredStorage) (P : QueryPlanner) :
    executePlan J U R V D s (P.plan q) =
      (selectFound J U R V D s P q).map fun (s', l) => ⟨s', some (arrange q l), none, 0⟩ := by
  unfold executePlan selectFound
  rw [steps_select hop, List.cons_append, List.foldlM_cons]
  cases hfirst : executeStep J U R V D ⟨s, none, none, 0⟩ (P.planScan q.target q.conditions).1 with
  | none => rfl
  | some x =>
      obtain ⟨s', l, rfl, -⟩ := scan_spec hfirst
      rw [Option.bind_eq_bind, Option.bind_some, List.foldlM_append,
        rewrites_filterStep _ _ _ rfl, Option.bind_eq_bind, Option.bind_some,
        rewrites_arrangeSteps _ _ _ rfl]
      rfl

/-- The data of the query goes through JSON, and leaves a payload that parses as one that does. -/
def Converts (viaJson : Value → Option Value) (q : ParsedQuery) : Prop :=
  ∀ data, q.data = some data → ∃ value, viaJson (.object data.toList) = some value ∧
    ∀ p, parses p = true → parses (mergeProps p value) = true

/-- The updates of a list go through. -/
def finishes (viaJson : Value → Option Value) (data : Props) (l : List Node) : Bool :=
  l.isEmpty || (viaJson (.object data.toList)).any fun value =>
    l.all fun n => parses n.properties && parses (mergeProps n.properties value)

/-- Nodes that there are, each of them once, are updated if their payloads parse before and after,
unless the data does not go through JSON. -/
theorem updateAll_isSome (data : Props) {l : List Node} (h : Coherent nodes s)
    (hl : ∀ n ∈ l, nodes[n.id]? = some n) (hnodup : (l.map Node.id).Nodup) :
    (updateAll J V D data s l).isSome = finishes V data l := by
  induction l generalizing nodes s with
  | nil => rfl
  | cons n l ih =>
      unfold finishes at ih ⊢
      obtain ⟨hnotin, hnodup⟩ := List.nodup_cons.mp hnodup
      cases hvalue : V (.object data.toList) with
      | none => simp [updateAll, hvalue]
      | some value =>
          obtain ⟨n', s', hupdate, -, hs'⟩ := h.updateNode_some (J := J)
            (hl n List.mem_cons_self) (D.updatedAt n.id) value
          have hkept : ∀ k ∈ l, (nodes.insert n.id
              (J.node (LocalStorage.touchNode (D.updatedAt n.id) n value)))[k.id]? = some k := by
            intro k hk
            rw [OrdMap.get_insert_of_ne _ _ fun heq => hnotin (List.mem_map.mpr ⟨k, hk, heq.symm⟩)]
            exact hl k (List.mem_cons_of_mem _ hk)
          have ih := ih hs' hkept hnodup
          rw [hvalue] at ih
          have hrest : (updateAll J V D data s' l).isSome =
              l.all fun n => parses n.properties && parses (mergeProps n.properties value) := by
            rw [ih]
            cases l <;> simp
          rw [List.isEmpty_cons, Bool.false_or, Option.any_some, List.all_cons, ← hrest]
          simp only [updateAll, hvalue, hupdate, Option.bind_eq_bind, Option.bind_some]
          split_ifs with hparses
          · rw [hparses, Option.bind_some, Bool.true_and]
          · rw [Bool.eq_false_of_not_eq_true hparses]
            rfl

/-- The update step of a plan, if there is data. -/
theorem nodes_of_updateSteps {l : List Node} (h : Coherent nodes s)
    (hl : ∀ n ∈ l, nodes[n.id]? = some n) (hnodup : (l.map Node.id).Nodup) :
    ((q.data.toList.map fun data => .updateNodes data).foldlM (executeStep J U R V D)
        ⟨s, some l, none, 0⟩).bind Execution.nodes =
      if q.data.all fun data => finishes V data l then some l else none := by
  cases q.data with
  | none => rfl
  | some data =>
      have hsome := updateAll_isSome (J := J) (V := V) (D := D) data h hl hnodup
      rw [Option.all_some, ← hsome]
      cases hrun : updateAll J V D data s l <;> simp [executeStep, hrun]

/-- The deletions of a list go through. -/
theorem deleteNodes_isSome {l : List Node} (h : Coherent nodes s) :
    (l.foldlM (fun store node => TieredStorage.deleteNode store node.id) s).isSome := by
  induction l generalizing nodes s with
  | nil => rfl
  | cons n l ih =>
      obtain ⟨s', hdelete, hs'⟩ := h.deleteNode n.id
      rw [List.foldlM_cons, hdelete]
      exact ih hs'

/-- The nodes that a plan finds are there, each of them once. -/
theorem Serves.foundNodes_stored (h : Serves J nodes s) (P : QueryPlanner) (q : ParsedQuery)
    (conditions : List Condition) :
    (∀ n ∈ foundNodes J R nodes s P q conditions, nodes[n.id]? = some n) ∧
      ((foundNodes J R nodes s P q conditions).map Node.id).Nodup := by
  have hsub : (foundNodes J R nodes s P q conditions).Sublist (nodesOfType nodes s q.target) :=
    List.filter_sublist.trans List.filter_sublist
  exact ⟨fun n hn => (h.mem_nodesOfType.mp (hsub.mem hn)).1,
    (h.nodesOfType_nodup q.target).sublist (hsub.map Node.id)⟩

/-- An UPDATE or DELETE that can read what it scans goes over what it finds in the same way for all
planners. -/
theorem Serves.selectedNodes_affect (h : Serves J nodes s)
    (hop : q.operation = .update ∨ q.operation = .delete) :
    ∃ f : List Node → Option (List Node),
      (Converts V q → ∀ l, allRead l = true → f l = some l) ∧
      ∀ P, selectedNodes J U R V D s P q =
        if allRead (scannedNodes J nodes s P q) then f (foundNodes J R nodes s P q q.conditions)
        else none := by
  obtain hop | hop := hop
  · refine ⟨fun l => if q.data.all fun data => finishes V data l then some l else none,
      fun hconverts l hread => ?_, fun P => ?_⟩
    · refine if_pos ((Option.all_eq_true _ _).mpr fun data hdata => ?_)
      obtain ⟨value, hvalue, hmerge⟩ := hconverts data hdata
      unfold finishes
      rw [hvalue, Option.any_some, Bool.or_eq_true, List.all_eq_true]
      refine .inr fun n hn => ?_
      have hn := List.all_eq_true.mp hread n hn
      rw [hn, hmerge _ hn, Bool.and_self]
    · have hsteps : (P.plan q).steps = (P.planScan q.target q.conditions).1 ::
          filterStep q.conditions ++ q.data.toList.map fun data => .updateNodes data := by
        unfold plan
        simp only [hop]
      obtain ⟨s', hs', hrun⟩ := h.execute_cons (U := U) (R := R) (V := V) (D := D) P q
        q.conditions (q.data.toList.map fun data => .updateNodes data)
      unfold selectedNodes executePlan
      rw [hsteps, hrun]
      split_ifs with hread
      · obtain ⟨hstored, hnodup⟩ := h.foundNodes_stored (R := R) P q q.conditions
        exact nodes_of_updateSteps hs' hstored hnodup
      · rfl
  · refine ⟨some, fun _ _ _ => rfl, fun P => ?_⟩
    have hsteps : (P.plan q).steps = (P.planScan q.target q.conditions).1 ::
        filterStep q.conditions ++ [.deleteNodes] := by
      unfold plan
      simp only [hop]
    obtain ⟨s', hs', hrun⟩ := h.execute_cons (U := U) (R := R) (V := V) (D := D) P q
      q.conditions [.deleteNodes]
    unfold selectedNodes executePlan
    rw [hsteps, hrun]
    split_ifs
    · obtain ⟨s'', hdelete⟩ := Option.isSome_iff_exists.mp (deleteNodes_isSome
        (l := foundNodes J R nodes s P q q.conditions) hs')
      simp only [List.foldlM_cons, List.foldlM_nil, executeStep, hdelete]
      rfl
    · rfl

/-! ### Comparing with the scan plan -/

theorem lookupAdmits_new (n : Node) : lookupAdmits J s .new q n = true := by
  unfold lookupAdmits
  have hnone : (q.conditions.find? fun c => QueryPlanner.new.Indexes q.target c) = none :=
    List.find?_eq_none.mpr fun c _ => by simp [QueryPlanner.new, Indexes]
  rw [hnone]

theorem unindexedConditions_new : unindexedConditions .new q = q.conditions :=
  List.filter_eq_self.mpr fun c _ => by simp [QueryPlanner.new, Indexes]

theorem Serves.mem_scannedNodes (h : Serves J nodes s) {n : Node} :
    n ∈ scannedNodes J nodes s P q ↔
      (nodes[n.id]? = some n ∧ n.nodeType = q.target) ∧ lookupAdmits J s P q n := by
  unfold scannedNodes
  rw [List.mem_filter, h.mem_nodesOfType]

/-- The members of a list of found nodes. -/
theorem Serves.mem_foundNodes (h : Serves J nodes s) {conditions : List Condition} {n : Node} :
    n ∈ foundNodes J R nodes s P q conditions ↔ (nodes[n.id]? = some n ∧ n.nodeType = q.target) ∧
      lookupAdmits J s P q n ∧ matchesConditions R n conditions := by
  unfold foundNodes
  rw [List.mem_filter, h.mem_scannedNodes, and_assoc]

/-- Two filters of the nodes of the type leave one list when they admit the same nodes. -/
theorem Serves.foundNodes_congr (h : Serves J nodes s) {P' : QueryPlanner}
    {conditions conditions' : List Condition}
    (hsame : ∀ n : Node, n ∈ foundNodes J R nodes s P q conditions ↔
      n ∈ foundNodes J R nodes s P' q conditions') :
    foundNodes J R nodes s P q conditions = foundNodes J R nodes s P' q conditions' := by
  unfold foundNodes scannedNodes
  rw [List.filter_filter, List.filter_filter]
  refine List.filter_congr fun n hn => ?_
  have hn := hsame n
  rw [h.mem_foundNodes, h.mem_foundNodes,
    and_congr_right_iff.trans (imp_iff_right (h.mem_nodesOfType.mp ‹_›))] at hn
  rw [Bool.eq_iff_iff, Bool.and_eq_true, Bool.and_eq_true, and_comm, hn, and_comm]

theorem matchesConditions_unindexed {n : Node} (hn : matchesConditions R n q.conditions) :
    matchesConditions R n (unindexedConditions P q) := by
  unfold matchesConditions at hn ⊢
  rw [List.all_eq_true] at hn ⊢
  exact fun c hc => hn c (List.mem_filter.mp hc).1

/-- The conditions that the filter of a plan checks. -/
def filterConditions (P : QueryPlanner) (q : ParsedQuery) : List Condition :=
  if q.operation = .select then unindexedConditions P q else q.conditions

theorem filterConditions_new : filterConditions .new q = q.conditions := by
  unfold filterConditions
  rw [unindexedConditions_new, ite_self]

theorem matchesConditions_filter {n : Node} (hn : matchesConditions R n q.conditions) :
    matchesConditions R n (filterConditions P q) := by
  unfold filterConditions
  split_ifs
  · exact matchesConditions_unindexed hn
  · exact hn

/-- A plan that can read what it scans does the same with what it finds whatever the planner. -/
theorem Serves.selectedNodes_eq (h : Serves J nodes s)
    (hop : q.operation = .select ∨ q.operation = .update ∨ q.operation = .delete) :
    ∃ f : List Node → Option (List Node),
      ((q.operation = .select → q.limit = none) → Converts V q → ∀ l, allRead l = true →
        ∃ l', f l = some l' ∧ l'.Perm l) ∧
      ∀ P, selectedNodes J U R V D s P q =
        if allRead (scannedNodes J nodes s P q) then
          f (foundNodes J R nodes s P q (filterConditions P q))
        else none := by
  obtain hselect | haffect := hop
  · refine ⟨fun l => some (arrange q l), fun hlimit _ l _ =>
      ⟨_, rfl, arrange_perm (hlimit hselect) l⟩, fun P => ?_⟩
    rw [h.selectedNodes_select hselect P, filterConditions, if_pos hselect]
  · obtain ⟨f, hsome, hselected⟩ := h.selectedNodes_affect (U := U) (R := R) (V := V) (D := D)
      haffect
    refine ⟨f, fun _ hconverts l hl => ⟨l, hsome hconverts l hl, .refl l⟩, fun P => ?_⟩
    have hne : q.operation ≠ .select := by
      rintro heq
      rw [heq] at haffect
      simp at haffect
    rw [hselected P, filterConditions, if_neg hne]

/-- A plan finds all when it finds the nodes that the scan and all conditions leave. -/
theorem Serves.findsAll_iff (h : Serves J nodes s) :
    FindsAll J R nodes s P q ↔
      ∀ n, n ∈ foundNodes J R nodes s P q (filterConditions P q) ↔
        n ∈ foundNodes J R nodes s .new q (filterConditions .new q) := by
  rw [filterConditions_new]
  constructor
  · intro hfinds n
    rw [h.mem_foundNodes, h.mem_foundNodes]
    refine and_congr_right fun ⟨hn, htype⟩ => ?_
    rw [lookupAdmits_new, eq_self_iff_true, true_and]
    refine ⟨fun ⟨hadmits, hfilter⟩ => ?_, fun hall =>
      ⟨hfinds.complete _ n hn htype hall, matchesConditions_filter hall⟩⟩
    unfold filterConditions at hfilter
    split_ifs at hfilter with hselect
    · exact hfinds.sound hselect _ n hn htype hadmits hfilter
    · exact hfilter
  · intro hsame
    refine ⟨fun id n hn htype hall => ?_, fun hselect id n hn htype hadmits hrest => ?_⟩
    · obtain rfl := h.coherent.node_id hn
      have hfound := h.mem_foundNodes.mpr ⟨⟨hn, htype⟩, lookupAdmits_new n, hall⟩
      exact (h.mem_foundNodes.mp ((hsame n).mpr hfound)).2.1
    · obtain rfl := h.coherent.node_id hn
      have hfilter : matchesConditions R n (filterConditions P q) := by
        rw [filterConditions, if_pos hselect]
        exact hrest
      have hfound := h.mem_foundNodes.mpr ⟨⟨hn, htype⟩, hadmits, hfilter⟩
      exact (h.mem_foundNodes.mp ((hsame n).mp hfound)).2.2

theorem Serves.readFails_iff (h : Serves J nodes s) :
    ReadFails J nodes s P q ↔ allRead (scannedNodes J nodes s P q) = false := by
  unfold allRead
  rw [List.all_eq_false]
  constructor
  · rintro ⟨id, n, hn, htype, hadmits, hparses⟩
    obtain rfl := h.coherent.node_id hn
    exact ⟨n, h.mem_scannedNodes.mpr ⟨⟨hn, htype⟩, hadmits⟩, by simp [hparses]⟩
  · rintro ⟨n, hn, hparses⟩
    obtain ⟨⟨hn, htype⟩, hadmits⟩ := h.mem_scannedNodes.mp hn
    exact ⟨n.id, n, hn, htype, hadmits, Bool.eq_false_of_not_eq_true hparses⟩

/-- A lookup reads no more than a scan. -/
theorem ReadFails.scan (h : ReadFails J nodes s P q) : ReadFails J nodes s .new q := by
  obtain ⟨id, n, hn, htype, -, hparses⟩ := h
  exact ⟨id, n, hn, htype, lookupAdmits_new n, hparses⟩

end

/-! ### The result -/

/-- Both plans fail, or they select or affect the same nodes. -/
def SameNodes (outcome outcome' : Option (List Node)) : Prop :=
  Option.Rel (fun l l' => ∀ n, n ∈ l ↔ n ∈ l') outcome outcome'

/-- The plans of a SELECT, UPDATE or DELETE with and without indexes give the same nodes when the
plan is exact, and only then, pages of a LIMIT and data that no JSON stands for aside. -/
theorem index_plan_same (J : Serde) (U : Unicode) (R : RegexEngine)
    (viaJson : Value → Option Value) (D : Draws) (nodes : OrdMap NodeId Node) (s : TieredStorage)
    (h : Serves J nodes s) (P : QueryPlanner) (q : ParsedQuery)
    (hop : q.operation = .select ∨ q.operation = .update ∨ q.operation = .delete) :
    (PlanExact J R nodes s P q →
      selectedNodes J U R viaJson D s P q = selectedNodes J U R viaJson D s .new q) ∧
    ((q.operation = .select → q.limit = none) → Converts viaJson q →
      SameNodes (selectedNodes J U R viaJson D s P q) (selectedNodes J U R viaJson D s .new q) →
      PlanExact J R nodes s P q) := by
  obtain ⟨f, hsome, hselected⟩ := h.selectedNodes_eq (U := U) (R := R) (V := viaJson) (D := D) hop
  rw [hselected P, hselected .new]
  unfold PlanExact
  rw [h.readFails_iff, h.readFails_iff, Bool.not_eq_false]
  constructor
  · rintro (hfails | ⟨hscan, hfinds⟩)
    · have hscan := h.readFails_iff.mp (h.readFails_iff.mpr hfails).scan
      rw [hfails, hscan]
      rfl
    · have hread : allRead (scannedNodes J nodes s P q) = true := by
        rw [← Bool.not_eq_false]
        intro hfails
        rw [h.readFails_iff.mp (h.readFails_iff.mpr hfails).scan] at hscan
        cases hscan
      rw [hread, hscan, h.foundNodes_congr (h.findsAll_iff.mp hfinds)]
  · intro hlimit hconverts hsame
    have hfound : ∀ P, allRead (scannedNodes J nodes s P q) = true →
        ∃ l, f (foundNodes J R nodes s P q (filterConditions P q)) = some l ∧
          l.Perm (foundNodes J R nodes s P q (filterConditions P q)) := fun P hread =>
      hsome hlimit hconverts _
        (List.all_eq_true.mpr fun n hn => List.all_eq_true.mp hread n (List.filter_sublist.mem hn))
    refine or_iff_not_imp_left.mpr fun hread => ?_
    rw [Bool.not_eq_false] at hread
    obtain ⟨l, hl, hperm⟩ := hfound P hread
    rw [if_pos hread, hl] at hsame
    -- A plan that reads its nodes succeeds, so the scan has to.
    by_cases hscan : allRead (scannedNodes J nodes s .new q) = true
    · obtain ⟨l', hl', hperm'⟩ := hfound .new hscan
      rw [if_pos hscan, hl'] at hsame
      cases hsame with
      | some hmem =>
          exact ⟨hscan, h.findsAll_iff.mpr fun n => by rw [← hperm.mem_iff, hmem n, hperm'.mem_iff]⟩
    · rw [if_neg hscan] at hsame
      cases hsame

/-- A database with a node of age 30 and an index on ages. -/
def sampleStore : Tracked :=
  Tracked.reached plainJson asciiUnicode ⟨1000, 0, false⟩ false sampleLookup

def sampleNode : Node :=
  plainJson.node ⟨⟨1⟩, "user", (∅ : Props).insert "age" (.int 30), 0, 0⟩

theorem eq_sampleNode {id : NodeId} {n : Node} (hn : sampleStore.nodes[id]? = some n) :
    id = ⟨1⟩ ∧ n = sampleNode := by
  have hnodes : sampleStore.nodes = (∅ : OrdMap NodeId Node).insert ⟨1⟩ sampleNode := rfl
  rw [hnodes, OrdMap.get_insert] at hn
  split_ifs at hn with hid
  · exact ⟨hid.symm, (Option.some.inj hn).symm⟩
  · simp at hn

theorem serves_sampleStore : Serves plainJson sampleStore.nodes sampleStore.store := by
  have hinv : IndexInv (propertyKind plainJson asciiUnicode) sampleStore :=
    exact_run (indexInv_new_property _ _ _ _) safe_sampleLookup
  refine ⟨hinv.coherent, fun id n hn nodeType => ?_, hinv.exact.right⟩
  have htypes : sampleStore.store.local_.nodeTypeIndex =
      (Multimap.empty : Multimap String NodeId).insert "user" ⟨1⟩ := rfl
  obtain ⟨rfl, rfl⟩ := eq_sampleNode hn
  rw [htypes, Multimap.mem_insert]
  simp [sampleNode]

/-- Ages selected by an operator and a value. -/
def sampleQuery (operator : Operator) (value : Value) : ParsedQuery where
  operation := .select
  target := "user"
  columns := []
  conditions := [⟨"age", operator, value⟩]
  orderBy := []
  limit := none
  offset := none
  data := none

/-- What the planner with the index selects, and what the planner without selects. -/
def sampleSelected (P : QueryPlanner) (q : ParsedQuery) : Option (List Node) :=
  selectedNodes plainJson asciiUnicode ⟨fun _ _ => none⟩ some ⟨⟨2⟩, 0, fun _ => 0⟩ sampleStore.store
    P q

theorem index_plan_same_sample :
    (Serves plainJson sampleStore.nodes sampleStore.store ∧
      PlanExact plainJson ⟨fun _ _ => none⟩ sampleStore.nodes sampleStore.store
        ⟨[("user", "age")]⟩ (sampleQuery .eq (.int 30))) ∧
    sampleSelected ⟨[("user", "age")]⟩ (sampleQuery .eq (.int 30)) =
      sampleSelected .new (sampleQuery .eq (.int 30)) := by
  have hexact : PlanExact plainJson ⟨fun _ _ => none⟩ sampleStore.nodes sampleStore.store
      ⟨[("user", "age")]⟩ (sampleQuery .eq (.int 30)) := by
    refine .inr ⟨?_, fun id n hn _ _ => ?_, fun _ id n hn _ _ _ => ?_⟩
    · rintro ⟨id, n, hn, -, -, hparses⟩
      obtain ⟨-, rfl⟩ := eq_sampleNode hn
      revert hparses
      decide +kernel
    · obtain ⟨-, rfl⟩ := eq_sampleNode hn
      decide +kernel
    · obtain ⟨-, rfl⟩ := eq_sampleNode hn
      decide +kernel
  refine ⟨⟨serves_sampleStore, hexact⟩, ?_⟩
  exact (index_plan_same plainJson asciiUnicode _ some _ _ _ serves_sampleStore _ _
    (.inl rfl)).1 hexact

/-- Ages over 25 are looked up as the age 25, and the node of age 30 is not found. -/
theorem range_looked_up :
    Serves plainJson sampleStore.nodes sampleStore.store ∧
      ¬ SameNodes (sampleSelected ⟨[("user", "age")]⟩ (sampleQuery .gt (.int 25)))
        (sampleSelected .new (sampleQuery .gt (.int 25))) := by
  refine ⟨serves_sampleStore, fun h => ?_⟩
  have hnone : (sampleSelected ⟨[("user", "age")]⟩ (sampleQuery .gt (.int 25))).map List.length =
      some 0 := by decide +kernel
  have hone : (sampleSelected .new (sampleQuery .gt (.int 25))).map List.length = some 1 := by
    decide +kernel
  obtain ⟨l, hl, hlength⟩ := Option.map_eq_some_iff.mp hone
  obtain ⟨n, rfl⟩ := List.length_eq_one_iff.mp hlength
  obtain ⟨l', hl', hlength'⟩ := Option.map_eq_some_iff.mp hnone
  obtain rfl := List.eq_nil_of_length_eq_zero hlength'
  rw [hl, hl'] at h
  cases h with
  | some hmem => exact absurd ((hmem n).mpr (List.mem_singleton_self n)) List.not_mem_nil

end AresaDb.Query
