import AresaDb.Pd.Catalog

/-! # What one command can do

`Effect c cmd resp c'` lists, constructor by constructor, the accepted commands: what was checked,
what is answered and which catalog results.  `Failure` does the same for the others: a rejection
leaves the catalog as it was, and there are two places where a command can panic.  `apply_outcome`
says that every command has one of the two outcomes; the invariants of the catalog are proved from
it, never by unfolding a mutator. -/

namespace AresaDb.Pd

open ByteOrder

namespace Catalog

/-- Overwrite the descriptor stored under an id. -/
def withRange (c : Catalog) (id : RangeId) (d : RangeDescriptor) : Catalog :=
  { c with ranges := c.ranges.insert id d }

/-- Overwrite the node stored under an id. -/
def withNode (c : Catalog) (id : NodeId) (info : NodeInfo) : Catalog :=
  { c with nodes := c.nodes.insert id info }

/-- The catalog after an accepted split. -/
def splitInto (c : Catalog) (id : RangeId) (parent : RangeDescriptor) (key : Bytes) : Catalog :=
  { c with
    nextRangeId := c.nextRangeId + 1
    ranges := (c.ranges.insert id (splitLhs parent key)).insert c.nextRangeId
      (c.splitRhs parent key)
    byStart := c.byStart.insert key c.nextRangeId
    byGroup := c.byGroup.insert c.nextRangeId c.nextRangeId }

/-- The left descriptor after an accepted merge. -/
def mergedLeft (l r : RangeDescriptor) : RangeDescriptor :=
  { l with endKey := r.endKey, generation := max l.generation r.generation + 1, lease := none }

/-- The catalog after an accepted merge. -/
def mergeInto (c : Catalog) (left right : RangeId) (l r : RangeDescriptor) : Catalog :=
  { c with
    byStart := c.byStart.erase r.startKey
    byGroup := c.byGroup.erase r.raftGroupId
    ranges := (c.ranges.erase right).insert left (mergedLeft l r) }

/-! ### Effects -/

/-- The accepted commands, with what they checked, answer and leave behind. -/
inductive Effect (c : Catalog) : PdCommand → PdResponse → Catalog → Prop
  | register (info : NodeInfo) :
      Effect c (.registerNode info) .ok (c.withNode info.nodeId (c.registeredInfo info))
  | heartbeat (id : NodeId) (seen : UInt64) (info : NodeInfo) (hinfo : c.nodes[id]? = some info) :
      Effect c (.heartbeatNode id seen) .ok
        (c.withNode id { info with lastHeartbeatMillis := max seen info.lastHeartbeatMillis })
  | create (desc : RangeDescriptor) (hspan : desc.span.Proper)
      (hid : c.ranges[desc.rangeId]? = none)
      (hgroup : ∀ owner, c.byGroup[desc.raftGroupId]? = some owner → owner = desc.rangeId)
      (hfree : c.findOverlap desc.startKey desc.endKey = .ok none) :
      Effect c (.createRange desc) (.range desc) (c.loadRange desc)
  | split (id : RangeId) (key : Bytes) (parent : RangeDescriptor)
      (hparent : c.ranges[id]? = some parent) (hlo : parent.startKey < key)
      (hhi : (key : WithTop Bytes) < parent.span.hi) :
      Effect c (.splitRange id key) (.range (c.splitRhs parent key)) (c.splitInto id parent key)
  | merge (left right : RangeId) (l r : RangeDescriptor) (hl : c.ranges[left]? = some l)
      (hr : c.ranges[right]? = some r) (hadj : l.endKey = r.startKey) (hend : l.endKey ≠ [])
      (hrep : replicaSetsEqual l.replicas r.replicas = true) (hne : left ≠ right) :
      Effect c (.mergeRanges left right) .ok (c.mergeInto left right l r)
  | membership (id : RangeId) (replicas : List ReplicaPlacement) (epoch : UInt64)
      (d : RangeDescriptor) (hd : c.ranges[id]? = some d) (hepoch : d.epoch < epoch) :
      Effect c (.updateMembership id replicas epoch) .ok
        (c.withRange id { d with replicas := replicas, epoch := epoch })
  | lease (id : RangeId) (lease : Option LeaseInfo) (d : RangeDescriptor)
      (hd : c.ranges[id]? = some d) :
      Effect c (.updateLease id lease) .ok (c.withRange id { d with lease := lease })

/-- How a command may fall short: a rejection that changes nothing, the panic of a creation on a
start-key entry that names no range, or the panic of a merge of a range with itself. -/
inductive Failure (c : Catalog) : PdCommand → Fault → Catalog → Prop
  | reject (cmd : PdCommand) (e : CatalogError) : Failure c cmd (.reject e) c
  | danglingIndex (desc : RangeDescriptor) (s : Bytes) (id : RangeId)
      (hindex : c.byStart[s]? = some id) (hid : c.ranges[id]? = none) :
      Failure c (.createRange desc) .panic c
  | selfMerge (id : RangeId) (d : RangeDescriptor) (hd : c.ranges[id]? = some d)
      (hself : d.endKey = d.startKey) (hend : d.endKey ≠ []) (c' : Catalog) :
      Failure c (.mergeRanges id id) .panic c'

/-- A result of `apply` is one of the listed effects or failures. -/
def Outcome (c : Catalog) (cmd : PdCommand) (out : Except Fault PdResponse × Catalog) : Prop :=
  (∃ resp, out.1 = .ok resp ∧ Effect c cmd resp out.2) ∨
    ∃ f, out.1 = .error f ∧ Failure c cmd f out.2

theorem Effect.outcome {c c' : Catalog} {cmd : PdCommand} {resp : PdResponse}
    (h : Effect c cmd resp c') : Outcome c cmd (.ok resp, c') := Or.inl ⟨resp, rfl, h⟩

theorem Failure.outcome {c c' : Catalog} {cmd : PdCommand} {f : Fault}
    (h : Failure c cmd f c') : Outcome c cmd (.error f, c') := Or.inr ⟨f, rfl, h⟩

theorem outcome_reject (c : Catalog) (cmd : PdCommand) (e : CatalogError) :
    Outcome c cmd (.error (.reject e), c) := (Failure.reject cmd e).outcome

/-! ### One lemma per mutator -/

theorem heartbeatNode_outcome (c : Catalog) (id : NodeId) (seen : UInt64) :
    Outcome c (.heartbeatNode id seen) (respond (c.heartbeatNode id seen) fun _ => .ok) := by
  unfold heartbeatNode
  cases hn : c.nodes[id]? with
  | none => exact outcome_reject _ _ _
  | some info => exact (Effect.heartbeat id seen info hn).outcome

theorem findOverlap_cases (c : Catalog) (s e : Bytes) :
    (∃ o, c.findOverlap s e = .ok o) ∨
      c.findOverlap s e = .error .panic ∧
        ∃ (k : Bytes) (id : RangeId), c.byStart[k]? = some id ∧ c.ranges[id]? = none := by
  unfold findOverlap
  cases hp : c.byStart.lastLE? s with
  | none => exact Or.inl ⟨_, rfl⟩
  | some p =>
      obtain ⟨k, id⟩ := p
      have hk := ((OrdMap.lastLE?_eq_some_iff _ _ _ _).mp hp).1
      cases hr : c.ranges[id]? with
      | none => exact Or.inr ⟨by simp [hr], k, id, hk, hr⟩
      | some pred =>
          left
          simp only [hr]
          split_ifs
          · exact ⟨_, rfl⟩
          · exact ⟨_, rfl⟩

theorem createRange_outcome (c : Catalog) (desc : RangeDescriptor) :
    Outcome c (.createRange desc) (respond (c.createRange desc) .range) := by
  unfold createRange
  by_cases hspan : desc.hasNonEmptySpan = true
  · simp only [hspan, Bool.not_true, Bool.false_eq_true, if_false]
    by_cases hid : c.ranges.contains desc.rangeId = true
    · rw [if_pos hid]
      exact outcome_reject _ _ _
    · rw [if_neg hid]
      have hid' : c.ranges[desc.rangeId]? = none := by
        rw [Std.ExtTreeMap.contains_eq_isSome_getElem?] at hid
        exact Option.not_isSome_iff_eq_none.mp hid
      cases hg : c.byGroup[desc.raftGroupId]?.filter (fun owner => owner != desc.rangeId) with
      | some owner => exact outcome_reject _ _ _
      | none =>
          have hgroup : ∀ owner, c.byGroup[desc.raftGroupId]? = some owner →
              owner = desc.rangeId := by
            intro owner ho
            rw [ho] at hg
            simpa using hg
          rcases findOverlap_cases c desc.startKey desc.endKey with ⟨o, ho⟩ | ⟨ho, k, id, hk, hr⟩
          · cases o with
            | some conflict =>
                simp only [ho]
                exact outcome_reject _ _ _
            | none =>
                simp only [ho]
                have hspan' := RangeDescriptor.hasNonEmptySpan_iff.mp hspan
                exact (Effect.create desc hspan' hid' hgroup ho).outcome
          · simp only [ho]
            exact (Failure.danglingIndex desc k id hk hr).outcome
  · simp only [hspan, Bool.not_false, if_true]
    exact outcome_reject _ _ _

theorem splitRange_outcome (c : Catalog) (id : RangeId) (key : Bytes) :
    Outcome c (.splitRange id key) (respond (c.splitRange id key) .range) := by
  unfold splitRange
  cases hp : c.ranges[id]? with
  | none => exact outcome_reject _ _ _
  | some parent =>
      dsimp only
      split_ifs with hb
      · exact outcome_reject _ _ _
      · simp only [Bool.not_eq_true', Bool.not_eq_false, Bool.and_eq_true, decide_eq_true_eq,
          Bool.or_eq_true, List.isEmpty_iff] at hb
        refine (Effect.split id key parent hp hb.1 ?_).outcome
        rw [RangeDescriptor.span_hi, RangeDescriptor.lt_endBound_iff]
        exact hb.2

theorem mergeRanges_outcome (c : Catalog) (left right : RangeId) :
    Outcome c (.mergeRanges left right) (respond (c.mergeRanges left right) fun _ => .ok) := by
  unfold mergeRanges
  cases hl : c.ranges[left]? with
  | none => exact outcome_reject _ _ _
  | some l =>
      cases hr : c.ranges[right]? with
      | none => exact outcome_reject _ _ _
      | some r =>
          dsimp only
          split_ifs with hadj hrep
          · exact outcome_reject _ _ _
          · exact outcome_reject _ _ _
          · push Not at hadj
            rw [Bool.not_eq_true', Bool.not_eq_false] at hrep
            by_cases hne : right = left
            · subst hne
              rw [hl] at hr
              obtain rfl := Option.some.inj hr
              simp only [OrdMap.get_erase_self]
              exact (Failure.selfMerge right l hl hadj.1 hadj.2 _).outcome
            · simp only [OrdMap.get_erase_of_ne _ hne, hl]
              have hne' : left ≠ right := fun he => hne he.symm
              exact (Effect.merge left right l r hl hr hadj.1 hadj.2 hrep hne').outcome

theorem updateMembership_outcome (c : Catalog) (id : RangeId) (replicas : List ReplicaPlacement)
    (epoch : UInt64) :
    Outcome c (.updateMembership id replicas epoch)
      (respond (c.updateMembership id replicas epoch) fun _ => .ok) := by
  unfold updateMembership
  cases hd : c.ranges[id]? with
  | none => exact outcome_reject _ _ _
  | some d =>
      dsimp only
      split_ifs with he
      · exact outcome_reject _ _ _
      · exact (Effect.membership id replicas epoch d hd (not_le.mp he)).outcome

theorem updateLease_outcome (c : Catalog) (id : RangeId) (lease : Option LeaseInfo) :
    Outcome c (.updateLease id lease) (respond (c.updateLease id lease) fun _ => .ok) := by
  unfold updateLease
  cases hd : c.ranges[id]? with
  | none => exact outcome_reject _ _ _
  | some d => exact (Effect.lease id lease d hd).outcome

/-- **The effect of a command**: it is accepted with a listed effect, or it fails in a listed
way. -/
theorem apply_outcome (c : Catalog) (cmd : PdCommand) : Outcome c cmd (c.apply cmd) := by
  cases cmd with
  | registerNode info => exact (Effect.register info).outcome
  | heartbeatNode id seen => exact heartbeatNode_outcome c id seen
  | createRange desc => exact createRange_outcome c desc
  | splitRange id key => exact splitRange_outcome c id key
  | mergeRanges left right => exact mergeRanges_outcome c left right
  | updateMembership id replicas epoch => exact updateMembership_outcome c id replicas epoch
  | updateLease id lease => exact updateLease_outcome c id lease

end Catalog

end AresaDb.Pd
