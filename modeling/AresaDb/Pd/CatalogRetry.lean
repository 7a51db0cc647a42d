import AresaDb.Pd.CatalogIds

/-! # Retried commands

A proposal that is retried after it has been applied runs a second time on the catalog it has left
behind.  Each command has its own reason not to act twice: a creation finds its id taken, a split
key is no longer strictly below the end of the parent, the right range of a merge is gone, an epoch
must grow, and the other three write what is there already. -/

namespace AresaDb.Pd

namespace Catalog

variable {c c' : Catalog} {cmd : PdCommand} {resp : PdResponse}

theorem withNode_withNode (c : Catalog) (id : NodeId) (info info' : NodeInfo) :
    (c.withNode id info).withNode id info' = c.withNode id info' := by
  unfold withNode
  rw [OrdMap.insert_insert_self]

theorem withRange_withRange (c : Catalog) (id : RangeId) (d d' : RangeDescriptor) :
    (c.withRange id d).withRange id d' = c.withRange id d' := by
  unfold withRange
  rw [OrdMap.insert_insert_self]

theorem get_withNode_self (c : Catalog) (id : NodeId) (info : NodeInfo) :
    (c.withNode id info).nodes[id]? = some info := OrdMap.get_insert_self _ _ _

/-- The data that is registered does not change when it is registered again. -/
theorem registeredInfo_withNode (c : Catalog) (info : NodeInfo) :
    (c.withNode info.nodeId (c.registeredInfo info)).registeredInfo info =
      c.registeredInfo info := by
  conv_lhs => unfold registeredInfo
  rw [get_withNode_self]
  unfold registeredInfo
  cases c.nodes[info.nodeId]? with
  | none => rfl
  | some existing => rfl

/-- A command that cannot have an effect on the catalog changes nothing. -/
theorem Routed.step_eq_self (h : c.Routed) (hno : ∀ resp c', ¬ Effect c cmd resp c') :
    c.step cmd = c := by
  rcases h.step_cases cmd with ⟨-, resp, -, he⟩ | ⟨-, hc⟩
  · exact absurd he (hno resp _)
  · exact hc

/-- The second run of a command leaves what the first one has left. -/
theorem Effect.step_again (he : Effect c cmd resp c') (h : c.Routed)
    (hfresh : c.ranges[c.nextRangeId]? = none) : c'.step cmd = c' := by
  have h' := he.routed h
  cases he with
  | register info =>
      show (c.withNode _ _).withNode _ _ = _
      rw [registeredInfo_withNode, withNode_withNode]
  | heartbeat id seen info hinfo =>
      have hstep : ((c.withNode id { info with
          lastHeartbeatMillis := max seen info.lastHeartbeatMillis }).heartbeatNode id seen).2 =
          (c.withNode id { info with
            lastHeartbeatMillis := max seen info.lastHeartbeatMillis }).withNode id { info with
            lastHeartbeatMillis := max seen (max seen info.lastHeartbeatMillis) } := by
        unfold heartbeatNode
        rw [get_withNode_self]
        rfl
      refine hstep.trans ?_
      rw [withNode_withNode, ← max_assoc, max_self]
  | create desc hspan hid hgroup hfree =>
      refine h'.step_eq_self fun resp c'' he => ?_
      cases he with
      | create desc hspan hid hgroup hfree =>
          rw [ranges_loadRange, if_pos rfl] at hid
          cases hid
  | split id key parent hparent hlo hhi =>
      refine h'.step_eq_self fun resp c'' he => ?_
      cases he with
      | split id key parent' hparent' hlo' hhi' =>
          have hne : c.nextRangeId ≠ id := by
            intro heq
            rw [heq, hparent] at hfresh
            cases hfresh
          rw [ranges_splitInto, if_neg hne, if_pos rfl] at hparent'
          obtain rfl := Option.some.inj hparent'
          rw [span_splitLhs hlo] at hhi'
          exact absurd hhi' (lt_irrefl _)
  | merge left right l r hl hr hadj hend hrep hne =>
      refine h'.step_eq_self fun resp c'' he => ?_
      cases he with
      | merge left right l' r' hl' hr' hadj' hend' hrep' hne' =>
          rw [ranges_mergeInto, if_neg hne, if_pos rfl] at hr'
          cases hr'
  | membership id replicas epoch d hd hepoch =>
      refine h'.step_eq_self fun resp c'' he => ?_
      cases he with
      | membership id replicas epoch d' hd' hepoch' =>
          rw [ranges_withRange, if_pos rfl] at hd'
          obtain rfl := Option.some.inj hd'
          exact absurd hepoch' (lt_irrefl _)
  | lease id lease d hd =>
      have hstep : ((c.withRange id { d with lease := lease }).updateLease id lease).2 =
          (c.withRange id { d with lease := lease }).withRange id { d with lease := lease } := by
        unfold updateLease
        rw [ranges_withRange, if_pos rfl]
        rfl
      exact hstep.trans (withRange_withRange _ _ _ _)

/-- **Retries**: on every catalog that a run without counter overflow reaches, a command that is
accepted leaves a catalog which the same command does not change. -/
theorem step_step_eq (cmds : List PdCommand) (h : Run.Along step NoOverflow new cmds)
    (cmd : PdCommand) (ha : (after cmds).Accepts cmd) :
    ((after cmds).step cmd).step cmd = (after cmds).step cmd := by
  have hsound := sound_after h
  rcases hsound.routed.step_cases cmd with ⟨-, resp, -, he⟩ | ⟨hno, -⟩
  · exact he.step_again hsound.routed hsound.allocated.fresh
  · exact absurd ha hno

/-- A split that is proposed twice. -/
theorem step_step_eq_split :
    (Run.Along step NoOverflow new [.createRange (.new 1 [] [] [])] ∧
      (after [.createRange (.new 1 [] [] [])]).Accepts (.splitRange 1 [109])) ∧
    ((after [.createRange (.new 1 [] [] [])]).step (.splitRange 1 [109])).step
      (.splitRange 1 [109]) =
      (after [.createRange (.new 1 [] [] [])]).step (.splitRange 1 [109]) := by
  have h : Run.Along step NoOverflow new [.createRange (.new 1 [] [] [])] := by decide +kernel
  have ha : (after [.createRange (.new 1 [] [] [])]).Accepts (.splitRange 1 [109]) := by
    decide +kernel
  exact ⟨⟨h, ha⟩, step_step_eq _ h _ ha⟩

end Catalog

end AresaDb.Pd
