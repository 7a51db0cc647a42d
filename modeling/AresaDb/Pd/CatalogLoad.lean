import AresaDb.Pd.CatalogIds

/-! # Hydrating a catalog

`Catalog.load` rebuilds a catalog from lists of descriptors and nodes, inserting them one after
the other.  When the lists hold what a routed catalog `c` holds, in whatever order, the result has
the ranges, the nodes and the routing of `c` (`load_findRangeForKey`); when the indexes of `c` are
exact as well, it is `c` itself up to the id counter (`load_eq`), which becomes the larger of the
hint and one past the live ids (`idCeiling`). -/

namespace AresaDb.Pd

open ByteOrder

namespace Catalog

variable {c : Catalog} {l : List RangeDescriptor} {ns : List NodeInfo} {hint : RangeId}

/-- Nodes are filed under their own id. -/
def NodesKeyed (c : Catalog) : Prop :=
  ∀ (id : NodeId) info, c.nodes[id]? = some info → info.nodeId = id

/-- The least counter past the live ids, as opening derives it. -/
def idCeiling (c : Catalog) : RangeId :=
  c.ranges.values.foldl (fun n d => max n (d.rangeId + 1)) 1

/-! ### The fields of a hydrated catalog -/

theorem foldl_loadNode (c : Catalog) (ns : List NodeInfo) :
    ns.foldl loadNode c = { c with nodes := c.nodes.insertAll (·.nodeId) id ns } := by
  induction ns generalizing c with
  | nil => rfl
  | cons info ns ih =>
      rw [List.foldl_cons, ih]
      rfl

theorem foldl_loadRange (c : Catalog) (l : List RangeDescriptor) :
    l.foldl loadRange c =
      { c with
        ranges := c.ranges.insertAll (·.rangeId) id l
        byStart := c.byStart.insertAll (·.startKey) (·.rangeId) l
        byGroup := c.byGroup.insertAll (·.raftGroupId) (·.rangeId) l
        nextRangeId := l.foldl (fun n d => max n (d.rangeId + 1)) c.nextRangeId } := by
  induction l generalizing c with
  | nil => rfl
  | cons d l ih =>
      rw [List.foldl_cons, ih]
      rfl

theorem load_fields (l : List RangeDescriptor) (ns : List NodeInfo) (hint : RangeId) :
    load l ns hint =
      { ranges := OrdMap.insertAll ∅ (·.rangeId) id l
        byStart := OrdMap.insertAll ∅ (·.startKey) (·.rangeId) l
        byGroup := OrdMap.insertAll ∅ (·.raftGroupId) (·.rangeId) l
        nodes := OrdMap.insertAll ∅ (·.nodeId) id ns
        nextRangeId := max (l.foldl (fun n d => max n (d.rangeId + 1)) 1) hint } := by
  unfold load
  rw [foldl_loadRange, foldl_loadNode]
  rfl

/-! ### From lists that hold what a catalog holds -/

theorem load_ranges (h : c.Routed) (hl : OrdMap.Lists l c.ranges) :
    (load l ns hint).ranges = c.ranges := by
  rw [load_fields]
  exact OrdMap.insertAll_lists hl h.keyed

theorem load_nodes (h : c.NodesKeyed) (hns : OrdMap.Lists ns c.nodes) :
    (load l ns hint).nodes = c.nodes := by
  rw [load_fields]
  exact OrdMap.insertAll_lists hns h

/-- An index rebuilt from the rows is exact when the column has no value twice. -/
theorem isIndex_insertAll {κ : Type} [LinearOrder κ] {f : RangeDescriptor → κ} (h : c.Routed)
    (hl : OrdMap.Lists l c.ranges)
    (hf : ∀ (i j : RangeId) d e, c.ranges[i]? = some d → c.ranges[j]? = some e →
        f d = f e → i = j) :
    OrdMap.IsIndex (OrdMap.insertAll ∅ f (·.rangeId) l) c.ranges f := by
  have hagree : ∀ x ∈ l, ∀ y ∈ l, f x = f y → x.rangeId = y.rangeId := by
    intro x hx y hy hxy
    obtain ⟨i, hi⟩ := (hl x).mp hx
    obtain ⟨j, hj⟩ := (hl y).mp hy
    rw [h.keyed i x hi, h.keyed j y hj]
    exact hf i j x y hi hj hxy
  intro k i
  rw [OrdMap.get_insertAll_iff _ _ _ hagree]
  constructor
  · rintro ⟨x, hx, hxk, hxi⟩
    obtain ⟨j, hj⟩ := (hl x).mp hx
    rw [h.keyed j x hj] at hxi
    exact ⟨x, hxi ▸ hj, hxk⟩
  · rintro ⟨d, hd, hk⟩
    exact ⟨d, (hl d).mpr ⟨i, hd⟩, hk, h.keyed i d hd⟩

theorem isIndex_ext {κ : Type} [LinearOrder κ] {idx idx' : OrdMap κ RangeId}
    {f : RangeDescriptor → κ} (h : OrdMap.IsIndex idx c.ranges f)
    (h' : OrdMap.IsIndex idx' c.ranges f) : idx = idx' := by
  apply OrdMap.ext
  intro k
  apply Option.ext
  intro i
  rw [h k i, h' k i]

/-! ### Routing -/

theorem load_startExact (h : c.Routed) (hl : OrdMap.Lists l c.ranges) :
    (load l ns hint).StartExact := by
  unfold StartExact
  rw [load_ranges h hl, load_fields]
  refine isIndex_insertAll h hl ?_
  intro i j d e hd he hs
  exact h.tiled.lo_injective (tiling_eq_some hd) (tiling_eq_some he) hs

/-- An exact start-key index over a tiling routes. -/
theorem StartExact.routed (hx : c.StartExact)
    (hkeyed : ∀ (id : RangeId) d, c.ranges[id]? = some d → d.rangeId = id) (ht : c.tiling.Valid) :
    c.Routed where
  keyed := hkeyed
  tiled := ht
  indexed := fun id d hd => (hx d.startKey id).mpr ⟨d, hd, rfl⟩
  outside := by
    intro s i hs id d hd hmem
    obtain ⟨e, he, hes⟩ := (hx s i).mp hs
    have hproper := ht.proper i e.span (tiling_eq_some he)
    have hself : s ∈ e.span := hes ▸ hproper.lo_mem
    have hij := ht.unique i id s (owns_iff.mpr ⟨e, he, hself⟩) (owns_iff.mpr ⟨d, hd, hmem⟩)
    rw [hij, hd] at he
    rw [Option.some.inj he]
    exact hes

theorem load_routed (h : c.Routed) (hl : OrdMap.Lists l c.ranges) : (load l ns hint).Routed := by
  have hranges : (load l ns hint).ranges = c.ranges := load_ranges h hl
  refine (load_startExact h hl).routed ?_ ?_
  · rw [hranges]
    exact h.keyed
  · unfold tiling
    rw [hranges]
    exact h.tiled

/-- **Routing survives hydration**: every key is routed as before. -/
theorem load_findRangeForKey (h : c.Routed) (hl : OrdMap.Lists l c.ranges) (k : Bytes) :
    (load l ns hint).findRangeForKey k = c.findRangeForKey k := by
  apply Option.ext
  intro d
  rw [(load_routed h hl).findRangeForKey_eq_some_iff,
    h.findRangeForKey_eq_some_iff, load_ranges h hl]

/-! ### The whole catalog -/

theorem foldl_max_le_iff {α : Type} {f : α → RangeId} {l : List α} {a b : RangeId} :
    l.foldl (fun n x => max n (f x)) a ≤ b ↔ a ≤ b ∧ ∀ x ∈ l, f x ≤ b := by
  induction l generalizing a with
  | nil => simp
  | cons x l ih =>
      rw [List.foldl_cons, ih, max_le_iff]
      simp only [List.mem_cons, forall_eq_or_imp, and_assoc]

/-- A running maximum does not depend on the order. -/
theorem foldl_max_congr {α : Type} (f : α → RangeId) {l l' : List α} (a : RangeId)
    (h : ∀ x, x ∈ l ↔ x ∈ l') :
    l.foldl (fun n x => max n (f x)) a = l'.foldl (fun n x => max n (f x)) a := by
  have hle : ∀ l₁ l₂ : List α, (∀ x, x ∈ l₁ → x ∈ l₂) →
      l₁.foldl (fun n x => max n (f x)) a ≤ l₂.foldl (fun n x => max n (f x)) a := by
    intro l₁ l₂ hsub
    obtain ⟨ha, hall⟩ := foldl_max_le_iff.mp (le_refl (l₂.foldl (fun n x => max n (f x)) a))
    exact foldl_max_le_iff.mpr ⟨ha, fun x hx => hall x (hsub x hx)⟩
  exact le_antisymm (hle l l' fun x => (h x).mp) (hle l' l fun x => (h x).mpr)

theorem idCeiling_eq (hl : OrdMap.Lists l c.ranges) :
    l.foldl (fun n d => max n (d.rangeId + 1)) 1 = c.idCeiling := by
  refine foldl_max_congr (fun d : RangeDescriptor => d.rangeId + 1) 1 ?_
  intro d
  rw [hl d, OrdMap.mem_values]

/-- Without overflow the counter is past every live id. -/
theorem Sound.idCeiling_le (h : c.Sound) : c.idCeiling ≤ c.nextRangeId := by
  unfold idCeiling
  rw [foldl_max_le_iff]
  refine ⟨h.counter, ?_⟩
  intro d hd
  obtain ⟨id, hid⟩ := (OrdMap.mem_values _ _).mp hd
  rw [h.routed.keyed id d hid]
  exact add_one_le_of_lt (h.allocated id d hid)

/-- **Hydration gives the catalog back**, up to the id counter. -/
theorem load_eq (h : c.Routed) (hx : c.StartExact) (hg : c.GroupExact) (hn : c.NodesKeyed)
    (hl : OrdMap.Lists l c.ranges) (hns : OrdMap.Lists ns c.nodes) :
    load l ns hint = { c with nextRangeId := max c.idCeiling hint } := by
  have hstart := isIndex_insertAll h hl fun _ _ _ _ hd he hf => OrdMap.IsIndex.injective hx hd he hf
  have hgroup := isIndex_insertAll h hl fun _ _ _ _ hd he hf => OrdMap.IsIndex.injective hg hd he hf
  rw [load_fields, OrdMap.insertAll_lists hl h.keyed, OrdMap.insertAll_lists hns hn,
    isIndex_ext hstart hx,
    isIndex_ext hgroup hg, idCeiling_eq hl]

/-! ### Nodes along runs -/

theorem nodesKeyed_new : NodesKeyed new := by
  simp [NodesKeyed, new]

theorem registeredInfo_nodeId (c : Catalog) (info : NodeInfo) :
    (c.registeredInfo info).nodeId = info.nodeId := by
  unfold registeredInfo
  cases c.nodes[info.nodeId]? with
  | none => rfl
  | some existing => rfl

theorem NodesKeyed.withNode (h : c.NodesKeyed) {id : NodeId} {info : NodeInfo}
    (hid : info.nodeId = id) : (c.withNode id info).NodesKeyed := by
  intro i x hx
  have hx' : (c.nodes.insert id info)[i]? = some x := hx
  rw [OrdMap.get_insert] at hx'
  split_ifs at hx' with hi
  · rw [← Option.some.inj hx', hid, hi]
  · exact h i x hx'

theorem NodesKeyed.step (h : c.NodesKeyed) (hr : c.Routed) (cmd : PdCommand) :
    (c.step cmd).NodesKeyed := by
  rcases hr.step_cases cmd with ⟨_, resp, _, he⟩ | ⟨_, hc⟩
  · generalize c.step cmd = c' at he
    cases he with
    | register info => exact h.withNode (registeredInfo_nodeId c info)
    | heartbeat id seen info hinfo => exact h.withNode (h id info hinfo)
    | create desc hspan hid hgroup hfree => exact h
    | split id key parent hparent hlo hhi => exact h
    | merge left right l r hl hr hadj hend hrep hne => exact h
    | membership id replicas epoch d hd hepoch => exact h
    | lease id lease d hd => exact h
  · rw [hc]
    exact h

theorem nodesKeyed_after (cmds : List PdCommand) : (after cmds).NodesKeyed := by
  have hstep : ∀ (c : Catalog) (cmd : PdCommand), c.Routed ∧ c.NodesKeyed →
      (c.step cmd).Routed ∧ (c.step cmd).NodesKeyed :=
    fun _ cmd h => ⟨h.1.step cmd, h.2.step h.1 cmd⟩
  exact (Run.invariant hstep ⟨routed_new, nodesKeyed_new⟩ cmds).2

end Catalog

end AresaDb.Pd
