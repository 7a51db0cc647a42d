import AresaDb.Lib.StableSort
import AresaDb.Query.IndexPlans

/-! # ORDER BY, LIMIT and OFFSET

The planner makes one stable sort of every key, in the order in which the keys are written, and cuts
a page off only when there is a LIMIT (`query/planner.rs`).  So the last key counts most
(`sortAll_eq`), and an OFFSET alone does nothing.

The place of a node by the keys from the last to the first is the number of nodes before it.  A
SELECT shows the page that was asked for when every node whose place by these keys is on the page
has it by the keys as they are written, too (`PlacesAgree`, `order_by_iff`). -/

namespace AresaDb.Query

open AresaDb.Store StableSort

/-! ### What is asked for -/

/-- Rows compared by their keys, the first of them most significant. -/
def lexCompare (orders : List OrderBy) (a b : Node) : Ordering :=
  orders.foldr (fun order rest =>
    (compareNodes order.column order.descending a b).then rest) .eq

/-- The page of the rows in some arrangement that is sorted by the keys as they are written. -/
def IsPage (q : ParsedQuery) (matching rows : List Node) : Prop :=
  ∃ sorted : List Node, sorted.Perm matching ∧
    sorted.Pairwise (fun a b => lexCompare q.orderBy a b ≠ .gt) ∧
    rows = page (q.offset.getD 0) q.limit sorted

/-- The nodes of the type that satisfy the conditions. -/
def matchingNodes (R : RegexEngine) (nodes : OrdMap NodeId Node) (s : TieredStorage)
    (q : ParsedQuery) : List Node :=
  (nodesOfType nodes s q.target).filter fun n => matchesConditions R n q.conditions

/-! ### Values of one kind -/

/-- The kinds of values that can be ordered. -/
inductive Kind where
  | int
  | float
  | string
  | bool

/-- A value of the kind, or null; a NaN has no place in the order. -/
def Kind.Has : Kind → Value → Prop
  | .int, .int _ | .string, .string _ | .bool, .bool _ => True
  | .float, .float f => f.isNaN = false
  | _, .null => True
  | _, _ => False

/-- The place of a value among those of its kind, null first. -/
abbrev Key := WithBot (ℤ ⊕ₗ String)

/-- The place of a number or a truth value. -/
def numberKey (i : ℤ) : Key := ((toLex ∘ Sum.inl) i : ℤ ⊕ₗ String)

def textKey (s : String) : Key := ((toLex ∘ Sum.inr) s : ℤ ⊕ₗ String)

def keyOf : Value → Key
  | .int i => numberKey i
  | .float f => numberKey f.rank
  | .bool b => numberKey (if b then 1 else 0)
  | .string s => textKey s
  | _ => ⊥

theorem numberKey_strictMono : StrictMono numberKey :=
  WithBot.coe_strictMono.comp Sum.Lex.inl_strictMono

theorem cmp_numberKey (i j : ℤ) : cmp (numberKey i) (numberKey j) = cmp i j :=
  numberKey_strictMono.cmp_map_eq i j

theorem cmp_textKey (s t : String) : cmp (textKey s) (textKey t) = cmp s t :=
  (WithBot.coe_strictMono.comp Sum.Lex.inr_strictMono).cmp_map_eq s t

theorem orderOf_eq_cmp {f g : Binary64} (hf : f.isNaN = false) (hg : g.isNaN = false) :
    orderOf (f.lt g) (g.lt f) = cmp f.rank g.rank := by
  unfold orderOf Binary64.lt cmp cmpUsing
  simp [hf, hg]

/-- Values of one kind are compared as their places are. -/
theorem compareValues_eq {kind : Kind} {a b : Value} (ha : kind.Has a) (hb : kind.Has b) :
    compareValues a b = cmp (keyOf a) (keyOf b) := by
  have hnull : ∀ v : ℤ ⊕ₗ String, cmp (⊥ : Key) v = .lt :=
    fun v => (cmp_eq_lt_iff _ _).mpr (WithBot.bot_lt_coe v)
  have hnull' : ∀ v : ℤ ⊕ₗ String, cmp (v : Key) ⊥ = .gt :=
    fun v => (cmp_eq_gt_iff _ _).mpr (WithBot.bot_lt_coe v)
  cases a with
  | null =>
      cases b with
      | null => exact (cmp_self_eq_eq _).symm
      | int _ | float _ | string _ | bool _ => exact (hnull _).symm
      | bytes _ | vector _ | array _ | object _ => cases kind <;> exact hb.elim
  | int i =>
      cases b with
      | null => exact (hnull' _).symm
      | int j => exact ((cmp_numberKey i j).trans (cmp_eq_compare i j)).symm
      | _ => cases kind <;> first | exact ha.elim | exact hb.elim
  | float f =>
      cases b with
      | null => exact (hnull' _).symm
      | float g =>
          cases kind with
          | float => exact (orderOf_eq_cmp ha hb).trans (cmp_numberKey _ _).symm
          | _ => exact ha.elim
      | _ => cases kind <;> first | exact ha.elim | exact hb.elim
  | string s =>
      cases b with
      | null => exact (hnull' _).symm
      | string t => exact ((cmp_textKey s t).trans (cmp_eq_compare s t)).symm
      | _ => cases kind <;> first | exact ha.elim | exact hb.elim
  | bool x =>
      cases b with
      | null => exact (hnull' _).symm
      | bool y =>
          refine Eq.trans ?_ (cmp_numberKey _ _).symm
          cases x <;> cases y <;> decide
      | _ => cases kind <;> first | exact ha.elim | exact hb.elim
  | bytes _ | vector _ | array _ | object _ => cases kind <;> exact ha.elim

/-! ### Keys of nodes -/

/-- The place of a node among others by one key; the order is turned around for a descending key. -/
def sortKey (order : OrderBy) (n : Node) : Key ⊕ₗ Keyᵒᵈ :=
  let key := keyOf (n.properties[order.column]?.getD .null)
  if order.descending then toLex (.inr (OrderDual.toDual key)) else toLex (.inl key)

/-- The places of a node by all keys. -/
def keyVector (orders : List OrderBy) (n : Node) : List (Key ⊕ₗ Keyᵒᵈ) :=
  orders.map fun order => sortKey order n

/-- The nodes have values of one kind, or none, by which to order them. -/
def OfOneKind (order : OrderBy) (l : List Node) : Prop :=
  ∃ kind : Kind, ∀ n ∈ l, kind.Has (n.properties[order.column]?.getD .null)

theorem compareNodes_eq {order : OrderBy} {l : List Node} (h : OfOneKind order l) {a b : Node}
    (ha : a ∈ l) (hb : b ∈ l) :
    compareNodes order.column order.descending a b = cmp (sortKey order a) (sortKey order b) := by
  obtain ⟨kind, hkind⟩ := h
  unfold compareNodes sortKey
  rw [compareValues_eq (hkind a ha) (hkind b hb)]
  dsimp only
  split_ifs
  · rw [cmp_swap, ← cmp_toDual]
    exact (Sum.Lex.inr_strictMono.cmp_map_eq _ _).symm
  · exact (Sum.Lex.inl_strictMono.cmp_map_eq _ _).symm

theorem then_ne_gt {o o' : Ordering} : o.then o' ≠ .gt ↔ o = .lt ∨ o = .eq ∧ o' ≠ .gt := by
  cases o <;> simp [Ordering.then]

theorem cons_le_cons {α : Type} [LinearOrder α] {x y : α} {xs ys : List α} :
    x :: xs ≤ y :: ys ↔ x < y ∨ x = y ∧ xs ≤ ys := by
  have hlt : y :: ys < x :: xs ↔ y < x ∨ y = x ∧ ys < xs := List.cons_lt_cons_iff
  rw [← not_lt, ← not_lt, hlt]
  obtain h | rfl | h := lt_trichotomy x y
  · simp [h, h.not_gt, h.ne']
  · simp
  · simp [h, h.not_gt, h.ne']

variable {orders : List OrderBy} {l : List Node} {a b : Node}

/-- The lexicographic comparison is that of the places by all keys. -/
theorem lexCompare_ne_gt (h : ∀ order ∈ orders, OfOneKind order l) (ha : a ∈ l) (hb : b ∈ l) :
    lexCompare orders a b ≠ .gt ↔ keyVector orders a ≤ keyVector orders b := by
  induction orders with
  | nil => exact iff_of_true nofun le_rfl
  | cons order orders ih =>
      obtain ⟨horder, horders⟩ := List.forall_mem_cons.mp h
      calc lexCompare (order :: orders) a b ≠ .gt
          ↔ (compareNodes order.column order.descending a b).then (lexCompare orders a b) ≠ .gt :=
            Iff.rfl
        _ ↔ sortKey order a < sortKey order b ∨ sortKey order a = sortKey order b ∧
              keyVector orders a ≤ keyVector orders b := by
            rw [then_ne_gt, compareNodes_eq horder ha hb, cmp_eq_lt_iff, cmp_eq_eq_iff, ih horders]
        _ ↔ keyVector (order :: orders) a ≤ keyVector (order :: orders) b := cons_le_cons.symm

/-! ### Sorting in rounds -/

theorem OfOneKind.mono {order : OrderBy} {l' : List Node} (h : OfOneKind order l) (hsub : l' ⊆ l) :
    OfOneKind order l' := h.imp fun _ hkind n hn => hkind n (hsub hn)

theorem sortNodes_eq {order : OrderBy} (h : OfOneKind order l) :
    sortNodes order.column order.descending l = sortOn (sortKey order) l := by
  refine mergeSort_congr fun a ha b hb => ?_
  rw [compareNodes_eq h ha hb, decide_eq_decide, ne_eq, cmp_eq_gt_iff, not_lt]

/-- The sorts of a plan are one sort by the keys as they are written from the last to the first. -/
theorem sortAll_eq (hl : l.Nodup) (h : ∀ order ∈ orders, OfOneKind order l) :
    sortAll orders l = sortOn (keyVector orders.reverse) l := by
  induction orders using List.reverseRecOn with
  | nil => exact (sortOn_const (f := keyVector []) l fun _ _ => le_rfl).symm
  | append_singleton orders order ih =>
      have horder := h order (by simp)
      have hbefore := ih fun o ho => h o (List.mem_append_left _ ho)
      have hsub : sortAll orders l ⊆ l := fun n hn => (sortAll_perm orders l).mem_iff.mp hn
      calc sortAll (orders ++ [order]) l
          = sortNodes order.column order.descending (sortAll orders l) := List.foldl_append
        _ = sortOn (sortKey order) (sortOn (keyVector orders.reverse) l) := by
            rw [sortNodes_eq (horder.mono hsub), hbefore]
        _ = sortOn (fun n => toLex (sortKey order n, keyVector orders.reverse n)) l :=
            sortOn_sortOn _ _ hl
        _ = sortOn (keyVector (orders ++ [order]).reverse) l := by
            refine sortOn_congr fun a _ b _ => ?_
            rw [Prod.Lex.toLex_le_toLex, List.reverse_append, List.reverse_singleton]
            exact cons_le_cons.symm

/-! ### The result -/

section

variable {J : Serde} {U : Unicode} {R : RegexEngine} {V : Value → Option Value} {D : Draws}
  {nodes : OrdMap NodeId Node} {s : TieredStorage} {P : QueryPlanner} {q : ParsedQuery}

/-- The OFFSET as far as the plan heeds it. -/
def heededOffset (q : ParsedQuery) : ℕ := if q.limit.isSome then q.offset.getD 0 else 0

/-- The place of a node among those found, by the keys from the last to the first, and by its id
among nodes of the same keys. -/
def foundPlace (q : ParsedQuery) (found : List Node) (a : Node) : ℕ :=
  let key := fun b : Node => toLex (keyVector q.orderBy.reverse b, b.id)
  before key found (key a)

/-- A place of the keys of a node among those that match, by the keys as they are written. -/
def AskedPlace (q : ParsedQuery) (matching : List Node) (a : Node) (i : ℕ) : Prop :=
  before (keyVector q.orderBy) matching (keyVector q.orderBy a) ≤ i ∧
    i < upTo (keyVector q.orderBy) matching (keyVector q.orderBy a)

/-- As many rows as are asked for, and on each row of the page a node that satisfies the conditions
and has this place by the keys as they are written. -/
structure PlacesAgree (R : RegexEngine) (q : ParsedQuery) (found matching : List Node) : Prop where
  filled : min (q.limit.getD found.length) (found.length - heededOffset q) =
    min (q.limit.getD matching.length) (matching.length - q.offset.getD 0)
  placed : ∀ a ∈ found, ∀ i, foundPlace q found a = heededOffset q + i →
    (∀ limit, q.limit = some limit → i < limit) →
      matchesConditions R a q.conditions ∧ AskedPlace q matching a (q.offset.getD 0 + i)

/-- Nodes sorted with the last key first, and cut only when there is a LIMIT. -/
def shownPage (q : ParsedQuery) (found : List Node) : List Node :=
  page (heededOffset q) q.limit (sortOn (keyVector q.orderBy.reverse) found)

/-- The page of the nodes sorted with the first key first. -/
def askedPage (q : ParsedQuery) (matching : List Node) : List Node :=
  page (q.offset.getD 0) q.limit (sortOn (keyVector q.orderBy) matching)

/-- The nodes on the page shown of those found satisfy the conditions, and have place by place the
keys of the page asked for of those that satisfy the conditions. -/
structure PagesAgree (R : RegexEngine) (q : ParsedQuery) (found matching : List Node) : Prop where
  admitted : ∀ n ∈ shownPage q found, matchesConditions R n q.conditions
  keys : (shownPage q found).map (keyVector q.orderBy) =
    (askedPage q matching).map (keyVector q.orderBy)

theorem shownPage_subperm (q : ParsedQuery) (found : List Node) :
    (shownPage q found).Subperm found :=
  (page_sublist _ _ _).subperm.trans (sortOn_perm _ _).subperm

theorem Serves.nodesOfType_sorted (h : Serves J nodes s) (nodeType : String) :
    (nodesOfType nodes s nodeType).Pairwise fun a b => a.id < b.id := by
  unfold nodesOfType
  rw [List.pairwise_filterMap]
  refine (Multimap.get_sorted _ _).imp fun hlt n hn n' hn' => ?_
  rwa [h.coherent.node_id hn, h.coherent.node_id hn']

theorem Serves.nodup_nodesOfType (h : Serves J nodes s) (nodeType : String) :
    (nodesOfType nodes s nodeType).Nodup := (h.nodesOfType_nodup nodeType).of_map

/-- The rows of a SELECT. -/
theorem Serves.selectedNodes_eq_shownPage (h : Serves J nodes s) (hop : q.operation = .select)
    (hkinds : ∀ order ∈ q.orderBy, OfOneKind order (nodesOfType nodes s q.target)) :
    selectedNodes J U R V D s P q =
      if allRead (scannedNodes J nodes s P q) then
        some (shownPage q (foundNodes J R nodes s P q (unindexedConditions P q)))
      else none := by
  have hfound : (foundNodes J R nodes s P q (unindexedConditions P q)).Sublist
      (nodesOfType nodes s q.target) := List.filter_sublist.trans List.filter_sublist
  rw [h.selectedNodes_select hop, arrange, shownPage, heededOffset,
    sortAll_eq ((h.nodup_nodesOfType _).sublist hfound)
      fun order ho => (hkinds order ho).mono hfound.subset]
  cases q.limit with
  | none => simp [page]
  | some limit => rfl

/-- The page shown of some nodes is a page of others exactly when the pages agree. -/
theorem isPage_shownPage_iff {l found : List Node} (hl : l.Nodup) (hfound : found.Sublist l)
    (hkinds : ∀ order ∈ q.orderBy, OfOneKind order l) :
    IsPage q (l.filter fun n => matchesConditions R n q.conditions) (shownPage q found) ↔
      PagesAgree R q found (l.filter fun n => matchesConditions R n q.conditions) := by
  let matching := l.filter fun n => matchesConditions R n q.conditions
  have hmatching : matching.Sublist l := List.filter_sublist
  have hpage := page_iff (keyVector q.orderBy) (hl.sublist hmatching) (q.offset.getD 0) q.limit
    (r := shownPage q found)
  obtain ⟨shown, hperm, hsub⟩ := (shownPage_subperm q found).trans hfound.subperm
  have hsorted : ∀ sorted : List Node, sorted.Perm matching →
      (sorted.Pairwise (fun a b => lexCompare q.orderBy a b ≠ .gt) ↔
        sorted.Pairwise fun a b => keyVector q.orderBy a ≤ keyVector q.orderBy b) :=
    fun sorted hsorted => List.Pairwise.iff_of_mem fun ha hb =>
      lexCompare_ne_gt hkinds (hmatching.subset (hsorted.mem_iff.mp ha))
        (hmatching.subset (hsorted.mem_iff.mp hb))
  constructor
  · rintro ⟨sorted, hmatch, hlex, hrows⟩
    obtain ⟨-, hshown, hkeys⟩ := hpage.mp ⟨sorted, hmatch, (hsorted sorted hmatch).mp hlex, hrows⟩
    exact ⟨fun n hn => (List.mem_filter.mp (hshown hn)).2, hkeys⟩
  · intro hagree
    have hshown : shownPage q found ⊆ matching := fun n hn =>
      List.mem_filter.mpr ⟨hsub.subset (hperm.mem_iff.mpr hn), hagree.admitted n hn⟩
    obtain ⟨sorted, hmatch, hlex, hrows⟩ :=
      hpage.mpr ⟨hperm.nodup_iff.mp (hl.sublist hsub), hshown, hagree.keys⟩
    exact ⟨sorted, hmatch, (hsorted sorted hmatch).mpr hlex, hrows⟩

/-- The pages agree when the places of the nodes do. -/
theorem pagesAgree_iff {l found : List Node} (hl : l.Pairwise fun a b => a.id < b.id)
    (hfound : found.Sublist l) {matching : List Node} :
    PagesAgree R q found matching ↔ PlacesAgree R q found matching := by
  let shown := sortOn (keyVector q.orderBy.reverse) found
  let asked := sortOn (keyVector q.orderBy) matching
  have hshown : shown.Perm found := sortOn_perm _ _
  have hasked : asked.Perm matching := sortOn_perm _ _
  -- The node at a row of the page shown is the one that has its place.
  have hplace : ∀ (a : Node), a ∈ found → ∀ (i : ℕ) (hi : i < shown.length),
      shown[i] = a ↔ foundPlace q found a = i := fun a ha i hi =>
    getElem_sortOn_iff (hl.sublist hfound) ha hi
  have hlengths : (shownPage q found).length = (askedPage q matching).length ↔
      min (q.limit.getD found.length) (found.length - heededOffset q) =
        min (q.limit.getD matching.length) (matching.length - q.offset.getD 0) := by
    rw [shownPage, askedPage, length_page, length_page, hshown.length_eq, hasked.length_eq]
  constructor
  · rintro ⟨hadmitted, hkeys⟩
    have hsame : (shownPage q found).length = (askedPage q matching).length := by
      simpa using congrArg List.length hkeys
    refine ⟨hlengths.mp hsame, fun a ha i hi hlimit => ?_⟩
    have hplaced : foundPlace q found a < shown.length := by
      obtain ⟨j, hj, hja⟩ := List.mem_iff_getElem.mp (hshown.mem_iff.mpr ha)
      rwa [(hplace a ha j hj).mp hja]
    rw [hi] at hplaced
    have hrow : i < (shownPage q found).length := lt_length_page_iff.mpr ⟨hplaced, hlimit⟩
    have hrow' : i < (askedPage q matching).length := hsame ▸ hrow
    have ha' : (shownPage q found)[i] = a :=
      (getElem_page hrow hplaced).trans ((hplace a ha _ hplaced).mpr hi)
    have hplaced' := (lt_length_page_iff.mp hrow').1
    have hkey := List.getElem_of_eq hkeys (i := i) (by rwa [List.length_map])
    rw [List.getElem_map, List.getElem_map, ha'] at hkey
    refine ⟨hadmitted a (ha' ▸ List.getElem_mem hrow), ?_⟩
    refine (getElem_sortOn_key_iff hplaced' _).mp ?_
    rw [hkey]
    exact congrArg _ (getElem_page hrow' hplaced').symm
  · rintro ⟨hfilled, hplaced⟩
    have hsame := hlengths.mpr hfilled
    -- What is known of a row of the page shown.
    have hrow : ∀ (i : ℕ) (hi : i < (shownPage q found).length),
        matchesConditions R (shownPage q found)[i] q.conditions ∧
          AskedPlace q matching (shownPage q found)[i] (q.offset.getD 0 + i) := by
      intro i hi
      obtain ⟨hi', hlimit⟩ := lt_length_page_iff.mp hi
      have ha : (shownPage q found)[i] ∈ found :=
        hshown.mem_iff.mp ((page_sublist _ _ _).mem (List.getElem_mem hi))
      exact hplaced _ ha i ((hplace _ ha _ hi').mp (getElem_page hi hi').symm) hlimit
    refine ⟨fun n hn => ?_, List.ext_getElem (by simpa using hsame) fun i hi hi' => ?_⟩
    · obtain ⟨i, hi, rfl⟩ := List.mem_iff_getElem.mp hn
      exact (hrow i hi).1
    · rw [List.length_map] at hi hi'
      obtain ⟨hplaced', -⟩ := lt_length_page_iff.mp hi'
      rw [List.getElem_map, List.getElem_map]
      refine ((congrArg _ (getElem_page hi' hplaced')).trans ?_).symm
      exact (getElem_sortOn_key_iff hplaced' _).mpr (hrow i hi).2

/-! ### Queries without indexes -/

/-- A planner without indexes finds the matching nodes. -/
theorem foundNodes_new :
    foundNodes J R nodes s .new q (unindexedConditions .new q) = matchingNodes R nodes s q := by
  have hall : scannedNodes J nodes s .new q = nodesOfType nodes s q.target :=
    List.filter_eq_self.mpr fun n _ => lookupAdmits_new n
  rw [foundNodes, matchingNodes, hall, unindexedConditions_new]

theorem matchingNodes_sublist :
    (matchingNodes R nodes s q).Sublist (nodesOfType nodes s q.target) := List.filter_sublist

theorem matches_of_mem_shownPage {n : Node} (hn : n ∈ shownPage q (matchingNodes R nodes s q)) :
    matchesConditions R n q.conditions :=
  (List.mem_filter.mp ((shownPage_subperm q _).subset hn)).2

theorem heededOffset_eq (hlimit : q.limit.isSome ∨ q.offset.getD 0 = 0) :
    heededOffset q = q.offset.getD 0 := by
  unfold heededOffset
  split_ifs with hsome
  · rfl
  · exact (hlimit.resolve_left hsome).symm

/-- With one key at most, and a LIMIT wherever there is an OFFSET, the places agree. -/
theorem Serves.placesAgree_of_one_key (h : Serves J nodes s) (hkeys : q.orderBy.length ≤ 1)
    (hlimit : q.limit.isSome ∨ q.offset.getD 0 = 0) :
    PlacesAgree R q (matchingNodes R nodes s q) (matchingNodes R nodes s q) := by
  refine (pagesAgree_iff (h.nodesOfType_sorted q.target) matchingNodes_sublist).mp
    ⟨fun n hn => matches_of_mem_shownPage hn, ?_⟩
  have hreverse : q.orderBy.reverse = q.orderBy := by
    rcases horders : q.orderBy with _ | ⟨order, _ | ⟨order', rest⟩⟩
    · rfl
    · rfl
    · rw [horders] at hkeys
      simp at hkeys
  unfold shownPage askedPage
  rw [hreverse, heededOffset_eq hlimit]

/-- Without LIMIT and OFFSET the places agree when no two matching nodes are one way around by the
keys read forwards and the other way around by the keys read backwards. -/
theorem Serves.placesAgree_iff_of_whole (h : Serves J nodes s) (hlimit : q.limit = none)
    (hoffset : q.offset.getD 0 = 0) :
    PlacesAgree R q (matchingNodes R nodes s q) (matchingNodes R nodes s q) ↔
      ∀ a ∈ matchingNodes R nodes s q, ∀ b ∈ matchingNodes R nodes s q,
        keyVector q.orderBy.reverse a < keyVector q.orderBy.reverse b →
          keyVector q.orderBy a ≤ keyVector q.orderBy b := by
  rw [← pagesAgree_iff (h.nodesOfType_sorted q.target) matchingNodes_sublist]
  generalize hmatching : matchingNodes R nodes s q = matching
  have hshown : shownPage q matching = sortOn (keyVector q.orderBy.reverse) matching := by
    rw [shownPage, heededOffset_eq (.inr hoffset), hlimit, hoffset, page, List.drop_zero,
      Option.getD_none, List.take_length]
  have hasked : askedPage q matching = sortOn (keyVector q.orderBy) matching := by
    rw [askedPage, hlimit, hoffset, page, List.drop_zero, Option.getD_none, List.take_length]
  have hperm := sortOn_perm (keyVector q.orderBy.reverse) matching
  have hbackwards := sortOn_sorted (keyVector q.orderBy.reverse) matching
  constructor
  · rintro ⟨-, hkeys⟩ a ha b hb hlt
    rw [hshown, hasked] at hkeys
    have hsorted : (sortOn (keyVector q.orderBy.reverse) matching).Pairwise
        fun a b => keyVector q.orderBy a ≤ keyVector q.orderBy b := by
      rw [← List.pairwise_map, hkeys, List.pairwise_map]
      exact sortOn_sorted _ _
    have hne : a ≠ b := fun heq => (heq ▸ hlt).false
    obtain hpair | hpair := pair_sublist_or (hperm.mem_iff.mpr ha) (hperm.mem_iff.mpr hb) hne
    · exact List.pairwise_iff_forall_sublist.mp hsorted hpair
    · exact absurd (List.pairwise_iff_forall_sublist.mp hbackwards hpair) hlt.not_ge
  · intro h
    subst hmatching
    refine ⟨fun n hn => matches_of_mem_shownPage hn, ?_⟩
    rw [hshown, hasked]
    refine map_eq_of_sorted (hperm.trans (sortOn_perm _ _).symm) ?_ (sortOn_sorted _ _)
    refine hbackwards.imp_of_mem fun {a b} ha hb hab => ?_
    obtain hlt | heq := hab.lt_or_eq
    · exact h a (hperm.mem_iff.mp ha) b (hperm.mem_iff.mp hb) hlt
    · -- The keys are the same, read either way.
      have hforwards : keyVector q.orderBy a = keyVector q.orderBy b := by
        simpa [keyVector, List.map_reverse] using heq
      exact hforwards.le

end

/-! ### The result -/

/-- A SELECT whose keys are of one kind each gives the page asked for exactly when the scan can read
its nodes and the places of the nodes agree. -/
theorem order_by_iff {J : Serde} {U : Unicode} {R : RegexEngine} {viaJson : Value → Option Value}
    {D : Draws} {nodes : OrdMap NodeId Node} {s : TieredStorage} {P : QueryPlanner}
    {q : ParsedQuery} (h : Serves J nodes s) (hop : q.operation = .select)
    (hkinds : ∀ order ∈ q.orderBy, OfOneKind order (nodesOfType nodes s q.target)) :
    (∃ rows, selectedNodes J U R viaJson D s P q = some rows ∧
        IsPage q (matchingNodes R nodes s q) rows) ↔
      ¬ ReadFails J nodes s P q ∧
        PlacesAgree R q (foundNodes J R nodes s P q (unindexedConditions P q))
          (matchingNodes R nodes s q) := by
  have hfound : (foundNodes J R nodes s P q (unindexedConditions P q)).Sublist
      (nodesOfType nodes s q.target) := List.filter_sublist.trans List.filter_sublist
  rw [h.selectedNodes_eq_shownPage hop hkinds, h.readFails_iff, Bool.not_eq_false,
    ← pagesAgree_iff (h.nodesOfType_sorted q.target) hfound, matchingNodes,
    ← isPage_shownPage_iff (h.nodup_nodesOfType q.target) hfound hkinds]
  split_ifs with hread
  · simp only [Option.some.injEq, exists_eq_left', hread, true_and]
  · simp only [reduceCtorEq, false_and, exists_false, hread]

/-! ### Two keys -/

/-- A node with two numbers. -/
def pairNode (id : ℕ) (a b : ℤ) : Node :=
  ⟨⟨id⟩, "pair", ((∅ : Props).insert "a" (.int a)).insert "b" (.int b), 0, 0⟩

/-- Two nodes, one with the lesser `a` and one with the lesser `b`. -/
def twoPairs : Tracked :=
  Tracked.reached plainJson asciiUnicode ⟨1000, 0, false⟩ false
    [.insertNode (pairNode 1 1 2), .insertNode (pairNode 2 2 1)]

/-- `SELECT * FROM pair ORDER BY a, b`, with a page -/
def byPair (limit offset : Option ℕ) : ParsedQuery where
  operation := .select
  target := "pair"
  columns := []
  conditions := []
  orderBy := [⟨"a", false⟩, ⟨"b", false⟩]
  limit := limit
  offset := offset
  data := none

theorem eq_pairNode {id : NodeId} {n : Node} (hn : twoPairs.nodes[id]? = some n) :
    n = plainJson.node (pairNode 1 1 2) ∧ id = ⟨1⟩ ∨
      n = plainJson.node (pairNode 2 2 1) ∧ id = ⟨2⟩ := by
  have hnodes : twoPairs.nodes = ((∅ : OrdMap NodeId Node).insert ⟨1⟩
      (plainJson.node (pairNode 1 1 2))).insert ⟨2⟩ (plainJson.node (pairNode 2 2 1)) := rfl
  rw [hnodes, OrdMap.get_insert] at hn
  split_ifs at hn with hid
  · exact .inr ⟨(Option.some.inj hn).symm, hid.symm⟩
  · rw [OrdMap.get_insert] at hn
    split_ifs at hn with hid
    · exact .inl ⟨(Option.some.inj hn).symm, hid.symm⟩
    · simp at hn

theorem serves_twoPairs : Serves plainJson twoPairs.nodes twoPairs.store := by
  have hparses : parses (pairNode 1 1 2).properties = true ∧
      parses (pairNode 2 2 1).properties = true := by decide +kernel
  refine ⟨coherent_run (coherent_new _ _) ⟨hparses.1, hparses.2, trivial⟩,
    fun id n hn nodeType => ?_, fun id n _ t f hreg => ?_⟩
  · have htypes : twoPairs.store.local_.nodeTypeIndex =
        ((Multimap.empty : Multimap String NodeId).insert "pair" ⟨1⟩).insert "pair" ⟨2⟩ := rfl
    rw [htypes, Multimap.mem_insert, Multimap.mem_insert]
    obtain ⟨rfl, rfl⟩ | ⟨rfl, rfl⟩ := eq_pairNode hn
    · simp [pairNode]
    · simp [pairNode]
  · have hnone : twoPairs.store.local_.propertyFields.registry = ∅ := rfl
    exact absurd (by rw [hnone, OrdMap.get_empty]) hreg

theorem ofOneKind_byPair (limit offset : Option ℕ) :
    ∀ order ∈ (byPair limit offset).orderBy, OfOneKind order
      (nodesOfType twoPairs.nodes twoPairs.store (byPair limit offset).target) := by
  intro order ho
  refine ⟨.int, fun n hn => ?_⟩
  have hnode := eq_pairNode (serves_twoPairs.mem_nodesOfType.mp hn).1
  obtain rfl | rfl := (by simpa [byPair] using ho : order = ⟨"a", false⟩ ∨ order = ⟨"b", false⟩)
  all_goals obtain ⟨rfl, -⟩ | ⟨rfl, -⟩ := hnode <;> trivial

/-- The second row by two keys. -/
theorem order_by_iff_sample :
    (Serves plainJson twoPairs.nodes twoPairs.store ∧
      (byPair (some 1) (some 1)).operation = .select ∧
      (byPair (some 1) (some 1)).orderBy.length = 2) ∧
    ((∃ rows, selectedNodes plainJson asciiUnicode ⟨fun _ _ => none⟩ some
          ⟨⟨3⟩, 0, fun _ => 0⟩ twoPairs.store .new (byPair (some 1) (some 1)) = some rows ∧
        IsPage (byPair (some 1) (some 1))
          (matchingNodes ⟨fun _ _ => none⟩ twoPairs.nodes twoPairs.store
            (byPair (some 1) (some 1))) rows) ↔
      ¬ ReadFails plainJson twoPairs.nodes twoPairs.store .new (byPair (some 1) (some 1)) ∧
        PlacesAgree ⟨fun _ _ => none⟩ (byPair (some 1) (some 1))
          (foundNodes plainJson ⟨fun _ _ => none⟩ twoPairs.nodes twoPairs.store .new
            (byPair (some 1) (some 1)) (unindexedConditions .new (byPair (some 1) (some 1))))
          (matchingNodes ⟨fun _ _ => none⟩ twoPairs.nodes twoPairs.store
            (byPair (some 1) (some 1)))) :=
  ⟨⟨serves_twoPairs, rfl, rfl⟩,
    order_by_iff serves_twoPairs rfl (ofOneKind_byPair (some 1) (some 1))⟩

/-- A lesser number in front makes the lesser list of keys. -/
theorem keys_lt {i j : ℤ} (hij : i < j) (rest rest' : List (Key ⊕ₗ Keyᵒᵈ)) :
    (toLex (.inl (numberKey i)) : Key ⊕ₗ Keyᵒᵈ) :: rest < toLex (.inl (numberKey j)) :: rest' :=
  List.cons_lt_cons_iff.mpr (.inl (Sum.Lex.inl_strictMono (numberKey_strictMono hij)))

theorem mem_twoPairs (id : ℕ) (a b : ℤ)
    (hn : twoPairs.nodes[(⟨id⟩ : NodeId)]? = some (plainJson.node (pairNode id a b))) :
    plainJson.node (pairNode id a b) ∈
      matchingNodes ⟨fun _ _ => none⟩ twoPairs.nodes twoPairs.store (byPair none none) :=
  List.mem_filter.mpr ⟨serves_twoPairs.mem_nodesOfType.mpr ⟨hn, rfl⟩, rfl⟩

/-- `ORDER BY a, b` puts the node with the lesser `b` first. -/
theorem order_by_reversed :
    ¬ ∀ (nodes : OrdMap NodeId Node) (s : TieredStorage) (q : ParsedQuery),
      Serves plainJson nodes s → q.operation = .select →
      (∀ order ∈ q.orderBy, OfOneKind order (nodesOfType nodes s q.target)) →
      ∃ rows, selectedNodes plainJson asciiUnicode ⟨fun _ _ => none⟩ some
        ⟨⟨3⟩, 0, fun _ => 0⟩ s .new q = some rows ∧
        IsPage q (matchingNodes ⟨fun _ _ => none⟩ nodes s q) rows := by
  intro h
  obtain ⟨rows, hrows, hpage⟩ := h _ _ (byPair none none) serves_twoPairs rfl
    (ofOneKind_byPair none none)
  rw [serves_twoPairs.selectedNodes_eq_shownPage rfl (ofOneKind_byPair none none),
    foundNodes_new] at hrows
  split_ifs at hrows
  obtain rfl := Option.some.inj hrows
  have hpages := (isPage_shownPage_iff (serves_twoPairs.nodup_nodesOfType _) List.filter_sublist
    (ofOneKind_byPair none none)).mp hpage
  have hagree := (pagesAgree_iff (serves_twoPairs.nodesOfType_sorted _)
    matchingNodes_sublist).mp hpages
  have hforwards := (serves_twoPairs.placesAgree_iff_of_whole rfl rfl).mp hagree
    _ (mem_twoPairs 2 2 1 rfl) _ (mem_twoPairs 1 1 2 rfl) (keys_lt (by decide) _ _)
  exact (keys_lt (by decide) _ _).not_ge hforwards

end AresaDb.Query
