import AresaDb.Distributed.Shard
import AresaDb.Lib.Successor

/-! # Owners on the ring

What `add_node` and `remove_node` of `ConsistentHashRing` do to the owner of a key.  Under a hash
that keeps the virtual nodes apart, the entries of a ring are the hashes of the nodes on it, each
with its node (`Holds`), whatever the calls that led there (`holds_build`).  The owner of a key is
at the successor of its hash, and a successor outlives the entries that go; so a call moves a key to
or from the node it names and no other (`moves_only_what_it_must`). -/

namespace AresaDb.Distributed.ConsistentHashRing

open ByteOrder

/-! ### The names of virtual nodes -/

theorem bytes_loop (b : ByteArray) (i : ℕ) (acc : Bytes) :
    ByteArray.toList.loop b i acc = acc.reverse ++ b.data.toList.drop i := by
  induction i, acc using ByteArray.toList.loop.induct b with
  | case1 i acc hi ih =>
      have hi' : i < b.data.toList.length := hi
      have hget : b.get! i = b.data.toList[i] := getElem!_pos b.data i hi
      rw [ByteArray.toList.loop, if_pos hi, ih, List.drop_eq_getElem_cons hi', hget]
      simp
  | case2 i acc hi =>
      rw [ByteArray.toList.loop, if_neg hi, List.drop_eq_nil_of_le (not_lt.mp hi), List.append_nil]

theorem bytes_injective {s t : String} (h : s.toUTF8.toList = t.toUTF8.toList) : s = t := by
  unfold ByteArray.toList at h
  rw [bytes_loop, bytes_loop] at h
  exact String.toByteArray_inj.mp (ByteArray.ext (Array.toList_inj.mp h))

theorem digits_injective {m n : ℕ} (h : Nat.toDigits 10 m = Nat.toDigits 10 n) : m = n := by
  rw [← Nat.ofDigitChars_ten_toDigits (n := m), h, Nat.ofDigitChars_ten_toDigits]

theorem underscore_notMem_digits (n : ℕ) : '_' ∉ Nat.toDigits 10 n := by
  intro h
  have hdigit : '_'.isDigit = true := Nat.isDigit_of_mem_toDigits (by decide) (by decide) h
  revert hdigit
  decide

/-- The name of a virtual node tells its node and its number. -/
theorem virtualKey_injective : Function.Injective2 virtualKey := by
  intro m n i j h
  have hchars := congrArg String.toList (bytes_injective h)
  simp only [String.toList_append, Nat.toString_eq_repr, Nat.toList_repr,
    List.append_assoc] at hchars
  have htail : Nat.toDigits 10 m ++ '_' :: Nat.toDigits 10 i =
      Nat.toDigits 10 n ++ '_' :: Nat.toDigits 10 j := List.append_cancel_left hchars
  obtain ⟨hnode, -, hnumber⟩ := (List.append_cons_inj_of_notMem (underscore_notMem_digits m)
    (underscore_notMem_digits i)).mp htail
  exact ⟨digits_injective hnode, digits_injective hnumber⟩

/-! ### The entries of a ring -/

variable (xx : Bytes → UInt64)

def removeNode (r : ConsistentHashRing) (nodeId : ℕ) : ConsistentHashRing :=
  { r with
    ring := (List.range r.virtualNodes).foldl
      (fun m i => m.erase (xx (virtualKey nodeId i))) r.ring }

/-- The names of the virtual nodes of some nodes. -/
def labels (virtualNodes : ℕ) (nodes : Set ℕ) : Set Bytes :=
  {label | ∃ n ∈ nodes, ∃ i < virtualNodes, virtualKey n i = label}

/-- The hash of a virtual node of a node. -/
def Hits (virtualNodes nodeId : ℕ) (hash : UInt64) : Prop :=
  ∃ i < virtualNodes, xx (virtualKey nodeId i) = hash

variable {xx} {r : ConsistentHashRing} {virtualNodes : ℕ} {nodes : Set ℕ}

/-- Virtual nodes kept apart, a hash is one node's. -/
theorem Hits.unique (hxx : Set.InjOn xx (labels virtualNodes nodes)) {m n : ℕ} {hash : UInt64}
    (hm : m ∈ nodes) (hn : n ∈ nodes) (h : Hits xx virtualNodes m hash)
    (h' : Hits xx virtualNodes n hash) : m = n := by
  obtain ⟨i, hi, hash_eq⟩ := h
  obtain ⟨j, hj, hash_eq'⟩ := h'
  have hlabel : virtualKey m i = virtualKey n j :=
    hxx ⟨m, hm, i, hi, rfl⟩ ⟨n, hn, j, hj, rfl⟩ (hash_eq.trans hash_eq'.symm)
  exact (virtualKey_injective hlabel).1

open Classical in
theorem get_addNode (n : ℕ) (hash : UInt64) : (r.addNode xx n).ring[hash]? =
    if Hits xx r.virtualNodes n hash then some n else r.ring[hash]? := by
  show (r.ring.insertAll (fun i => xx (virtualKey n i)) (fun _ => n)
    (List.range r.virtualNodes))[hash]? = _
  split_ifs with hhit
  · obtain ⟨i, hi, rfl⟩ := hhit
    exact OrdMap.get_insertAll_of_mem _ _ _ _ (fun _ _ _ _ _ => rfl) i (List.mem_range.mpr hi)
  · refine OrdMap.get_insertAll_of_notMem _ _ _ _ _ fun i hi heq => hhit ⟨i, ?_, heq⟩
    exact List.mem_range.mp hi

open Classical in
theorem get_removeNode (n : ℕ) (hash : UInt64) : (r.removeNode xx n).ring[hash]? =
    if Hits xx r.virtualNodes n hash then none else r.ring[hash]? := by
  have hfold : (r.removeNode xx n).ring =
      r.ring.eraseAll ((List.range r.virtualNodes).map fun i => xx (virtualKey n i)) := by
    rw [OrdMap.eraseAll, List.foldl_map]
    rfl
  rw [hfold, OrdMap.get_eraseAll]
  refine if_congr ?_ rfl rfl
  simp only [List.mem_map, List.mem_range, Hits]

/-- The entries of a ring are the virtual nodes of the nodes on it. -/
structure Holds (xx : Bytes → UInt64) (virtualNodes : ℕ) (on : Finset ℕ)
    (r : ConsistentHashRing) : Prop where
  virtualNodes_eq : r.virtualNodes = virtualNodes
  get_iff : ∀ (hash : UInt64) (n : ℕ),
    r.ring[hash]? = some n ↔ n ∈ on ∧ Hits xx virtualNodes n hash

variable {on : Finset ℕ} {n : ℕ}

theorem holds_new : Holds xx virtualNodes ∅ (.new virtualNodes) := by
  refine ⟨rfl, fun hash m => ?_⟩
  simp [new]

theorem Holds.addNode (hr : Holds xx virtualNodes on r)
    (hxx : Set.InjOn xx (labels virtualNodes nodes)) (hon : ↑on ⊆ nodes) (hn : n ∈ nodes) :
    Holds xx virtualNodes (insert n on) (r.addNode xx n) := by
  refine ⟨hr.virtualNodes_eq, fun hash m => ?_⟩
  rw [get_addNode, hr.virtualNodes_eq, Finset.mem_insert]
  split_ifs with hhit
  · constructor
    · rintro ⟨⟩
      exact ⟨.inl rfl, hhit⟩
    · rintro ⟨rfl | hm, hhit'⟩
      · rfl
      · rw [hhit.unique hxx hn (hon hm) hhit']
  · rw [hr.get_iff]
    refine and_congr_left fun hhit' => ⟨.inr, fun h => h.resolve_left ?_⟩
    rintro rfl
    exact hhit hhit'

theorem Holds.removeNode (hr : Holds xx virtualNodes on r)
    (hxx : Set.InjOn xx (labels virtualNodes nodes)) (hon : ↑on ⊆ nodes) (hn : n ∈ nodes) :
    Holds xx virtualNodes (on.erase n) (r.removeNode xx n) := by
  refine ⟨hr.virtualNodes_eq, fun hash m => ?_⟩
  rw [get_removeNode, hr.virtualNodes_eq, Finset.mem_erase]
  split_ifs with hhit
  · refine iff_of_false not_false ?_
    rintro ⟨⟨hne, hm⟩, hhit'⟩
    exact hne (hhit'.unique hxx (hon hm) hn hhit)
  · rw [hr.get_iff]
    refine and_congr_left fun hhit' => ⟨fun hm => ⟨?_, hm⟩, And.right⟩
    rintro rfl
    exact hhit hhit'

/-- A ring is its entries. -/
theorem Holds.eq {r' : ConsistentHashRing} (hr : Holds xx virtualNodes on r)
    (hr' : Holds xx virtualNodes on r') : r = r' := by
  have hring : r.ring = r'.ring :=
    OrdMap.ext fun hash => Option.ext fun m => (hr.get_iff hash m).trans (hr'.get_iff hash m).symm
  exact congrArg₂ ConsistentHashRing.mk (hr.virtualNodes_eq.trans hr'.virtualNodes_eq.symm) hring

/-! ### Calls -/

/-- A call that changes the ring. -/
inductive Op
  | add (nodeId : ℕ)
  | remove (nodeId : ℕ)

def Op.nodeId : Op → ℕ
  | .add n => n
  | .remove n => n

/-- The ring after calls. -/
def build (xx : Bytes → UInt64) (virtualNodes : ℕ) (ops : List Op) : ConsistentHashRing :=
  ops.foldl
    (fun r op =>
      match op with
      | .add n => r.addNode xx n
      | .remove n => r.removeNode xx n)
    (.new virtualNodes)

/-- The nodes on the ring after calls: those added and not removed since. -/
def onRing (ops : List Op) : Finset ℕ :=
  ops.foldl
    (fun on op =>
      match op with
      | .add n => insert n on
      | .remove n => on.erase n)
    ∅

variable {ops : List Op}

theorem onRing_subset (hops : ∀ op ∈ ops, op.nodeId ∈ nodes) : ↑(onRing ops) ⊆ nodes := by
  induction ops using List.reverseRecOn with
  | nil => simp [onRing]
  | append_singleton ops op ih =>
      have hsub := ih fun op' h => hops op' (List.mem_append_left _ h)
      have hop := hops op (List.mem_append_right _ List.mem_cons_self)
      unfold onRing at hsub ⊢
      rw [List.foldl_append]
      cases op with
      | add n =>
          intro m hm
          obtain rfl | hm := Finset.mem_insert.mp hm
          · exact hop
          · exact hsub hm
      | remove n => exact fun m hm => hsub (Finset.mem_of_mem_erase hm)

theorem holds_build (hxx : Set.InjOn xx (labels virtualNodes nodes))
    (hops : ∀ op ∈ ops, op.nodeId ∈ nodes) :
    Holds xx virtualNodes (onRing ops) (build xx virtualNodes ops) := by
  induction ops using List.reverseRecOn with
  | nil => exact holds_new
  | append_singleton ops op ih =>
      have hops' : ∀ op' ∈ ops, op'.nodeId ∈ nodes := fun op' h =>
        hops op' (List.mem_append_left _ h)
      have hop := hops op (List.mem_append_right _ List.mem_cons_self)
      have hr := ih hops'
      have hon := onRing_subset hops'
      unfold build onRing at hr ⊢
      rw [List.foldl_append, List.foldl_append]
      cases op with
      | add n => exact hr.addNode hxx hon hop
      | remove n => exact hr.removeNode hxx hon hop

/-! ### Owners -/

theorem nodeAt_eq_successor (r : ConsistentHashRing) (hash : UInt64) :
    r.nodeAt hash = ((OrdMap.successor r.ring.toList hash).map Prod.snd).getD 0 := by
  rw [nodeAt, OrdMap.successor, OrdMap.values, List.head?_map]
  cases r.ring.toList.find? fun e => hash ≤ e.1 <;> rfl

theorem nodeAt_of_successor {hash s : UInt64}
    (h : OrdMap.successor r.ring.toList hash = some (s, n)) :
    r.nodeAt hash = n := by
  rw [nodeAt_eq_successor, h]
  rfl

theorem Holds.exists_successor (hr : Holds xx virtualNodes on r) (hv : 0 < virtualNodes)
    (hn : n ∈ on) (hash : UInt64) : ∃ s m, OrdMap.successor r.ring.toList hash = some (s, m) := by
  have hget := (hr.get_iff (xx (virtualKey n 0)) n).mpr ⟨hn, 0, hv, rfl⟩
  obtain ⟨⟨s, m⟩, h⟩ := Option.isSome_iff_exists.mp (OrdMap.isSome_successor hget hash)
  exact ⟨s, m, h⟩

theorem Holds.nodeAt_mem (hr : Holds xx virtualNodes on r) (hv : 0 < virtualNodes)
    (hon : on.Nonempty) (hash : UInt64) : r.nodeAt hash ∈ on := by
  obtain ⟨n, hn⟩ := hon
  obtain ⟨s, m, h⟩ := hr.exists_successor hv hn hash
  rw [nodeAt_of_successor h]
  exact ((hr.get_iff s m).mp ((OrdMap.successor_eq_some_iff _ _ _ _).mp h).1).1

/-- Among fewer nodes, a key whose owner stays keeps it. -/
theorem Holds.nodeAt_of_subset {r' : ConsistentHashRing} {on' : Finset ℕ}
    (hr : Holds xx virtualNodes on r) (hr' : Holds xx virtualNodes on' r') (hv : 0 < virtualNodes)
    (hsub : on' ⊆ on) {hash : UInt64} (howner : r.nodeAt hash ∈ on') :
    r'.nodeAt hash = r.nodeAt hash := by
  obtain ⟨s, m, h⟩ := hr.exists_successor hv (hsub howner) hash
  have hget := (hr.get_iff s m).mp ((OrdMap.successor_eq_some_iff _ _ _ _).mp h).1
  rw [nodeAt_of_successor h] at howner ⊢
  refine nodeAt_of_successor (OrdMap.successor_of_subset (fun t w ht => ?_) h ?_)
  · obtain ⟨hw, hhit⟩ := (hr'.get_iff t w).mp ht
    exact (hr.get_iff t w).mpr ⟨hsub hw, hhit⟩
  · exact (hr'.get_iff s m).mpr ⟨howner, hget.2⟩

/-- Calls on a ring whose virtual nodes have hashes of their own move only the keys they must: a
key is owned by a node of the ring, adding a node takes keys to it alone, removing one takes keys
from it alone, and removing a node that was just added puts every key back. -/
theorem moves_only_what_it_must (xx : Bytes → UInt64) (virtualNodes : ℕ) (ops : List Op) (n : ℕ)
    (hv : 0 < virtualNodes)
    (hxx : Set.InjOn xx (labels virtualNodes {m | m = n ∨ ∃ op ∈ ops, op.nodeId = m}))
    (key : Bytes) :
    ((onRing ops).Nonempty → (build xx virtualNodes ops).getNode xx key ∈ onRing ops) ∧
    (((build xx virtualNodes ops).addNode xx n).getNode xx key =
        (build xx virtualNodes ops).getNode xx key ∨
      ((build xx virtualNodes ops).addNode xx n).getNode xx key = n) ∧
    (n ∈ onRing ops → (build xx virtualNodes ops).getNode xx key ≠ n →
      ((build xx virtualNodes ops).removeNode xx n).getNode xx key =
        (build xx virtualNodes ops).getNode xx key) ∧
    (n ∉ onRing ops → (((build xx virtualNodes ops).addNode xx n).removeNode xx n).getNode xx key =
      (build xx virtualNodes ops).getNode xx key) := by
  have hops : ∀ op ∈ ops, op.nodeId ∈ {m | m = n ∨ ∃ op ∈ ops, op.nodeId = m} :=
    fun op hop => .inr ⟨op, hop, rfl⟩
  have hn : n ∈ {m | m = n ∨ ∃ op ∈ ops, op.nodeId = m} := .inl rfl
  have hr := holds_build hxx hops
  have hon := onRing_subset hops
  have hadd := hr.addNode hxx hon hn
  refine ⟨fun hne => hr.nodeAt_mem hv hne _, ?_, fun hmem howner => ?_, fun hnot => ?_⟩
  · rw [or_iff_not_imp_right]
    intro hne
    refine (hadd.nodeAt_of_subset hr hv (Finset.subset_insert _ _) ?_).symm
    exact (Finset.mem_insert.mp (hadd.nodeAt_mem hv (Finset.insert_nonempty _ _) _)).resolve_left
      hne
  · refine hr.nodeAt_of_subset (hr.removeNode hxx hon hn) hv (Finset.erase_subset _ _) ?_
    exact Finset.mem_erase.mpr ⟨howner, hr.nodeAt_mem hv ⟨n, hmem⟩ _⟩
  · have hsub : ↑(insert n (onRing ops)) ⊆ {m | m = n ∨ ∃ op ∈ ops, op.nodeId = m} := by
      intro m hm
      obtain rfl | hm := Finset.mem_insert.mp hm
      · exact hn
      · exact hon hm
    have hback := hadd.removeNode hxx hsub hn
    rw [Finset.erase_insert hnot] at hback
    rw [hback.eq hr]

/-- Two virtual nodes for each of two nodes, in turns around the ring. -/
def turnHash (label : Bytes) : UInt64 :=
  if label = virtualKey 0 0 then 10
  else if label = virtualKey 1 0 then 20
  else if label = virtualKey 0 1 then 30
  else if label = virtualKey 1 1 then 40
  else 25

theorem turnHash_virtualKey : ∀ n < 2, ∀ i < 2,
    turnHash (virtualKey n i) = 10 + 10 * .ofNat n + 20 * .ofNat i := by
  intro n hn i hi
  interval_cases n <;> interval_cases i <;> simp [turnHash, virtualKey_injective.eq_iff]

theorem turnHash_injOn (hops : ∀ op ∈ ops, op.nodeId < 2) :
    Set.InjOn turnHash (labels 2 {m | m = 1 ∨ ∃ op ∈ ops, op.nodeId = m}) := by
  have hlt : ∀ m ∈ {m | m = 1 ∨ ∃ op ∈ ops, op.nodeId = m}, m < 2 := by
    rintro m (rfl | ⟨op, hop, rfl⟩)
    · decide
    · exact hops op hop
  rintro _ ⟨m, hm, i, hi, rfl⟩ _ ⟨n, hn, j, hj, rfl⟩ h
  have hm' := hlt m hm
  have hn' := hlt n hn
  rw [turnHash_virtualKey m hm' i hi, turnHash_virtualKey n hn' j hj] at h
  interval_cases m <;> interval_cases n <;> interval_cases i <;> interval_cases j <;>
    first | rfl | simp at h

/-- A key between the second virtual nodes of nodes 0 and 1 is with node 0, and stays there when
node 1 goes, or comes and goes. -/
theorem moves_only_what_it_must_two :
    (build turnHash 2 [.add 0, .add 1]).getNode turnHash (virtualKey 2 0) = 0 ∧
    ((build turnHash 2 [.add 0, .add 1]).removeNode turnHash 1).getNode turnHash
      (virtualKey 2 0) = 0 ∧
    (((build turnHash 2 [.add 0]).addNode turnHash 1).removeNode turnHash 1).getNode turnHash
      (virtualKey 2 0) = (build turnHash 2 [.add 0]).getNode turnHash (virtualKey 2 0) := by
  have howner : (build turnHash 2 [.add 0, .add 1]).getNode turnHash (virtualKey 2 0) = 0 := by
    have hkey : turnHash (virtualKey 2 0) = 25 := by
      simp [turnHash, virtualKey_injective.eq_iff]
    rw [getNode, hkey]
    simp only [build, List.foldl_cons, List.foldl_nil, addNode, new, List.range_succ,
      List.range_zero, List.nil_append, List.cons_append,
      turnHash_virtualKey 0 (by decide) 0 (by decide),
        turnHash_virtualKey 0 (by decide) 1 (by decide),
      turnHash_virtualKey 1 (by decide) 0 (by decide),
        turnHash_virtualKey 1 (by decide) 1 (by decide)]
    decide +kernel
  obtain ⟨-, -, hkeep, -⟩ := moves_only_what_it_must turnHash 2 [.add 0, .add 1] 1 (by decide)
    (turnHash_injOn (by decide)) (virtualKey 2 0)
  obtain ⟨-, -, -, hback⟩ := moves_only_what_it_must turnHash 2 [.add 0] 1 (by decide)
    (turnHash_injOn (by decide)) (virtualKey 2 0)
  refine ⟨howner, ?_, hback (by decide)⟩
  rw [hkeep (by decide), howner]
  rw [howner]
  exact Nat.zero_ne_one

end AresaDb.Distributed.ConsistentHashRing
