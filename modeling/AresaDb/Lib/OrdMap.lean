import Mathlib

/-! # Ordered maps

Finite maps with linearly ordered keys, as the extensional tree maps of the standard library,
together with the neighbour queries of an ordered index: the entry with the greatest key at or
below a bound (`lastLE?`) and the one with the least key above it (`firstGT?`).  Both are read
off the key-ordered entry list, and both are characterised by lookups alone
(`lastLE?_eq_some_iff`, `firstGT?_eq_some_iff`), so that proofs never see the entry list.

`insertAll` writes a list of records one after the other, as a loader does;
`get_insertAll_iff` describes its lookups when records with equal keys agree.

`IsIndex idx tbl f` says that `idx` is the secondary index of the table `tbl` under the column
`f`: no missing, stale or duplicate entry.  A row with a fresh column value is inserted, a row is
rewritten with its column value kept, and a row is deleted with its entry; each keeps the index
exact. -/

/-- A finite map from linearly ordered keys. -/
abbrev OrdMap (κ α : Type) [LinearOrder κ] := Std.ExtTreeMap κ α compare

namespace OrdMap

variable {κ α β : Type} [LinearOrder κ]

/-! ### Lookups -/

theorem get_insert (m : OrdMap κ α) (k a : κ) (v : α) :
    (m.insert k v)[a]? = if k = a then some v else m[a]? := by
  rw [Std.ExtTreeMap.getElem?_insert]
  simp only [compare_eq_iff_eq]

@[simp] theorem get_insert_self (m : OrdMap κ α) (k : κ) (v : α) : (m.insert k v)[k]? = some v := by
  rw [get_insert, if_pos rfl]

theorem get_insert_of_ne (m : OrdMap κ α) {k a : κ} (v : α) (h : k ≠ a) :
    (m.insert k v)[a]? = m[a]? := by
  rw [get_insert, if_neg h]

theorem get_erase (m : OrdMap κ α) (k a : κ) :
    (m.erase k)[a]? = if k = a then none else m[a]? := by
  rw [Std.ExtTreeMap.getElem?_erase]
  simp only [compare_eq_iff_eq]

@[simp] theorem get_erase_self (m : OrdMap κ α) (k : κ) : (m.erase k)[k]? = none := by
  rw [get_erase, if_pos rfl]

theorem get_erase_of_ne (m : OrdMap κ α) {k a : κ} (h : k ≠ a) : (m.erase k)[a]? = m[a]? := by
  rw [get_erase, if_neg h]

theorem get_filter (m : OrdMap κ α) (p : κ → α → Bool) (k : κ) (v : α) :
    (m.filter p)[k]? = some v ↔ m[k]? = some v ∧ p k v = true := by
  have : Std.LawfulEqCmp (compare : κ → κ → Ordering) := ⟨compare_eq_iff_eq.mp⟩
  rw [Std.ExtTreeMap.getElem?_filter', Option.filter_eq_some_iff]

@[simp] theorem get_empty (k : κ) : (∅ : OrdMap κ α)[k]? = none :=
  Std.ExtTreeMap.getElem?_empty

theorem ext {m n : OrdMap κ α} (h : ∀ k : κ, m[k]? = n[k]?) : m = n :=
  Std.ExtTreeMap.ext_getElem? h

theorem insert_insert_self (m : OrdMap κ α) (k : κ) (v w : α) :
    (m.insert k v).insert k w = m.insert k w := by
  apply ext
  intro a
  rw [get_insert, get_insert, get_insert]
  split_ifs
  · rfl
  · rfl

theorem erase_insert_comm (m : OrdMap κ α) {j k : κ} (h : j ≠ k)
    (v : α) : (m.insert j v).erase k = (m.erase k).insert j v := by
  apply ext
  intro a
  rw [get_erase, get_insert, get_insert, get_erase]
  split_ifs with hk hj
  · exact absurd (hj.trans hk.symm) h
  · rfl
  · rfl
  · rfl

/-! ### The ordered entry list -/

theorem mem_toList (m : OrdMap κ α) (k : κ) (v : α) : (k, v) ∈ m.toList ↔ m[k]? = some v :=
  Std.ExtTreeMap.mem_toList_iff_getElem?_eq_some

theorem toList_sorted (m : OrdMap κ α) : m.toList.Pairwise (fun a b => a.1 < b.1) := by
  have h := Std.ExtTreeMap.ordered_keys_toList (t := m)
  exact h.imp fun hab => compare_lt_iff_lt.mp hab

/-- The values in key order. -/
def values (m : OrdMap κ α) : List α := m.toList.map Prod.snd

theorem mem_values (m : OrdMap κ α) (v : α) : v ∈ m.values ↔ ∃ k : κ, m[k]? = some v := by
  unfold values
  rw [List.mem_map]
  constructor
  · rintro ⟨⟨k, w⟩, hmem, rfl⟩
    exact ⟨k, (mem_toList m k w).mp hmem⟩
  · rintro ⟨k, hk⟩
    exact ⟨(k, v), (mem_toList m k v).mpr hk, rfl⟩

/-- Values with their own keys among what a function gives are listed once. -/
theorem nodup_values_map (m : OrdMap κ α) {f : α → β} (hf : ∀ (k k' : κ) (v v' : α),
    m[k]? = some v → m[k']? = some v' → f v = f v' → k = k') : (m.values.map f).Nodup := by
  rw [values, List.map_map, List.Nodup, List.pairwise_map]
  refine m.toList_sorted.imp_of_mem fun {a b} ha hb hlt heq => hlt.ne ?_
  exact hf a.1 b.1 a.2 b.2 ((mem_toList m _ _).mp ha) ((mem_toList m _ _).mp hb) heq

theorem get_map (m : OrdMap κ α) (f : α → β) (k : κ) :
    (m.map fun _ v => f v)[k]? = m[k]?.map f := Std.ExtTreeMap.getElem?_map

theorem map_congr {m n : OrdMap κ α} (f : α → β) (h : ∀ k : κ, m[k]?.map f = n[k]?.map f) :
    (m.map fun _ v => f v) = n.map fun _ v => f v := by
  apply ext
  intro k
  rw [get_map, get_map, h]

/-- Maps that look alike through `f` have the same keys. -/
theorem keys_congr {m n : OrdMap κ α} (f : α → β) (h : ∀ k : κ, m[k]?.map f = n[k]?.map f) :
    m.keys = n.keys := by
  rw [← Std.ExtTreeMap.keys_map (t := m) (f := fun _ v => f v), map_congr f h,
    Std.ExtTreeMap.keys_map]

/-- Maps that look alike through `f` list the same values through it. -/
theorem values_map_congr {m n : OrdMap κ α} (f : α → β)
    (h : ∀ k : κ, m[k]?.map f = n[k]?.map f) : m.values.map f = n.values.map f := by
  have hvalues : ∀ m : OrdMap κ α, m.values.map f = values (m.map fun _ v => f v) := by
    intro m
    unfold values
    rw [Std.ExtTreeMap.toList_map, List.map_map, List.map_map]
    rfl
  rw [hvalues, hvalues, map_congr f h]

/-- What is made of the values, key by key. -/
theorem filterMap_values (m : OrdMap κ α) (f : α → Option β) :
    m.values.filterMap f = (m.toList.map Prod.fst).filterMap fun k => m[k]?.bind f := by
  unfold values
  rw [List.filterMap_map, List.filterMap_map]
  refine List.filterMap_congr fun e he => ?_
  have hget : m[e.1]? = some e.2 := (mem_toList m e.1 e.2).mp he
  simp only [Function.comp_apply, hget, Option.bind_some]

/-! ### Neighbour queries -/

/-- The entry with the greatest key at or below `k`. -/
def lastLE? (m : OrdMap κ α) (k : κ) : Option (κ × α) :=
  (m.toList.filter (fun e => e.1 ≤ k)).getLast?

/-- The entry with the least key above `k`. -/
def firstGT? (m : OrdMap κ α) (k : κ) : Option (κ × α) :=
  (m.toList.filter (fun e => k < e.1)).head?

/-- The last element of a list sorted by `f` is the one with the greatest `f`. -/
theorem getLast?_eq_some_iff_of_sorted {l : List β} {f : β → κ}
    (h : l.Pairwise (fun a b => f a < f b)) (x : β) :
    l.getLast? = some x ↔ x ∈ l ∧ ∀ y ∈ l, f y ≤ f x := by
  constructor
  · intro hx
    obtain ⟨l', rfl⟩ := List.getLast?_eq_some_iff.mp hx
    refine ⟨by simp, ?_⟩
    intro y hy
    rcases List.mem_append.mp hy with hy | hy
    · exact le_of_lt ((List.pairwise_append.mp h).2.2 y hy x (by simp))
    · rw [List.mem_singleton.mp hy]
  · rintro ⟨hx, hmax⟩
    rcases List.eq_nil_or_concat l with rfl | ⟨l', z, rfl⟩
    · simp at hx
    · rw [List.concat_eq_append] at *
      rcases List.mem_append.mp hx with hx | hx
      · have hlt := (List.pairwise_append.mp h).2.2 x hx z (by simp)
        exact absurd (hmax z (by simp)) (not_le.mpr hlt)
      · rw [List.mem_singleton.mp hx]
        simp

/-- The first element of a list sorted by `f` is the one with the least `f`. -/
theorem head?_eq_some_iff_of_sorted {l : List β} {f : β → κ}
    (h : l.Pairwise (fun a b => f a < f b)) (x : β) :
    l.head? = some x ↔ x ∈ l ∧ ∀ y ∈ l, f x ≤ f y := by
  cases l with
  | nil => simp
  | cons z l =>
      obtain ⟨hz, _⟩ := List.pairwise_cons.mp h
      rw [List.head?_cons, Option.some.injEq]
      constructor
      · rintro rfl
        refine ⟨by simp, ?_⟩
        intro y hy
        rcases List.mem_cons.mp hy with rfl | hy
        · exact le_rfl
        · exact le_of_lt (hz y hy)
      · rintro ⟨hx, hmin⟩
        rcases List.mem_cons.mp hx with rfl | hx
        · rfl
        · exact absurd (hmin z (by simp)) (not_le.mpr (hz x hx))

theorem lastLE?_eq_some_iff (m : OrdMap κ α) (k s : κ) (v : α) :
    m.lastLE? k = some (s, v) ↔
      m[s]? = some v ∧ s ≤ k ∧ ∀ (s' : κ) (v' : α), m[s']? = some v' → s' ≤ k → s' ≤ s := by
  have hs := (toList_sorted m).filter (fun e => e.1 ≤ k)
  unfold lastLE?
  rw [getLast?_eq_some_iff_of_sorted hs]
  simp only [List.mem_filter, mem_toList, decide_eq_true_eq, Prod.forall, and_imp, and_assoc]

theorem firstGT?_eq_some_iff (m : OrdMap κ α) (k s : κ) (v : α) :
    m.firstGT? k = some (s, v) ↔
      m[s]? = some v ∧ k < s ∧ ∀ (s' : κ) (v' : α), m[s']? = some v' → k < s' → s ≤ s' := by
  have hs := (toList_sorted m).filter (fun e => k < e.1)
  unfold firstGT?
  rw [head?_eq_some_iff_of_sorted hs]
  simp only [List.mem_filter, mem_toList, decide_eq_true_eq, Prod.forall, and_imp, and_assoc]

theorem firstGT?_eq_none_iff (m : OrdMap κ α) (k : κ) :
    m.firstGT? k = none ↔ ∀ (s : κ) (v : α), m[s]? = some v → s ≤ k := by
  unfold firstGT?
  simp only [List.head?_eq_none_iff, List.filter_eq_nil_iff, Prod.forall, mem_toList,
    decide_eq_true_eq, not_lt]

/-! ### Loading records -/

/-- Insert the records of a list one after the other, later ones overwriting earlier ones. -/
def insertAll (m : OrdMap κ α) (key : β → κ) (val : β → α) (l : List β) : OrdMap κ α :=
  l.foldl (fun m x => m.insert (key x) (val x)) m

@[simp] theorem insertAll_cons (m : OrdMap κ α) (key : β → κ) (val : β → α) (x : β) (l : List β) :
    m.insertAll key val (x :: l) = insertAll (m.insert (key x) (val x)) key val l := rfl

/-- What a map holds after a load: a loaded record, else what it held. -/
theorem get_insertAll_or (m : OrdMap κ α) (key : β → κ) (val : β → α) (l : List β) (k : κ) :
    (m.insertAll key val l)[k]? = ((∅ : OrdMap κ α).insertAll key val l)[k]?.or m[k]? := by
  induction l using List.reverseRecOn with
  | nil => simp [insertAll]
  | append_singleton l x ih =>
      unfold insertAll at ih ⊢
      rw [List.foldl_append, List.foldl_append]
      simp only [List.foldl_cons, List.foldl_nil, get_insert]
      split_ifs
      · rfl
      · exact ih

theorem get_insertAll_of_notMem (m : OrdMap κ α) (key : β → κ) (val : β → α) (l : List β) (k : κ)
    (h : ∀ x ∈ l, key x ≠ k) : (m.insertAll key val l)[k]? = m[k]? := by
  induction l generalizing m with
  | nil => rfl
  | cons x l ih =>
      rw [insertAll_cons, ih _ (fun y hy => h y (by simp [hy])),
        get_insert_of_ne _ _ (h x (by simp))]

/-- Records with equal keys agreeing, the last write under a key is any of them. -/
theorem get_insertAll_of_mem (m : OrdMap κ α) (key : β → κ) (val : β → α) (l : List β)
    (hl : ∀ x ∈ l, ∀ y ∈ l, key x = key y → val x = val y) (x : β) (hx : x ∈ l) :
    (m.insertAll key val l)[key x]? = some (val x) := by
  induction l generalizing m x with
  | nil => simp at hx
  | cons y l ih =>
      rw [insertAll_cons]
      have hl' : ∀ x ∈ l, ∀ z ∈ l, key x = key z → val x = val z :=
        fun x hx z hz => hl x (by simp [hx]) z (by simp [hz])
      by_cases hmem : ∃ z ∈ l, key z = key x
      · obtain ⟨z, hz, hzx⟩ := hmem
        rw [← hzx, ih _ hl' z hz, hl z (by simp [hz]) x hx hzx]
      · have hnot : ∀ z ∈ l, key z ≠ key x := fun z hz he => hmem ⟨z, hz, he⟩
        rw [get_insertAll_of_notMem _ _ _ _ _ hnot]
        rcases List.mem_cons.mp hx with rfl | hx
        · exact get_insert_self _ _ _
        · exact absurd rfl (hnot x hx)

theorem exists_of_get_insertAll {key : β → κ} {val : β → α} {l : List β} {k : κ} {v : α}
    (h : ((∅ : OrdMap κ α).insertAll key val l)[k]? = some v) : ∃ x ∈ l, key x = k ∧ val x = v := by
  induction l using List.reverseRecOn with
  | nil =>
      rw [insertAll, List.foldl_nil, get_empty] at h
      cases h
  | append_singleton l x ih =>
      have hlast : (∅ : OrdMap κ α).insertAll key val (l ++ [x]) =
          ((∅ : OrdMap κ α).insertAll key val l).insert (key x) (val x) := by
        rw [insertAll, List.foldl_append]
        rfl
      rw [hlast, get_insert] at h
      split_ifs at h with hx
      · exact ⟨x, List.mem_append_right l List.mem_cons_self, hx, Option.some.inj h⟩
      · obtain ⟨y, hy, heq⟩ := ih h
        exact ⟨y, List.mem_append_left _ hy, heq⟩

theorem isSome_get_insertAll (m : OrdMap κ α) (key : β → κ) (val : β → α) {l : List β} {x : β}
    (hx : x ∈ l) : ((m.insertAll key val l)[key x]?).isSome := by
  induction l generalizing m with
  | nil => exact (List.not_mem_nil hx).elim
  | cons y l ih =>
      rw [insertAll_cons]
      by_cases hmem : x ∈ l
      · exact ih _ hmem
      · obtain rfl := (List.mem_cons.mp hx).resolve_right hmem
        rw [get_insertAll_or, get_insert_self]
        cases ((∅ : OrdMap κ α).insertAll key val l)[key x]? <;> rfl

theorem get_insertAll_iff (key : β → κ) (val : β → α) (l : List β)
    (hl : ∀ x ∈ l, ∀ y ∈ l, key x = key y → val x = val y) (k : κ) (v : α) :
    ((∅ : OrdMap κ α).insertAll key val l)[k]? = some v ↔ ∃ x ∈ l, key x = k ∧ val x = v := by
  by_cases hmem : ∃ x ∈ l, key x = k
  · obtain ⟨x, hx, rfl⟩ := hmem
    rw [get_insertAll_of_mem _ _ _ _ hl x hx, Option.some.injEq]
    constructor
    · intro hv
      exact ⟨x, hx, rfl, hv⟩
    · rintro ⟨y, hy, hyx, rfl⟩
      exact (hl y hy x hx hyx).symm
  · have hnot : ∀ x ∈ l, key x ≠ k := fun x hx he => hmem ⟨x, hx, he⟩
    rw [get_insertAll_of_notMem _ _ _ _ _ hnot, get_empty]
    constructor
    · intro h
      cases h
    · rintro ⟨x, hx, he, _⟩
      exact absurd he (hnot x hx)

/-- The list holds the values of the map, in some order. -/
def Lists (l : List α) (m : OrdMap κ α) : Prop := ∀ x, x ∈ l ↔ ∃ k : κ, m[k]? = some x

/-- Writing the values of a map under their own keys gives the map back. -/
theorem insertAll_lists {l : List α} {m : OrdMap κ α} {key : α → κ} (hl : Lists l m)
    (hkey : ∀ (k : κ) x, m[k]? = some x → key x = k) : insertAll ∅ key id l = m := by
  have hagree : ∀ x ∈ l, ∀ y ∈ l, key x = key y → id x = id y := by
    intro x hx y hy hxy
    obtain ⟨i, hi⟩ := (hl x).mp hx
    obtain ⟨j, hj⟩ := (hl y).mp hy
    rw [hkey i x hi, hkey j y hj] at hxy
    rw [hxy, hj] at hi
    exact (Option.some.inj hi).symm
  apply OrdMap.ext
  intro k
  apply Option.ext
  intro v
  rw [get_insertAll_iff _ _ _ hagree]
  constructor
  · rintro ⟨x, hx, hxk, rfl⟩
    obtain ⟨i, hi⟩ := (hl x).mp hx
    rw [← hxk, hkey i x hi]
    exact hi
  · intro hv
    exact ⟨v, (hl v).mpr ⟨k, hv⟩, hkey k v hv, rfl⟩

/-- Writing the entries of a map, their values changed, is mapping over it. -/
theorem insertAll_toList (m : OrdMap κ β) (f : β → α) :
    insertAll ∅ Prod.fst (fun e => f e.2) m.toList = m.map fun _ v => f v := by
  have hagree : ∀ x ∈ m.toList, ∀ y ∈ m.toList, x.1 = y.1 → f x.2 = f y.2 := by
    rintro ⟨i, v⟩ hx ⟨j, w⟩ hy hij
    obtain rfl : i = j := hij
    rw [mem_toList] at hx hy
    rw [Option.some.inj (hx.symm.trans hy)]
  refine ext fun k => Option.ext fun v => ?_
  rw [get_insertAll_iff _ _ _ hagree, get_map, Option.map_eq_some_iff]
  constructor
  · rintro ⟨⟨i, w⟩, hmem, rfl, rfl⟩
    exact ⟨w, (mem_toList m i w).mp hmem, rfl⟩
  · rintro ⟨w, hw, rfl⟩
    exact ⟨(k, w), (mem_toList m k w).mpr hw, rfl, rfl⟩

/-! ### Removing a range of keys -/

/-- The keys of `[start, stop)` that the map holds, in order. -/
def keysIn (m : OrdMap κ α) (start stop : κ) : List κ :=
  (m.toList.filter fun e => decide (start ≤ e.1 ∧ e.1 < stop)).map Prod.fst

theorem mem_keysIn (m : OrdMap κ α) (start stop k : κ) :
    k ∈ m.keysIn start stop ↔ (start ≤ k ∧ k < stop) ∧ m[k]? ≠ none := by
  unfold keysIn
  rw [List.mem_map]
  constructor
  · rintro ⟨⟨k, v⟩, hmem, rfl⟩
    obtain ⟨hkv, hk⟩ := List.mem_filter.mp hmem
    rw [(mem_toList m k v).mp hkv]
    exact ⟨of_decide_eq_true hk, Option.some_ne_none v⟩
  · rintro ⟨hk, hm⟩
    obtain ⟨v, hv⟩ := Option.ne_none_iff_exists'.mp hm
    exact ⟨(k, v), List.mem_filter.mpr ⟨(mem_toList m k v).mpr hv, decide_eq_true hk⟩, rfl⟩

/-- Erase the keys of a list one after the other. -/
def eraseAll (m : OrdMap κ α) (ks : List κ) : OrdMap κ α := ks.foldl (fun m k => m.erase k) m

theorem get_eraseAll (m : OrdMap κ α) (ks : List κ) (k : κ) :
    (m.eraseAll ks)[k]? = if k ∈ ks then none else m[k]? := by
  induction ks generalizing m with
  | nil => rfl
  | cons a ks ih =>
      show (eraseAll (m.erase a) ks)[k]? = _
      rw [ih, get_erase]
      by_cases hk : k ∈ ks
      · simp [hk]
      · by_cases ha : a = k
        · simp [ha]
        · simp [hk, ha, Ne.symm ha]

/-- Erasing the held keys of `[start, stop)` one by one clears that range. -/
theorem get_eraseAll_keysIn (m : OrdMap κ α) (start stop k : κ) :
    (m.eraseAll (m.keysIn start stop))[k]? = if start ≤ k ∧ k < stop then none else m[k]? := by
  rw [get_eraseAll]
  by_cases hk : start ≤ k ∧ k < stop
  · rw [if_pos hk]
    split_ifs with hmem
    · rfl
    · by_contra hne
      exact hmem ((mem_keysIn m start stop k).mpr ⟨hk, hne⟩)
  · rw [if_neg hk, if_neg]
    intro hmem
    exact hk ((mem_keysIn m start stop k).mp hmem).1

/-! ### Secondary indexes -/

section Index

variable {ι δ : Type} [LinearOrder ι] {idx : OrdMap κ ι} {tbl : OrdMap ι δ} {f : δ → κ}

/-- `idx` maps the column value of each row of `tbl` to its key, and has no other entry. -/
def IsIndex (idx : OrdMap κ ι) (tbl : OrdMap ι δ) (f : δ → κ) : Prop :=
  ∀ (k : κ) (i : ι), idx[k]? = some i ↔ ∃ d, tbl[i]? = some d ∧ f d = k

theorem isIndex_empty (f : δ → κ) : IsIndex (∅ : OrdMap κ ι) (∅ : OrdMap ι δ) f := by
  intro k i
  simp

/-- An indexed column has no value twice. -/
theorem IsIndex.injective (h : IsIndex idx tbl f) {i j : ι} {d e : δ} (hd : tbl[i]? = some d)
    (he : tbl[j]? = some e) (hf : f d = f e) : i = j := by
  have hi := (h (f e) i).mpr ⟨d, hd, hf⟩
  have hj := (h (f e) j).mpr ⟨e, he, rfl⟩
  rw [hi] at hj
  exact Option.some.inj hj

theorem IsIndex.insert (h : IsIndex idx tbl f) {i : ι} {d : δ} (hi : tbl[i]? = none)
    (hd : ∀ (j : ι) e, tbl[j]? = some e → f e ≠ f d) :
    IsIndex (idx.insert (f d) i) (tbl.insert i d) f := by
  intro k j
  rw [get_insert, get_insert]
  by_cases hk : f d = k
  · rw [if_pos hk]
    by_cases hj : i = j
    · simp [hj, hk]
    · rw [if_neg hj]
      constructor
      · intro he
        exact absurd (Option.some.inj he) hj
      · rintro ⟨e, he, hek⟩
        exact absurd (hek.trans hk.symm) (hd j e he)
  · rw [if_neg hk, h k j]
    by_cases hj : i = j
    · subst hj
      simp [hi, hk]
    · rw [if_neg hj]

/-- A row rewritten with its column value kept. -/
theorem IsIndex.update (h : IsIndex idx tbl f) {i : ι} {d d' : δ} (hi : tbl[i]? = some d)
    (hf : f d' = f d) : IsIndex idx (tbl.insert i d') f := by
  intro k j
  rw [get_insert, h k j]
  by_cases hj : i = j
  · subst hj
    simp [hi, hf]
  · rw [if_neg hj]

theorem IsIndex.erase (h : IsIndex idx tbl f) {i : ι} {d : δ} (hi : tbl[i]? = some d) :
    IsIndex (idx.erase (f d)) (tbl.erase i) f := by
  intro k j
  rw [get_erase, get_erase]
  by_cases hj : i = j
  · subst hj
    by_cases hk : f d = k
    · simp [hk]
    · simp only [if_neg hk, if_true, h k i, hi]
      simp [hk]
  · rw [if_neg hj]
    by_cases hk : f d = k
    · rw [if_pos hk]
      constructor
      · intro he
        cases he
      · rintro ⟨e, he, hek⟩
        exact absurd (h.injective hi he (hk.trans hek.symm)) hj
    · rw [if_neg hk]
      exact h k j

end Index

end OrdMap
