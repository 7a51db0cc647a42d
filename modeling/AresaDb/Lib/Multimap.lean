import AresaDb.Lib.OrdMap

/-! # Ordered multimaps

A finite set of pairs, read key by key: the values of a key come out in increasing order, each once.
It is kept as an ordered map over the pairs in lexicographic order, and used through membership
alone (`mem_insert`, `mem_remove`, `mem_removeIf`, `mem_get`).

An index may hold entries whose rows are gone: a reader that looks each value up in the table does
not see them.  `Covering` is what such an index must satisfy; a row under a key that was never used
is inserted with its entry, and rows go with or without their entries. -/

/-- A finite set of pairs of a key and a value. -/
structure Multimap (κ ι : Type) [LinearOrder κ] [LinearOrder ι] where
  entries : OrdMap (κ ×ₗ ι) Unit

namespace Multimap

variable {κ ι δ : Type} [LinearOrder κ] [LinearOrder ι]

/-- The multimap without entries. -/
def empty : Multimap κ ι := ⟨∅⟩

/-- Add a value under a key. -/
def insert (m : Multimap κ ι) (k : κ) (i : ι) : Multimap κ ι := ⟨m.entries.insert (toLex (k, i)) ()⟩

/-- Remove a value from under a key. -/
def remove (m : Multimap κ ι) (k : κ) (i : ι) : Multimap κ ι := ⟨m.entries.erase (toLex (k, i))⟩

/-- Remove values from under a key, one after the other. -/
def removeAll (m : Multimap κ ι) (k : κ) (is : List ι) : Multimap κ ι :=
  is.foldl (fun m i => m.remove k i) m

/-- Remove every value of the keys that satisfy `p`. -/
def removeIf (m : Multimap κ ι) (p : κ → Bool) : Multimap κ ι :=
  ⟨m.entries.filter fun e _ => !p (ofLex e).1⟩

/-- The values of a key in increasing order. -/
def get (m : Multimap κ ι) (k : κ) : List ι :=
  (m.entries.toList.filter fun e => (ofLex e.1).1 = k).map fun e => (ofLex e.1).2

instance : Membership (κ × ι) (Multimap κ ι) := ⟨fun m e => m.entries[toLex e]? = some ()⟩

instance (m : Multimap κ ι) (e : κ × ι) : Decidable (e ∈ m) :=
  inferInstanceAs (Decidable (m.entries[toLex e]? = some ()))

theorem mem_def (m : Multimap κ ι) (e : κ × ι) : e ∈ m ↔ m.entries[toLex e]? = some () := Iff.rfl

@[simp] theorem not_mem_empty (e : κ × ι) : e ∉ (empty : Multimap κ ι) := by
  rw [mem_def, empty, OrdMap.get_empty]
  simp

theorem mem_insert {m : Multimap κ ι} {k : κ} {i : ι} {e : κ × ι} :
    e ∈ m.insert k i ↔ e = (k, i) ∨ e ∈ m := by
  rw [mem_def, mem_def, insert, OrdMap.get_insert]
  by_cases h : toLex (k, i) = toLex e
  · rw [if_pos h]
    simp [toLex.injective h]
  · have hne : e ≠ (k, i) := fun heq => h (by rw [heq])
    rw [if_neg h]
    simp [hne]

theorem mem_remove {m : Multimap κ ι} {k : κ} {i : ι} {e : κ × ι} :
    e ∈ m.remove k i ↔ e ≠ (k, i) ∧ e ∈ m := by
  rw [mem_def, mem_def, remove, OrdMap.get_erase]
  by_cases h : toLex (k, i) = toLex e
  · rw [if_pos h]
    simp [toLex.injective h]
  · have hne : e ≠ (k, i) := fun heq => h (by rw [heq])
    rw [if_neg h]
    simp [hne]

theorem mem_removeIf {m : Multimap κ ι} {p : κ → Bool} {e : κ × ι} :
    e ∈ m.removeIf p ↔ p e.1 = false ∧ e ∈ m := by
  rw [mem_def, mem_def, removeIf, OrdMap.get_filter, and_comm]
  simp

theorem mem_get {m : Multimap κ ι} {k : κ} {i : ι} : i ∈ m.get k ↔ (k, i) ∈ m := by
  unfold get
  rw [List.mem_map]
  constructor
  · rintro ⟨⟨e, u⟩, hmem, rfl⟩
    obtain ⟨hin, hk⟩ := List.mem_filter.mp hmem
    obtain rfl : (ofLex e).1 = k := of_decide_eq_true hk
    exact (OrdMap.mem_toList m.entries e u).mp hin
  · intro h
    exact ⟨(toLex (k, i), ()),
      List.mem_filter.mpr ⟨(OrdMap.mem_toList _ _ _).mpr h, decide_eq_true rfl⟩, rfl⟩

theorem mem_removeAll {m : Multimap κ ι} {k : κ} {is : List ι} {e : κ × ι} :
    e ∈ m.removeAll k is ↔ ¬ (e.1 = k ∧ e.2 ∈ is) ∧ e ∈ m := by
  induction is generalizing m with
  | nil => simp [removeAll]
  | cons i is ih =>
      show e ∈ (m.remove k i).removeAll k is ↔ _
      rw [ih, mem_remove, Ne, Prod.ext_iff, List.mem_cons]
      tauto

/-- Removing all the values of a key leaves the other keys. -/
theorem mem_removeAll_get {m : Multimap κ ι} {k : κ} {e : κ × ι} :
    e ∈ m.removeAll k (m.get k) ↔ e.1 ≠ k ∧ e ∈ m := by
  rw [mem_removeAll]
  constructor
  · rintro ⟨hnot, he⟩
    refine ⟨?_, he⟩
    rintro rfl
    exact hnot ⟨rfl, mem_get.mpr he⟩
  · rintro ⟨hne, he⟩
    exact ⟨fun h => hne h.1, he⟩

/-- The values of a key come out in increasing order. -/
theorem get_sorted (m : Multimap κ ι) (k : κ) : (m.get k).Pairwise (· < ·) := by
  unfold get
  rw [List.pairwise_map]
  refine ((OrdMap.toList_sorted m.entries).filter _).imp_of_mem ?_
  intro a b ha hb hab
  have hak : (ofLex a.1).1 = k := of_decide_eq_true (List.mem_filter.mp ha).2
  have hbk : (ofLex b.1).1 = k := of_decide_eq_true (List.mem_filter.mp hb).2
  rcases Prod.Lex.lt_iff.mp hab with h | ⟨_, h⟩
  · rw [hak, hbk] at h
    exact absurd h (lt_irrefl k)
  · exact h

theorem get_nodup (m : Multimap κ ι) (k : κ) : (m.get k).Nodup :=
  (m.get_sorted k).imp fun h => h.ne

/-- What is looked up for the values of a sorted list depends on the values with a result only. -/
theorem filterMap_congr_of_sorted {l₁ l₂ : List ι} {f : ι → Option δ}
    (h₁ : l₁.Pairwise (· < ·)) (h₂ : l₂.Pairwise (· < ·))
    (h : ∀ i d, f i = some d → (i ∈ l₁ ↔ i ∈ l₂)) : l₁.filterMap f = l₂.filterMap f := by
  have hcut : ∀ l : List ι, l.filterMap f = (l.filter fun i => (f i).isSome).filterMap f := by
    intro l
    rw [List.filterMap_filter]
    congr 1
    funext i
    cases hi : f i <;> simp
  have hnodup : ∀ {l : List ι}, l.Pairwise (· < ·) → (l.filter fun i => (f i).isSome).Nodup :=
    fun hl => (hl.filter _).imp fun hab => hab.ne
  have hlists : l₁.filter (fun i => (f i).isSome) = l₂.filter fun i => (f i).isSome := by
    refine List.Perm.eq_of_pairwise ?_ (h₁.filter _) (h₂.filter _) ?_
    · intro a b _ _ hab hba
      exact absurd (hab.trans hba) (lt_irrefl a)
    · rw [List.perm_ext_iff_of_nodup (hnodup h₁) (hnodup h₂)]
      intro i
      rw [List.mem_filter, List.mem_filter]
      refine and_congr_left fun hsome => ?_
      obtain ⟨d, hd⟩ := Option.isSome_iff_exists.mp hsome
      exact h i d hd
  rw [hcut l₁, hlists, ← hcut l₂]

theorem filterMap_get_congr {m n : Multimap κ ι} {k : κ} {f g : ι → Option δ}
    (hfg : ∀ i, f i = g i) (h : ∀ i d, f i = some d → ((k, i) ∈ m ↔ (k, i) ∈ n)) :
    (m.get k).filterMap f = (n.get k).filterMap g := by
  rw [← funext hfg]
  refine filterMap_congr_of_sorted (m.get_sorted k) (n.get_sorted k) fun i d hd => ?_
  rw [mem_get, mem_get]
  exact h i d hd

/-- What is looked up for the values of a key, in a table whose rows know their own keys. -/
theorem mem_filterMap_get {m : Multimap κ ι} {tbl : OrdMap ι δ} {key : δ → ι}
    (hkey : ∀ (i : ι) (d : δ), tbl[i]? = some d → key d = i) (k : κ) (d : δ) :
    d ∈ (m.get k).filterMap (fun i => tbl[i]?) ↔ (k, key d) ∈ m ∧ tbl[key d]? = some d := by
  rw [List.mem_filterMap]
  constructor
  · rintro ⟨i, hi, hd⟩
    obtain rfl := hkey i d hd
    exact ⟨mem_get.mp hi, hd⟩
  · rintro ⟨hi, hd⟩
    exact ⟨key d, mem_get.mpr hi, hd⟩

/-! ### Covering indexes -/

/-- Every row of a table has its entry, and an entry whose row is there is right.  Entries may
outlive their rows, but only rows under used keys ever had one. -/
structure Covering (m : Multimap κ ι) (tbl : OrdMap ι δ) (f : δ → κ) (used : ι → Prop) : Prop where
  covers : ∀ (i : ι) (d : δ), tbl[i]? = some d → (f d, i) ∈ m
  sound : ∀ (k : κ) (i : ι) (d : δ), (k, i) ∈ m → tbl[i]? = some d → f d = k
  used : ∀ (k : κ) (i : ι), (k, i) ∈ m → used i

namespace Covering

variable {m m' : Multimap κ ι} {tbl tbl' : OrdMap ι δ} {f : δ → κ} {used : ι → Prop}

theorem empty (f : δ → κ) (used : ι → Prop) : (empty : Multimap κ ι).Covering ∅ f used := by
  constructor
  · intro i d hi
    simp at hi
  · intro k i d he
    exact absurd he (not_mem_empty _)
  · intro k i he
    exact absurd he (not_mem_empty _)

theorem mono {used' : ι → Prop} (h : m.Covering tbl f used) (hused : ∀ i, used i → used' i) :
    m.Covering tbl f used' := ⟨h.covers, h.sound, fun k i he => hused i (h.used k i he)⟩

/-- A row under a key that was never used, with its entry. -/
theorem insert (h : m.Covering tbl f used) {i : ι} (hi : ¬ used i) (d : δ) :
    (m.insert (f d) i).Covering (tbl.insert i d) f (fun j => used j ∨ j = i) := by
  constructor
  · intro j e hj
    rw [mem_insert]
    rw [OrdMap.get_insert] at hj
    split_ifs at hj with hij
    · obtain rfl := Option.some.inj hj
      exact .inl (by rw [hij])
    · exact .inr (h.covers j e hj)
  · intro k j e he hj
    rw [OrdMap.get_insert] at hj
    rcases mem_insert.mp he with heq | he
    · obtain ⟨rfl, rfl⟩ := Prod.mk.inj heq
      rw [if_pos rfl] at hj
      rw [Option.some.inj hj]
    · have hij : i ≠ j := by
        rintro rfl
        exact hi (h.used k i he)
      rw [if_neg hij] at hj
      exact h.sound k j e he hj
  · intro k j he
    rcases mem_insert.mp he with heq | he
    · exact .inr (congrArg Prod.snd heq)
    · exact .inl (h.used k j he)

/-- Rows go, and entries of rows that are gone. -/
theorem shrink (h : m.Covering tbl f used)
    (hrows : ∀ (i : ι) (d : δ), tbl'[i]? = some d → tbl[i]? = some d)
    (hentries : ∀ e, e ∈ m' → e ∈ m)
    (hkeep : ∀ (i : ι) (d : δ), tbl'[i]? = some d → (f d, i) ∈ m → (f d, i) ∈ m') :
    m'.Covering tbl' f used := by
  constructor
  · intro i d hi
    exact hkeep i d hi (h.covers i d (hrows i d hi))
  · intro k i d he hi
    exact h.sound k i d (hentries _ he) (hrows i d hi)
  · intro k i he
    exact h.used k i (hentries _ he)

/-- The rows looked up under a key are those whose column has that value. -/
theorem mem_filterMap_get (h : m.Covering tbl f used) (k : κ) (d : δ) :
    d ∈ (m.get k).filterMap (fun i => tbl[i]?) ↔ ∃ i : ι, tbl[i]? = some d ∧ f d = k := by
  rw [List.mem_filterMap]
  constructor
  · rintro ⟨i, hi, hd⟩
    exact ⟨i, hd, h.sound k i d (mem_get.mp hi) hd⟩
  · rintro ⟨i, hd, rfl⟩
    exact ⟨i, mem_get.mpr (h.covers i d hd), hd⟩

/-- The rows of a key come out in the order of the table. -/
theorem filterMap_get (h : m.Covering tbl f used) (k : κ) :
    (m.get k).filterMap (fun i => tbl[i]?) = tbl.values.filter fun d => f d = k := by
  rw [← List.filterMap_eq_filter, OrdMap.filterMap_values]
  have hcut : (m.get k).filterMap (fun i => tbl[i]?) =
      (m.get k).filterMap fun i => tbl[i]?.bind (Option.guard fun d => f d = k) := by
    refine List.filterMap_congr fun i hi => ?_
    cases hd : tbl[i]? with
    | none => rfl
    | some d =>
        have hk : f d = k := h.sound k i d (mem_get.mp hi) hd
        simp [Option.guard, hk]
  rw [hcut]
  refine filterMap_congr_of_sorted (m.get_sorted k) ?_ fun i d hi => ?_
  · exact List.pairwise_map.mpr (OrdMap.toList_sorted tbl)
  · obtain ⟨d', hd, hguard⟩ := Option.bind_eq_some_iff.mp hi
    have hk : f d' = k := by
      by_contra hne
      simp [Option.guard, hne] at hguard
    refine iff_of_true (mem_get.mpr (hk ▸ h.covers i d' hd)) ?_
    exact List.mem_map.mpr ⟨(i, d'), (OrdMap.mem_toList tbl i d').mpr hd, rfl⟩

end Covering

end Multimap
