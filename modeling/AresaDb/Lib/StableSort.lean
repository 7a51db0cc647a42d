import Mathlib

/-! # Sorting in rounds

Stable sorts of a list without duplicates.  Sorting by one key and then by another is sorting by the
second one first (`sortOn_sortOn`), so that of a series of rounds the last counts most.

A page of a sorted list is known by its keys: a list of members is a page of some sorted arrangement
when it shows, place by place, the keys of that page of any of them (`page_iff`).

The places of a sorted list are counts: a key has those from the number of members with lesser keys
up to the number of members without greater ones (`getElem_sortOn_key_iff`), and a member has one by
its key and the order it was in (`getElem_sortOn_iff`). -/

namespace StableSort

variable {α β γ : Type}

/-- Sort by a key, members with one key in the order they had. -/
def sortOn [LinearOrder β] (f : α → β) (l : List α) : List α :=
  l.mergeSort fun a b => decide (f a ≤ f b)

/-- The number of members with lesser keys. -/
def before [LinearOrder β] (f : α → β) (l : List α) (x : β) : ℕ := l.countP fun b => f b < x

/-- The number of members with the key or lesser ones. -/
def upTo [LinearOrder β] (f : α → β) (l : List α) (x : β) : ℕ := l.countP fun b => f b ≤ x

/-- The list without its first members, and cut off after the limit if there is one. -/
def page (offset : ℕ) (limit : Option ℕ) (l : List α) : List α :=
  (l.drop offset).take (limit.getD l.length)

/-- A sort asks only how members compare. -/
theorem mergeSort_congr {r s : α → α → Bool} {l : List α} (h : ∀ a ∈ l, ∀ b ∈ l, r a b = s a b) :
    l.mergeSort r = l.mergeSort s := by
  simpa using List.map_mergeSort (f := id) h

/-- A sort by what is a total preorder on the members sorts them. -/
theorem pairwise_mergeSort_of_mem {r : α → α → Bool} {l : List α}
    (htrans : ∀ a ∈ l, ∀ b ∈ l, ∀ c ∈ l, r a b → r b c → r a c)
    (htotal : ∀ a ∈ l, ∀ b ∈ l, r a b || r b a) : (l.mergeSort r).Pairwise fun a b => r a b := by
  let members : {a // a ∈ l} → {a // a ∈ l} → Bool := fun a b => r a b
  have hmembers : ∀ a b c : {a // a ∈ l}, members a b → members b c → members a c :=
    fun a b c => htrans a a.2 b b.2 c c.2
  have hsorted : (l.attach.mergeSort members).Pairwise fun a b => members a b :=
    List.pairwise_mergeSort hmembers (fun a b => htotal a a.2 b b.2) _
  have hmap : (l.attach.mergeSort members).map Subtype.val = l.mergeSort r := by
    rw [List.map_mergeSort (s := r) fun _ _ _ _ => rfl, List.attach_map_subtype_val]
  rw [← hmap, List.pairwise_map]
  exact hsorted

/-! ### Pairs in lists without duplicates -/

theorem pair_sublist_or {l : List α} {a b : α} (ha : a ∈ l) (hb : b ∈ l) (hne : a ≠ b) :
    [a, b].Sublist l ∨ [b, a].Sublist l := by
  induction l with
  | nil => cases ha
  | cons c l ih =>
      obtain rfl | ha := List.mem_cons.mp ha
      · obtain rfl | hb := List.mem_cons.mp hb
        · exact absurd rfl hne
        · exact .inl (.cons_cons _ (List.singleton_sublist.mpr hb))
      · obtain rfl | hb := List.mem_cons.mp hb
        · exact .inr (.cons_cons _ (List.singleton_sublist.mpr ‹_›))
        · exact (ih ha hb).imp (.cons _) (.cons _)

theorem not_pair_sublist_swap {l : List α} (hl : l.Nodup) {a b : α} (h : [a, b].Sublist l) :
    ¬ [b, a].Sublist l := by
  induction l with
  | nil => cases h
  | cons c l ih =>
      obtain ⟨hc, hl⟩ := List.nodup_cons.mp hl
      intro h'
      cases h with
      | cons _ h =>
          cases h' with
          | cons _ h' => exact ih hl h h'
          | cons_cons _ h' => exact hc (h.subset (by simp))
      | cons_cons _ h =>
          cases h' with
          | cons _ h' => exact hc (h'.subset (by simp))
          | cons_cons _ h' => exact hc (h.subset (by simp))

/-! ### Stability -/

section

variable [LinearOrder β] [LinearOrder γ] (f : α → β) (g : α → γ) (l : List α)

theorem sortOn_perm : (sortOn f l).Perm l := List.mergeSort_perm _ _

theorem decide_trans (a b c : α) (hab : decide (f a ≤ f b)) (hbc : decide (f b ≤ f c)) :
    decide (f a ≤ f c) := by
  simp only [decide_eq_true_eq] at *
  exact hab.trans hbc

theorem decide_total (a b : α) : decide (f a ≤ f b) || decide (f b ≤ f a) := by
  simpa using le_total (f a) (f b)

theorem sortOn_sorted : (sortOn f l).Pairwise fun a b => f a ≤ f b :=
  (List.pairwise_mergeSort (decide_trans f) (decide_total f) l).imp of_decide_eq_true

variable {l} in
theorem sortOn_congr {f : α → β} {g : α → γ}
    (h : ∀ a ∈ l, ∀ b ∈ l, f a ≤ f b ↔ g a ≤ g b) : sortOn f l = sortOn g l :=
  mergeSort_congr fun a ha b hb => decide_eq_decide.mpr (h a ha b hb)

variable {f l} in
/-- A list sorted by a comparison that is the one of the keys. -/
theorem mergeSort_sorted {r : α → α → Bool} (h : ∀ a ∈ l, ∀ b ∈ l, r a b = true ↔ f a ≤ f b) :
    (l.mergeSort r).Pairwise fun a b => f a ≤ f b := by
  have hsort : l.mergeSort r = sortOn f l := mergeSort_congr fun a ha b hb => by
    rw [Bool.eq_iff_iff, h a ha b hb, decide_eq_true_iff]
  rw [hsort]
  exact sortOn_sorted f l

variable {f} in
/-- A sort by a key that never decreases changes nothing. -/
theorem sortOn_const (h : ∀ a b, f a ≤ f b) : sortOn f l = l :=
  List.mergeSort_of_pairwise (List.pairwise_of_forall fun a b => decide_eq_true (h a b))

/-- A sort keeps the relation that holds along the list among members with one key. -/
theorem sortOn_stable {R : α → α → Prop} {l : List α} (hl : l.Nodup) (h : l.Pairwise R) :
    (sortOn f l).Pairwise fun a b => f a < f b ∨ f a = f b ∧ R a b := by
  rw [List.pairwise_iff_forall_sublist]
  intro a b hab
  obtain hlt | heq := (List.pairwise_iff_forall_sublist.mp (sortOn_sorted f l) hab).lt_or_eq
  · exact .inl hlt
  · have hnodup : (sortOn f l).Nodup := (sortOn_perm f l).nodup_iff.mpr hl
    have hne : a ≠ b := by
      simpa using (List.Nodup.sublist hab hnodup)
    have ha : a ∈ l := (sortOn_perm f l).mem_iff.mp (hab.subset (by simp))
    have hb : b ∈ l := (sortOn_perm f l).mem_iff.mp (hab.subset (by simp))
    refine .inr ⟨heq, ?_⟩
    obtain hpair | hpair := pair_sublist_or ha hb hne
    · exact List.pairwise_iff_forall_sublist.mp h hpair
    · -- The sort does not turn the pair around.
      exact absurd (List.pair_sublist_mergeSort (decide_trans f) (decide_total f)
        (decide_eq_true heq.ge) hpair) (not_pair_sublist_swap hnodup hab)

/-- Two arrangements of one list that keep its order among ties are the same. -/
theorem eq_of_stable {l l₁ l₂ : List α} (hl : l.Nodup) (h₁ : l₁.Perm l) (h₂ : l₂.Perm l)
    (hs₁ : l₁.Pairwise fun a b => f a < f b ∨ f a = f b ∧ [a, b].Sublist l)
    (hs₂ : l₂.Pairwise fun a b => f a < f b ∨ f a = f b ∧ [a, b].Sublist l) : l₁ = l₂ := by
  refine (h₁.trans h₂.symm).eq_of_pairwise (fun a b _ _ hab hba => ?_) hs₁ hs₂
  obtain hab | ⟨heq, hab⟩ := hab
  · obtain hba | ⟨heq, -⟩ := hba
    · exact absurd hba hab.not_gt
    · exact absurd heq hab.ne'
  · obtain hba | ⟨-, hba⟩ := hba
    · exact absurd heq hba.ne'
    · exact absurd hba (not_pair_sublist_swap hl hab)

theorem pairwise_sublist (l : List α) : l.Pairwise fun a b => [a, b].Sublist l :=
  List.pairwise_iff_forall_sublist.mpr fun h => h

/-- Sorting by `g` and then by `f` is sorting by `f`, and by `g` where it ties. -/
theorem sortOn_sortOn {l : List α} (hl : l.Nodup) :
    sortOn f (sortOn g l) = sortOn (fun a => toLex (f a, g a)) l := by
  have hg := sortOn_perm g l
  have hrounds := sortOn_stable f (hg.nodup_iff.mpr hl) (sortOn_stable g hl (pairwise_sublist l))
  refine eq_of_stable (fun a => toLex (f a, g a)) hl ((sortOn_perm f _).trans hg)
    (sortOn_perm _ l) ?_ (sortOn_stable _ hl (pairwise_sublist l))
  refine hrounds.imp fun {a b} h => ?_
  rw [Prod.Lex.toLex_lt_toLex, toLex_inj, Prod.mk.injEq]
  obtain hf | ⟨hf, hg | ⟨hg, hab⟩⟩ := h
  · exact .inl (.inl hf)
  · exact .inl (.inr ⟨hf, hg⟩)
  · exact .inr ⟨⟨hf, hg⟩, hab⟩

end

/-! ### Places -/

section

variable [LinearOrder β] [LinearOrder γ] {f : α → β} {g : α → γ} {l : List α} {i : ℕ}

/-- Members with a property that all before them share are those at the places below their number.
-/
theorem getElem_iff_lt_countP {p : α → Bool} (h : l.Pairwise fun a b => p b → p a)
    (hi : i < l.length) : p l[i] ↔ i < l.countP p := by
  induction l generalizing i with
  | nil => cases hi
  | cons a l ih =>
      obtain ⟨ha, hl⟩ := List.pairwise_cons.mp h
      by_cases hp : p a
      · rw [List.countP_cons_of_pos hp]
        cases i with
        | zero => exact iff_of_true hp (Nat.succ_pos _)
        | succ i => exact (ih hl (Nat.lt_of_succ_lt_succ hi)).trans Nat.succ_lt_succ_iff.symm
      · -- The property has ended before the first member.
        have hnone : ∀ b ∈ a :: l, ¬ p b := by
          intro b hb hpb
          obtain rfl | hb := List.mem_cons.mp hb
          · exact hp hpb
          · exact hp (ha b hb hpb)
        rw [List.countP_eq_zero.mpr hnone]
        exact iff_of_false (hnone _ (List.getElem_mem hi)) (Nat.not_lt_zero i)

/-- A place of a sorted list has the key whose members it is among. -/
theorem getElem_sortOn_key_iff (hi : i < (sortOn f l).length) (x : β) :
    f (sortOn f l)[i] = x ↔ before f l x ≤ i ∧ i < upTo f l x := by
  unfold before upTo
  have hsorted := sortOn_sorted f l
  have hlt := getElem_iff_lt_countP (p := fun b => f b < x)
    (hsorted.imp fun hab hb => decide_eq_true (hab.trans_lt (of_decide_eq_true hb))) hi
  have hle := getElem_iff_lt_countP (p := fun b => f b ≤ x)
    (hsorted.imp fun hab hb => decide_eq_true (hab.trans (of_decide_eq_true hb))) hi
  rw [decide_eq_true_iff] at hlt hle
  rw [(sortOn_perm f l).countP_eq] at hlt hle
  rw [← not_lt, ← hlt, ← hle, not_lt, le_antisymm_iff, and_comm]

/-- The place of a member in a list whose keys increase. -/
theorem getElem_iff_before_eq (h : l.Pairwise fun a b => f a < f b) {a : α} (ha : a ∈ l)
    (hi : i < l.length) : l[i] = a ↔ before f l (f a) = i := by
  have hplace : ∀ (j : ℕ) (hj : j < l.length), before f l (f l[j]) = j := by
    intro j hj
    unfold before
    have hcount : ∀ (k : ℕ) (hk : k < l.length),
        f l[k] < f l[j] ↔ k < l.countP fun b => f b < f l[j] := by
      intro k hk
      rw [← getElem_iff_lt_countP (p := fun b => f b < f l[j]) ?_ hk, decide_eq_true_iff]
      exact h.imp fun hab hb => decide_eq_true (hab.trans (of_decide_eq_true hb))
    refine le_antisymm (not_lt.mp fun hlt => ?_) (not_lt.mp fun hlt => ?_)
    · exact ((hcount j hj).mpr hlt).false
    · have hk := hlt.trans hj
      have hkey := List.pairwise_iff_getElem.mp h _ _ hk hj hlt
      exact ((hcount _ hk).mp hkey).false
  constructor
  · rintro rfl
    exact hplace i hi
  · rintro rfl
    obtain ⟨j, hj, rfl⟩ := List.mem_iff_getElem.mp ha
    simp only [hplace j hj]

/-- The place of a member of a list, whose order decides ties, in the sorted list. -/
theorem getElem_sortOn_iff (hg : l.Pairwise fun a b => g a < g b) {a : α} (ha : a ∈ l)
    (hi : i < (sortOn f l).length) :
    (sortOn f l)[i] = a ↔ before (fun b => toLex (f b, g b)) l (toLex (f a, g a)) = i := by
  have hnodup : l.Nodup := hg.imp fun {a b} hab heq => (heq ▸ hab).false
  have hstrict : (sortOn f l).Pairwise fun a b => toLex (f a, g a) < toLex (f b, g b) :=
    (sortOn_stable f hnodup hg).imp fun h => Prod.Lex.toLex_lt_toLex.mpr h
  rw [getElem_iff_before_eq (f := fun a => toLex (f a, g a)) hstrict
    ((sortOn_perm f l).mem_iff.mpr ha) hi, before, (sortOn_perm f l).countP_eq, before]

end

/-! ### Pages -/

/-- The keys of a sorted arrangement. -/
theorem map_eq_of_sorted [LinearOrder β] {f : α → β} {l l' : List α} (hperm : l.Perm l')
    (hl : l.Pairwise fun a b => f a ≤ f b) (hl' : l'.Pairwise fun a b => f a ≤ f b) :
    l.map f = l'.map f := by
  refine (hperm.map f).eq_of_pairwise (fun _ _ _ _ => le_antisymm) ?_ ?_
  · exact List.pairwise_map.mpr hl
  · exact List.pairwise_map.mpr hl'

theorem map_page (f : α → β) (offset : ℕ) (limit : Option ℕ) (l : List α) :
    (page offset limit l).map f = page offset limit (l.map f) := by
  unfold page
  rw [List.map_take, List.map_drop, List.length_map]

/-- A list around one of its pages. -/
theorem page_split (offset : ℕ) (limit : Option ℕ) (l : List α) :
    l.take offset ++ page offset limit l ++
      (l.drop offset).drop (limit.getD l.length) = l := by
  unfold page
  rw [List.append_assoc, List.take_append_drop, List.take_append_drop]

/-- A list put together around a page of its length has it there. -/
theorem page_append {front middle back : List α} {offset : ℕ} {limit : Option ℕ}
    (hfront : front.length = offset)
    (hmiddle : middle.length = limit.getD (front ++ middle ++ back).length ∨
      back = [] ∧ middle.length ≤ limit.getD (front ++ middle ++ back).length) :
    page offset limit (front ++ middle ++ back) = middle := by
  unfold page
  rw [List.append_assoc, List.drop_append_of_le_length hfront.ge, ← hfront, List.drop_length,
    List.nil_append]
  rw [List.append_assoc] at hmiddle
  obtain hfull | ⟨rfl, hle⟩ := hmiddle
  · rw [List.take_append_of_le_length hfull.ge, ← hfull, List.take_length]
  · rw [List.append_nil] at hle ⊢
    exact List.take_of_length_le hle

theorem page_sublist (offset : ℕ) (limit : Option ℕ) (l : List α) :
    (page offset limit l).Sublist l := (List.take_sublist _ _).trans (List.drop_sublist _ _)

theorem length_page (offset : ℕ) (limit : Option ℕ) (l : List α) :
    (page offset limit l).length = min (limit.getD l.length) (l.length - offset) := by
  rw [page, List.length_take, List.length_drop]

theorem lt_length_page_iff {offset : ℕ} {limit : Option ℕ} {l : List α} {i : ℕ} :
    i < (page offset limit l).length ↔ offset + i < l.length ∧ ∀ n, limit = some n → i < n := by
  rw [length_page, lt_min_iff]
  cases limit with
  | none =>
      simp only [Option.getD_none, reduceCtorEq, false_implies, implies_true, and_true]
      omega
  | some n =>
      simp only [Option.getD_some, Option.some.injEq, forall_eq']
      omega

/-- The rows of a page are those at the places from its beginning. -/
theorem getElem_page {offset : ℕ} {limit : Option ℕ} {l : List α} {i : ℕ}
    (hi : i < (page offset limit l).length) (hi' : offset + i < l.length) :
    (page offset limit l)[i] = l[offset + i] := by
  simp only [page, List.getElem_take, List.getElem_drop]

/-- A list is what it has outside a part of it, and the part. -/
theorem filter_append_perm_of_subset [DecidableEq α] {l r : List α} (hl : l.Nodup) (hr : r.Nodup)
    (hsub : r ⊆ l) : (l.filter (· ∉ r) ++ r).Perm l := by
  have hpart : (l.filter (· ∈ r)).Perm r := by
    rw [List.perm_ext_iff_of_nodup (hl.filter _) hr]
    intro a
    rw [List.mem_filter, decide_eq_true_eq]
    exact and_iff_right_of_imp fun ha => hsub ha
  have hall := List.filter_append_perm (· ∉ r) l
  simp only [decide_not, Bool.not_not] at hall ⊢
  exact (hpart.symm.append_left _).trans hall

/-- The keys of a sorted list without some members whose keys are those of a page. -/
theorem map_sortOn_rest [LinearOrder β] (f : α → β) {l rest r front middle back : List α}
    (hperm : (rest ++ r).Perm l) (hsplit : front ++ middle ++ back = sortOn f l)
    (hkeys : r.map f = middle.map f) : (sortOn f rest).map f = (front ++ back).map f := by
  have hsorted := sortOn_sorted f l
  rw [← hsplit] at hsorted
  have hsub : (front ++ back).Sublist (front ++ middle ++ back) := by
    rw [List.append_assoc]
    exact (List.sublist_append_right middle back).append_left front
  have hcount : ((sortOn f rest).map f ++ r.map f).Perm ((front ++ back).map f ++ r.map f) := by
    calc (sortOn f rest).map f ++ r.map f
        = (sortOn f rest ++ r).map f := List.map_append.symm
      _ |>.Perm ((rest ++ r).map f) := ((sortOn_perm f rest).append_right r).map f
      _ |>.Perm ((sortOn f l).map f) := (hperm.trans (sortOn_perm f l).symm).map f
      _ = (front ++ middle ++ back).map f := by rw [hsplit]
      _ |>.Perm ((front ++ back ++ middle).map f) := by
          rw [List.append_assoc, List.append_assoc]
          exact (List.perm_append_comm.append_left front).map f
      _ = (front ++ back).map f ++ r.map f := by rw [List.map_append, hkeys]
  refine ((List.perm_append_right_iff _).mp hcount).eq_of_pairwise
    (fun _ _ _ _ => le_antisymm) ?_ ?_
  · exact List.pairwise_map.mpr (sortOn_sorted f rest)
  · exact List.pairwise_map.mpr (hsorted.sublist hsub)

/-- The pages of the sorted arrangements of a list are those of its members, without duplicates,
that have the keys of the page. -/
theorem page_iff [LinearOrder β] (f : α → β) {l r : List α} (hl : l.Nodup) (offset : ℕ)
    (limit : Option ℕ) :
    (∃ sorted : List α, sorted.Perm l ∧ sorted.Pairwise (fun a b => f a ≤ f b) ∧
        r = page offset limit sorted) ↔
      r.Nodup ∧ r ⊆ l ∧ r.map f = (page offset limit (sortOn f l)).map f := by
  classical
  constructor
  · rintro ⟨sorted, hperm, hsorted, rfl⟩
    have hsub := page_sublist offset limit sorted
    refine ⟨(hperm.nodup_iff.mpr hl).sublist hsub, fun a ha =>
      hperm.mem_iff.mp (hsub.subset ha), ?_⟩
    rw [map_page, map_page, map_eq_of_sorted (hperm.trans (sortOn_perm f l).symm) hsorted
      (sortOn_sorted f l)]
  · rintro ⟨hr, hsub, hkeys⟩
    by_cases hoffset : (sortOn f l).length < offset
    · -- Nothing is left after the offset.
      have hnil : page offset limit (sortOn f l) = [] := by
        rw [page, List.drop_of_length_le hoffset.le, List.take_nil]
      rw [hnil, List.map_nil, List.map_eq_nil_iff] at hkeys
      exact ⟨_, sortOn_perm f l, sortOn_sorted f l, hkeys.trans hnil.symm⟩
    · let rest := l.filter (· ∉ r)
      have hperm : (rest ++ r).Perm l := filter_append_perm_of_subset hl hr hsub
      have hsplit := page_split offset limit (sortOn f l)
      have hrest := map_sortOn_rest f hperm hsplit hkeys
      have hfront : ((sortOn f l).take offset).length = offset := by
        rw [List.length_take]
        omega
      have htake : ((sortOn f rest).take offset).map f = ((sortOn f l).take offset).map f := by
        rw [List.map_take, hrest, List.map_append,
          List.take_left' (by rw [List.length_map, hfront])]
      have hdrop : ((sortOn f rest).drop offset).map f =
          (((sortOn f l).drop offset).drop (limit.getD (sortOn f l).length)).map f := by
        rw [List.map_drop, hrest, List.map_append,
          List.drop_left' (by rw [List.length_map, hfront])]
      have hmap : ((sortOn f rest).take offset ++ r ++ (sortOn f rest).drop offset).map f =
          (sortOn f l).map f := by
        rw [List.map_append, List.map_append, htake, hkeys, hdrop, ← List.map_append,
          ← List.map_append, hsplit]
      refine ⟨(sortOn f rest).take offset ++ r ++ (sortOn f rest).drop offset, ?_, ?_, ?_⟩
      · refine List.Perm.trans ?_ (((sortOn_perm f rest).append_right r).trans hperm)
        rw [List.append_assoc]
        refine (List.perm_append_comm.append_left _).trans ?_
        rw [← List.append_assoc, List.take_append_drop]
      · refine List.pairwise_map.mp ?_
        rw [hmap]
        exact List.pairwise_map.mpr (sortOn_sorted f l)
      · have hlength : ((sortOn f rest).take offset ++ r ++ (sortOn f rest).drop offset).length =
            (sortOn f l).length := by
          simpa using congrArg List.length hmap
        have hr : r.length = min (limit.getD (sortOn f l).length)
            ((sortOn f l).length - offset) := by
          have h := congrArg List.length hkeys
          rwa [List.length_map, List.length_map, page, List.length_take, List.length_drop] at h
        have hback := congrArg List.length hdrop
        simp only [List.length_map, List.length_drop] at hback
        refine (page_append ?_ ?_).symm
        · have h := congrArg List.length htake
          rwa [List.length_map, List.length_map, hfront] at h
        · rw [hlength]
          by_cases hfull : r.length = limit.getD (sortOn f l).length
          · exact .inl hfull
          · refine .inr ⟨List.eq_nil_of_length_eq_zero ?_, by omega⟩
            rw [List.length_drop]
            omega

end StableSort
