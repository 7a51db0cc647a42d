import AresaDb.Lib.BestFirst

/-! # Nearest neighbours

What a best-first search finds when the distances are in a linear order: its results come in
ascending order, and what is cut off is no nearer than what is left (`Nearest`).  A heap that lets
go of its farthest element whenever it has more than `k` keeps the `k` nearest ones
(`nearest_sorted`).

A search that is given enough rounds comes to its end, and is then the search that is cut off after
as many candidates as there are vertices (`loop_explore`). -/

namespace BestFirst

open BinaryHeap

/-! ### The nearest ones -/

section

variable {β δ : Type} [LinearOrder δ] {key : β → δ} {all l : List β} {k : ℕ}

/-- A list of `k` elements, or all of them if there are fewer, such that none of the rest is nearer.
-/
def Chosen (k : ℕ) (key : β → δ) (all l : List β) : Prop :=
  l.length ≤ k ∧ ∃ rest, (l ++ rest).Perm all ∧ (rest = [] ∨ l.length = k) ∧
    ∀ x ∈ l, ∀ y ∈ rest, key x ≤ key y

/-- The nearest elements, in ascending order. -/
structure Nearest (k : ℕ) (key : β → δ) (all l : List β) : Prop where
  chosen : Chosen k key all l
  sorted : l.Pairwise fun x y => key x ≤ key y

theorem Chosen.perm {l' : List β} (h : Chosen k key all l) (hl : l'.Perm l) :
    Chosen k key all l' := by
  obtain ⟨hlength, rest, hperm, hfull, hle⟩ := h
  rw [← hl.length_eq] at hlength hfull
  exact ⟨hlength, rest, (hl.append_right rest).trans hperm, hfull,
    fun x hx => hle x (hl.mem_iff.mp hx)⟩

/-- What is cut off from a sorted list is no nearer than what is left. -/
theorem nearest_take (h : all.Pairwise fun x y => key x ≤ key y) (k : ℕ) :
    Nearest k key all (all.take k) := by
  have hsplit := h
  rw [← List.take_append_drop k all, List.pairwise_append] at hsplit
  refine ⟨⟨List.length_take_le _ _, all.drop k, ?_, ?_, hsplit.2.2⟩, hsplit.1⟩
  · rw [List.take_append_drop]
  · by_cases hk : k < all.length
    · exact .inr (by rw [List.length_take]; omega)
    · exact .inl (List.drop_eq_nil_of_le (by omega))

/-- A list of elements, each once, that has every element or is full of ones no farther. -/
theorem chosen_of_mem (hall : all.Nodup) (hl : l.Nodup) (hsub : l ⊆ all) (hlength : l.length ≤ k)
    (hle : ∀ y ∈ all, y ∈ l ∨ l.length = k ∧ ∀ x ∈ l, key x ≤ key y) : Chosen k key all l := by
  classical
  have hperm : (l ++ all.filter fun y => y ∉ l).Perm all := by
    refine (List.perm_ext_iff_of_nodup ?_ hall).mpr fun y => ?_
    · refine List.nodup_append'.mpr ⟨hl, hall.filter _, fun y hy hy' => ?_⟩
      exact of_decide_eq_true (List.mem_filter.mp hy').2 hy
    · rw [List.mem_append, List.mem_filter, decide_eq_true_iff]
      constructor
      · rintro (hy | ⟨hy, -⟩)
        · exact hsub hy
        · exact hy
      · intro hy
        by_cases hin : y ∈ l
        · exact .inl hin
        · exact .inr ⟨hy, hin⟩
  have hrest : ∀ y ∈ all.filter fun y => y ∉ l, l.length = k ∧ ∀ x ∈ l, key x ≤ key y := by
    intro y hy
    obtain ⟨hy, hin⟩ := List.mem_filter.mp hy
    exact (hle y hy).resolve_left (of_decide_eq_true hin)
  refine ⟨hlength, _, hperm, ?_, fun x hx y hy => (hrest y hy).2 x hx⟩
  cases hcut : all.filter fun y => y ∉ l with
  | nil => exact .inl rfl
  | cons y rest => exact .inr (hrest y (by rw [hcut]; exact List.mem_cons_self)).1

/-- Keys that are in the same order on all elements. -/
theorem Nearest.congr {δ' : Type} [LinearOrder δ'] {key' : β → δ'} (h : Nearest k key all l)
    (hkey : ∀ x ∈ all, ∀ y ∈ all, key x ≤ key y → key' x ≤ key' y) : Nearest k key' all l := by
  obtain ⟨⟨hlength, rest, hperm, hfull, hle⟩, hsorted⟩ := h
  have hl : ∀ x ∈ l, x ∈ all := fun x hx => hperm.mem_iff.mp (List.mem_append_left _ hx)
  have hr : ∀ y ∈ rest, y ∈ all := fun y hy => hperm.mem_iff.mp (List.mem_append_right _ hy)
  exact ⟨⟨hlength, rest, hperm, hfull, fun x hx y hy =>
    hkey x (hl x hx) y (hr y hy) (hle x hx y hy)⟩,
    hsorted.imp_of_mem fun {x y} hx hy hxy => hkey x (hl x hx) y (hl y hy) hxy⟩

/-- The nearest keys are the first ones of the sorted keys. -/
theorem Nearest.keys (h : Nearest k key all l) :
    l.map key = ((all.map key).insertionSort (· ≤ ·)).take k := by
  obtain ⟨⟨hlength, rest, hperm, hfull, hle⟩, hsorted⟩ := h
  have hsort : (all.map key).insertionSort (· ≤ ·) =
      l.map key ++ (rest.map key).insertionSort (· ≤ ·) := by
    refine List.Perm.eq_of_pairwise' (r := (· ≤ ·)) ?_ ?_ ?_
    · exact List.pairwise_insertionSort _ _
    · refine List.pairwise_append.mpr
        ⟨List.pairwise_map.mpr hsorted, List.pairwise_insertionSort _ _, ?_⟩
      intro d hd d' hd'
      obtain ⟨x, hx, rfl⟩ := List.mem_map.mp hd
      obtain ⟨y, hy, rfl⟩ := List.mem_map.mp ((List.mem_insertionSort _).mp hd')
      exact hle x hx y hy
    · refine (List.perm_insertionSort _ _).trans ((hperm.map key).symm.trans ?_)
      rw [List.map_append]
      exact (List.perm_insertionSort _ _).symm.append_left _
  rw [hsort]
  obtain rfl | hfull := hfull
  · rw [List.map_nil, List.insertionSort_nil, List.append_nil, List.take_of_length_le]
    rwa [List.length_map]
  · rw [List.take_left' (by rwa [List.length_map])]

/-- The nearest ones of the same keys have the same keys. -/
theorem Nearest.keys_eq {β' : Type} {key' : β' → δ} {all' l' : List β'} (h : Nearest k key all l)
    (h' : Nearest k key' all' l') (hperm : (all.map key).Perm (all'.map key')) :
    l.map key = l'.map key' := by
  rw [h.keys, h'.keys]
  congr 1
  refine List.Perm.eq_of_pairwise' (r := (· ≤ ·)) (List.pairwise_insertionSort _ _)
    (List.pairwise_insertionSort _ _) ?_
  exact (List.perm_insertionSort _ _).trans (hperm.trans (List.perm_insertionSort _ _).symm)

/-- A heap of no more than `k` elements takes one more, and lets go of the one that comes out first
when these are too many. -/
def keep (before : β → β → Bool) (k : ℕ) (heap : List β) (x : β) : List β :=
  if k < (push before heap x).length then
    ((pop before (push before heap x)).map Prod.snd).getD []
  else push before heap x

variable {before : β → β → Bool}

theorem keep_map {γ : Type} {before' : γ → γ → Bool} {f : β → γ}
    (h : ∀ x y, before' (f x) (f y) = before x y) (heap : List β) (x : β) :
    (keep before k heap x).map f = keep before' k (heap.map f) (f x) := by
  unfold keep
  rw [push_map h, List.length_map, pop_map h]
  split_ifs
  · cases pop before (push before heap x) <;> rfl
  · rfl

theorem keeps_map {γ : Type} (before : β → β → Bool) (before' : γ → γ → Bool) (f : β → γ)
    (h : ∀ x y, before' (f x) (f y) = before x y) (xs heap : List β) :
    (xs.foldl (keep before k) heap).map f = (xs.map f).foldl (keep before' k) (heap.map f) := by
  induction xs generalizing heap with
  | nil => rfl
  | cons x xs ih => rw [List.foldl_cons, ih, keep_map h, List.map_cons, List.foldl_cons]

/-- What a heap is that has taken one more, and may have let go of one. -/
theorem keep_cases (before : β → β → Bool) (k : ℕ) (heap : List β) (x : β) :
    (heap.length < k ∧ keep before k heap x = push before heap x) ∨
      k ≤ heap.length ∧ ∃ m, pop before (push before heap x) = some (m, keep before k heap x) := by
  unfold keep
  rw [length_push]
  split_ifs with hk
  · refine .inr ⟨by omega, ?_⟩
    cases hpop : pop before (push before heap x) with
    | none =>
        have hlength := length_push before heap x
        rw [(pop_eq_none before).mp hpop] at hlength
        cases hlength
    | some e => exact ⟨e.1, rfl⟩
  · exact .inl ⟨by omega, rfl⟩

theorem keep_subperm (heap : List β) (x : β) : (keep before k heap x).Subperm (x :: heap) := by
  rcases keep_cases before k heap x with ⟨-, heq⟩ | ⟨-, m, hpop⟩
  · rw [heq]
    exact (push_perm before heap x).subperm
  · exact (List.sublist_cons_self m _).subperm.trans
      ((pop_perm before hpop).trans (push_perm before heap x)).subperm

theorem keep_ordered (hs : ByKey key before {y | y ∈ all}) (hsub : l ⊆ all) {x : β} (hx : x ∈ all)
    (h : Ordered key l) : Ordered key (keep before k l x) := by
  have hpush : Ordered key (push before l x) := push_ordered hs hx (fun y hy => hsub hy) h
  rcases keep_cases before k l x with ⟨-, heq⟩ | ⟨-, m, hpop⟩
  · rwa [heq]
  · refine pop_ordered hs (fun y hy => ?_) hpush hpop
    rcases (mem_push before).mp hy with rfl | hy
    · exact hx
    · exact hsub hy

theorem Chosen.keep (h : Chosen k key all l) (hl : Ordered key l) (x : β)
    (hbefore : ByKey key before {y | y ∈ x :: all}) :
    Chosen k key (x :: all) (keep before k l x) := by
  obtain ⟨hlength, rest, hperm, hfull, hle⟩ := h
  have hsub : l ⊆ x :: all :=
    fun y hy => List.mem_cons_of_mem x (hperm.subset (List.mem_append_left _ hy))
  rcases keep_cases before k l x with ⟨hlt, heq⟩ | ⟨hk, m, hpop⟩
  · rw [heq]
    obtain rfl : rest = [] := hfull.resolve_right (by omega)
    refine ⟨by rw [length_push]; omega, [], ?_, .inl rfl, fun _ _ _ hy =>
      (List.not_mem_nil hy).elim⟩
    exact ((push_perm before l x).append_right []).trans (hperm.cons x)
  · have hgreatest := pop_greatest (push_ordered hbefore List.mem_cons_self
      (fun y hy => hsub hy) hl) hpop
    have hheap := (pop_perm before hpop).trans (push_perm before l x)
    have hlen := hheap.length_eq
    rw [List.length_cons, List.length_cons] at hlen
    refine ⟨by omega, m :: rest, ?_, .inr (by omega), ?_⟩
    · exact (List.perm_middle.trans (hheap.append_right rest)).trans (hperm.cons x)
    · intro y hy z hz
      have hym : key y ≤ key m :=
        hgreatest y ((pop_perm before hpop).mem_iff.mp (List.mem_cons_of_mem _ hy))
      obtain rfl | hz := List.mem_cons.mp hz
      · exact hym
      · -- what left before is no nearer than the elements that stayed then
        obtain hm | hm := List.mem_cons.mp (hheap.mem_iff.mp List.mem_cons_self)
        · have hsame : (BestFirst.keep before k l x).Perm l :=
            List.Perm.cons_inv (a := m) (by rwa [hm] at hheap ⊢)
          exact hle y (hsame.mem_iff.mp hy) z hz
        · exact hym.trans (hle m hm z hz)

/-- The heap keeps the nearest elements. -/
theorem chosen_keeps (k : ℕ) (all : List β)
    (hbefore : ∀ x ∈ all, ∀ y ∈ all, before x y = true ↔ key y < key x) :
    Chosen k key all (all.foldl (keep before k) []) := by
  have hsteps : ∀ (xs seen heap : List β), seen ++ xs ⊆ all → Chosen k key seen heap →
      Ordered key heap → Chosen k key (seen ++ xs) (xs.foldl (keep before k) heap) := by
    intro xs
    induction xs with
    | nil =>
        intro seen heap _ h _
        rwa [List.append_nil]
    | cons x xs ih =>
        intro seen heap hsub h hheap
        have hsub' : (x :: seen) ++ xs ⊆ all :=
          fun y hy => hsub (List.perm_middle.mem_iff.mpr hy)
        have hin : x :: seen ⊆ all := fun y hy => hsub' (List.mem_append_left xs hy)
        have hkeys : ByKey key before {y | y ∈ x :: seen} :=
          fun y hy z hz => hbefore y (hin hy) z (hin hz)
        have hmem : heap ⊆ x :: seen := by
          obtain ⟨-, rest, hperm, -⟩ := h
          exact fun y hy => List.mem_cons_of_mem x (hperm.subset (List.mem_append_left _ hy))
        have hkeep := ih (x :: seen) _ hsub' (h.keep hheap x hkeys)
          (keep_ordered hkeys hmem List.mem_cons_self hheap)
        obtain ⟨hlength, rest, hperm, hle⟩ := hkeep
        exact ⟨hlength, rest, hperm.trans List.perm_middle.symm, hle⟩
  exact hsteps all [] [] (List.Subset.refl all) ⟨Nat.zero_le _, [], .refl _, .inl rfl, nofun⟩
    ordered_nil

end

/-! ### The search to its end -/

section

variable {α δ : Type} [DecidableEq α] (look : α → Option (δ × List α)) (lt : δ → δ → Bool)
  (width : ℕ)

/-- The search, for a number of rounds: `none` when it has not ended by then. -/
def loop : ℕ → State α δ → Option (State α δ)
  | 0, _ => none
  | fuel + 1, s =>
      match pop (closer lt) s.candidates with
      | none => some s
      | some ((a, d), rest) =>
          if ends lt width s.results d then some { s with candidates := rest }
          else
            match look a with
            | none => loop fuel { s with candidates := rest }
            | some (_, next) =>
                loop fuel (next.foldl (visit look lt width) { s with candidates := rest })

variable {look lt width} {s s' : State α δ}

/-- More rounds change nothing once the search has ended. -/
theorem loop_le {fuel fuel' : ℕ} (h : loop look lt width fuel s = some s') (hle : fuel ≤ fuel') :
    loop look lt width fuel' s = some s' := by
  induction fuel generalizing s fuel' with
  | zero => cases h
  | succ fuel ih =>
      obtain ⟨n, rfl⟩ : ∃ n, fuel' = n + 1 := ⟨fuel' - 1, by omega⟩
      rw [loop] at h ⊢
      cases hpop : pop (closer lt) s.candidates with
      | none =>
          rw [hpop] at h
          exact h
      | some e =>
          obtain ⟨⟨a, d⟩, rest⟩ := e
          rw [hpop] at h
          dsimp only at h ⊢
          by_cases hends : ends lt width s.results d = true
          · rw [if_pos hends] at h ⊢
            exact h
          · rw [if_neg hends] at h ⊢
            cases hlook : look a with
            | none =>
                rw [hlook] at h
                exact ih h (by omega)
            | some _ =>
                rw [hlook] at h
                exact ih h (by omega)

/-- The visited vertices are there, each once. -/
structure Marked (look : α → Option (δ × List α)) (s : State α δ) : Prop where
  nodup : s.visited.Nodup
  there : ∀ a ∈ s.visited, (look a).isSome

omit [DecidableEq α] in
theorem Marked.length_le (h : Marked look s) {vertices : List α}
    (hvertices : ∀ a, (look a).isSome → a ∈ vertices) : s.visited.length ≤ vertices.length :=
  (List.subperm_of_subset h.nodup fun a ha => hvertices a (h.there a ha)).length_le

/-- A visit makes no more candidates than visited vertices. -/
theorem Marked.visit (lt : δ → δ → Bool) (width : ℕ) (h : Marked look s) (a : α) :
    Marked look (visit look lt width s a) ∧
      (BestFirst.visit look lt width s a).candidates.length + s.visited.length ≤
        s.candidates.length + (BestFirst.visit look lt width s a).visited.length := by
  unfold BestFirst.visit
  split_ifs with ha
  · exact ⟨h, le_rfl⟩
  cases hlook : look a with
  | none => exact ⟨h, le_rfl⟩
  | some e =>
      have hnodup : (a :: s.visited).Nodup := List.nodup_cons.mpr ⟨ha, h.nodup⟩
      have hthere : ∀ b ∈ a :: s.visited, (look b).isSome :=
        List.forall_mem_cons.mpr ⟨Option.isSome_of_eq_some hlook, h.there⟩
      dsimp only
      split_ifs
      · exact ⟨⟨hnodup, hthere⟩, by simp only [length_push, List.length_cons]; omega⟩
      · exact ⟨⟨hnodup, hthere⟩, by simp only [List.length_cons]; omega⟩

theorem Marked.visits (lt : δ → δ → Bool) (width : ℕ) (h : Marked look s) (next : List α) :
    Marked look (next.foldl (BestFirst.visit look lt width) s) ∧
      (next.foldl (BestFirst.visit look lt width) s).candidates.length + s.visited.length ≤
        s.candidates.length + (next.foldl (BestFirst.visit look lt width) s).visited.length := by
  induction next generalizing s with
  | nil => exact ⟨h, le_rfl⟩
  | cons a next ih =>
      obtain ⟨hvisit, hcount⟩ := h.visit lt width a
      obtain ⟨hvisits, hcount'⟩ := ih hvisit
      exact ⟨hvisits, by rw [List.foldl_cons]; omega⟩

/-- Every vertex is a candidate once at most, so the search ends. -/
theorem loop_explore (h : Marked look s) {vertices : List α}
    (hvertices : ∀ a, (look a).isSome → a ∈ vertices) {fuel : ℕ}
    (hfuel : s.candidates.length + vertices.length ≤ fuel + s.visited.length) :
    loop look lt width (fuel + 1) s = some (explore look lt width fuel s) := by
  induction fuel generalizing s with
  | zero =>
      have hle := h.length_le hvertices
      have hnil : s.candidates = [] := List.eq_nil_of_length_eq_zero (by omega)
      rw [loop, explore, hnil]
      rfl
  | succ fuel ih =>
      rw [loop, explore]
      cases hpop : pop (closer lt) s.candidates with
      | none => rfl
      | some e =>
          obtain ⟨⟨a, d⟩, rest⟩ := e
          have hlen := (pop_perm _ hpop).length_eq
          rw [List.length_cons] at hlen
          have hrest : Marked look { s with candidates := rest } := ⟨h.nodup, h.there⟩
          dsimp only
          split_ifs
          · rfl
          cases look a with
          | none =>
              refine ih hrest ?_
              dsimp only
              omega
          | some e =>
              obtain ⟨hvisits, hcount⟩ := hrest.visits lt width e.2
              refine ih hvisits ?_
              dsimp only at hcount
              omega

end

/-! ### Ordered distances -/

section

variable {α δ : Type} [DecidableEq α] [LinearOrder δ] {look : α → Option (δ × List α)}
  {lt : δ → δ → Bool} {width : ℕ}

/-- The results come in ascending order. -/
theorem search_sorted (hlt : ∀ d d', lt d d' = true ↔ d < d') (fuel : ℕ) (start : α) :
    (search look lt width fuel start).Pairwise fun e e' => e.2 ≤ e'.2 := by
  have hle : (fun e e' : α × δ => lt e'.2 e.2 = false) = fun e e' => e.2 ≤ e'.2 := by
    funext e e'
    rw [← Bool.not_eq_true, hlt, not_lt]
  have htotal : Std.Total fun e e' : α × δ => e.2 ≤ e'.2 := ⟨fun e e' => le_total e.2 e'.2⟩
  have htrans : IsTrans (α × δ) fun e e' => e.2 ≤ e'.2 := ⟨fun _ _ _ => le_trans⟩
  unfold search
  cases look start with
  | none => exact .nil
  | some e =>
      dsimp only
      simp only [hle]
      exact List.pairwise_insertionSort _ _

end

end BestFirst
