import Mathlib

/-! # Binary heaps

A heap in an array: the children of the element at `i` are at `2 * i + 1` and `2 * i + 2`, and
the one that comes out first is at the front.  A new element rises from the end past the parents
that it comes before (`siftUp`); when the front is taken out, the hole sinks to the bottom, always
to the child that comes out first, and the last element rises from there (`pop`).

Whatever the order is, no element is lost or made up (`push_perm`, `pop_perm`).  When it is that of
a key, the order of the heap is kept (`push_ordered`, `pop_ordered`), and the front has the
greatest key (`Ordered.le_front`).  Which of several equal elements comes out first is what the
moves make of it. -/

namespace BinaryHeap

def parent (i : ℕ) : ℕ := (i - 1) / 2

section

variable {β : Type} (before : β → β → Bool)

/-- An element rises from the hole at `pos`. -/
def siftUp (x : β) : ℕ → List β → ℕ → List β
  | 0, l, pos => l.set pos x
  | fuel + 1, l, pos =>
      if pos = 0 then l.set pos x
      else
        match l[parent pos]? with
        | none => l.set pos x
        | some y => if before x y then siftUp x fuel (l.set pos y) (parent pos) else l.set pos x

/-- The hole at `pos` sinks to the bottom, and where it is then. -/
def sink : ℕ → List β → ℕ → List β × ℕ
  | 0, l, pos => (l, pos)
  | fuel + 1, l, pos =>
      match l[2 * pos + 1]?, l[2 * pos + 2]? with
      | some y, some z =>
          if before y z then sink fuel (l.set pos y) (2 * pos + 1)
          else sink fuel (l.set pos z) (2 * pos + 2)
      | some y, none => (l.set pos y, 2 * pos + 1)
      | none, _ => (l, pos)

def push (l : List β) (x : β) : List β := siftUp before x l.length (l ++ [x]) l.length

/-- The last element takes the place of the front, sinks to the bottom and rises from there. -/
def replaceFront (x : β) (l : List β) : List β :=
  let (rest, pos) := sink before l.length l 0
  siftUp before x pos rest pos

/-- The element that comes out first, and the heap that is left. -/
def pop (l : List β) : Option (β × List β) :=
  match l.getLast? with
  | none => none
  | some last =>
      match l.dropLast with
      | [] => some (last, [])
      | front :: rest => some (front, replaceFront before last (last :: rest))

def peek (l : List β) : Option β := l.head?

end

/-! ### No element is lost -/

section

variable {β : Type} {before : β → β → Bool}

theorem parent_lt {i : ℕ} (h : 0 < i) : parent i < i := by
  unfold parent
  omega

/-- An element moves into the hole, and the hole to where it was. -/
theorem move_perm {l : List β} {i j : ℕ} (hne : i ≠ j) (hi : i < l.length) {y : β}
    (hj : l[j]? = some y) (x : β) : ((l.set i y).set j x).Perm (l.set i x) := by
  obtain ⟨hlt, rfl⟩ := List.getElem?_eq_some_iff.mp hj
  have hi' : i < (l.set i x).length := by rwa [List.length_set]
  have hj' : j < (l.set i x).length := by rwa [List.length_set]
  have hswap : (((l.set i x).set i (l.set i x)[j]).set j (l.set i x)[i]).Perm (l.set i x) :=
    List.set_set_perm hi' hj'
  rwa [List.set_set, List.getElem_set_self, List.getElem_set_ne hne] at hswap

theorem siftUp_perm (x : β) (fuel : ℕ) {l : List β} {pos : ℕ} (hpos : pos < l.length) :
    (siftUp before x fuel l pos).Perm (l.set pos x) := by
  induction fuel generalizing l pos with
  | zero => exact .refl _
  | succ fuel ih =>
      rw [siftUp]
      split_ifs with h0
      · exact .refl _
      cases hparent : l[parent pos]? with
      | none => exact .refl _
      | some y =>
          have hlt := parent_lt (Nat.pos_of_ne_zero h0)
          dsimp only
          split_ifs
          · exact (ih (by rw [List.length_set]; omega)).trans (move_perm hlt.ne' hpos hparent x)
          · exact .refl _

theorem sink_spec (before : β → β → Bool) (x : β) (fuel : ℕ) {l : List β} {pos : ℕ}
    (hpos : pos < l.length) : (sink before fuel l pos).2 < l.length ∧
      (sink before fuel l pos).1.length = l.length ∧
      ((sink before fuel l pos).1.set (sink before fuel l pos).2 x).Perm (l.set pos x) := by
  induction fuel generalizing l pos with
  | zero => exact ⟨hpos, rfl, .refl _⟩
  | succ fuel ih =>
      have hstep : ∀ {y : β} {child : ℕ}, pos < child → l[child]? = some y →
          child < (l.set pos y).length ∧ ((l.set pos y).set child x).Perm (l.set pos x) := by
        intro y child hlt hchild
        refine ⟨?_, move_perm hlt.ne hpos hchild x⟩
        rw [List.length_set]
        exact (List.getElem?_eq_some_iff.mp hchild).1
      have hdown : ∀ {y : β} {child : ℕ}, pos < child → l[child]? = some y →
          (sink before fuel (l.set pos y) child).2 < l.length ∧
            (sink before fuel (l.set pos y) child).1.length = l.length ∧
            ((sink before fuel (l.set pos y) child).1.set
              (sink before fuel (l.set pos y) child).2 x).Perm (l.set pos x) := by
        intro y child hlt hchild
        obtain ⟨hin, hperm⟩ := hstep hlt hchild
        obtain ⟨hpos', hlength, hperm'⟩ := ih hin
        rw [List.length_set] at hpos' hlength
        exact ⟨hpos', hlength, hperm'.trans hperm⟩
      rw [sink]
      cases hleft : l[2 * pos + 1]? with
      | none => exact ⟨hpos, rfl, .refl _⟩
      | some y =>
          cases hright : l[2 * pos + 2]? with
          | none =>
              obtain ⟨hin, hperm⟩ := hstep (by omega) hleft
              rw [List.length_set] at hin
              exact ⟨hin, List.length_set, hperm⟩
          | some z =>
              dsimp only
              split_ifs
              · exact hdown (by omega) hleft
              · exact hdown (by omega) hright

theorem sink_subset (fuel : ℕ) (l : List β) (pos : ℕ) : (sink before fuel l pos).1 ⊆ l := by
  induction fuel generalizing l pos with
  | zero => exact List.Subset.refl l
  | succ fuel ih =>
      have hset : ∀ {y : β} {child : ℕ}, l[child]? = some y → l.set pos y ⊆ l := by
        intro y child hchild z hz
        rcases List.mem_or_eq_of_mem_set hz with hz | rfl
        · exact hz
        · exact List.mem_of_getElem? hchild
      rw [sink]
      cases hleft : l[2 * pos + 1]? with
      | none => exact List.Subset.refl l
      | some y =>
          cases hright : l[2 * pos + 2]? with
          | none => exact hset hleft
          | some z =>
              dsimp only
              split_ifs
              · exact List.Subset.trans (ih _ _) (hset hleft)
              · exact List.Subset.trans (ih _ _) (hset hright)

variable (before)

theorem push_perm (l : List β) (x : β) : (push before l x).Perm (x :: l) := by
  have hlength : l.length < (l ++ [x]).length := by simp
  refine (siftUp_perm x _ hlength).trans ?_
  have hset : (l ++ [x]).set l.length x = l ++ [x] := by simp
  rw [hset]
  exact List.perm_append_comm

theorem length_push (l : List β) (x : β) : (push before l x).length = l.length + 1 :=
  (push_perm before l x).length_eq

theorem mem_push {l : List β} {x y : β} : y ∈ push before l x ↔ y = x ∨ y ∈ l := by
  rw [(push_perm before l x).mem_iff, List.mem_cons]

theorem replaceFront_perm (x y : β) (l : List β) :
    (replaceFront before x (y :: l)).Perm (x :: l) := by
  have hpos : 0 < (y :: l).length := Nat.zero_lt_succ l.length
  obtain ⟨hpos, hlength, hperm⟩ := sink_spec before x (y :: l).length hpos
  exact (siftUp_perm x _ (hpos.trans_eq hlength.symm)).trans hperm

@[simp] theorem pop_eq_none {l : List β} : pop before l = none ↔ l = [] := by
  unfold pop
  cases h : l.getLast? with
  | none => exact ⟨fun _ => List.getLast?_eq_none_iff.mp h, fun _ => rfl⟩
  | some last =>
      refine ⟨fun hnone => ?_, fun hnil => ?_⟩
      · cases hdrop : l.dropLast with
        | nil =>
            rw [hdrop] at hnone
            cases hnone
        | cons front rest =>
            rw [hdrop] at hnone
            cases hnone
      · rw [hnil] at h
        cases h

/-- What a pop gives of a heap of one element, and of more. -/
theorem pop_cases {l rest : List β} {x : β} (h : pop before l = some (x, rest)) :
    (l = [x] ∧ rest = []) ∨
      ∃ last others, l = x :: others ++ [last] ∧
        rest = replaceFront before last (last :: others) := by
  unfold pop at h
  cases hlast : l.getLast? with
  | none =>
      rw [hlast] at h
      cases h
  | some last =>
      have hl : l.dropLast ++ [last] = l := by
        obtain ⟨others, rfl⟩ := List.getLast?_eq_some_iff.mp hlast
        rw [List.dropLast_concat]
      rw [hlast] at h
      dsimp only at h
      cases hdrop : l.dropLast with
      | nil =>
          rw [hdrop] at h hl
          obtain ⟨rfl, rfl⟩ := Prod.mk.inj (Option.some.inj h)
          exact .inl ⟨hl.symm, rfl⟩
      | cons front others =>
          rw [hdrop] at h hl
          obtain ⟨rfl, rfl⟩ := Prod.mk.inj (Option.some.inj h)
          exact .inr ⟨last, others, hl.symm, rfl⟩

/-- The front is what is popped. -/
theorem pop_head {l rest : List β} {x : β} (h : pop before l = some (x, rest)) :
    l.head? = some x := by
  rcases pop_cases before h with ⟨rfl, -⟩ | ⟨last, others, rfl, -⟩
  · rfl
  · rfl

theorem pop_perm {l rest : List β} {x : β} (h : pop before l = some (x, rest)) :
    (x :: rest).Perm l := by
  rcases pop_cases before h with ⟨rfl, rfl⟩ | ⟨last, others, rfl, rfl⟩
  · exact .refl _
  · have hend : (last :: others).Perm (others ++ [last]) := (List.perm_append_singleton _ _).symm
    exact ((replaceFront_perm before last last others).trans hend).cons x

end

/-! ### Images -/

section

variable {β γ : Type} {before : β → β → Bool} {before' : γ → γ → Bool} {f : β → γ}

theorem siftUp_map (h : ∀ x y, before' (f x) (f y) = before x y) (x : β) (fuel : ℕ) (l : List β)
    (pos : ℕ) :
    siftUp before' (f x) fuel (l.map f) pos = (siftUp before x fuel l pos).map f := by
  induction fuel generalizing l pos with
  | zero => exact List.map_set.symm
  | succ fuel ih =>
      rw [siftUp, siftUp, List.getElem?_map]
      split_ifs
      · exact List.map_set.symm
      cases l[parent pos]? with
      | none => exact List.map_set.symm
      | some y =>
          dsimp only [Option.map_some]
          rw [h, ← List.map_set, ← List.map_set]
          split_ifs
          · exact ih _ _
          · rfl

theorem sink_map (h : ∀ x y, before' (f x) (f y) = before x y) (fuel : ℕ) (l : List β) (pos : ℕ) :
    sink before' fuel (l.map f) pos =
      ((sink before fuel l pos).1.map f, (sink before fuel l pos).2) := by
  induction fuel generalizing l pos with
  | zero => rfl
  | succ fuel ih =>
      rw [sink, sink, List.getElem?_map, List.getElem?_map]
      cases l[2 * pos + 1]? with
      | none => rfl
      | some y =>
          cases l[2 * pos + 2]? with
          | none => exact congrArg (·, 2 * pos + 1) List.map_set.symm
          | some z =>
              dsimp only [Option.map_some]
              rw [h, ← List.map_set, ← List.map_set]
              split_ifs
              · exact ih _ _
              · exact ih _ _

/-- Heaps of images are images of heaps when the order is the same. -/
theorem push_map (h : ∀ x y, before' (f x) (f y) = before x y) (l : List β) (x : β) :
    push before' (l.map f) (f x) = (push before l x).map f := by
  unfold push
  rw [← siftUp_map h, List.map_append, List.length_map]
  rfl

theorem replaceFront_map (h : ∀ x y, before' (f x) (f y) = before x y) (x : β) (l : List β) :
    replaceFront before' (f x) (l.map f) = (replaceFront before x l).map f := by
  unfold replaceFront
  rw [sink_map h, List.length_map]
  exact siftUp_map h _ _ _ _

theorem pop_map (h : ∀ x y, before' (f x) (f y) = before x y) (l : List β) :
    pop before' (l.map f) = (pop before l).map fun e => (f e.1, e.2.map f) := by
  unfold pop
  rw [List.getLast?_map, ← List.map_dropLast]
  cases l.getLast? with
  | none => rfl
  | some last =>
      cases l.dropLast with
      | nil => rfl
      | cons front rest =>
          have hrest := replaceFront_map h last (last :: rest)
          exact congrArg (fun l => some (f front, l)) hrest

end

/-! ### The order of a heap -/

section

variable {β δ : Type} (key : β → δ)

/-- The key at a position, the least one where there is none. -/
def keyAt (l : List β) (i : ℕ) : WithBot δ := l[i]?.elim ⊥ fun x => (key x : WithBot δ)

variable {key}

theorem keyAt_set {l : List β} {i : ℕ} (hi : i < l.length) (x : β) :
    keyAt key (l.set i x) = Function.update (keyAt key l) i (key x : WithBot δ) := by
  funext j
  unfold keyAt
  rw [Function.update_apply, List.getElem?_set]
  by_cases hj : i = j
  · rw [if_pos hj, if_pos hi, if_pos hj.symm]
    rfl
  · rw [if_neg hj, if_neg fun h => hj h.symm]

theorem keyAt_some {l : List β} {i : ℕ} {x : β} (h : l[i]? = some x) :
    keyAt key l i = (key x : WithBot δ) := by
  unfold keyAt
  rw [h]
  rfl

theorem keyAt_none {l : List β} {i : ℕ} (h : l[i]? = none) : keyAt key l i = ⊥ := by
  unfold keyAt
  rw [h]
  rfl

variable [LinearOrder δ] (key)

/-- No element comes out before its parent. -/
def Ordered (l : List β) : Prop := ∀ i, 0 < i → keyAt key l i ≤ keyAt key l (parent i)

/-- The order `before` is that of the keys, on the elements of a set. -/
def ByKey (before : β → β → Bool) (s : Set β) : Prop :=
  ∀ x ∈ s, ∀ y ∈ s, before x y = true ↔ key y < key x

/-- The heap is in order but for the element at `pos`, which may come out before its parent. -/
structure Rising (t : ℕ → WithBot δ) (pos : ℕ) : Prop where
  apart : ∀ i, 0 < i → i ≠ pos → t i ≤ t (parent i)
  grand : 0 < pos → ∀ i, 0 < i → parent i = pos → t i ≤ t (parent pos)

/-- The heap is in order but for the element at `pos`. -/
structure Sinking (t : ℕ → WithBot δ) (pos : ℕ) : Prop where
  apart : ∀ i, 0 < i → i ≠ pos → parent i ≠ pos → t i ≤ t (parent i)
  grand : 0 < pos → ∀ i, 0 < i → parent i = pos → t i ≤ t (parent pos)

variable {key}

/-- The front of a heap has the greatest key. -/
theorem Ordered.le_front {l : List β} (h : Ordered key l) {x : β} (hx : l.head? = some x) :
    ∀ y ∈ l, key y ≤ key x := by
  have hfront : ∀ i, keyAt key l i ≤ keyAt key l 0 := by
    intro i
    induction i using Nat.strongRecOn with
    | ind i ih =>
        rcases Nat.eq_zero_or_pos i with rfl | hi
        · exact le_rfl
        · exact (h i hi).trans (ih _ (parent_lt hi))
  intro y hy
  obtain ⟨i, hi⟩ := List.mem_iff_getElem?.mp hy
  have hle := hfront i
  rw [keyAt_some hi, keyAt_some (List.head?_eq_getElem? ▸ hx)] at hle
  exact WithBot.coe_le_coe.mp hle

/-- An element that does not come out before its parent is in its place. -/
theorem Rising.stop {t : ℕ → WithBot δ} {pos : ℕ} (h : Rising t pos)
    (hpos : 0 < pos → t pos ≤ t (parent pos)) (i : ℕ) (hi : 0 < i) : t i ≤ t (parent i) := by
  by_cases hne : i = pos
  · subst hne
    exact hpos hi
  · exact h.apart i hi hne

/-- An element changes places with its parent. -/
theorem Rising.move {t : ℕ → WithBot δ} {pos : ℕ} (h : Rising t pos) (hpos : 0 < pos)
    (hlt : t (parent pos) ≤ t pos) :
    Rising (Function.update (Function.update t pos (t (parent pos))) (parent pos) (t pos))
      (parent pos) := by
  have hparent := parent_lt hpos
  refine ⟨fun i hi hne => ?_, fun hpos' i hi hchild => ?_⟩
  · rw [Function.update_of_ne hne]
    by_cases hi' : i = pos
    · subst hi'
      rw [Function.update_self, Function.update_self]
      exact hlt
    · rw [Function.update_of_ne hi']
      by_cases hp : parent i = parent pos
      · rw [hp, Function.update_self]
        exact (hp ▸ h.apart i hi hi').trans hlt
      · rw [Function.update_of_ne hp]
        by_cases hp' : parent i = pos
        · rw [hp', Function.update_self]
          exact h.grand hpos i hi hp'
        · rw [Function.update_of_ne hp']
          exact h.apart i hi hi'
  · have hgrand := parent_lt hpos'
    have hle : t (parent pos) ≤ t (parent (parent pos)) := h.apart _ hpos' hparent.ne
    have hi' : i ≠ parent pos := by
      rintro rfl
      omega
    rw [Function.update_of_ne hi', Function.update_of_ne hgrand.ne,
      Function.update_of_ne (by omega : parent (parent pos) ≠ pos)]
    by_cases hi'' : i = pos
    · subst hi''
      rw [Function.update_self]
      exact hle
    · rw [Function.update_of_ne hi'']
      exact (hchild ▸ h.apart i hi hi'').trans hle

/-- The hole takes the place of the child that comes out first. -/
theorem Sinking.move {t : ℕ → WithBot δ} {pos child : ℕ} (h : Sinking t pos)
    (hchild : parent child = pos) (hpos : 0 < child)
    (hfirst : ∀ i, 0 < i → parent i = pos → t i ≤ t child) (x : WithBot δ) :
    Sinking (Function.update (Function.update t pos (t child)) child x) child := by
  have hlt : pos < child := hchild ▸ parent_lt hpos
  refine ⟨fun i hi hne hp => ?_, fun _ i hi hi' => ?_⟩
  · rw [Function.update_of_ne hne, Function.update_of_ne hp]
    by_cases hi' : i = pos
    · subst hi'
      rw [Function.update_self, Function.update_of_ne (parent_lt hi).ne]
      exact h.grand hi child hpos hchild
    · rw [Function.update_of_ne hi']
      by_cases hp' : parent i = pos
      · rw [hp', Function.update_self]
        exact hfirst i hi hp'
      · rw [Function.update_of_ne hp']
        exact h.apart i hi hi' hp'
  · have hlt' : child < i := hi' ▸ parent_lt hi
    rw [hchild, Function.update_of_ne hlt'.ne', Function.update_of_ne (by omega : i ≠ pos),
      Function.update_of_ne hlt.ne, Function.update_self, ← hi']
    exact h.apart i hi (by omega) (by omega)

/-- At the bottom the hole has no children. -/
theorem Sinking.rising {t : ℕ → WithBot δ} {pos : ℕ} (h : Sinking t pos)
    (hbottom : ∀ i, 0 < i → parent i = pos → t i = ⊥) : Rising t pos := by
  refine ⟨fun i hi hne => ?_, h.grand⟩
  by_cases hp : parent i = pos
  · rw [hbottom i hi hp]
    exact bot_le
  · exact h.apart i hi hne hp

variable {before : β → β → Bool} {s : Set β} {x : β} {l : List β} {pos : ℕ}

theorem siftUp_ordered (hs : ByKey key before s) (hx : x ∈ s) (fuel : ℕ) (hl : ∀ y ∈ l, y ∈ s)
    (hpos : pos < l.length) (hfuel : pos ≤ fuel) (h : Rising (keyAt key (l.set pos x)) pos) :
    Ordered key (siftUp before x fuel l pos) := by
  induction fuel generalizing l pos with
  | zero => exact h.stop fun hlt => by omega
  | succ fuel ih =>
      rw [siftUp]
      split_ifs with h0
      · exact h.stop fun hlt => by omega
      have hlt := parent_lt (Nat.pos_of_ne_zero h0)
      obtain ⟨y, hy⟩ : ∃ y, l[parent pos]? = some y :=
        ⟨_, List.getElem?_eq_getElem (hlt.trans hpos)⟩
      have hself : keyAt key (l.set pos x) pos = (key x : WithBot δ) := by
        rw [keyAt_set hpos, Function.update_self]
      have habove : keyAt key (l.set pos x) (parent pos) = (key y : WithBot δ) := by
        rw [keyAt_set hpos, Function.update_of_ne hlt.ne, keyAt_some hy]
      have hys : y ∈ s := hl y (List.mem_of_getElem? hy)
      rw [hy]
      dsimp only
      split_ifs with hbefore
      · have hkey := (hs x hx y hys).mp hbefore
        refine ih (fun z hz => ?_) (by rw [List.length_set]; omega) (by omega) ?_
        · rcases List.mem_or_eq_of_mem_set hz with hz | rfl
          · exact hl z hz
          · exact hys
        · have hmove := h.move (Nat.pos_of_ne_zero h0)
            (by rw [habove, hself]; exact WithBot.coe_le_coe.mpr hkey.le)
          rw [habove, hself, keyAt_set hpos, Function.update_idem] at hmove
          rw [keyAt_set (by rw [List.length_set]; omega), keyAt_set hpos]
          exact hmove
      · refine h.stop fun _ => ?_
        rw [habove, hself, WithBot.coe_le_coe, ← not_lt, ← hs x hx y hys]
        exact hbefore

/-- The hole goes to the child that comes out first. -/
theorem sinking_child (hl : ∀ y ∈ l, y ∈ s) {x : β} (hpos : pos < l.length)
    (h : Sinking (keyAt key (l.set pos x)) pos) {child : ℕ} {y : β} (hlt : pos < child)
    (hp : parent child = pos) (hchild : l[child]? = some y)
    (hfirst : ∀ i, 0 < i → parent i = pos → keyAt key l i ≤ (key y : WithBot δ)) :
    child < (l.set pos y).length ∧ (∀ z ∈ l.set pos y, z ∈ s) ∧
      Sinking (keyAt key ((l.set pos y).set child x)) child := by
  have hat : ∀ {i}, pos < i → keyAt key (l.set pos x) i = keyAt key l i := by
    intro i hi
    rw [keyAt_set hpos, Function.update_of_ne hi.ne']
  have hin := (List.getElem?_eq_some_iff.mp hchild).1
  have hin' : child < (l.set pos y).length := by rwa [List.length_set]
  refine ⟨hin', fun z hz => ?_, ?_⟩
  · rcases List.mem_or_eq_of_mem_set hz with hz | rfl
    · exact hl z hz
    · exact hl z (List.mem_of_getElem? hchild)
  · have hkey : keyAt key (l.set pos x) child = (key y : WithBot δ) := by
      rw [hat hlt, keyAt_some hchild]
    have hmove := h.move hp (Nat.zero_lt_of_lt hlt)
      (fun i hi hpi => by
        rw [hkey, hat (hpi ▸ parent_lt hi)]
        exact hfirst i hi hpi) (key x : WithBot δ)
    rw [hkey, keyAt_set hpos, Function.update_idem] at hmove
    rw [keyAt_set hin', keyAt_set hpos]
    exact hmove

theorem sink_rising (hs : ByKey key before s) (x : β) (fuel : ℕ) (hl : ∀ y ∈ l, y ∈ s)
    (hpos : pos < l.length) (hfuel : l.length ≤ fuel + pos)
    (h : Sinking (keyAt key (l.set pos x)) pos) :
    Rising (keyAt key ((sink before fuel l pos).1.set (sink before fuel l pos).2 x))
      (sink before fuel l pos).2 := by
  induction fuel generalizing l pos with
  | zero => omega
  | succ fuel ih =>
      have hchildren : ∀ {i}, 0 < i → parent i = pos → i = 2 * pos + 1 ∨ i = 2 * pos + 2 := by
        intro i hi hp
        unfold parent at hp
        omega
      have hleft : parent (2 * pos + 1) = pos := by unfold parent; omega
      have hright : parent (2 * pos + 2) = pos := by unfold parent; omega
      rw [sink]
      cases hy : l[2 * pos + 1]? with
      | none =>
          refine h.rising fun i hi hp => ?_
          have hlen := List.getElem?_eq_none_iff.mp hy
          rw [keyAt_set hpos, Function.update_of_ne (hp ▸ parent_lt hi).ne']
          refine keyAt_none (List.getElem?_eq_none ?_)
          rcases hchildren hi hp with rfl | rfl <;> omega
      | some y =>
          cases hz : l[2 * pos + 2]? with
          | none =>
              have hlen := List.getElem?_eq_none_iff.mp hz
              obtain ⟨-, -, hsinking⟩ := sinking_child hl hpos h (by omega) hleft hy (by
                intro i hi hp
                rcases hchildren hi hp with rfl | rfl
                · rw [keyAt_some hy]
                · rw [keyAt_none hz]
                  exact bot_le)
              refine hsinking.rising fun i hi hp => keyAt_none (List.getElem?_eq_none ?_)
              have hlt := parent_lt hi
              rw [List.length_set, List.length_set]
              omega
          | some z =>
              have hys := hl y (List.mem_of_getElem? hy)
              have hzs := hl z (List.mem_of_getElem? hz)
              dsimp only
              split_ifs with hbefore
              · have hkey := ((hs y hys z hzs).mp hbefore).le
                obtain ⟨hin, hmem, hsinking⟩ := sinking_child hl hpos h (by omega) hleft hy (by
                  intro i hi hp
                  rcases hchildren hi hp with rfl | rfl
                  · rw [keyAt_some hy]
                  · rw [keyAt_some hz]
                    exact WithBot.coe_le_coe.mpr hkey)
                exact ih hmem hin (by rw [List.length_set]; omega) hsinking
              · have hkey : key y ≤ key z := by
                  rw [← not_lt, ← hs y hys z hzs]
                  exact hbefore
                obtain ⟨hin, hmem, hsinking⟩ := sinking_child hl hpos h (by omega) hright hz (by
                  intro i hi hp
                  rcases hchildren hi hp with rfl | rfl
                  · rw [keyAt_some hy]
                    exact WithBot.coe_le_coe.mpr hkey
                  · rw [keyAt_some hz])
                exact ih hmem hin (by rw [List.length_set]; omega) hsinking

theorem ordered_nil : Ordered key ([] : List β) := fun _ _ => le_rfl

theorem push_ordered (hs : ByKey key before s) (hx : x ∈ s) (hl : ∀ y ∈ l, y ∈ s)
    (h : Ordered key l) : Ordered key (push before l x) := by
  have hlength : l.length < (l ++ [x]).length := by simp
  have hset : (l ++ [x]).set l.length x = l ++ [x] := by simp
  refine siftUp_ordered hs hx _ (fun y hy => ?_) hlength le_rfl ?_
  · rcases List.mem_append.mp hy with hy | hy
    · exact hl y hy
    · rwa [List.mem_singleton.mp hy]
  · have hbelow : ∀ i, i < l.length → keyAt key (l ++ [x]) i = keyAt key l i := by
      intro i hi
      unfold keyAt
      rw [List.getElem?_append_left hi]
    have hbeyond : ∀ i, l.length < i → keyAt key (l ++ [x]) i = ⊥ :=
      fun i hi => keyAt_none (List.getElem?_eq_none (by simpa using hi))
    rw [hset]
    refine ⟨fun i hi hne => ?_, fun _ i hi hp => ?_⟩
    · rcases Nat.lt_or_gt_of_ne hne with hlt | hlt
      · rw [hbelow i hlt, hbelow _ ((parent_lt hi).trans hlt)]
        exact h i hi
      · rw [hbeyond i hlt]
        exact bot_le
    · rw [hbeyond i (hp ▸ parent_lt hi)]
      exact bot_le

theorem replaceFront_ordered (hs : ByKey key before s) (hx : x ∈ s) {y : β}
    (hl : ∀ z ∈ y :: l, z ∈ s) (h : Sinking (keyAt key (x :: l)) 0) :
    Ordered key (replaceFront before x (y :: l)) := by
  have hpos : 0 < (y :: l).length := Nat.zero_lt_succ l.length
  obtain ⟨hin, hlength, hperm⟩ := sink_spec before x (y :: l).length hpos
  have hrising := sink_rising hs x (y :: l).length hl hpos le_rfl h
  have hmem : ∀ z ∈ (sink before (y :: l).length (y :: l) 0).1, z ∈ s :=
    fun z hz => hl z (sink_subset _ _ _ hz)
  exact siftUp_ordered hs hx _ hmem (hin.trans_eq hlength.symm) le_rfl hrising

theorem pop_ordered (hs : ByKey key before s) (hl : ∀ y ∈ l, y ∈ s) (h : Ordered key l)
    {rest : List β} (hpop : pop before l = some (x, rest)) : Ordered key rest := by
  rcases pop_cases before hpop with ⟨-, rfl⟩ | ⟨last, others, rfl, rfl⟩
  · exact ordered_nil
  · have hsub : last :: others ⊆ x :: others ++ [last] :=
      List.cons_subset.mpr ⟨by simp, fun y hy => by simp [hy]⟩
    have hsame : ∀ i, 0 < i → i < (last :: others).length →
        keyAt key (last :: others) i = keyAt key (x :: others ++ [last]) i := by
      intro i hi hlt
      obtain ⟨i, rfl⟩ : ∃ j, i = j + 1 := ⟨i - 1, by omega⟩
      rw [List.length_cons] at hlt
      unfold keyAt
      rw [List.cons_append, List.getElem?_cons_succ, List.getElem?_cons_succ,
        List.getElem?_append_left (by omega)]
    refine replaceFront_ordered hs (hl last (hsub List.mem_cons_self))
      (fun z hz => hl z (hsub hz)) ?_
    refine ⟨fun i hi hne hp => ?_, fun hlt => absurd hlt (lt_irrefl 0)⟩
    by_cases hin : i < (last :: others).length
    · rw [hsame i hi hin, hsame _ (Nat.pos_of_ne_zero hp) ((parent_lt hi).trans hin)]
      exact h i hi
    · rw [keyAt_none (List.getElem?_eq_none (not_lt.mp hin))]
      exact bot_le

/-- What is popped has the greatest key. -/
theorem pop_greatest (h : Ordered key l) {rest : List β} (hpop : pop before l = some (x, rest)) :
    ∀ y ∈ l, key y ≤ key x := h.le_front (pop_head before hpop)

end

end BinaryHeap
