import Mathlib

/-! # Breadth-first search

Entries wait in a queue, first in, first out.  Each has a key, the vertex it is about, and leads to
other entries.  An entry whose key was marked before is passed over when it comes out; any other one
is marked, and the entries that it leads to are queued but for those with marked keys (`visit`).

A key may wait several times.  The rank of an entry says how far it is: when ranks are such that
what comes out early leads to what may come out early (`Ranked`), entries come out by rank, and a
key is marked with the lowest rank it can be reached with (`Inv.visit`, `Inv.covered`).  With ranks
that are all alike, what is left of this is that everything that can be reached is marked.

Every arc is queued once at most, so that a search ends (`cost_visit`). -/

namespace BreadthFirst

/-! ### Walks -/

section

variable {α : Type} {R R' : α → α → Prop}

/-- A walk of a number of edges. -/
inductive Walk (R : α → α → Prop) : ℕ → α → α → Prop
  | nil (a : α) : Walk R 0 a a
  | snoc {n : ℕ} {a b c : α} : Walk R n a b → R b c → Walk R (n + 1) a c

theorem Walk.zero_iff {a b : α} : Walk R 0 a b ↔ a = b := by
  constructor
  · rintro ⟨⟩
    rfl
  · rintro rfl
    exact .nil a

theorem Walk.succ_iff {n : ℕ} {a c : α} : Walk R (n + 1) a c ↔ ∃ b, Walk R n a b ∧ R b c := by
  constructor
  · rintro (_ | ⟨hwalk, hbc⟩)
    exact ⟨_, hwalk, hbc⟩
  · rintro ⟨b, hwalk, hbc⟩
    exact .snoc hwalk hbc

theorem Walk.mono (h : ∀ a b, R a b → R' a b) {n : ℕ} {a b : α} (hwalk : Walk R n a b) :
    Walk R' n a b := by
  induction hwalk with
  | nil a => exact .nil a
  | snoc _ hbc ih => exact .snoc ih (h _ _ hbc)

/-- The vertices that a walk comes by, from the first to the last. -/
inductive Path (R : α → α → Prop) : List α → α → α → Prop
  | nil (a : α) : Path R [a] a a
  | snoc {l : List α} {a b c : α} : Path R l a b → R b c → Path R (l ++ [c]) a c

theorem Path.walk {l : List α} {a b : α} (hpath : Path R l a b) : Walk R (l.length - 1) a b := by
  induction hpath with
  | nil a => exact .nil a
  | @snoc l a b c hpath hbc ih =>
      cases hpath <;> simpa using ih.snoc hbc

theorem Path.length_pos {l : List α} {a b : α} (hpath : Path R l a b) : 0 < l.length := by
  cases hpath <;> simp

theorem Walk.exists_path {n : ℕ} {a b : α} (hwalk : Walk R n a b) :
    ∃ l, Path R l a b ∧ l.length = n + 1 := by
  induction hwalk with
  | nil a => exact ⟨[a], .nil a, rfl⟩
  | @snoc n a b c _ hbc ih =>
      obtain ⟨l, hpath, hlength⟩ := ih
      exact ⟨l ++ [c], .snoc hpath hbc, by simp [hlength]⟩

end

/-! ### The search -/

variable {ε κ ρ : Type}

structure Search (ε κ : Type) where
  key : ε → κ
  /-- What an entry leads to. -/
  next : ε → List ε
  /-- The entry is passed over although its key is not marked. -/
  drops : ε → Bool

structure Frontier (ε : Type) where
  queue : List ε
  /-- The entries whose keys are marked, in the order in which they came out. -/
  marked : List ε

namespace Search

variable (S : Search ε κ)

/-- An entry comes out of the queue and leaves the rest. -/
def visit [DecidableEq κ] (marked : List ε) (e : ε) (rest : List ε) : Frontier ε :=
  if S.key e ∈ marked.map S.key ∨ S.drops e then ⟨rest, marked⟩
  else
    ⟨rest ++ (S.next e).filter fun e' => S.key e' ∉ (marked ++ [e]).map S.key, marked ++ [e]⟩

variable {S} in
theorem visit_pass [DecidableEq κ] {marked : List ε} {e : ε}
    (h : S.key e ∈ marked.map S.key ∨ S.drops e = true) (rest : List ε) :
    S.visit marked e rest = ⟨rest, marked⟩ := if_pos h

variable {S} in
theorem visit_mark [DecidableEq κ] {marked : List ε} {e : ε} (hkey : S.key e ∉ marked.map S.key)
    (hkept : S.drops e = false) (rest : List ε) :
    S.visit marked e rest =
      ⟨rest ++ (S.next e).filter fun e' => S.key e' ∉ (marked ++ [e]).map S.key, marked ++ [e]⟩ :=
  if_neg (not_or.mpr ⟨hkey, Bool.eq_false_iff.mp hkept⟩)

/-- The entries that the starts lead to. -/
inductive Reached (starts : List ε) : ε → Prop
  | start {e : ε} : e ∈ starts → Reached starts e
  | next {e e' : ε} : Reached starts e → S.drops e = false → e' ∈ S.next e → Reached starts e'

/-- An entry of the list has the key, and no higher rank. -/
def Covers [Preorder ρ] (rank : ε → ρ) (l : List ε) (e : ε) : Prop :=
  ∃ w ∈ l, S.key w = S.key e ∧ rank w ≤ rank e

/-- What an entry leads to is not below it, what comes later leads to what may come later, and an
entry leads wherever a later one with its key does. -/
structure Ranked [Preorder ρ] (rank : ε → ρ) : Prop where
  grows : ∀ e, ∀ e' ∈ S.next e, rank e ≤ rank e'
  mono : ∀ a b, rank a ≤ rank b → ∀ a' ∈ S.next a, ∀ b' ∈ S.next b, rank a' ≤ rank b'
  follows : ∀ a b, S.key a = S.key b → rank a ≤ rank b →
    ∀ b' ∈ S.next b, S.Covers rank (S.next a) b'
  drops : ∀ a b, S.key a = S.key b → rank a ≤ rank b → S.drops a = true → S.drops b = true

/-- The state of a search that began with some entries marked.  What marked entries lead to is
marked, or waits. -/
structure Inv [Preorder ρ] (rank : ε → ρ) (starts before : List ε) (f : Frontier ε) : Prop where
  nodup : (f.marked.map S.key).Nodup
  kept : ∀ e ∈ before, e ∈ f.marked
  sound : ∀ e ∈ f.marked, e ∈ before ∨ S.Reached starts e ∧ S.drops e = false
  queued : ∀ e ∈ f.queue, S.Reached starts e
  starts : ∀ e ∈ starts, S.drops e = false → S.Covers rank (f.marked ++ f.queue) e
  closed : ∀ e ∈ f.marked, ∀ e' ∈ S.next e, S.drops e' = false →
    S.Covers rank (f.marked ++ f.queue) e'
  low : ∀ m ∈ f.marked, ∀ q ∈ f.queue, rank m ≤ rank q
  sorted : f.queue.Pairwise fun a b => rank a ≤ rank b
  near : ∀ q ∈ f.queue, ∀ q' ∈ f.queue, ∀ e ∈ S.next q', rank q ≤ rank e

section

variable {S} [Preorder ρ] {rank : ε → ρ} {starts before : List ε} {f : Frontier ε}

theorem Covers.mono {l l' : List ε} {e : ε} (h : S.Covers rank l e) (hl : ∀ w ∈ l, w ∈ l') :
    S.Covers rank l' e := by
  obtain ⟨w, hw, hkey, hrank⟩ := h
  exact ⟨w, hl w hw, hkey, hrank⟩

theorem Covers.of_mem {l : List ε} {e : ε} (h : e ∈ l) : S.Covers rank l e := ⟨e, h, rfl, le_rfl⟩

/-- A search begins with what is marked already, from one start. -/
theorem Inv.begin (hrank : S.Ranked rank) {start : ε} (hnodup : (before.map S.key).Nodup)
    (hclosed : ∀ e ∈ before, ∀ e' ∈ S.next e, S.drops e' = false → S.Covers rank before e')
    (hlow : ∀ e ∈ before, rank e ≤ rank start) : S.Inv rank [start] before ⟨[start], before⟩ where
  nodup := hnodup
  kept e he := he
  sound e he := .inl he
  queued e he := .start he
  starts e he _ := .of_mem (List.mem_append_right _ he)
  closed e he e' he' hkept := (hclosed e he e' he' hkept).mono fun w hw => List.mem_append_left _ hw
  low m hm q hq := by
    obtain rfl := List.mem_singleton.mp hq
    exact hlow m hm
  sorted := List.pairwise_singleton _ _
  near q hq q' hq' e he := by
    obtain rfl := List.mem_singleton.mp hq
    obtain rfl := List.mem_singleton.mp hq'
    exact hrank.grows _ e he

/-- An entry that is passed over is covered by what is marked, or covers nothing that counts. -/
theorem Inv.pass (h : S.Inv rank starts before f) {e : ε} {rest : List ε} (hq : f.queue = e :: rest)
    (hcovers : ∀ e', S.key e = S.key e' → rank e ≤ rank e' → S.drops e' = false →
      S.Covers rank f.marked e') : S.Inv rank starts before ⟨rest, f.marked⟩ := by
  have hrest : ∀ q ∈ rest, q ∈ f.queue := fun q hr => by
    rw [hq]
    exact List.mem_cons_of_mem _ hr
  have hcovered : ∀ e', S.Covers rank (f.marked ++ f.queue) e' → S.drops e' = false →
      S.Covers rank (f.marked ++ rest) e' := by
    rintro e' ⟨w, hw, hkey, hle⟩ hkept
    rw [hq, List.mem_append, List.mem_cons] at hw
    obtain hw | rfl | hw := hw
    · exact ⟨w, List.mem_append_left _ hw, hkey, hle⟩
    · exact (hcovers e' hkey hle hkept).mono fun w hw => List.mem_append_left _ hw
    · exact ⟨w, List.mem_append_right _ hw, hkey, hle⟩
  have hsorted := h.sorted
  rw [hq] at hsorted
  exact
    { nodup := h.nodup
      kept := h.kept
      sound := h.sound
      queued := fun q hr => h.queued q (hrest q hr)
      starts := fun s hs hkept => hcovered s (h.starts s hs hkept) hkept
      closed := fun m hm e' he' hkept => hcovered e' (h.closed m hm e' he' hkept) hkept
      low := fun m hm q hr => h.low m hm q (hrest q hr)
      sorted := hsorted.of_cons
      near := fun q hr q' hr' => h.near q (hrest q hr) q' (hrest q' hr') }

/-- An entry is marked, and what it leads to waits last. -/
theorem Inv.mark (hrank : S.Ranked rank) (h : S.Inv rank starts before f) {e : ε} {rest : List ε}
    (hq : f.queue = e :: rest) (hkey : S.key e ∉ f.marked.map S.key) (hkept : S.drops e = false)
    {new : List ε} (hnew : ∀ e' ∈ new, e' ∈ S.next e)
    (hall : ∀ e' ∈ S.next e, S.key e' ∈ (f.marked ++ [e]).map S.key ∨ e' ∈ new) :
    S.Inv rank starts before ⟨rest ++ new, f.marked ++ [e]⟩ := by
  have hhead : e ∈ f.queue := by
    rw [hq]
    exact List.mem_cons_self
  have hrest : ∀ q ∈ rest, q ∈ f.queue := fun q hr => by
    rw [hq]
    exact List.mem_cons_of_mem _ hr
  have hsorted := h.sorted
  rw [hq, List.pairwise_cons] at hsorted
  obtain ⟨hfirst, hsorted⟩ := hsorted
  have hreached := h.queued e hhead
  have hlow : ∀ m ∈ f.marked ++ [e], rank m ≤ rank e := by
    intro m hm
    obtain hm | hm := List.mem_append.mp hm
    · exact h.low m hm e hhead
    · rw [List.mem_singleton.mp hm]
  have hcovered : ∀ e', S.Covers rank (f.marked ++ f.queue) e' →
      S.Covers rank (f.marked ++ [e] ++ (rest ++ new)) e' := by
    refine fun e' hcovers => hcovers.mono fun w hw => ?_
    rw [hq] at hw
    simp only [List.mem_append, List.mem_cons, List.not_mem_nil, or_false] at hw ⊢
    tauto
  constructor
  · rw [List.map_append]
    refine h.nodup.append (List.nodup_singleton _) ?_
    rw [List.disjoint_comm, List.map_singleton, List.singleton_disjoint]
    exact hkey
  · exact fun e' he' => List.mem_append_left _ (h.kept e' he')
  · intro m hm
    obtain hm | hm := List.mem_append.mp hm
    · exact h.sound m hm
    · rw [List.mem_singleton.mp hm]
      exact .inr ⟨hreached, hkept⟩
  · intro q hr
    obtain hr | hr := List.mem_append.mp hr
    · exact h.queued q (hrest q hr)
    · exact .next hreached hkept (hnew q hr)
  · exact fun s hs hs' => hcovered s (h.starts s hs hs')
  · intro m hm e' he' hkept'
    obtain hm | hm := List.mem_append.mp hm
    · exact hcovered e' (h.closed m hm e' he' hkept')
    · obtain rfl := List.mem_singleton.mp hm
      obtain hmarked | hwaits := hall e' he'
      · obtain ⟨w, hw, hwkey⟩ := List.mem_map.mp hmarked
        exact ⟨w, List.mem_append_left _ hw, hwkey, (hlow w hw).trans (hrank.grows m e' he')⟩
      · exact .of_mem (List.mem_append_right _ (List.mem_append_right _ hwaits))
  · intro m hm q hr
    obtain hr | hr := List.mem_append.mp hr
    · exact (hlow m hm).trans (hfirst q hr)
    · exact (hlow m hm).trans (hrank.grows e q (hnew q hr))
  · refine List.pairwise_append.mpr ⟨hsorted, ?_, fun q hr q' hr' => ?_⟩
    · exact List.pairwise_of_forall_mem_list fun q hr q' hr' =>
        hrank.mono e e le_rfl q (hnew q hr) q' (hnew q' hr')
    · exact h.near q (hrest q hr) e hhead q' (hnew q' hr')
  · -- What waits is no farther than what any waiting entry leads to.
    intro q hr q' hr' e' he'
    obtain hr | hr := List.mem_append.mp hr
    · obtain hr' | hr' := List.mem_append.mp hr'
      · exact h.near q (hrest q hr) q' (hrest q' hr') e' he'
      · exact (h.near q (hrest q hr) e hhead q' (hnew q' hr')).trans (hrank.grows q' e' he')
    · obtain hr' | hr' := List.mem_append.mp hr'
      · exact hrank.mono e q' (hfirst q' hr') q (hnew q hr) e' he'
      · exact hrank.mono e q' (hrank.grows e q' (hnew q' hr')) q (hnew q hr) e' he'

/-- One round keeps the invariant. -/
theorem Inv.visit [DecidableEq κ] (hrank : S.Ranked rank) (h : S.Inv rank starts before f) {e : ε}
    {rest : List ε} (hq : f.queue = e :: rest) :
    S.Inv rank starts before (S.visit f.marked e rest) := by
  unfold Search.visit
  split_ifs with hpass
  · refine h.pass hq fun e' hkey hle hkept => ?_
    obtain hmarked | hdrops := hpass
    · obtain ⟨w, hw, hwkey⟩ := List.mem_map.mp hmarked
      have hhead : e ∈ f.queue := by
        rw [hq]
        exact List.mem_cons_self
      exact ⟨w, hw, hwkey.trans hkey, (h.low w hw e hhead).trans hle⟩
    · rw [hrank.drops e e' hkey hle hdrops] at hkept
      cases hkept
  · obtain ⟨hkey, hdrops⟩ := not_or.mp hpass
    refine h.mark hrank hq hkey (Bool.eq_false_iff.mpr hdrops) (fun e' he' => ?_) fun e' he' => ?_
    · exact List.mem_of_mem_filter he'
    · by_cases hmem : S.key e' ∈ (f.marked ++ [e]).map S.key
      · exact .inl hmem
      · exact .inr (List.mem_filter.mpr ⟨he', decide_eq_true hmem⟩)

/-- What can be reached is marked with no higher rank, or something no farther still waits. -/
theorem Inv.covered (hrank : S.Ranked rank) (h : S.Inv rank starts before f) {e : ε}
    (he : S.Reached starts e) (hkept : S.drops e = false) :
    S.Covers rank f.marked e ∨ ∃ w ∈ f.queue, rank w ≤ rank e := by
  have hsplit : ∀ e', S.Covers rank (f.marked ++ f.queue) e' →
      S.Covers rank f.marked e' ∨ ∃ w ∈ f.queue, rank w ≤ rank e' := by
    rintro e' ⟨w, hw, hkey, hle⟩
    obtain hw | hw := List.mem_append.mp hw
    · exact .inl ⟨w, hw, hkey, hle⟩
    · exact .inr ⟨w, hw, hle⟩
  induction he with
  | start hs => exact hsplit _ (h.starts _ hs hkept)
  | @next a b _ ha hb ih =>
      obtain ⟨w, hw, hkey, hle⟩ | ⟨w, hw, hle⟩ := ih ha
      · obtain ⟨b', hb', hkey', hle'⟩ := hrank.follows w a hkey hle b hb
        have hkept' : S.drops b' = false := by
          rw [Bool.eq_false_iff]
          intro hdrops
          rw [hrank.drops b' b hkey' hle' hdrops] at hkept
          cases hkept
        obtain ⟨v, hv, hvkey, hvle⟩ | ⟨v, hv, hvle⟩ := hsplit b' (h.closed w hw b' hb' hkept')
        · exact .inl ⟨v, hv, hvkey.trans hkey', hvle.trans hle'⟩
        · exact .inr ⟨v, hv, hvle.trans hle'⟩
      · exact .inr ⟨w, hw, hle.trans (hrank.grows a b hb)⟩

/-- When nothing waits any more, everything that can be reached is marked. -/
theorem Inv.complete (hrank : S.Ranked rank) (h : S.Inv rank starts before f) (hq : f.queue = [])
    {e : ε} (he : S.Reached starts e) (hkept : S.drops e = false) : S.Covers rank f.marked e := by
  obtain hcovers | ⟨w, hw, -⟩ := h.covered hrank he hkept
  · exact hcovers
  · rw [hq] at hw
    cases hw

end

/-! ### How long it takes -/

section

variable {S} [DecidableEq κ]

/-- The entries that wait, and the arcs from keys that are not marked. -/
def cost (S : Search ε κ) (arcs : List κ) (f : Frontier ε) : ℕ :=
  f.queue.length + (arcs.filter fun k => k ∉ f.marked.map S.key).length

theorem cost_le (arcs : List κ) (f : Frontier ε) : S.cost arcs f ≤ f.queue.length + arcs.length :=
  Nat.add_le_add_left (List.length_filter_le _ _) _

omit [DecidableEq κ] in
theorem length_filter_concat [DecidableEq κ] {marked : List κ} {k : κ} (hk : k ∉ marked)
    (arcs : List κ) : (arcs.filter fun a => a ∉ marked ++ [k]).length + arcs.count k =
      (arcs.filter fun a => a ∉ marked).length := by
  induction arcs with
  | nil => rfl
  | cons a arcs ih =>
      simp only [List.mem_append, List.mem_singleton, List.filter_cons, List.count_cons] at ih ⊢
      by_cases hak : a = k
      · subst hak
        simp only [hk, or_true, not_true_eq_false, decide_false, beq_self_eq_true, if_true,
          not_false_eq_true, decide_true, List.length_cons, Bool.false_eq_true, if_false]
        omega
      · by_cases ha : a ∈ marked
        · simp only [ha, hak, beq_iff_eq, true_or, not_true_eq_false, decide_false,
            Bool.false_eq_true, if_false]
          omega
        · simp only [ha, hak, beq_iff_eq, or_false, not_false_eq_true, decide_true, if_true,
            List.length_cons, if_false]
          omega

/-- Every round lowers the cost, when there are no more arcs than listed. -/
theorem cost_visit {arcs : List κ} (harcs : ∀ e, (S.next e).length ≤ arcs.count (S.key e))
    (marked : List ε) (e : ε) (rest : List ε) :
    S.cost arcs (S.visit marked e rest) < S.cost arcs ⟨e :: rest, marked⟩ := by
  unfold visit
  split_ifs with hpass
  · exact Nat.add_lt_add_right (Nat.lt_succ_self rest.length) _
  · have hkey : S.key e ∉ marked.map S.key := fun hmem => hpass (.inl hmem)
    have hqueued : ((S.next e).filter fun e' => S.key e' ∉ (marked ++ [e]).map S.key).length ≤
        arcs.count (S.key e) := (List.length_filter_le _ _).trans (harcs e)
    have hgone := length_filter_concat hkey arcs
    unfold cost
    dsimp only
    rw [List.length_cons, List.length_append, List.map_append, List.map_singleton]
    rw [List.map_append, List.map_singleton] at hqueued
    omega

/-- A search ends within as many rounds as its cost and one more.  What holds of a search that has
ended, and of one whose next round leads to where it holds, holds with that much fuel. -/
theorem Inv.induction [Preorder ρ] {rank : ε → ρ} (hrank : S.Ranked rank) {arcs : List κ}
    (harcs : ∀ e, (S.next e).length ≤ arcs.count (S.key e)) {starts before : List ε}
    {motive : ℕ → Frontier ε → Prop}
    (empty : ∀ (fuel : ℕ) (marked : List ε), S.Inv rank starts before ⟨[], marked⟩ →
      motive (fuel + 1) ⟨[], marked⟩)
    (round : ∀ (fuel : ℕ) (marked : List ε) (e : ε) (rest : List ε),
      S.Inv rank starts before ⟨e :: rest, marked⟩ → motive fuel (S.visit marked e rest) →
        motive (fuel + 1) ⟨e :: rest, marked⟩)
    {fuel : ℕ} {f : Frontier ε} (h : S.Inv rank starts before f) (hcost : S.cost arcs f < fuel) :
    motive fuel f := by
  induction fuel generalizing f with
  | zero => exact absurd hcost (Nat.not_lt_zero _)
  | succ fuel ih =>
      obtain ⟨queue, marked⟩ := f
      cases queue with
      | nil => exact empty fuel marked h
      | cons e rest =>
          have hlower := cost_visit harcs marked e rest
          exact round fuel marked e rest h (ih (h.visit hrank rfl) (by omega))

end

end Search

end BreadthFirst
