import AresaDb.Lib.BinaryHeap

/-! # Best-first search

The search of a graph from one vertex, closest candidates first, that keeps the closest `width`
vertices it has seen.  The graph is a partial function: a vertex that is there has a distance and
neighbours, some of which may be missing.

Whatever the distances are, even when they are not ordered, the results are vertices that can be
reached, with their distances (`search_sound`), each once (`search_nodup`); and when the whole graph
is no larger than the width, they are all of these (`search_complete`). -/

namespace BestFirst

open BinaryHeap

/-! ### The search -/

variable {α δ : Type}

structure State (α δ : Type) where
  visited : List α
  candidates : List (α × δ)
  results : List (α × δ)

section

variable (look : α → Option (δ × List α)) (lt : δ → δ → Bool) (width : ℕ)

def closer (e e' : α × δ) : Bool := lt e.2 e'.2

def farther (e e' : α × δ) : Bool := lt e'.2 e.2

/-- The distance of the worst result. -/
def worst (results : List (α × δ)) : Option δ := (peek results).map Prod.snd

/-- A vertex at the distance becomes a result. -/
def admits (results : List (α × δ)) (d : δ) : Bool :=
  (match worst results with
    | some w => lt d w
    | none => true) || decide (results.length < width)

/-- The search ends with a candidate at the distance. -/
def ends (results : List (α × δ)) (d : δ) : Bool :=
  (match worst results with
    | some w => lt w d
    | none => false) && decide (width ≤ results.length)

/-- Drop the worst result when there are too many. -/
def trim (results : List (α × δ)) : List (α × δ) :=
  if width < results.length then ((pop (farther lt) results).map Prod.snd).getD [] else results

variable [DecidableEq α]

def visit (s : State α δ) (a : α) : State α δ :=
  if a ∈ s.visited then s
  else
    match look a with
    | none => s
    | some (d, _) =>
        if admits lt width s.results d then
          ⟨a :: s.visited, push (closer lt) s.candidates (a, d),
            trim lt width (push (farther lt) s.results (a, d))⟩
        else { s with visited := a :: s.visited }

/-- The search, for a number of candidates. -/
def explore : ℕ → State α δ → State α δ
  | 0, s => s
  | fuel + 1, s =>
      match pop (closer lt) s.candidates with
      | none => s
      | some ((a, d), rest) =>
          if ends lt width s.results d then { s with candidates := rest }
          else
            match look a with
            | none => explore fuel { s with candidates := rest }
            | some (_, next) =>
                explore fuel (next.foldl (visit look lt width) { s with candidates := rest })

/-- The results from a start, the closest first. -/
def search (fuel : ℕ) (start : α) : List (α × δ) :=
  match look start with
  | none => []
  | some (d, _) =>
      (explore look lt width fuel ⟨[start], [(start, d)], [(start, d)]⟩).results.insertionSort
        fun e e' => lt e'.2 e.2 = false

/-- There is an edge to a vertex that is there. -/
def Edge (a b : α) : Prop := ∃ d next, look a = some (d, next) ∧ b ∈ next ∧ (look b).isSome

/-- There is a path from `a` to `b`. -/
def Reaches (a b : α) : Prop := Relation.ReflTransGen (Edge look) a b

end

/-! ### What the results are -/

variable {look : α → Option (δ × List α)} {lt : δ → δ → Bool} {width : ℕ}

/-- What was visited is reached from the start, and the results are of it, each once, with their
distances. -/
structure Sound (look : α → Option (δ × List α)) (start : α) (s : State α δ) : Prop where
  nodup : (s.results.map Prod.fst).Nodup
  results : ∀ e ∈ s.results, e.1 ∈ s.visited ∧ ∃ next, look e.1 = some (e.2, next)
  candidates : ∀ e ∈ s.candidates, e.1 ∈ s.visited
  reached : ∀ a ∈ s.visited, Reaches look start a

theorem trim_subperm (results : List (α × δ)) : (trim lt width results).Subperm results := by
  unfold trim
  split_ifs
  · cases hpop : pop (farther lt) results with
    | none => exact List.nil_subperm
    | some e =>
        obtain ⟨x, rest⟩ := e
        exact (List.sublist_cons_self x rest).subperm.trans (pop_perm _ hpop).subperm
  · exact List.Subperm.refl _

theorem nodup_of_subperm {l l' : List (α × δ)} (h : l.Subperm l')
    (hl' : (l'.map Prod.fst).Nodup) : (l.map Prod.fst).Nodup := by
  obtain ⟨l₁, hperm, hsub⟩ := h
  exact (hperm.map Prod.fst).nodup_iff.mp (hl'.sublist (hsub.map Prod.fst))

theorem sound_start {start : α} {d : δ} {next : List α} (h : look start = some (d, next)) :
    Sound look start ⟨[start], [(start, d)], [(start, d)]⟩ where
  nodup := List.nodup_singleton _
  results e he := by
    obtain rfl := List.mem_singleton.mp he
    exact ⟨List.mem_singleton_self _, next, h⟩
  candidates e he := by
    obtain rfl := List.mem_singleton.mp he
    exact List.mem_singleton_self _
  reached a ha := by
    obtain rfl := List.mem_singleton.mp ha
    exact .refl

/-- A vertex is marked as visited. -/
theorem Sound.mark {start : α} {s : State α δ} (h : Sound look start s) {a : α}
    (ha : Reaches look start a) : Sound look start { s with visited := a :: s.visited } where
  nodup := h.nodup
  results e he := ⟨List.mem_cons_of_mem _ (h.results e he).1, (h.results e he).2⟩
  candidates e he := List.mem_cons_of_mem _ (h.candidates e he)
  reached := List.forall_mem_cons.mpr ⟨ha, h.reached⟩

variable [DecidableEq α]

theorem Sound.visit {start : α} {s : State α δ} (h : Sound look start s) {a : α}
    (hreach : (look a).isSome → Reaches look start a) :
    Sound look start (visit look lt width s a) := by
  unfold BestFirst.visit
  split_ifs with ha
  · exact h
  cases hlook : look a with
  | none => exact h
  | some e =>
      obtain ⟨d, next⟩ := e
      have hmark := h.mark (hreach (by rw [hlook]; rfl))
      dsimp only
      split_ifs
      · have hsub : (trim lt width (push (farther lt) s.results (a, d))).Subperm
            ((a, d) :: s.results) := (trim_subperm _).trans (push_perm _ _ _).subperm
        refine { hmark with nodup := ?_, results := fun e he => ?_, candidates := fun e he => ?_ }
        · refine nodup_of_subperm hsub (List.nodup_cons.mpr ⟨fun hmem => ?_, h.nodup⟩)
          obtain ⟨e, he, rfl⟩ := List.mem_map.mp hmem
          exact ha (h.results e he).1
        · rcases List.mem_cons.mp (hsub.subset he) with rfl | he
          · exact ⟨List.mem_cons_self, next, hlook⟩
          · exact hmark.results e he
        · rcases (mem_push _).mp he with rfl | he
          · exact List.mem_cons_self
          · exact hmark.candidates e he
      · exact hmark

theorem Sound.visits {start : α} {s : State α δ} (h : Sound look start s) {next : List α}
    (hreach : ∀ a ∈ next, (look a).isSome → Reaches look start a) :
    Sound look start (next.foldl (BestFirst.visit look lt width) s) := by
  induction next generalizing s with
  | nil => exact h
  | cons a next ih =>
      obtain ⟨ha, hnext⟩ := List.forall_mem_cons.mp hreach
      exact ih (h.visit ha) hnext

theorem Sound.explore {start : α} {s : State α δ} (h : Sound look start s) (fuel : ℕ) :
    Sound look start (explore look lt width fuel s) := by
  induction fuel generalizing s with
  | zero => exact h
  | succ fuel ih =>
      rw [BestFirst.explore]
      split
      · exact h
      · next a d rest hpop =>
          have hperm := pop_perm _ hpop
          have hrest : Sound look start { s with candidates := rest } :=
            { h with candidates := fun e he =>
                h.candidates e (hperm.mem_iff.mp (List.mem_cons_of_mem _ he)) }
          have ha : Reaches look start a :=
            h.reached a (h.candidates (a, d) (hperm.mem_iff.mp List.mem_cons_self))
          split_ifs
          · exact hrest
          cases hlook : look a with
          | none => exact ih hrest
          | some e =>
              refine ih (hrest.visits fun b hb hsome => ha.tail ?_)
              exact ⟨e.1, e.2, hlook, hb, hsome⟩

/-- The results are vertices that are reached, with their distances. -/
theorem search_sound {fuel : ℕ} {start : α} {e : α × δ}
    (he : e ∈ search look lt width fuel start) :
    Reaches look start e.1 ∧ ∃ next, look e.1 = some (e.2, next) := by
  unfold search at he
  cases hlook : look start with
  | none =>
      rw [hlook] at he
      cases he
  | some e' =>
      rw [hlook] at he
      have hsound : Sound look start (explore look lt width fuel _) :=
        (sound_start hlook).explore fuel
      obtain ⟨hvisited, hdistance⟩ := hsound.results e ((List.mem_insertionSort _).mp he)
      exact ⟨hsound.reached e.1 hvisited, hdistance⟩

theorem search_nodup (fuel : ℕ) (start : α) :
    ((search look lt width fuel start).map Prod.fst).Nodup := by
  unfold search
  cases hlook : look start with
  | none => exact List.nodup_nil
  | some e =>
      exact ((List.perm_insertionSort _ _).map Prod.fst).nodup_iff.mpr
        ((sound_start hlook).explore fuel).nodup

/-! ### A graph within the width -/

/-- All visited vertices are results, and where their edges lead was visited too, but for the
candidates and the open ones. -/
structure Wide (look : α → Option (δ × List α)) (start : α) (opened : List α) (s : State α δ) :
    Prop where
  results : (s.results.map Prod.fst).Perm s.visited
  nodup : s.visited.Nodup
  there : ∀ a ∈ s.visited, (look a).isSome
  start : start ∈ s.visited
  edges : ∀ a ∈ s.visited, a ∈ opened ∨ a ∈ s.candidates.map Prod.fst ∨
    ∀ b, Edge look a b → b ∈ s.visited

section

variable (lt) {vertices : List α} {start : α} {opened : List α} {s : State α δ}

omit [DecidableEq α] in
theorem Wide.subperm (h : Wide look start opened s)
    (hvertices : ∀ a, (look a).isSome → a ∈ vertices) : s.visited.Subperm vertices :=
  List.subperm_of_subset h.nodup fun a ha => hvertices a (h.there a ha)

/-- A vertex that is new becomes a candidate and a result. -/
theorem Wide.visit (h : Wide look start opened s)
    (hvertices : ∀ a, (look a).isSome → a ∈ vertices) (hwidth : vertices.length ≤ width) (a : α) :
    Wide look start opened (visit look lt width s a) ∧
      (∀ b ∈ s.visited, b ∈ (BestFirst.visit look lt width s a).visited) ∧
      ((look a).isSome → a ∈ (BestFirst.visit look lt width s a).visited) ∧
      (BestFirst.visit look lt width s a).candidates.length + s.visited.length =
        s.candidates.length + (BestFirst.visit look lt width s a).visited.length := by
  unfold BestFirst.visit
  split_ifs with ha
  · exact ⟨h, fun _ hb => hb, fun _ => ha, rfl⟩
  cases hlook : look a with
  | none => exact ⟨h, fun _ hb => hb, nofun, rfl⟩
  | some e =>
      obtain ⟨d, next⟩ := e
      have hthere : ∀ b ∈ a :: s.visited, (look b).isSome := by
        rintro b (_ | ⟨_, hb⟩)
        · rw [hlook]
          rfl
        · exact h.there b hb
      have hnodup : (a :: s.visited).Nodup := List.nodup_cons.mpr ⟨ha, h.nodup⟩
      have hroom : s.results.length < width := by
        have hle := (List.subperm_of_subset hnodup fun b hb => hvertices b (hthere b hb)).length_le
        have hlen := h.results.length_eq
        rw [List.length_map] at hlen
        rw [List.length_cons] at hle
        omega
      have hadmits : admits lt width s.results d = true := by
        unfold admits
        rw [decide_eq_true hroom, Bool.or_true]
      have htrim : trim lt width (push (farther lt) s.results (a, d)) =
          push (farther lt) s.results (a, d) := if_neg (by rw [length_push]; omega)
      dsimp only
      rw [if_pos hadmits, htrim]
      refine ⟨⟨((push_perm _ _ _).map Prod.fst).trans (h.results.cons a), hnodup, hthere,
        List.mem_cons_of_mem _ h.start, ?_⟩,
        fun b hb => List.mem_cons_of_mem _ hb, fun _ => List.mem_cons_self, ?_⟩
      · have hcandidates : ∀ b, b ∈ (push (closer lt) s.candidates (a, d)).map Prod.fst ↔
            b ∈ a :: s.candidates.map Prod.fst :=
          fun b => ((push_perm _ _ _).map Prod.fst).mem_iff
        rintro b (_ | ⟨_, hb⟩)
        · exact .inr (.inl ((hcandidates a).mpr List.mem_cons_self))
        · rcases h.edges b hb with hopened | hcand | hedges
          · exact .inl hopened
          · exact .inr (.inl ((hcandidates b).mpr (List.mem_cons_of_mem _ hcand)))
          · exact .inr (.inr fun c hc => List.mem_cons_of_mem _ (hedges c hc))
      · rw [length_push, List.length_cons]
        omega

theorem Wide.visits (h : Wide look start opened s)
    (hvertices : ∀ a, (look a).isSome → a ∈ vertices) (hwidth : vertices.length ≤ width)
    (next : List α) :
    Wide look start opened (next.foldl (BestFirst.visit look lt width) s) ∧
      (∀ b ∈ s.visited, b ∈ (next.foldl (BestFirst.visit look lt width) s).visited) ∧
      (∀ a ∈ next, (look a).isSome →
        a ∈ (next.foldl (BestFirst.visit look lt width) s).visited) ∧
      (next.foldl (BestFirst.visit look lt width) s).candidates.length + s.visited.length =
        s.candidates.length + (next.foldl (BestFirst.visit look lt width) s).visited.length := by
  induction next generalizing s with
  | nil => exact ⟨h, fun _ hb => hb, fun _ ha => (List.not_mem_nil ha).elim, rfl⟩
  | cons a next ih =>
      obtain ⟨hvisit, hkept, hnew, hcount⟩ := h.visit lt hvertices hwidth a
      obtain ⟨hwide, hkept', hnew', hcount'⟩ := ih hvisit
      refine ⟨hwide, fun b hb => hkept' b (hkept b hb), ?_, ?_⟩
      · rintro b (_ | ⟨_, hb⟩) hsome
        · exact hkept' a (hnew hsome)
        · exact hnew' b hb hsome
      · rw [List.foldl_cons]
        omega

omit [DecidableEq α] in
/-- A candidate that is popped is open. -/
theorem Wide.opens (h : Wide look start [] s) {a : α} {d : δ} {rest : List (α × δ)}
    (hperm : ((a, d) :: rest).Perm s.candidates) :
    Wide look start [a] { s with candidates := rest } := by
  refine ⟨h.results, h.nodup, h.there, h.start, fun b hb => ?_⟩
  rcases h.edges b hb with hb | hb | hb
  · cases hb
  · rcases List.mem_cons.mp ((hperm.map Prod.fst).mem_iff.mpr hb) with rfl | hb
    · exact .inl List.mem_cons_self
    · exact .inr (.inl hb)
  · exact .inr (.inr hb)

omit [DecidableEq α] in
theorem Wide.closes {a : α} (h : Wide look start [a] s)
    (ha : ∀ b, Edge look a b → b ∈ s.visited) : Wide look start [] s := by
  refine { h with edges := fun b hb => ?_ }
  rcases h.edges b hb with hb | hb
  · obtain rfl := List.mem_singleton.mp hb
    exact .inr (.inr ha)
  · exact .inr hb

omit [DecidableEq α] in
theorem Wide.edges_of_nil (h : Wide look start [] s) (hnil : s.candidates = []) :
    ∀ a ∈ s.visited, ∀ b, Edge look a b → b ∈ s.visited := by
  intro a ha
  have hedges := h.edges a ha
  rw [hnil] at hedges
  simpa using hedges

/-- The search ends when nothing is left to visit. -/
theorem Wide.explore (h : Wide look start [] s)
    (hvertices : ∀ a, (look a).isSome → a ∈ vertices) (hwidth : vertices.length ≤ width)
    {fuel : ℕ} (hfuel : s.candidates.length + vertices.length ≤ fuel + s.visited.length) :
    ∃ s', BestFirst.explore look lt width fuel s = s' ∧
      (s'.results.map Prod.fst).Perm s'.visited ∧
      start ∈ s'.visited ∧ ∀ a ∈ s'.visited, ∀ b, Edge look a b → b ∈ s'.visited := by
  induction fuel generalizing s with
  | zero =>
      have hle := (h.subperm hvertices).length_le
      have hnil : s.candidates = [] := List.eq_nil_of_length_eq_zero (by omega)
      exact ⟨s, rfl, h.results, h.start, h.edges_of_nil hnil⟩
  | succ fuel ih =>
      rw [BestFirst.explore]
      cases hpop : pop (closer lt) s.candidates with
      | none => exact ⟨s, rfl, h.results, h.start, h.edges_of_nil ((pop_eq_none _).mp hpop)⟩
      | some e =>
          obtain ⟨⟨a, d⟩, rest⟩ := e
          have hperm := pop_perm _ hpop
          have hlen := hperm.length_eq
          rw [List.length_cons] at hlen
          have hopen := h.opens hperm
          dsimp only
          split_ifs with hends
          · -- there are as many results as vertices
            have hfull : width ≤ s.visited.length := by
              have hle := (Bool.and_eq_true _ _).mp hends |>.2
              rw [← h.results.length_eq, List.length_map]
              exact of_decide_eq_true hle
            have hall : s.visited.Perm vertices :=
              (h.subperm hvertices).perm_of_length_le (hwidth.trans hfull)
            refine ⟨_, rfl, h.results, h.start, fun b _ c hc => ?_⟩
            obtain ⟨_, _, _, _, hc⟩ := hc
            exact hall.mem_iff.mpr (hvertices c hc)
          · cases hlook : look a with
            | none =>
                refine ih (hopen.closes fun b hb => ?_) ?_
                · obtain ⟨_, _, hb, _⟩ := hb
                  rw [hlook] at hb
                  cases hb
                · change rest.length + vertices.length ≤ fuel + s.visited.length
                  omega
            | some e =>
                obtain ⟨d', next⟩ := e
                obtain ⟨hwide, -, hnew, hcount⟩ :=
                  hopen.visits lt hvertices hwidth next
                refine ih (hwide.closes fun b hb => ?_) ?_
                · obtain ⟨_, next', heq, hb, hsome⟩ := hb
                  rw [hlook] at heq
                  obtain ⟨-, rfl⟩ := Prod.mk.inj (Option.some.inj heq)
                  exact hnew b hb hsome
                · change _ + s.visited.length = rest.length + _ at hcount
                  omega

variable {lt} in
/-- When the graph is within the width, the results are all vertices that can be reached. -/
theorem search_complete (hvertices : ∀ a, (look a).isSome → a ∈ vertices)
    (hwidth : vertices.length ≤ width) {fuel : ℕ} (hfuel : vertices.length ≤ fuel) {a : α}
    (hstart : (look start).isSome) (hreach : Reaches look start a) :
    ∃ d, (a, d) ∈ search look lt width fuel start := by
  obtain ⟨⟨d, next⟩, hlook⟩ := Option.isSome_iff_exists.mp hstart
  have hinit : Wide look start [] ⟨[start], [(start, d)], [(start, d)]⟩ := by
    refine ⟨.refl _, List.nodup_singleton _, fun b hb => ?_, List.mem_singleton_self _,
      fun b hb => .inr (.inl hb)⟩
    obtain rfl := List.mem_singleton.mp hb
    exact hstart
  obtain ⟨s', hs', hresults, hin, hedges⟩ := hinit.explore lt hvertices hwidth
    (show 1 + vertices.length ≤ fuel + 1 by omega)
  have hvisited : a ∈ s'.visited := by
    induction hreach with
    | refl => exact hin
    | tail _ hbc ih => exact hedges _ ih _ hbc
  obtain ⟨⟨a', d'⟩, hmem, rfl⟩ := List.mem_map.mp (hresults.mem_iff.mpr hvisited)
  refine ⟨d', ?_⟩
  unfold search
  rw [hlook]
  exact (List.mem_insertionSort _).mpr (hs' ▸ hmem)

end

end BestFirst
