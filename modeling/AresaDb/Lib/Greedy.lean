import Mathlib

/-! # Greedy groups

Items one after another into groups: an item goes to the last group, unless that is full for it, and
then it begins a group.  The items stay what they are and in order (`flatten_groups`).  The test
comes before the item is added, so a group can be over a limit that the test is about; what decides
is the step which makes it so (`groups_within_iff`). -/

namespace Greedy

variable {α : Type*} (full : List α → α → Bool)

/-- One more item. -/
def add (groups : List (List α)) (a : α) : List (List α) :=
  match groups.getLast? with
  | none => [[a]]
  | some g => if full g a then groups ++ [[a]] else groups.dropLast ++ [g ++ [a]]

def groups (items : List α) : List (List α) := items.foldl (add full) []

variable {full} {items as bs g : List α} {a : α}

theorem groups_nil : groups full [] = [] := rfl

theorem groups_concat (items : List α) (a : α) :
    groups full (items ++ [a]) = add full (groups full items) a := by
  rw [groups, List.foldl_append]
  rfl

theorem add_nil (a : α) : add full [] a = [[a]] := rfl

theorem add_concat (closed : List (List α)) (g : List α) (a : α) :
    add full (closed ++ [g]) a =
      if full g a then closed ++ [g, [a]] else closed ++ [g ++ [a]] := by
  simp [add]

theorem add_ne_nil (gs : List (List α)) (a : α) : add full gs a ≠ [] := by
  rcases List.eq_nil_or_concat gs with rfl | ⟨closed, g, rfl⟩
  · exact List.cons_ne_nil _ _
  · rw [List.concat_eq_append, add_concat]
    split_ifs
    all_goals exact List.append_ne_nil_of_right_ne_nil _ (List.cons_ne_nil _ _)

theorem groups_eq_nil : groups full items = [] ↔ items = [] := by
  rcases List.eq_nil_or_concat items with rfl | ⟨as, a, rfl⟩
  · exact iff_of_true rfl rfl
  · rw [List.concat_eq_append, groups_concat]
    exact iff_of_false (add_ne_nil _ _) (by simp)

/-- There are groups before the last one, and the last one. -/
theorem exists_last (full : List α → α → Bool) (h : items ≠ []) :
    ∃ closed g, groups full items = closed ++ [g] := by
  rcases List.eq_nil_or_concat (groups full items) with hnil | ⟨closed, g, hg⟩
  · exact absurd (groups_eq_nil.mp hnil) h
  · exact ⟨closed, g, hg.trans List.concat_eq_append⟩

/-- What one more item keeps, all items do. -/
theorem groups_induction {P : List (List α) → List α → Prop} (hnil : P [] [])
    (hstep : ∀ gs as a, P gs as → P (add full gs a) (as ++ [a])) (items : List α) :
    P (groups full items) items := by
  induction items using List.reverseRecOn with
  | nil => exact hnil
  | append_singleton as a ih =>
      rw [groups_concat]
      exact hstep _ _ _ ih

theorem flatten_groups (full : List α → α → Bool) (items : List α) :
    (groups full items).flatten = items := by
  refine groups_induction (P := fun gs as => gs.flatten = as) rfl (fun gs as a h => ?_) items
  rcases List.eq_nil_or_concat gs with rfl | ⟨closed, g, rfl⟩
  · obtain rfl := h
    rfl
  · rw [List.concat_eq_append] at h ⊢
    rw [add_concat]
    split_ifs <;> simp [← h]

theorem ne_nil_of_mem (h : g ∈ groups full items) : g ≠ [] := by
  refine groups_induction (P := fun gs _ => ∀ g ∈ gs, g ≠ []) (List.forall_mem_nil _)
    (fun gs as a ih => ?_) items g h
  rcases List.eq_nil_or_concat gs with rfl | ⟨closed, g, rfl⟩
  · simp [add_nil]
  · rw [List.concat_eq_append] at ih ⊢
    rw [add_concat]
    rw [List.forall_mem_append] at ih
    split_ifs
    · exact List.forall_mem_append.mpr ⟨ih.1, by simpa using ih.2⟩
    · exact List.forall_mem_append.mpr ⟨ih.1, by simp⟩

theorem mem_of_mem_groups (hg : g ∈ groups full items) (ha : a ∈ g) : a ∈ items := by
  rw [← flatten_groups full items]
  exact List.mem_flatten.mpr ⟨g, hg, ha⟩

/-- A group begins with the first item, or with one that another group is full for. -/
theorem exists_head (hg : g ∈ groups full items) :
    ∃ a rest, g = a :: rest ∧ (items.head? = some a ∨ ∃ g', full g' a) := by
  induction items using List.reverseRecOn generalizing g with
  | nil => exact absurd hg List.not_mem_nil
  | append_singleton as a ih =>
      have hhead : ∀ {c}, as.head? = some c → (as ++ [a]).head? = some c := fun h => by
        rw [List.head?_append, h, Option.some_or]
      rw [groups_concat] at hg
      rcases List.eq_nil_or_concat (groups full as) with hnil | ⟨closed, g', hlast⟩
      · obtain rfl := groups_eq_nil.mp hnil
        exact ⟨a, [], List.mem_singleton.mp hg, .inl rfl⟩
      · rw [List.concat_eq_append] at hlast
        have hold : ∀ h ∈ closed ++ [g'], ∃ c rest, h = c :: rest ∧
            ((as ++ [a]).head? = some c ∨ ∃ g', full g' c) := fun h hmem => by
          obtain ⟨c, rest, hc, hfull⟩ := ih (hlast ▸ hmem)
          exact ⟨c, rest, hc, hfull.imp_left hhead⟩
        rw [hlast, add_concat] at hg
        split_ifs at hg with hfull
        · rw [List.append_cons, List.mem_append] at hg
          obtain hg | hg := hg
          · exact hold g hg
          · exact ⟨a, [], List.mem_singleton.mp hg, .inr ⟨g', hfull⟩⟩
        · obtain hg | hg := List.mem_append.mp hg
          · exact hold g (List.mem_append_left _ hg)
          · obtain ⟨c, rest, rfl, hc⟩ := hold g'
              (List.mem_append_right _ (List.mem_singleton.mpr rfl))
            exact ⟨c, rest ++ [a], List.mem_singleton.mp hg, hc⟩

/-- The groups before the last one stay. -/
theorem dropLast_prefix (full : List α → α → Bool) (as bs : List α) :
    (groups full as).dropLast <+: (groups full (as ++ bs)).dropLast := by
  induction bs using List.reverseRecOn with
  | nil => rw [List.append_nil]
  | append_singleton bs a ih =>
      refine ih.trans ?_
      rw [← List.append_assoc, groups_concat]
      rcases List.eq_nil_or_concat (groups full (as ++ bs)) with hnil | ⟨closed, g, hg⟩
      · rw [hnil]
        exact List.nil_prefix
      · rw [hg, List.concat_eq_append, add_concat]
        split_ifs
        · rw [List.dropLast_concat, List.append_cons, List.dropLast_concat]
          exact List.prefix_append _ _
        · rw [List.dropLast_concat, List.dropLast_concat]

/-- The last group is closed by an item that it is full for. -/
theorem mem_of_full (hg : g ∈ (groups full as).getLast?) (hfull : full g a) (bs : List α) :
    g ∈ groups full (as ++ a :: bs) := by
  have hlast : g ∈ (groups full (as ++ [a])).dropLast := by
    obtain ⟨closed, hclosed⟩ := List.getLast?_eq_some_iff.mp hg
    rw [groups_concat, hclosed, add_concat, if_pos hfull, List.append_cons, List.dropLast_concat]
    exact List.mem_append_right _ (List.mem_singleton.mpr rfl)
  have hkept := dropLast_prefix full (as ++ [a]) bs
  rw [List.append_assoc] at hkept
  exact List.dropLast_subset _ (hkept.subset hlast)

/-- The last group stays if it is full for everything. -/
theorem mem_of_always_full (hg : g ∈ (groups full as).getLast?) (hfull : ∀ a, full g a)
    (bs : List α) : g ∈ groups full (as ++ bs) := by
  cases bs with
  | nil =>
      rw [List.append_nil]
      exact List.mem_of_mem_getLast? hg
  | cons a bs => exact mem_of_full hg (hfull a) bs

theorem mem_getLast?_add (hg : g ∈ (groups full as).getLast?) (hroom : full g a = false) :
    g ++ [a] ∈ (groups full (as ++ [a])).getLast? := by
  obtain ⟨closed, hclosed⟩ := List.getLast?_eq_some_iff.mp hg
  rw [groups_concat, hclosed, add_concat, if_neg (Bool.eq_false_iff.mp hroom),
    List.getLast?_concat]
  rfl

/-! ### Limits -/

/-- All groups of two or more are within a limit if no step makes one that is not. -/
theorem groups_within {Big : List α → Prop}
    (h : ∀ as a bs, items = as ++ a :: bs → ∀ g ∈ (groups full as).getLast?,
      full g a = false → ¬ Big (g ++ [a])) :
    ∀ g ∈ groups full items, 2 ≤ g.length → ¬ Big g := by
  induction items using List.reverseRecOn with
  | nil => exact List.forall_mem_nil _
  | append_singleton as a ih =>
      have ih := ih fun as' a' bs heq => h as' a' (bs ++ [a]) (by rw [heq]; simp)
      have hlast := h as a [] rfl
      rw [groups_concat]
      rcases List.eq_nil_or_concat (groups full as) with hnil | ⟨closed, g, hg⟩
      · rw [hnil, add_nil]
        intro g hg hlen
        rw [List.mem_singleton.mp hg] at hlen
        exact absurd hlen (by simp)
      · rw [List.concat_eq_append] at hg
        rw [hg, List.getLast?_concat] at hlast
        rw [hg, List.forall_mem_append] at ih
        rw [hg, add_concat]
        cases hfull : full g a
        · refine List.forall_mem_append.mpr ⟨ih.1, List.forall_mem_singleton.mpr fun _ => ?_⟩
          exact hlast g rfl hfull
        · refine List.forall_mem_append.mpr ⟨ih.1, List.forall_mem_cons.mpr ⟨?_, ?_⟩⟩
          · exact ih.2 g (List.mem_singleton.mpr rfl)
          · exact List.forall_mem_singleton.mpr fun hlen => absurd hlen (by simp)

/-- A group over the limit is full for every item, so it is there at the end. -/
theorem groups_within_iff {Big : List α → Prop} (hbig : ∀ g a, Big g → full g a) :
    (∀ g ∈ groups full items, 2 ≤ g.length → ¬ Big g) ↔
      ∀ as a bs, items = as ++ a :: bs → ∀ g ∈ (groups full as).getLast?,
        full g a = false → ¬ Big (g ++ [a]) := by
  refine ⟨fun h as a bs heq g hg hroom hgroup => ?_, groups_within⟩
  have hmem := mem_of_always_full (mem_getLast?_add hg hroom) (fun b => hbig _ b hgroup) bs
  rw [List.append_assoc, List.singleton_append, ← heq] at hmem
  have hne : g ≠ [] := ne_nil_of_mem (List.mem_of_mem_getLast? hg)
  refine h _ hmem ?_ hgroup
  have hpos := List.length_pos_iff.mpr hne
  rw [List.length_append, List.length_singleton]
  omega

/-! ### One group -/

/-- No item finds those before it full. -/
def Fits (full : List α → α → Bool) (items : List α) : Prop :=
  ∀ as a bs, items = as ++ a :: bs → as ≠ [] → full as a = false

theorem fits_singleton (a : α) : Fits full [a] := by
  intro as b bs heq has
  obtain ⟨c, as, rfl⟩ := List.exists_cons_of_ne_nil has
  have htail := (List.cons.inj heq).2
  exact absurd htail.symm (List.append_ne_nil_of_right_ne_nil _ (List.cons_ne_nil _ _))

theorem fits_concat (has : as ≠ []) : Fits full (as ++ [a]) ↔ Fits full as ∧ full as a = false := by
  constructor
  · refine fun h => ⟨fun as' b bs heq => h as' b (bs ++ [a]) ?_, h as a [] rfl has⟩
    rw [heq, List.append_assoc, List.cons_append]
  · rintro ⟨hfits, ha⟩ as' b bs heq has'
    rcases List.eq_nil_or_concat bs with rfl | ⟨bs, b', rfl⟩
    · obtain ⟨rfl, hb⟩ := List.append_inj' heq rfl
      rwa [← (List.cons.inj hb).1]
    · rw [List.concat_eq_append, ← List.cons_append, ← List.append_assoc] at heq
      obtain ⟨rfl, -⟩ := List.append_inj' heq rfl
      exact hfits as' b bs rfl has'

/-- There is one group when all items fit in it. -/
theorem groups_eq_singleton_iff (h : items ≠ []) :
    groups full items = [items] ↔ Fits full items := by
  induction items using List.reverseRecOn with
  | nil => exact absurd rfl h
  | append_singleton as a ih =>
      by_cases has : as = []
      · subst has
        exact iff_of_true rfl (fits_singleton a)
      rw [groups_concat, fits_concat has, ← ih has]
      constructor
      · intro hone
        obtain ⟨closed, g, hg⟩ := exists_last full has
        rw [hg, add_concat] at hone
        rw [hg]
        cases hfull : full g a
        · rw [hfull, if_neg Bool.false_ne_true] at hone
          obtain ⟨rfl, hlast⟩ := List.append_inj' (hone.trans (List.nil_append _).symm) rfl
          obtain ⟨rfl, -⟩ := List.append_inj' (List.cons.inj hlast).1 rfl
          exact ⟨rfl, hfull⟩
        · rw [hfull, if_pos rfl] at hone
          have hlen := congrArg List.length hone
          simp at hlen
      · rintro ⟨hone, hroom⟩
        rw [hone]
        exact (add_concat [] as a).trans (if_neg (Bool.eq_false_iff.mp hroom))

end Greedy
