import AresaDb.Lib.Blanks
import AresaDb.Lib.Windows

/-! # Parts of a text at their places

The text between two places shows a part when it is that part but for white space (`Shows`).  Where
the first place is in the white space before the part, it does just when the second is not before
the last visible character of it (`shows_iff_reaches`).

If white space is missing in the part, its windows are shown at their places only where nothing is
missing: the first ends too early otherwise, and each other one begins in the one before it
(`shows_windows_iff`). -/

namespace Text

variable {a b p r s t u x y z : List Char} {m n : ℕ}

/-! ### Sublists -/

theorem size_le_of_sublist (h : s.Sublist u) : size s ≤ size u := by
  induction h with
  | slnil => exact le_rfl
  | cons c h ih =>
      rw [size_cons]
      omega
  | cons_cons c h ih =>
      rw [size_cons, size_cons]
      omega

theorem eq_of_sublist_of_size (h : s.Sublist u) (hsize : size u ≤ size s) : s = u := by
  induction h with
  | slnil => rfl
  | @cons l₁ l₂ c h ih =>
      have hpos := c.utf8Size_pos
      have hle := size_le_of_sublist h
      rw [size_cons] at hsize
      omega
  | @cons_cons l₁ l₂ c h ih =>
      rw [size_cons, size_cons] at hsize
      rw [ih (by omega)]

/-- What does not end with white space has nothing of the white space at the end. -/
theorem sublist_trimEnd (h : p.Sublist y) (hp : endsBlank p = false) : p.Sublist (trimEnd y) := by
  obtain ⟨w, heq, hw⟩ := exists_trimEnd y
  rw [heq] at h
  obtain ⟨p₁, p₂, rfl, h₁, h₂⟩ := List.sublist_append_iff.mp h
  cases p₂ with
  | nil => rwa [List.append_nil]
  | cons c p₂ =>
      rw [endsBlank_append (List.cons_ne_nil _ _), endsBlank,
        List.getLast?_eq_some_getLast (List.cons_ne_nil _ _), Option.any_some,
        hw _ (h₂.subset (List.getLast_mem _))] at hp
      exact Bool.noConfusion hp

theorem visible_eq_of_sublist (hp : p.Sublist x) (hr : r.Sublist y)
    (h : visible (p ++ r) = visible (x ++ y)) : visible p = visible x := by
  have hpx : (visible p).Sublist (visible x) := hp.filter _
  have hry : (visible r).length ≤ (visible y).length := (hr.filter _).length_le
  have hlen := congrArg List.length h
  rw [visible_append, visible_append, List.length_append, List.length_append] at hlen
  exact hpx.eq_of_length_le (by omega)

/-! ### Beginnings -/

theorem exists_append_of_size_le (h : a ++ b = x ++ y) (hsize : size a ≤ size x) :
    ∃ r, x = a ++ r ∧ b = r ++ y := by
  obtain ⟨r, hx, hb⟩ | ⟨r, rfl, rfl⟩ := List.append_eq_append_iff.mp h
  · exact ⟨r, hx, hb⟩
  · rw [size_append] at hsize
    have hr : r = [] := size_eq_zero.mp (by omega)
    subst hr
    exact ⟨[], by simp, rfl⟩

/-- Behind the last visible character there is white space. -/
theorem blank_iff_size_trimEnd : Blank r ↔ size (trimEnd (a ++ r)) ≤ size a := by
  constructor
  · intro h
    rw [trimEnd_append_blank h]
    exact size_trimEnd a
  · intro h
    by_contra hr
    rw [trimEnd_append hr, size_append] at h
    have hzero : size (trimEnd r) = 0 := by omega
    exact hr (trimEnd_eq_nil.mp (size_eq_zero.mp hzero))

theorem visible_eq_of_words (h : words s = words y) : visible s = visible y := by
  rw [← flatten_words, h, flatten_words]

/-! ### Parts at their places -/

/-- The text between the places is the part, once it is trimmed and runs of white space are
collapsed in both. -/
def Shows (t : List Char) (m n : ℕ) (p : List Char) : Prop :=
  ∃ s, slice m n t = some s ∧ collapse (trim s) = collapse p

theorem shows_iff :
    Shows t m n p ↔ (∃ s, slice m n t = some s ∧ words s = words p) ∧ trim p = p := by
  simp only [Shows, collapse_eq_iff, ← and_assoc, exists_and_right]

theorem shows_of_slice (h : slice m n t = some p) : Shows t m n p ↔ trim p = p := by
  rw [shows_iff]
  exact and_iff_right ⟨p, h, rfl⟩

/-- Nothing is shown between two characters. -/
theorem shows_nil_iff : Shows t n n [] ↔ Boundary n t := by
  constructor
  · rintro ⟨s, hs, -⟩
    exact (slice_isSome.mp (Option.isSome_iff_exists.mpr ⟨s, hs⟩)).2.1
  · rintro ⟨a, b, rfl, rfl⟩
    exact (shows_of_slice (slice_eq_some.mpr ⟨a, b, by rw [List.append_nil], rfl, rfl⟩)).mpr rfl

/-- A slice from white space on, with all visible characters of what is behind that, reaches the
last of them. -/
theorem reaches_of_visible (h : slice m n (x ++ (y ++ z)) = some s)
    (hvisible : visible s = visible y)
    (hbegin : size (trimEnd x) ≤ m) (hm : m ≤ size x) : size (trimEnd (x ++ y)) ≤ n := by
  obtain ⟨a, b, heq, rfl, hend⟩ := slice_eq_some.mp h
  rw [List.append_assoc] at heq
  obtain ⟨r, rfl, hrest⟩ := exists_append_of_size_le heq.symm hm
  have hr : Blank r := blank_iff_size_trimEnd.mpr hbegin
  have hall : visible (a ++ s) = visible (a ++ r ++ y) := by
    rw [visible_append, visible_append, visible_append, visible_eq_nil.mpr hr, hvisible,
      List.append_nil]
  have hbeginning : a ++ s <+: (a ++ r ++ y) ++ z := ⟨b, by simp [hrest]⟩
  have hsize := size_trimEnd_le hbeginning hall
  rwa [size_append, hend] at hsize

theorem shows_iff_reaches (hp : trim p = p) (hwords : words y = words p)
    (hbegin : size (trimEnd x) ≤ m) (hm : m ≤ size x) (hle : m ≤ n) (hn : n ≤ size (x ++ y)) :
    Shows (x ++ (y ++ z)) m n p ↔
      (Boundary m (x ++ (y ++ z)) ∧ Boundary n (x ++ (y ++ z))) ∧ size (trimEnd (x ++ y)) ≤ n := by
  rw [shows_iff, and_iff_left hp]
  constructor
  · rintro ⟨s, hs, hsp⟩
    exact ⟨(slice_isSome.mp (Option.isSome_iff_exists.mpr ⟨s, hs⟩)).2,
      reaches_of_visible hs (visible_eq_of_words (hsp.trans hwords.symm)) hbegin hm⟩
  · rintro ⟨hboundary, hreaches⟩
    obtain ⟨s, hs⟩ := Option.isSome_iff_exists.mp (slice_isSome.mpr ⟨hle, hboundary⟩)
    refine ⟨s, hs, ?_⟩
    obtain ⟨a, b, heq, rfl, rfl⟩ := slice_eq_some.mp hs
    have hfirst : a ++ (s ++ b) = x ++ (y ++ z) := by rw [heq, List.append_assoc]
    obtain ⟨r, rfl, -⟩ := exists_append_of_size_le hfirst hm
    have hr : Blank r := blank_iff_size_trimEnd.mpr hbegin
    have hsecond : (a ++ s) ++ b = (a ++ r ++ y) ++ z := by rw [← heq, List.append_assoc _ y]
    obtain ⟨e, he, -⟩ := exists_append_of_size_le hsecond (by rwa [size_append])
    rw [he, ← size_append] at hreaches
    have hblank : Blank e := blank_iff_size_trimEnd.mpr hreaches
    have hsame : r ++ y = s ++ e := by simpa using he
    rw [← hwords, ← words_blank_append hr y, hsame, words_append_blank hblank]

/-! ### Windows -/

/-- A beginning of the part is shown from white space on only if the place is its own and nothing is
missing in it. -/
theorem exact_of_shows (h : Shows (x ++ (y ++ z)) m (m + size p) p) (hne : p ≠ [])
    (hsub : (p ++ r).Sublist y) (hvisible : visible (p ++ r) = visible y)
    (hbegin : size (trimEnd x) ≤ m) (hm : m ≤ size x) : m = size x ∧ p <+: y := by
  obtain ⟨⟨s, hs, hsp⟩, hp⟩ := shows_iff.mp h
  obtain ⟨y₁, y₂, rfl, h₁, h₂⟩ := List.append_sublist_iff.mp hsub
  have hfront : visible p = visible y₁ := visible_eq_of_sublist h₁ h₂ hvisible
  have hblank : ¬ Blank y₁ := by
    intro hblank
    rw [visible_eq_nil.mpr hblank, visible_eq_nil, ← trim_eq_nil, hp] at hfront
    exact hne hfront
  have hlast : p.Sublist (trimEnd y₁) := sublist_trimEnd h₁ (trim_eq_self.mp hp).2
  have hle := size_le_of_sublist hlast
  rw [List.append_assoc y₁] at hs
  have hreaches := reaches_of_visible hs ((visible_eq_of_words hsp).trans hfront) hbegin hm
  rw [trimEnd_append hblank, size_append] at hreaches
  obtain rfl := eq_of_sublist_of_size hlast (by omega)
  obtain ⟨w, hw, -⟩ := exists_trimEnd y₁
  refine ⟨by omega, List.IsPrefix.trans ⟨w, hw.symm⟩ (List.prefix_append _ _)⟩

section

variable {width step : ℕ}

/-- The window of the width at the place. -/
def window (p : List Char) (width i : ℕ) : List Char := (p.drop i).take width

theorem take_window (p : List Char) (width i : ℕ) :
    p.take (i + width) = p.take i ++ window p width i := List.take_add

/-- Where nothing is missing before a window, nothing is in it. -/
theorem exact_of_window {i k : ℕ} (hwidth : 0 < width) (hi : i < p.length) (hsub : p.Sublist y)
    (hvisible : visible p = visible y) (hbefore : p.take i <+: y)
    (hbegin : size (trimEnd (x ++ p.take i)) ≤ k) (hk : k ≤ size (x ++ p.take i))
    (h : Shows (x ++ (y ++ z)) k (k + size (window p width i)) (window p width i)) :
    k = size (x ++ p.take i) ∧ p.take (i + width) <+: y := by
  obtain ⟨y', rfl⟩ := hbefore
  have hwindow : window p width i ≠ [] := by
    rw [window, ne_eq, List.take_eq_nil_iff, List.drop_eq_nil_iff]
    omega
  have hrest : window p width i ++ (p.drop i).drop width = p.drop i := List.take_append_drop _ _
  have hsub' : (p.drop i).Sublist y' := by
    refine (List.append_sublist_append_left (p.take i)).mp ?_
    rwa [List.take_append_drop]
  have hvisible' : visible (p.drop i) = visible y' := by
    refine (List.append_right_inj (visible (p.take i))).mp ?_
    rwa [← visible_append, ← visible_append, List.take_append_drop]
  have htext : x ++ (p.take i ++ y' ++ z) = (x ++ p.take i) ++ (y' ++ z) := by
    simp only [List.append_assoc]
  rw [htext] at h
  obtain ⟨rfl, w, rfl⟩ := exact_of_shows h hwindow (by rwa [hrest]) (by rwa [hrest]) hbegin hk
  refine ⟨rfl, w, ?_⟩
  rw [take_window, List.append_assoc]

theorem exact_of_windows (hstep : 0 < step) (hle : step ≤ width) (hne : p ≠ [])
    (hsub : p.Sublist y) (hvisible : visible p = visible y) (hbegin : size (trimEnd x) ≤ m)
    (hm : m ≤ size x)
    (h : ∀ i < Windows.count p.length width step, Shows (x ++ (y ++ z))
      (m + size (p.take (i * step))) (m + size (p.take (i * step + width)))
      (window p width (i * step))) :
    m = size x ∧ p <+: y := by
  -- Up to the end of each window nothing is missing.
  have hrun : ∀ i < Windows.count p.length width step,
      m = size x ∧ p.take (i * step + width) <+: y := by
    intro i hi
    have hlt : i * step < p.length := Windows.start_lt hstep hle hi
    have hshows := h i hi
    rw [take_window, size_append, ← Nat.add_assoc] at hshows
    induction i with
    | zero =>
        rw [Nat.zero_mul] at hlt hshows ⊢
        rw [List.take_zero, size_nil, Nat.add_zero] at hshows
        have hfirst := exact_of_window (i := 0) (by omega) hlt hsub hvisible List.nil_prefix
          (by simpa using hbegin) (by simpa using hm) hshows
        simpa using hfirst
    | succ i ih =>
        have hi' : i < Windows.count p.length width step := by omega
        have hshows' := h i hi'
        rw [take_window, size_append, ← Nat.add_assoc] at hshows'
        obtain ⟨rfl, hbefore⟩ := ih hi' (Windows.start_lt hstep hle hi') hshows'
        have hstart : (i + 1) * step ≤ i * step + width := by
          rw [Nat.succ_mul]
          omega
        rw [← size_append] at hshows
        exact ⟨rfl, (exact_of_window (by omega) hlt hsub hvisible
          ((List.take_prefix_take_left hstart).trans hbefore) (size_trimEnd _) le_rfl hshows).2⟩
  obtain ⟨last, hlast⟩ : ∃ last, Windows.count p.length width step = last + 1 :=
    ⟨_, if_neg fun hlen => hne (List.length_eq_zero_iff.mp hlen)⟩
  obtain ⟨hplace, hall⟩ := hrun last (by omega)
  rw [List.take_of_length_le ((Windows.count_le_iff hstep).mp hlast.le)] at hall
  exact ⟨hplace, hall⟩

/-- Windows up to the end begin and end as the whole does. -/
theorem trim_of_windows (hstep : 0 < step) (hle : step ≤ width) (hne : p ≠ [])
    (h : ∀ i < Windows.count p.length width step,
      trim (window p width (i * step)) = window p width (i * step)) : trim p = p := by
  obtain ⟨last, hlast⟩ : ∃ last, Windows.count p.length width step = last + 1 :=
    ⟨_, if_neg fun hlen => hne (List.length_eq_zero_iff.mp hlen)⟩
  have hfirst := (trim_eq_self.mp (h 0 (by omega))).1
  have hend := (trim_eq_self.mp (h last (by omega))).2
  have hlt : last * step < p.length := Windows.start_lt hstep hle (by omega)
  have hwindow : window p width (last * step) = p.drop (last * step) := by
    have hreaches := (Windows.count_le_iff hstep).mp hlast.le
    exact List.take_of_length_le (by rw [List.length_drop]; omega)
  have hdrop : p.drop (last * step) ≠ [] := by
    rw [ne_eq, List.drop_eq_nil_iff]
    omega
  refine trim_eq_self.mpr ⟨?_, ?_⟩
  · obtain ⟨c, p, rfl⟩ := List.exists_cons_of_ne_nil hne
    obtain ⟨width, rfl⟩ : ∃ w, width = w + 1 := ⟨width - 1, by omega⟩
    rw [Nat.zero_mul, window, List.drop_zero, List.take_succ_cons, startsBlank_cons] at hfirst
    exact hfirst
  · rw [← List.take_append_drop (last * step) p, endsBlank_append hdrop, ← hwindow]
    exact hend

theorem slice_window (x p z : List Char) (width i : ℕ) :
    slice (size x + size (p.take i)) (size x + size (p.take (i + width))) (x ++ (p ++ z)) =
      some (window p width i) := by
  refine slice_eq_some.mpr ⟨x ++ p.take i, p.drop (i + width) ++ z, ?_, ?_, ?_⟩
  · rw [List.append_assoc x, ← take_window, List.append_assoc, ← List.append_assoc (p.take _),
      List.take_append_drop]
  · rw [size_append]
  · rw [take_window, size_append, size_append, Nat.add_assoc]

/-- The windows are shown just when they are trimmed and the part ends no earlier than in the text.
-/
theorem shows_windows_iff (hstep : 0 < step) (hle : step ≤ width) (hne : p ≠ [])
    (hsub : p.Sublist y) (hvisible : visible p = visible y) (hbegin : size (trimEnd x) ≤ m)
    (hm : m ≤ size x) :
    (∀ i < Windows.count p.length width step, Shows (x ++ (y ++ z))
      (m + size (p.take (i * step))) (m + size (p.take (i * step + width)))
      (window p width (i * step))) ↔
    size (trimEnd (x ++ y)) ≤ m + size p ∧ ∀ i < Windows.count p.length width step,
      trim (window p width (i * step)) = window p width (i * step) := by
  constructor
  · intro h
    obtain ⟨rfl, w, rfl⟩ := exact_of_windows hstep hle hne hsub hvisible hbegin hm h
    have hw : Blank w := by
      rw [visible_append, List.self_eq_append_right] at hvisible
      exact visible_eq_nil.mp hvisible
    refine ⟨?_, fun i hi => (shows_iff.mp (h i hi)).2⟩
    rw [← List.append_assoc, ← size_append]
    exact blank_iff_size_trimEnd.mp hw
  · rintro ⟨hreaches, htrim⟩ i hi
    have hp : trim p = p := trim_of_windows hstep hle hne htrim
    have hblank : ¬ Blank y := by
      intro hblank
      rw [visible_eq_nil.mpr hblank, visible_eq_nil, ← trim_eq_nil, hp] at hvisible
      exact hne hvisible
    have hlast : p.Sublist (trimEnd y) := sublist_trimEnd hsub (trim_eq_self.mp hp).2
    have hsize := size_le_of_sublist hlast
    rw [trimEnd_append hblank, size_append] at hreaches
    have hm' : m = size x := by omega
    obtain ⟨w, hw, -⟩ := exists_trimEnd y
    rw [← eq_of_sublist_of_size hlast (by omega)] at hw
    rw [hm', hw, List.append_assoc p, shows_of_slice (slice_window x p (w ++ z) width (i * step))]
    exact htrim i hi

end

end Text
