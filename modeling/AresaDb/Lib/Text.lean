import Mathlib

/-! # Texts by bytes

Texts as lists of characters whose places are counted in bytes of UTF-8.  A text can be cut at the
boundary of a character and nowhere else: `cut` and the slices give `none` inside a character and
beyond the end, and a slice from a later to an earlier place is `none` too.

`find` gives the place of the first occurrence of a pattern, `split` the pieces between occurrences
that do not overlap, from left to right. -/

namespace Text

variable {t a b p : List Char} {m n : ℕ}

/-! ### Places -/

/-- The number of bytes. -/
def size (t : List Char) : ℕ := (t.map Char.utf8Size).sum

@[simp] theorem size_nil : size [] = 0 := rfl

@[simp] theorem size_cons (c : Char) (t : List Char) : size (c :: t) = c.utf8Size + size t := by
  simp [size]

@[simp] theorem size_append (a b : List Char) : size (a ++ b) = size a + size b := by
  simp [size]

theorem size_eq_zero : size t = 0 ↔ t = [] := by
  cases t with
  | nil => simp
  | cons c t =>
      have hpos := c.utf8Size_pos
      refine iff_of_false (fun h => ?_) (List.cons_ne_nil c t)
      rw [size_cons] at h
      omega

/-- The two sides of a place. -/
def cut : ℕ → List Char → Option (List Char × List Char)
  | 0, t => some ([], t)
  | _ + 1, [] => none
  | n + 1, c :: t =>
      if c.utf8Size ≤ n + 1 then (cut (n + 1 - c.utf8Size) t).map fun (a, b) => (c :: a, b)
      else none

theorem cut_append (a b : List Char) : cut (size a) (a ++ b) = some (a, b) := by
  induction a with
  | nil => rw [size_nil, cut, List.nil_append]
  | cons c a ih =>
      have hpos := c.utf8Size_pos
      obtain ⟨n, hn⟩ : ∃ n, size (c :: a) = n + 1 := Nat.exists_eq_add_one.mpr (by simp; omega)
      have hrest : n + 1 - c.utf8Size = size a := by
        rw [← hn, size_cons]
        omega
      have hle : c.utf8Size ≤ n + 1 := by
        rw [← hn, size_cons]
        omega
      rw [hn, List.cons_append, cut, if_pos hle, hrest, ih, Option.map_some]

theorem cut_eq_some : cut n t = some (a, b) ↔ t = a ++ b ∧ size a = n := by
  constructor
  · intro h
    induction t generalizing n a with
    | nil =>
        cases n with
        | zero =>
            obtain ⟨rfl, rfl⟩ := Prod.mk.inj (Option.some.inj h)
            exact ⟨rfl, rfl⟩
        | succ n => simp [cut] at h
    | cons c t ih =>
        cases n with
        | zero =>
            obtain ⟨rfl, rfl⟩ := Prod.mk.inj (Option.some.inj h)
            exact ⟨rfl, rfl⟩
        | succ n =>
            rw [cut] at h
            split_ifs at h with hle
            obtain ⟨⟨a', b'⟩, hcut, heq⟩ := Option.map_eq_some_iff.mp h
            obtain ⟨rfl, rfl⟩ := Prod.mk.inj heq
            obtain ⟨rfl, hsize⟩ := ih hcut
            refine ⟨rfl, ?_⟩
            rw [size_cons, hsize]
            omega
  · rintro ⟨rfl, rfl⟩
    exact cut_append a b

/-- The place is the boundary of a character. -/
def Boundary (n : ℕ) (t : List Char) : Prop := ∃ a b, t = a ++ b ∧ size a = n

theorem cut_isSome : (cut n t).isSome ↔ Boundary n t := by
  rw [Option.isSome_iff_exists, Prod.exists]
  exact exists₂_congr fun a b => cut_eq_some

instance (n : ℕ) (t : List Char) : Decidable (Boundary n t) := decidable_of_iff _ cut_isSome

/-- `&t[..n]` -/
def sliceTo (n : ℕ) (t : List Char) : Option (List Char) := (cut n t).map Prod.fst

/-- `&t[n..]` -/
def sliceFrom (n : ℕ) (t : List Char) : Option (List Char) := (cut n t).map Prod.snd

/-- `&t[m..n]` -/
def slice (m n : ℕ) (t : List Char) : Option (List Char) := (sliceTo n t).bind (sliceFrom m)

theorem sliceTo_isSome : (sliceTo n t).isSome ↔ Boundary n t := by
  rw [sliceTo, Option.isSome_map, cut_isSome]

theorem sliceFrom_isSome : (sliceFrom n t).isSome ↔ Boundary n t := by
  rw [sliceFrom, Option.isSome_map, cut_isSome]

@[simp] theorem sliceTo_append (a b : List Char) : sliceTo (size a) (a ++ b) = some a := by
  rw [sliceTo, cut_append, Option.map_some]

@[simp] theorem sliceFrom_append (a b : List Char) : sliceFrom (size a) (a ++ b) = some b := by
  rw [sliceFrom, cut_append, Option.map_some]

theorem sliceFrom_eq_some : sliceFrom n t = some b ↔ ∃ a, t = a ++ b ∧ size a = n := by
  simp [sliceFrom, cut_eq_some]

theorem sliceTo_eq_some : sliceTo n t = some a ↔ ∃ b, t = a ++ b ∧ size a = n := by
  simp [sliceTo, cut_eq_some]

/-- A slice is the text between two places, the first of them not after the second. -/
theorem slice_eq_some {s : List Char} :
    slice m n t = some s ↔ ∃ a b, t = a ++ s ++ b ∧ size a = m ∧ size a + size s = n := by
  unfold slice
  rw [Option.bind_eq_some_iff]
  constructor
  · rintro ⟨front, hto, hfrom⟩
    obtain ⟨b, rfl, hfront⟩ := sliceTo_eq_some.mp hto
    obtain ⟨a, rfl, ha⟩ := sliceFrom_eq_some.mp hfrom
    exact ⟨a, b, rfl, ha, by rwa [size_append] at hfront⟩
  · rintro ⟨a, b, rfl, rfl, rfl⟩
    refine ⟨a ++ s, ?_, sliceFrom_append a s⟩
    rw [← size_append]
    exact sliceTo_append (a ++ s) b

theorem slice_isSome : (slice m n t).isSome ↔ m ≤ n ∧ Boundary m t ∧ Boundary n t := by
  rw [Option.isSome_iff_exists]
  constructor
  · rintro ⟨s, h⟩
    obtain ⟨a, b, rfl, rfl, rfl⟩ := slice_eq_some.mp h
    refine ⟨by omega, ⟨a, s ++ b, by simp, rfl⟩, ⟨a ++ s, b, rfl, by simp⟩⟩
  · rintro ⟨hle, ⟨a, b, rfl, rfl⟩, front, back, heq, rfl⟩
    obtain ⟨s, rfl, rfl⟩ | ⟨s, rfl, rfl⟩ := List.append_eq_append_iff.mp heq
    · exact ⟨s, slice_eq_some.mpr ⟨a, back, by simp, rfl, by simp⟩⟩
    · -- The second place is not after the first, so they are one.
      rw [size_append] at hle
      obtain rfl : s = [] := size_eq_zero.mp (by omega)
      exact ⟨[], slice_eq_some.mpr ⟨front, b, by simp, by simp, by simp⟩⟩

/-! ### Occurrences -/

/-- The place of the first occurrence of a pattern. -/
def find (p : List Char) : List Char → Option ℕ
  | [] => if p = [] then some 0 else none
  | c :: t => if p <+: c :: t then some 0 else (find p t).map (c.utf8Size + ·)

/-- The pattern does not occur before the end of the first part: no suffix of that part, but for
the empty one, begins an occurrence. -/
def FirstAfter (p a b : List Char) : Prop := ∀ x y, a = x ++ y → y ≠ [] → ¬ p <+: y ++ b

theorem FirstAfter.tail {c : Char} (h : FirstAfter p (c :: a) b) : FirstAfter p a b :=
  fun x y heq => h (c :: x) y (by rw [heq, List.cons_append])

theorem firstAfter_cons {c : Char} :
    FirstAfter p (c :: a) b ↔ ¬ p <+: c :: (a ++ b) ∧ FirstAfter p a b := by
  constructor
  · exact fun h => ⟨h [] (c :: a) rfl (List.cons_ne_nil _ _), h.tail⟩
  · rintro ⟨hhead, htail⟩ x y heq hy
    cases x with
    | nil =>
        rw [List.nil_append] at heq
        rwa [← heq]
    | cons d x => exact htail x y (List.cons.inj heq).2 hy

theorem firstAfter_of_notMem {c : Char} (h : c ∉ a) (b : List Char) : FirstAfter [c] a b := by
  intro x y heq hy hpre
  obtain ⟨d, y, rfl⟩ := List.exists_cons_of_ne_nil hy
  rw [List.cons_append, List.cons_prefix_cons] at hpre
  rw [heq, hpre.1] at h
  exact h (List.mem_append_right x List.mem_cons_self)

theorem find_append (h : FirstAfter p a (p ++ b)) : find p (a ++ (p ++ b)) = some (size a) := by
  induction a with
  | nil =>
      rw [List.nil_append, size_nil]
      cases hpb : p ++ b with
      | nil => rw [find, if_pos (List.append_eq_nil_iff.mp hpb).1]
      | cons c t => rw [find, if_pos (hpb ▸ List.prefix_append p b)]
  | cons c a ih =>
      obtain ⟨hhead, htail⟩ := firstAfter_cons.mp h
      rw [List.cons_append, find, if_neg hhead, ih htail, Option.map_some, size_cons]

theorem find_eq_none (hp : p ≠ []) : find p t = none ↔ FirstAfter p t [] := by
  induction t with
  | nil =>
      rw [find, if_neg hp]
      refine iff_of_true rfl fun x y heq hy => ?_
      exact absurd (List.append_eq_nil_iff.mp heq.symm).2 hy
  | cons c t ih =>
      rw [firstAfter_cons, List.append_nil, find, ← ih]
      split_ifs with hhead
      · exact iff_of_false nofun fun h => h.1 hhead
      · rw [Option.map_eq_none_iff, and_iff_right hhead]

theorem find_eq_none_iff_absent (hp : p ≠ []) : find p t = none ↔ ¬ p <:+: t := by
  rw [find_eq_none hp]
  constructor
  · rintro h ⟨x, z, rfl⟩
    refine h x (p ++ z) (List.append_assoc x p z) (by simp [hp]) ?_
    rw [List.append_nil]
    exact List.prefix_append p z
  · rintro h x y rfl hy hpre
    rw [List.append_nil] at hpre
    exact h (hpre.isInfix.trans (List.suffix_append x y).isInfix)

theorem find_eq_some : find p t = some n ↔
    ∃ a b, t = a ++ (p ++ b) ∧ size a = n ∧ FirstAfter p a (p ++ b) := by
  constructor
  · intro h
    induction t generalizing n with
    | nil =>
        rw [find] at h
        split_ifs at h with hp
        obtain rfl := Option.some.inj h
        exact ⟨[], [], by rw [hp]; rfl, rfl, fun x y heq hy =>
          absurd (List.append_eq_nil_iff.mp heq.symm).2 hy⟩
    | cons c t ih =>
        rw [find] at h
        split_ifs at h with hhead
        · obtain rfl := Option.some.inj h
          obtain ⟨b, hb⟩ := hhead
          exact ⟨[], b, hb.symm, rfl, fun x y heq hy =>
            absurd (List.append_eq_nil_iff.mp heq.symm).2 hy⟩
        · obtain ⟨k, hk, rfl⟩ := Option.map_eq_some_iff.mp h
          obtain ⟨a, b, rfl, rfl, hfirst⟩ := ih hk
          exact ⟨c :: a, b, rfl, size_cons c a, firstAfter_cons.mpr ⟨hhead, hfirst⟩⟩
  · rintro ⟨a, b, rfl, rfl, hfirst⟩
    exact find_append hfirst

/-- An occurrence is not found before one can begin. -/
theorem le_of_find (hfirst : FirstAfter p a b) (h : find p (a ++ b) = some n) : size a ≤ n := by
  obtain ⟨a', b', heq, rfl, -⟩ := find_eq_some.mp h
  obtain ⟨z, rfl, -⟩ | ⟨z, rfl, hz⟩ := List.append_eq_append_iff.mp heq
  · rw [size_append]
    omega
  · cases z with
    | nil => rw [List.append_nil]
    | cons c z =>
        refine absurd ?_ (hfirst a' (c :: z) rfl (List.cons_ne_nil c z))
        rw [← hz]
        exact List.prefix_append p b'

/-- A text can be cut on both sides of an occurrence. -/
theorem slices_of_find (h : find p t = some n) : ∃ a b, t = a ++ (p ++ b) ∧ n = size a ∧
    sliceTo n t = some a ∧ sliceFrom (n + size p) t = some b := by
  obtain ⟨a, b, rfl, rfl, -⟩ := find_eq_some.mp h
  refine ⟨a, b, rfl, rfl, sliceTo_append _ _, ?_⟩
  rw [← size_append, ← List.append_assoc]
  exact sliceFrom_append _ _

/-- The pieces between occurrences of a pattern that is not empty.  The counter skips the rest of an
occurrence; the piece that has begun is carried in reverse. -/
def pieces (p : List Char) : ℕ → List Char → List Char → List (List Char)
  | _, piece, [] => [piece.reverse]
  | skip + 1, piece, _ :: t => pieces p skip piece t
  | 0, piece, c :: t =>
      if p <+: c :: t then piece.reverse :: pieces p (p.length - 1) [] t
      else pieces p 0 (c :: piece) t

/-- `t.split(p)` -/
def split (p t : List Char) : List (List Char) := pieces p 0 [] t

theorem pieces_skip (x piece : List Char) :
    pieces p x.length piece (x ++ t) = pieces p 0 piece t := by
  induction x with
  | nil => rfl
  | cons c x ih => rw [List.length_cons, List.cons_append, pieces, ih]

theorem pieces_before {piece : List Char} (h : FirstAfter p a b) :
    pieces p 0 piece (a ++ b) = pieces p 0 (a.reverse ++ piece) b := by
  induction a generalizing piece with
  | nil => rfl
  | cons c a ih =>
      obtain ⟨hhead, htail⟩ := firstAfter_cons.mp h
      rw [List.cons_append, pieces, if_neg hhead, ih htail, List.reverse_cons, List.append_assoc,
        List.singleton_append]

/-- What is carried comes before the first piece. -/
theorem pieces_eq (p : List Char) (skip : ℕ) (piece t : List Char) :
    pieces p skip piece t = (pieces p skip [] t).modifyHead (piece.reverse ++ ·) := by
  induction t generalizing skip piece with
  | nil => simp [pieces]
  | cons c t ih =>
      cases skip with
      | succ skip => exact ih skip piece
      | zero =>
          rw [pieces, pieces]
          split_ifs
          · simp
          · rw [ih 0 (c :: piece), ih 0 [c], List.modifyHead_modifyHead]
            simp [Function.comp_def]

/-- Text without a beginning of an occurrence goes to the first piece. -/
theorem split_before (h : FirstAfter p a b) :
    split p (a ++ b) = (split p b).modifyHead (a ++ ·) := by
  rw [split, pieces_before h, pieces_eq, List.append_nil, List.reverse_reverse, split]

/-- The first piece ends at the first occurrence. -/
theorem split_append (hp : p ≠ []) (h : FirstAfter p a (p ++ b)) :
    split p (a ++ (p ++ b)) = a :: split p b := by
  obtain ⟨c, x, rfl⟩ := List.exists_cons_of_ne_nil hp
  unfold split
  rw [pieces_before h, List.append_nil, List.cons_append, pieces, if_pos, List.reverse_reverse,
    List.length_cons, Nat.add_sub_cancel, pieces_skip]
  exact ⟨b, rfl⟩

theorem split_of_first (h : FirstAfter p t []) : split p t = [t] := by
  have hpieces : pieces p 0 [] (t ++ []) = _ := pieces_before h
  rw [List.append_nil, List.append_nil] at hpieces
  rw [split, hpieces, pieces, List.reverse_reverse]

theorem firstAfter_or (p t : List Char) (hp : p ≠ []) :
    FirstAfter p t [] ∨ ∃ a b, t = a ++ (p ++ b) ∧ FirstAfter p a (p ++ b) := by
  cases h : find p t with
  | none => exact .inl ((find_eq_none hp).mp h)
  | some n =>
      obtain ⟨a, b, heq, -, hfirst⟩ := find_eq_some.mp h
      exact .inr ⟨a, b, heq, hfirst⟩

/-- There is a first piece, and it does not go beyond any occurrence. -/
theorem split_eq_cons (hp : p ≠ []) (t : List Char) : ∃ piece rest, split p t = piece :: rest ∧
    piece <+: t ∧ ∀ a b, t = a ++ (p ++ b) → piece <+: a := by
  obtain hnone | ⟨a, b, rfl, hfirst⟩ := firstAfter_or p t hp
  · refine ⟨t, [], split_of_first hnone, List.prefix_rfl, fun a b heq => ?_⟩
    refine absurd ?_ (hnone a (p ++ b) heq fun hnil => hp (List.append_eq_nil_iff.mp hnil).1)
    rw [List.append_nil]
    exact List.prefix_append p b
  · refine ⟨a, split p b, split_append hp hfirst, List.prefix_append _ _, fun a' b' heq => ?_⟩
    obtain ⟨z, rfl, hz⟩ | ⟨z, rfl, hz⟩ := List.append_eq_append_iff.mp heq
    · exact List.prefix_append a z
    · cases z with
      | nil => rw [List.append_nil]
      | cons c z =>
          -- The other occurrence would be an earlier one.
          refine absurd ?_ (hfirst a' (c :: z) rfl (List.cons_ne_nil c z))
          rw [← hz]
          exact List.prefix_append p b'

/-! ### White space -/

/-- `char::is_whitespace` -/
def isWhitespace (c : Char) : Bool :=
  let n := c.toNat
  (9 ≤ n && n ≤ 13) || n = 0x20 || n = 0x85 || n = 0xA0 || n = 0x1680 ||
    (0x2000 ≤ n && n ≤ 0x200A) || n = 0x2028 || n = 0x2029 || n = 0x202F || n = 0x205F ||
    n = 0x3000

/-- `t.trim()` -/
def trim (t : List Char) : List Char := (t.dropWhile isWhitespace).rdropWhile isWhitespace

theorem trim_cons {c : Char} (hc : isWhitespace c = false) (t : List Char) :
    trim (c :: t) = c :: t.rdropWhile isWhitespace := by
  have hreverse : (t.reverse ++ [c]).dropWhile isWhitespace =
      t.reverse.dropWhile isWhitespace ++ [c] := by
    rw [List.dropWhile_append, List.dropWhile_cons_of_neg (by simp [hc])]
    split_ifs with hempty
    · rw [List.isEmpty_iff.mp hempty, List.nil_append]
    · rfl
  rw [trim, List.dropWhile_cons_of_neg (by simp [hc]), List.rdropWhile, List.reverse_cons, hreverse,
    List.reverse_append, List.reverse_singleton, List.singleton_append, List.rdropWhile]

theorem rdropWhile_append {c : Char} (hc : isWhitespace c = false) (a t : List Char) :
    (a ++ c :: t).rdropWhile isWhitespace = a ++ trim (c :: t) := by
  induction a with
  | nil => rw [List.nil_append, List.nil_append, trim, List.dropWhile_cons_of_neg (by simp [hc])]
  | cons d a ih =>
      rw [List.cons_append, List.cons_append, ← ih]
      have hmem : c ∈ (a ++ c :: t).reverse.dropWhile isWhitespace := by
        rw [← List.mem_reverse, ← List.rdropWhile, ih, trim_cons hc]
        exact List.mem_append_right a List.mem_cons_self
      rw [List.rdropWhile, List.reverse_cons, List.dropWhile_append, if_neg,
        List.reverse_append, List.reverse_singleton, List.singleton_append, List.rdropWhile]
      rw [List.isEmpty_iff]
      exact List.ne_nil_of_mem hmem

/-- A text that goes on with no white space is trimmed behind that. -/
theorem trim_append {c d : Char} (hc : isWhitespace c = false) (hd : isWhitespace d = false)
    (a t : List Char) : trim (c :: (a ++ d :: t)) = c :: (a ++ trim (d :: t)) := by
  rw [trim_cons hc, rdropWhile_append hd]

theorem trim_trim {c : Char} (hc : isWhitespace c = false) (t : List Char) :
    trim (trim (c :: t)) = trim (c :: t) := by
  rw [trim_cons hc, trim_cons hc, List.rdropWhile_idempotent]

/-- A text that starts and ends with no white space is trimmed. -/
theorem trim_concat {c d : Char} (hc : isWhitespace c = false) (hd : isWhitespace d = false)
    (a : List Char) : trim (c :: (a ++ [d])) = c :: (a ++ [d]) := by
  rw [trim_append hc hd, trim_cons hd, List.rdropWhile_nil]

/-- A text without white space is trimmed. -/
theorem trim_of_no_whitespace (h : ∀ c ∈ t, isWhitespace c = false) : trim t = t := by
  have hdrop : t.dropWhile isWhitespace = t := by
    cases t with
    | nil => rfl
    | cons c t => exact List.dropWhile_cons_of_neg (by simp [h c List.mem_cons_self])
  rw [trim, hdrop, List.rdropWhile_eq_self_iff]
  exact fun hne => by simp [h _ (List.getLast_mem hne)]

/-- Blanks in front are trimmed away. -/
theorem trim_blank (t : List Char) : trim (' ' :: t) = trim t := by
  rw [trim, trim, List.dropWhile_cons_of_pos (by decide)]

theorem trim_concat_blank {c : Char} (hc : isWhitespace c = false) (a : List Char) :
    trim (c :: (a ++ [' '])) = trim (c :: a) := by
  rw [trim_cons hc, trim_cons hc, List.rdropWhile_concat_pos _ _ _ (by decide)]

/-- What is no white space stays. -/
theorem mem_trim {c : Char} (hc : isWhitespace c = false) (ht : c ∈ t) : c ∈ trim t := by
  have hdrop : c ∈ t.dropWhile isWhitespace := by
    have happend := List.takeWhile_append_dropWhile (p := isWhitespace) (l := t)
    rw [← happend] at ht
    obtain h | h := List.mem_append.mp ht
    · rw [List.mem_takeWhile_imp h] at hc
      cases hc
    · exact h
  obtain ⟨a, b, heq⟩ := List.append_of_mem hdrop
  rw [trim, heq, rdropWhile_append hc, trim_cons hc]
  exact List.mem_append_right a List.mem_cons_self

/-- The characters before the first white space. -/
def beforeWhitespace (t : List Char) : List Char := t.takeWhile fun c => !isWhitespace c

/-- `t.splitn(2, char::is_whitespace)`, if there are two pieces. -/
def splitOnce (t : List Char) : Option (List Char × List Char) :=
  match t.dropWhile fun c => !isWhitespace c with
  | [] => none
  | _ :: rest => some (beforeWhitespace t, rest)

/-- `t.split_whitespace()` -/
def words (t : List Char) : List (List Char) := (t.splitOnP isWhitespace).filter (· ≠ [])

theorem words_cons {w : List Char} (hne : w ≠ []) (hw : ∀ c ∈ w, isWhitespace c = false)
    (t : List Char) : words (w ++ ' ' :: t) = w :: words t := by
  rw [words, List.splitOnP_append_cons_of_forall_mem hw ' ' (by decide),
    List.filter_cons_of_pos (by simpa using hne), words]

/-- `a.eq_ignore_ascii_case(b)` -/
def eqIgnoreAsciiCase (a b : List Char) : Bool := a.map Char.toLower = b.map Char.toLower

/-! ### Case -/

/-- The tables of upper and lower case: what a character becomes on its own, and a text in lower
case, where the end of a word makes a difference. -/
structure Casing where
  upper : Char → List Char
  lower : List Char → List Char

/-- `t.to_uppercase()` -/
def Casing.toUppercase (C : Casing) (t : List Char) : List Char := t.flatMap C.upper

/-- The tables do with ASCII what ASCII says, and leave white space alone. -/
structure Casing.Documented (C : Casing) : Prop where
  ascii : ∀ c : Char, c.toNat < 128 → C.upper c = [c.toUpper]
  whitespace : ∀ c : Char, isWhitespace c → C.upper c = [c]

/-! ### ASCII -/

/-- All characters are ASCII. -/
def Ascii (t : List Char) : Prop := ∀ c ∈ t, c.toNat < 128

theorem utf8Size_of_lt {c : Char} (h : c.toNat < 128) : c.utf8Size = 1 := by
  rw [Char.utf8Size_eq_one_iff, UInt32.le_iff_toNat_le]
  exact Nat.le_of_lt_succ h

theorem Ascii.size_eq (h : Ascii t) : size t = t.length := by
  induction t with
  | nil => rfl
  | cons c t ih =>
      obtain ⟨hc, ht⟩ := List.forall_mem_cons.mp h
      rw [size_cons, utf8Size_of_lt hc, ih ht, List.length_cons, Nat.add_comm]

theorem ascii_of_all (h : t.all (fun c => c.toNat < 128) = true) : Ascii t := fun c hc => by
  simpa using List.all_eq_true.mp h c hc

theorem ascii_cons {c : Char} : Ascii (c :: t) ↔ c.toNat < 128 ∧ Ascii t := List.forall_mem_cons

theorem ascii_append : Ascii (a ++ b) ↔ Ascii a ∧ Ascii b := List.forall_mem_append

theorem toNat_toUpper_lt {c : Char} (h : c.toNat < 128) : c.toUpper.toNat < 128 := by
  by_cases hlower : c.isLower
  · have hval : c.toUpper.toNat = c.toUpper.val.toNat := rfl
    have halpha : c.toUpper.isAlpha := by
      rw [Char.isAlpha_toUpper_eq_isAlpha, Char.isAlpha, hlower, Bool.or_true]
    simp [Char.isAlpha, Char.isUpper, Char.isLower, UInt32.le_iff_toNat_le] at halpha
    omega
  · rwa [Char.toUpper_eq_of_not_isLower hlower]

/-- ASCII text in upper case keeps its places. -/
theorem Ascii.size_map (h : Ascii t) : size (t.map Char.toUpper) = size t := by
  have hupper : Ascii (t.map Char.toUpper) := by
    intro c hc
    obtain ⟨d, hd, rfl⟩ := List.mem_map.mp hc
    exact toNat_toUpper_lt (h d hd)
  rw [hupper.size_eq, h.size_eq, List.length_map]

theorem Casing.Documented.toUppercase_ascii {C : Casing} (hC : C.Documented) (h : Ascii t) :
    C.toUppercase t = t.map Char.toUpper := by
  induction t with
  | nil => rfl
  | cons c t ih =>
      obtain ⟨hc, ht⟩ := List.forall_mem_cons.mp h
      have hcons : C.toUppercase (c :: t) = C.upper c ++ C.toUppercase t := List.flatMap_cons
      rw [hcons, hC.ascii c hc, ih ht, List.map_cons, List.singleton_append]

end Text
