import AresaDb.Lib.Pieces
import AresaDb.Rag.Strategies

/-! # Sentences of a text

`split_sentences` returns just when the white space behind every sentence is made of single bytes,
for it is skipped by the byte (`splitSentences_isSome_iff`).  What it returns is the trimmed parts
of the text, cut at the white space behind the ends of sentences (`splitSentences_joined`). -/

namespace AresaDb.Rag

open Text

variable {text a b t w cur front : List Char} {c d : Char} {sentences : List (List Char)}

theorem endsSentence_iff : endsSentence c ↔ c = '.' ∨ c = '!' ∨ c = '?' := by
  simp [endsSentence, or_assoc]

theorem utf8Size_of_endsSentence (h : endsSentence c) : c.utf8Size = 1 := by
  obtain rfl | rfl | rfl := endsSentence_iff.mp h <;> rfl

theorem not_endsSentence_of_isWhitespace (h : isWhitespace c) : endsSentence c = false := by
  rw [Bool.eq_false_iff]
  intro hc
  obtain rfl | rfl | rfl := endsSentence_iff.mp hc <;> exact absurd h (by decide)

/-! ### White space that is skipped -/

/-- The white space a text starts with is made of single bytes. -/
def OneByteRun (t : List Char) : Prop := ∀ c ∈ t.takeWhile isWhitespace, c.utf8Size = 1

theorem oneByteRun_of_visible (h : startsBlank t = false) : OneByteRun t := by
  cases t with
  | nil => exact List.forall_mem_nil _
  | cons c t =>
      rw [startsBlank_cons, Bool.eq_false_iff] at h
      rw [OneByteRun, List.takeWhile_cons_of_neg h]
      exact List.forall_mem_nil _

theorem oneByteRun_cons (hc : isWhitespace c) :
    OneByteRun (c :: t) ↔ c.utf8Size = 1 ∧ OneByteRun t := by
  rw [OneByteRun, List.takeWhile_cons_of_pos hc, List.forall_mem_cons, OneByteRun]

/-- So it is behind every end of a sentence. -/
def SkipsBytes (t : List Char) : Prop :=
  ∀ a c b, t = a ++ c :: b → endsSentence c → OneByteRun b

theorem skipsBytes_nil : SkipsBytes [] := fun a c b heq =>
  absurd heq.symm (List.append_ne_nil_of_right_ne_nil a (List.cons_ne_nil c b))

theorem skipsBytes_cons :
    SkipsBytes (c :: t) ↔ (endsSentence c → OneByteRun t) ∧ SkipsBytes t := by
  constructor
  · exact fun h => ⟨h [] c t rfl, fun a d b heq => h (c :: a) d b (by rw [heq]; rfl)⟩
  · rintro ⟨hhead, htail⟩ a d b heq hd
    cases a with
    | nil =>
        obtain ⟨rfl, rfl⟩ := List.cons.inj heq
        exact hhead hd
    | cons x a => exact htail a d b (List.cons.inj heq).2 hd

/-- Inside a character there is no slice. -/
theorem sliceFrom_inside (h : c.utf8Size ≠ 1) (a t : List Char) :
    sliceFrom (size a + 1) (a ++ c :: t) = none := by
  rw [← Option.not_isSome_iff_eq_none, sliceFrom_isSome]
  rintro ⟨x, y, heq, hsize⟩
  have hpos := c.utf8Size_pos
  obtain ⟨z, rfl, hz⟩ | ⟨z, rfl, hz⟩ := List.append_eq_append_iff.mp heq
  · cases z with
    | nil => simp at hsize
    | cons d z =>
        obtain ⟨rfl, -⟩ := List.cons.inj hz
        simp only [size_append, size_cons] at hsize
        omega
  · rw [size_append] at hsize
    omega

/-- White space is skipped if it is made of single bytes, and else there is a panic. -/
theorem skipBytes_eq (a t : List Char) :
    (OneByteRun t → skipBytes (a ++ t) (size t) (size a) =
      some (size (a ++ t.takeWhile isWhitespace))) ∧
    (¬ OneByteRun t → skipBytes (a ++ t) (size t) (size a) = none) := by
  induction t generalizing a with
  | nil => exact ⟨fun _ => by simp [skipBytes], fun h => absurd (List.forall_mem_nil _) h⟩
  | cons c t ih =>
      have hpos := c.utf8Size_pos
      obtain ⟨left, hleft⟩ : ∃ left, size (c :: t) = left + 1 :=
        Nat.exists_eq_add_one.mpr (by rw [size_cons]; omega)
      have hstep : skipBytes (a ++ c :: t) (size (c :: t)) (size a) =
          if startsBlank (c :: t) then skipBytes (a ++ c :: t) left (size a + 1)
          else some (size a) := by
        rw [hleft, skipBytes, sliceFrom_append, Option.bind_some]
      rw [hstep, startsBlank_cons]
      cases hc : isWhitespace c
      · have hrun : OneByteRun (c :: t) := oneByteRun_of_visible (startsBlank_cons c t ▸ hc)
        refine ⟨fun _ => ?_, fun h => absurd hrun h⟩
        rw [if_neg Bool.false_ne_true, List.takeWhile_cons_of_neg (Bool.eq_false_iff.mp hc),
          List.append_nil]
      · rw [if_pos rfl, oneByteRun_cons hc]
        by_cases hone : c.utf8Size = 1
        · have hsize : size (a ++ [c]) = size a + 1 := by simp [hone]
          have hleft : left = size t := by
            rw [size_cons, hone] at hleft
            omega
          have ih := ih (a ++ [c])
          rw [hsize, List.append_assoc, List.singleton_append, List.append_assoc,
            List.singleton_append] at ih
          rwa [hleft, and_iff_right hone, List.takeWhile_cons_of_pos hc]
        · refine ⟨fun h => absurd h.1 hone, fun _ => ?_⟩
          obtain ⟨left, rfl⟩ : ∃ n, left = n + 1 := Nat.exists_eq_add_one.mpr (by
            rw [size_cons] at hleft
            omega)
          rw [skipBytes, sliceFrom_inside hone, Option.bind_none]

theorem skipWhitespace_isSome_iff :
    (skipWhitespace (a ++ t) (size a)).isSome ↔ OneByteRun t := by
  have hleft : size (a ++ t) - size a = size t := by rw [size_append, Nat.add_sub_cancel_left]
  obtain ⟨hsome, hnone⟩ := skipBytes_eq a t
  rw [skipWhitespace, hleft]
  by_cases h : OneByteRun t
  · rw [hsome h]
    exact iff_of_true rfl h
  · rw [hnone h]
    exact iff_of_false Bool.false_ne_true h

theorem skipWhitespace_eq_some {start : ℕ} (h : skipWhitespace (a ++ t) (size a) = some start) :
    start = size (a ++ t.takeWhile isWhitespace) := by
  have hleft : size (a ++ t) - size a = size t := by rw [size_append, Nat.add_sub_cancel_left]
  have hrun : OneByteRun t := skipWhitespace_isSome_iff.mp (Option.isSome_iff_exists.mpr ⟨_, h⟩)
  rw [skipWhitespace, hleft, (skipBytes_eq a t).1 hrun] at h
  exact (Option.some.inj h).symm

/-! ### The loop -/

theorem pushTrimmed_eq (sentences : List (List Char)) (piece : List Char) :
    pushTrimmed sentences piece = sentences ++ trimmed [piece] := by
  unfold pushTrimmed
  by_cases h : Blank piece
  · rw [trimmed_cons_blank h, if_pos (List.isEmpty_iff.mpr (trim_eq_nil.mpr h))]
    exact (List.append_nil _).symm
  · rw [trimmed_cons h, if_neg fun hnil => h (trim_eq_nil.mp (List.isEmpty_iff.mp hnil))]
    rfl

/-- How the loop ends over some rest of the text: it panics if the white space behind a sentence of
it is not made of single bytes, and else the sentences come from the parts of what was not cut yet.
-/
structure LoopEnds (text : List Char) (sentences : List (List Char)) (uncut rest : List Char)
    (result : Option (List (List Char) × ℕ)) : Prop where
  isSome_iff : result.isSome ↔ SkipsBytes rest
  parts_of : ∀ found start, result = some (found, start) → ∃ front last parts,
    text = front ++ last ∧ size front = start ∧ Joined 1 parts uncut ∧
      found ++ trimmed [last] = sentences ++ trimmed parts

/-- A character that ends no sentence changes nothing. -/
theorem sentenceStep_of_not_ends (state : List (List Char) × ℕ)
    (h : endsSentence c → t ≠ [] ∧ startsBlank t = false) :
    sentenceStep (a ++ c :: t) state (size a) c = some state := by
  have hrest : sliceFrom (size a + c.utf8Size) (a ++ c :: t) = some t := by
    have happend := sliceFrom_append (a ++ [c]) t
    simpa using happend
  rw [sentenceStep]
  split_ifs with hc
  · obtain ⟨hne, hstart⟩ := h hc
    rw [hrest, Option.bind_some, hstart, Bool.or_false,
      if_neg fun hnil => hne (List.isEmpty_iff.mp hnil)]
  · rfl

/-- One that ends a sentence. -/
theorem sentenceStep_of_ends (sentences : List (List Char)) (hc : endsSentence c)
    (ht : t = [] ∨ startsBlank t) :
    sentenceStep (front ++ cur ++ c :: t) (sentences, size front) (size (front ++ cur)) c =
      (skipWhitespace (front ++ cur ++ [c] ++ t) (size (front ++ cur ++ [c]))).map fun start =>
        (sentences ++ trimmed [cur ++ [c]], start) := by
  have htext : front ++ cur ++ c :: t = front ++ cur ++ [c] ++ t := by simp
  have hplace : size (front ++ cur) + c.utf8Size = size (front ++ cur ++ [c]) := by
    rw [size_append _ [c], size_cons, size_nil, Nat.add_zero]
  have hslice : slice (size front) (size (front ++ cur) + 1) (front ++ cur ++ [c] ++ t) =
      some (cur ++ [c]) := by
    refine slice_eq_some.mpr ⟨front, t, by simp, rfl, ?_⟩
    simp only [size_append, size_cons, size_nil, utf8Size_of_endsSentence hc, Nat.add_assoc,
      Nat.add_zero]
  have hends : t.isEmpty || startsBlank t := by
    obtain rfl | ht := ht
    · rfl
    · rw [ht, Bool.or_true]
  rw [sentenceStep, if_pos hc, htext, hplace, sliceFrom_append, Option.bind_some, if_pos hends,
    hslice, Option.bind_some]
  simp only [pushTrimmed_eq]

theorem sentenceLoop_cons (text a : List Char) (c : Char) (t : List Char)
    (state : List (List Char) × ℕ) :
    sentenceLoop text (size a) (c :: t) state =
      (sentenceStep text state (size a) c).bind (sentenceLoop text (size (a ++ [c])) t) := by
  rw [sentenceLoop, size_append, size_cons, size_nil, Nat.add_zero]

/-- At the end of a sentence, and the white space behind it. -/
theorem LoopEnds.cut (ht : startsBlank t)
    (h : LoopEnds text (sentences ++ trimmed [cur ++ [c]]) (t.dropWhile isWhitespace) t
      (sentenceLoop text (size a) t (sentences ++ trimmed [cur ++ [c]],
        size (a ++ t.takeWhile isWhitespace)))) (hrun : OneByteRun t) :
    LoopEnds text sentences (cur ++ c :: t) (c :: t) (sentenceLoop text (size a) t
      (sentences ++ trimmed [cur ++ [c]], size (a ++ t.takeWhile isWhitespace))) := by
  refine ⟨?_, fun found start heq => ?_⟩
  · rw [h.isSome_iff, skipsBytes_cons, and_iff_right fun _ => hrun]
  · obtain ⟨front, last, parts, htext, hstart, hparts, hfound⟩ := h.parts_of found start heq
    refine ⟨front, last, (cur ++ [c]) :: parts, htext, hstart, ?_, ?_⟩
    · have hsplit : cur ++ c :: t =
          (cur ++ [c]) ++ (t.takeWhile isWhitespace ++ t.dropWhile isWhitespace) := by
        rw [List.takeWhile_append_dropWhile, List.append_assoc, List.singleton_append]
      have hpos : 1 ≤ size (t.takeWhile isWhitespace) := by
        obtain ⟨d, t, rfl⟩ : ∃ d t', t = d :: t' := by
          cases t with
          | nil => exact Bool.noConfusion ht
          | cons d t => exact ⟨d, t, rfl⟩
        have hd := d.utf8Size_pos
        rw [startsBlank_cons] at ht
        rw [List.takeWhile_cons_of_pos ht, size_cons]
        omega
      rw [hsplit]
      exact .cons (fun d hd => List.mem_takeWhile_imp hd) hpos hparts
    · rw [hfound, List.append_assoc]
      exact congrArg (sentences ++ ·) (List.filter_append _ _).symm

theorem sentenceLoop_ends (t : List Char) :
    (∀ front cur sentences, LoopEnds (front ++ cur ++ t) sentences (cur ++ t) t
      (sentenceLoop (front ++ cur ++ t) (size (front ++ cur)) t (sentences, size front))) ∧
    ∀ a w b sentences, t = w ++ b → Blank w → LoopEnds (a ++ t) sentences b t
      (sentenceLoop (a ++ t) (size a) t (sentences, size (a ++ w))) := by
  induction t with
  | nil =>
      constructor
      · intro front cur sentences
        refine ⟨iff_of_true rfl skipsBytes_nil, fun found start heq => ?_⟩
        obtain ⟨rfl, rfl⟩ := Prod.mk.inj (Option.some.inj heq)
        exact ⟨front, cur, [cur], by simp, rfl, by simpa using Joined.single cur, rfl⟩
      · intro a w b sentences heq hw
        obtain ⟨rfl, rfl⟩ := List.append_eq_nil_iff.mp heq.symm
        refine ⟨iff_of_true rfl skipsBytes_nil, fun found start heq => ?_⟩
        obtain ⟨rfl, rfl⟩ := Prod.mk.inj (Option.some.inj heq)
        exact ⟨a, [], [[]], by simp, by simp, .single [], rfl⟩
  | cons c t ih =>
      obtain ⟨ihopen, ihskip⟩ := ih
      have hopen : ∀ front cur sentences, LoopEnds (front ++ cur ++ c :: t) sentences
          (cur ++ c :: t) (c :: t) (sentenceLoop (front ++ cur ++ c :: t) (size (front ++ cur))
            (c :: t) (sentences, size front)) := by
        intro front cur sentences
        have htext : front ++ cur ++ c :: t = front ++ cur ++ [c] ++ t := by simp
        rw [sentenceLoop_cons]
        by_cases hends : endsSentence c ∧ (t = [] ∨ startsBlank t)
        · obtain ⟨hc, ht⟩ := hends
          have hrun := skipWhitespace_isSome_iff (a := front ++ cur ++ [c]) (t := t)
          rw [sentenceStep_of_ends sentences hc ht, htext]
          cases hskip : skipWhitespace (front ++ cur ++ [c] ++ t) (size (front ++ cur ++ [c])) with
          | none =>
              rw [hskip] at hrun
              refine ⟨iff_of_false Bool.false_ne_true fun h => ?_, nofun⟩
              exact Bool.false_ne_true (hrun.mpr ((skipsBytes_cons.mp h).1 hc))
          | some start =>
              replace hrun := hrun.mp (Option.isSome_iff_exists.mpr ⟨start, hskip⟩)
              obtain rfl := skipWhitespace_eq_some hskip
              rw [Option.map_some, Option.bind_some]
              obtain rfl | ht := ht
              · refine ⟨iff_of_true rfl ?_, fun found start heq => ?_⟩
                · exact skipsBytes_cons.mpr ⟨fun _ => hrun, skipsBytes_nil⟩
                · obtain ⟨rfl, rfl⟩ := Prod.mk.inj (Option.some.inj heq)
                  exact ⟨front ++ cur ++ [c], [], [cur ++ [c]], rfl, by simp, .single _,
                    List.append_nil _⟩
              · exact .cut ht (ihskip _ _ _ _ List.takeWhile_append_dropWhile.symm
                  fun d hd => List.mem_takeWhile_imp hd) hrun
        · -- The sentence goes on.
          have hnot : endsSentence c → t ≠ [] ∧ startsBlank t = false := fun hc =>
            ⟨fun hnil => hends ⟨hc, .inl hnil⟩,
              Bool.eq_false_iff.mpr fun hstart => hends ⟨hc, .inr hstart⟩⟩
          obtain ⟨hsome, hparts⟩ := ihopen front (cur ++ [c]) sentences
          rw [sentenceStep_of_not_ends _ hnot, Option.bind_some]
          rw [← List.append_assoc] at hsome hparts
          refine ⟨?_, ?_⟩
          · rw [htext, hsome, skipsBytes_cons, and_iff_right fun hc => ?_]
            exact oneByteRun_of_visible (hnot hc).2
          · rw [htext]
            simpa using hparts
      refine ⟨hopen, fun a w b sentences heq hw => ?_⟩
      cases w with
      | nil =>
          have hstart := hopen a [] sentences
          rw [List.append_nil] at hstart ⊢
          rw [List.nil_append] at heq hstart
          rwa [← heq]
      | cons d w =>
          obtain ⟨rfl, rfl⟩ := List.cons.inj heq
          obtain ⟨hd, hw⟩ := blank_cons.mp hw
          have hends := not_endsSentence_of_isWhitespace hd
          have hskip := ihskip (a ++ [c]) w b sentences rfl hw
          rw [List.append_assoc, List.singleton_append, List.append_assoc,
            List.singleton_append] at hskip
          rw [sentenceLoop_cons, sentenceStep_of_not_ends _ fun hc => absurd hc (by simp [hends]),
            Option.bind_some]
          refine ⟨?_, hskip.parts_of⟩
          rw [hskip.isSome_iff, skipsBytes_cons, and_iff_right fun hc =>
            absurd hc (by simp [hends])]

/-! ### The sentences -/

theorem sentenceLoop_all (text : List Char) :
    LoopEnds text [] text text (sentenceLoop text 0 text ([], 0)) :=
  (sentenceLoop_ends text).1 [] [] []

/-- The text is cut into sentences unless one has white space of several bytes behind it. -/
theorem splitSentences_isSome_iff : (splitSentences text).isSome ↔ SkipsBytes text := by
  obtain ⟨hsome, hparts⟩ := sentenceLoop_all text
  rw [← hsome, splitSentences]
  cases hloop : sentenceLoop text 0 text ([], 0) with
  | none => rfl
  | some state =>
      obtain ⟨found, start⟩ := state
      obtain ⟨front, last, parts, rfl, rfl, -⟩ := hparts found start hloop
      refine iff_of_true ?_ rfl
      rw [Option.bind_some]
      dsimp only
      rw [sliceFrom_append, Option.map_some]
      split_ifs <;> rfl

/-- The sentences are the trimmed parts of the text, which stand between white space. -/
theorem splitSentences_joined (h : splitSentences text = some sentences) :
    ∃ parts, Joined 1 parts text ∧ sentences = trimmed parts := by
  obtain ⟨-, hparts⟩ := sentenceLoop_all text
  rw [splitSentences, Option.bind_eq_some_iff] at h
  obtain ⟨⟨found, start⟩, hloop, h⟩ := h
  obtain ⟨front, last, parts, rfl, rfl, hjoined, hfound⟩ := hparts found start hloop
  refine ⟨parts, hjoined, ?_⟩
  rw [List.nil_append] at hfound
  rw [← hfound]
  dsimp only at h
  split_ifs at h with hlt
  · rw [sliceFrom_append, Option.map_some, pushTrimmed_eq] at h
    exact (Option.some.inj h).symm
  · rw [size_append] at hlt
    obtain rfl : last = [] := size_eq_zero.mp (by omega)
    rw [← Option.some.inj h]
    exact (List.append_nil _).symm

/-- The sentences stand in the text with white space between them, and so do the paragraphs. -/
theorem sentences_laid (h : splitSentences text = some sentences) :
    ∃ a e, text = a ++ e ∧ Blank e ∧ Laid (size [' ']) 0 sentences a := by
  obtain ⟨parts, hparts, rfl⟩ := splitSentences_joined h
  exact hparts.laid

theorem paragraphs_laid (text : List Char) :
    ∃ a e, text = a ++ e ∧ Blank e ∧ Laid (size ['\n', '\n']) 0 (paragraphs text) a :=
  (joined_split (by decide) (by decide) text).laid

/-- A text whose white space is made of single bytes is cut into sentences. -/
theorem skipsBytes_of_one_byte (h : ∀ c ∈ text, isWhitespace c → c.utf8Size = 1) :
    SkipsBytes text := by
  rintro a c b rfl - d hd
  have hmem : d ∈ b := (List.takeWhile_sublist _).subset hd
  exact h d (List.mem_append_right a (List.mem_cons_of_mem c hmem)) (List.mem_takeWhile_imp hd)

end AresaDb.Rag
