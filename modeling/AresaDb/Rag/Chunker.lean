import AresaDb.Lib.Text
import AresaDb.Lib.Windows
import AresaDb.Store.Json

/-! # Chunks of a fixed size

`chunk_fixed_size` (`rag/chunker.rs`) cuts a document into chunks of so many characters, each
starting a step after the one before it, and gives their places in bytes.  The step is the size less
the overlap, and at least one.

The loop ends at the first chunk that reaches the end of the text, so its chunks are the windows
that it takes to get there (`fixedChunks_eq`).  A step is not longer than a chunk, and no character
is left out (`chunkFixedSize_exact`). -/

namespace AresaDb.Rag

structure DocumentChunk where
  id : String
  documentId : String
  content : String
  chunkIndex : ℕ
  totalChunks : ℕ
  startOffset : ℕ
  endOffset : ℕ
  metadata : Option Store.Json

section

variable (documentId : String) (chars : List Char) (chunkSize : ℕ)

/-- The chunk of one pass of the loop, before the number of chunks is known. -/
def fixedChunk (chunkIndex start : ℕ) : DocumentChunk :=
  let stop := min (start + chunkSize) chars.length
  { id := documentId ++ "_" ++ toString chunkIndex
    documentId := documentId
    content := .ofList (chars.extract start stop)
    chunkIndex := chunkIndex
    totalChunks := 0
    startOffset := Text.size (chars.take start)
    endOffset := Text.size (chars.take stop)
    metadata := none }

/-- The loop, from a chunk and the character it starts at. -/
def fixedChunks (step : ℕ) (hstep : 0 < step) (chunkIndex start : ℕ) : List DocumentChunk :=
  if start < chars.length then
    fixedChunk documentId chars chunkSize chunkIndex start ::
      if chars.length ≤ min (start + chunkSize) chars.length then []
      else fixedChunks step hstep (chunkIndex + 1) (start + step)
  else []
termination_by chars.length - start

theorem take_min (n : ℕ) : chars.take (min n chars.length) = chars.take n :=
  List.take_eq_take_min.symm

theorem fixedChunk_content (chunkIndex start : ℕ) :
    (fixedChunk documentId chars chunkSize chunkIndex start).content.toList =
      (chars.drop start).take chunkSize := by
  show (String.ofList (chars.extract start (min (start + chunkSize) chars.length))).toList = _
  rw [String.toList_ofList, List.extract_eq_take_drop, List.take_eq_take_iff, List.length_drop]
  omega

/-- A chunk is the slice of the text at its places. -/
theorem fixedChunk_slice (chunkIndex start : ℕ) :
    Text.slice (fixedChunk documentId chars chunkSize chunkIndex start).startOffset
      (fixedChunk documentId chars chunkSize chunkIndex start).endOffset chars =
    some (fixedChunk documentId chars chunkSize chunkIndex start).content.toList := by
  have hstop : chars.take (min (start + chunkSize) chars.length) =
      chars.take start ++ (chars.drop start).take chunkSize := by
    rw [take_min, List.take_add]
  rw [fixedChunk_content, Text.slice_eq_some]
  refine ⟨chars.take start, chars.drop (start + chunkSize), ?_, rfl, ?_⟩
  · rw [← List.take_add, List.take_append_drop]
  · rw [← Text.size_append, ← hstop]
    rfl

/-- A chunk ends where the text does when it has the text's last character. -/
theorem fixedChunk_reaches_end_iff (chunkIndex start : ℕ) :
    (fixedChunk documentId chars chunkSize chunkIndex start).endOffset = Text.size chars ↔
      chars.length ≤ start + chunkSize := by
  show Text.size (chars.take (min (start + chunkSize) chars.length)) = _ ↔ _
  have hsplit : Text.size chars =
      Text.size (chars.take (start + chunkSize)) + Text.size (chars.drop (start + chunkSize)) := by
    rw [← Text.size_append, List.take_append_drop]
  rw [take_min, hsplit, left_eq_add, Text.size_eq_zero, List.drop_eq_nil_iff]

/-- The loop makes the windows that are left. -/
theorem fixedChunks_eq {step : ℕ} (hstep : 0 < step) (hle : step ≤ chunkSize)
    {i left : ℕ}
    (hleft : Windows.count chars.length chunkSize step = i + (left + 1)) :
    fixedChunks documentId chars chunkSize step hstep i (i * step) =
      (List.range' i (left + 1)).map fun k =>
          fixedChunk documentId chars chunkSize k (k * step) := by
  induction left generalizing i with
  | zero =>
      have hi : i < Windows.count chars.length chunkSize step := by omega
      have hend := (Windows.reaches_iff hstep hi).mpr hleft.symm
      rw [fixedChunks, if_pos (Windows.start_lt hstep hle hi), if_pos (le_min hend le_rfl)]
      rfl
  | succ left ih =>
      have hi : i < Windows.count chars.length chunkSize step := by omega
      have hmore : ¬ chars.length ≤ min (i * step + chunkSize) chars.length := by
        intro h
        have hlast := (Windows.reaches_iff hstep hi).mp (h.trans (min_le_left _ _))
        omega
      rw [List.range'_succ, List.map_cons, fixedChunks, if_pos (Windows.start_lt hstep hle hi),
        if_neg hmore, ← Nat.succ_mul, ih (by omega)]

end

def setTotals (chunks : List DocumentChunk) : List DocumentChunk :=
  chunks.map fun chunk => { chunk with totalChunks := chunks.length }

/-- Chunks of `chunkSize` characters, each starting `overlap` before the end of the last one, or one
character after its start if that is later. -/
def chunkFixedSize (documentId content : String) (chunkSize overlap : ℕ) : List DocumentChunk :=
  if content.toList.length = 0 then []
  else
    setTotals (fixedChunks documentId content.toList chunkSize (max (chunkSize - overlap) 1)
      (lt_max_of_lt_right Nat.one_pos) 0 0)

theorem mem_fixedChunks {documentId : String} {chars : List Char} {chunkSize step i start : ℕ}
    {hstep : 0 < step} {c : DocumentChunk}
    (h : c ∈ fixedChunks documentId chars chunkSize step hstep i start) :
    ∃ j place, place < chars.length ∧ c = fixedChunk documentId chars chunkSize j place := by
  induction i, start using fixedChunks.induct chars chunkSize step hstep with
  | case1 i start hlt ih =>
      rw [fixedChunks, if_pos hlt] at h
      obtain rfl | h := List.mem_cons.mp h
      · exact ⟨i, start, hlt, rfl⟩
      · split_ifs at h
        · exact absurd h List.not_mem_nil
        · exact ih h
  | case2 i start hlt =>
      rw [fixedChunks, if_neg hlt] at h
      exact absurd h List.not_mem_nil

/-- Every chunk is one pass of the loop, also of no size. -/
theorem mem_chunkFixedSize {documentId content : String} {chunkSize overlap : ℕ} {c : DocumentChunk}
    (h : c ∈ chunkFixedSize documentId content chunkSize overlap) :
    ∃ j place total, place < content.toList.length ∧
      c = { fixedChunk documentId content.toList chunkSize j place with totalChunks := total } := by
  rw [chunkFixedSize] at h
  split_ifs at h
  · exact absurd h List.not_mem_nil
  · obtain ⟨d, hd, rfl⟩ := List.mem_map.mp h
    obtain ⟨j, place, hlt, rfl⟩ := mem_fixedChunks hd
    exact ⟨j, place, _, hlt, rfl⟩

/-- The chunks of a text, one by one. -/
theorem chunkFixedSize_eq (documentId content : String) (chunkSize overlap : ℕ)
    (hsize : 1 ≤ chunkSize) :
    chunkFixedSize documentId content chunkSize overlap =
      setTotals ((List.range (Windows.count content.toList.length chunkSize
          (max (chunkSize - overlap) 1))).map fun i =>
        fixedChunk documentId content.toList chunkSize i (i * max (chunkSize - overlap) 1)) := by
  have hstep : 0 < max (chunkSize - overlap) 1 := by omega
  have hle : max (chunkSize - overlap) 1 ≤ chunkSize := by omega
  obtain hlen | hlen := Nat.eq_zero_or_pos content.toList.length
  · rw [chunkFixedSize, if_pos hlen, hlen, Windows.count_zero]
    rfl
  · obtain ⟨left, hleft⟩ : ∃ left, Windows.count content.toList.length chunkSize
        (max (chunkSize - overlap) 1) = left + 1 := ⟨_, if_neg hlen.ne'⟩
    have hloop := fixedChunks_eq documentId content.toList chunkSize hstep hle
      (hleft.trans (Nat.zero_add _).symm)
    rw [Nat.zero_mul] at hloop
    rw [chunkFixedSize, if_neg hlen.ne', hloop, hleft, List.range_eq_range']

/-- The sums of the loop fit a `usize`: a start other than zero comes after a chunk that did not
reach the end, so the size is less than the length of the text. -/
theorem chunk_places_fit {documentId content : String} {chunkSize overlap i : ℕ}
    (hsize : 1 ≤ chunkSize) (hmax : chunkSize < 2 ^ 64) (hlen : content.toList.length < 2 ^ 63)
    (hi : i < (chunkFixedSize documentId content chunkSize overlap).length) :
    i * max (chunkSize - overlap) 1 + chunkSize < 2 ^ 64 ∧
      i * max (chunkSize - overlap) 1 + max (chunkSize - overlap) 1 < 2 ^ 64 := by
  have hstep : 0 < max (chunkSize - overlap) 1 := by omega
  have hle : max (chunkSize - overlap) 1 ≤ chunkSize := by omega
  rw [chunkFixedSize_eq documentId content chunkSize overlap hsize] at hi
  simp only [setTotals, List.length_map, List.length_range] at hi
  generalize max (chunkSize - overlap) 1 = step at hstep hle hi ⊢
  cases i with
  | zero => omega
  | succ i =>
      have hstart := Windows.start_lt hstep hle hi
      have hbefore := (Windows.count_le_iff hstep).not.mp (not_le.mpr hi)
      omega

/-- The chunks of a text are its windows of `chunkSize` characters every `step` characters, up to
the first that reaches its end. -/
structure ExactChunks (content : String) (chunkSize step : ℕ) (chunks : List DocumentChunk) :
    Prop where
  content_eq : ∀ i (hi : i < chunks.length),
    chunks[i].content.toList = (content.toList.drop (i * step)).take chunkSize
  slice_eq : ∀ i (hi : i < chunks.length),
    Text.slice chunks[i].startOffset chunks[i].endOffset content.toList =
      some chunks[i].content.toList
  covered : ∀ j (hj : j < content.toList.length), ∃ i, ∃ hi : i < chunks.length,
    i * step ≤ j ∧ chunks[i].content.toList[j - i * step]? = some content.toList[j]
  reaches_end_iff : ∀ i (hi : i < chunks.length),
    chunks[i].endOffset = Text.size content.toList ↔ i + 1 = chunks.length
  chunkIndex_eq : ∀ i (hi : i < chunks.length), chunks[i].chunkIndex = i
  totalChunks_eq : ∀ i (hi : i < chunks.length), chunks[i].totalChunks = chunks.length

theorem setTotals_exact (documentId content : String) {chunkSize step : ℕ} (hstep : 0 < step)
    (hle : step ≤ chunkSize) :
    ExactChunks content chunkSize step (setTotals
      ((List.range (Windows.count content.toList.length chunkSize step)).map fun i =>
        fixedChunk documentId content.toList chunkSize i (i * step))) := by
  have hlength : (setTotals
      ((List.range (Windows.count content.toList.length chunkSize step)).map fun i =>
        fixedChunk documentId content.toList chunkSize i (i * step))).length =
      Windows.count content.toList.length chunkSize step := by simp [setTotals]
  constructor
  · intro i hi
    rw [hlength] at hi
    simp only [setTotals, List.getElem_map, List.getElem_range]
    exact fixedChunk_content _ _ _ _ _
  · intro i hi
    simp only [setTotals, List.getElem_map, List.getElem_range]
    exact fixedChunk_slice _ _ _ _ _
  · intro j hj
    obtain ⟨i, hi, hstart, hend⟩ := Windows.exists_covering hstep hle hj
    refine ⟨i, by rwa [hlength], hstart, ?_⟩
    simp only [setTotals, List.getElem_map, List.getElem_range, fixedChunk_content]
    rw [List.getElem?_take_of_lt (by omega), List.getElem?_drop, Nat.add_sub_cancel' hstart,
      List.getElem?_eq_getElem hj]
  · intro i hi
    have hi' : i < Windows.count content.toList.length chunkSize step := hlength ▸ hi
    rw [hlength, ← Windows.reaches_iff hstep hi']
    simp only [setTotals, List.getElem_map, List.getElem_range]
    exact fixedChunk_reaches_end_iff _ _ _ _ _
  · intro i hi
    simp only [setTotals, List.getElem_map, List.getElem_range, fixedChunk]
  · intro i hi
    simp only [setTotals, List.getElem_map, List.length_map, List.length_range]

theorem chunkFixedSize_exact (documentId content : String) (chunkSize overlap : ℕ)
    (hsize : 1 ≤ chunkSize) :
    ExactChunks content chunkSize (max (chunkSize - overlap) 1)
      (chunkFixedSize documentId content chunkSize overlap) := by
  rw [chunkFixedSize_eq documentId content chunkSize overlap hsize]
  exact setTotals_exact documentId content (by omega) (by omega)

theorem chunkFixedSize_exact_sample :
    ExactChunks "na\u00efve" 3 (max (3 - 1) 1) (chunkFixedSize "doc" "na\u00efve" 3 1) :=
  chunkFixedSize_exact "doc" "na\u00efve" 3 1 (by decide)

end AresaDb.Rag
