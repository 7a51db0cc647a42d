import AresaDb.Lib.Lines
import AresaDb.Rag.Chunker

/-! # Chunking strategies

`Chunker` (`rag/chunker.rs`) cuts a document by one of four strategies: chunks of a fixed size,
groups of sentences, groups of paragraphs, and the sections between headers.  Places are counted in
bytes, and a slice that is not between two characters is a panic, here `none`.

Sentences and paragraphs are grouped by the same loop (`groupStep`), with other tests and
separators. The places it gives a chunk are those in the text that it puts together, not in the
document. -/

namespace AresaDb.Rag

open Text (size slice sliceFrom split startsBlank trim)

inductive ChunkStrategy
  | fixedSize (chunkSize overlap : ℕ)
  | sentence (maxTokens : ℕ)
  | paragraph (maxSize : ℕ)
  | semantic (maxSize : ℕ)

/-! ### Sentences -/

section

variable (text : List Char)

/-- Skips white space by the byte; the first number is how many bytes there are to the end. -/
def skipBytes : ℕ → ℕ → Option ℕ
  | 0, start => some start
  | left + 1, start =>
      (sliceFrom start text).bind fun rest =>
        if startsBlank rest then skipBytes left (start + 1) else some start

/-- `while start < text.len() && text[start..].starts_with(char::is_whitespace) { start += 1; }` -/
def skipWhitespace (start : ℕ) : Option ℕ := skipBytes text (size text - start) start

def pushTrimmed (sentences : List (List Char)) (piece : List Char) : List (List Char) :=
  if (trim piece).isEmpty then sentences else sentences ++ [trim piece]

def endsSentence (c : Char) : Bool := c = '.' || c = '!' || c = '?'

/-- The pass of the loop at byte `i`, from the sentences so far and the start of the next one. -/
def sentenceStep (state : List (List Char) × ℕ) (i : ℕ) (c : Char) :
    Option (List (List Char) × ℕ) :=
  if endsSentence c then
    (sliceFrom (i + c.utf8Size) text).bind fun rest =>
      if rest.isEmpty || startsBlank rest then
        (slice state.2 (i + 1) text).bind fun sentence =>
          (skipWhitespace text (i + c.utf8Size)).map fun start =>
            (pushTrimmed state.1 sentence, start)
      else some state
  else some state

/-- `for (i, c) in text.char_indices()`, from byte `i` on. -/
def sentenceLoop : ℕ → List Char → List (List Char) × ℕ → Option (List (List Char) × ℕ)
  | _, [], state => some state
  | i, c :: rest, state => (sentenceStep text state i c).bind (sentenceLoop (i + c.utf8Size) rest)

def splitSentences : Option (List (List Char)) :=
  (sentenceLoop text 0 text ([], 0)).bind fun (sentences, start) =>
    if start < size text then (sliceFrom start text).map (pushTrimmed sentences)
    else some sentences

end

/-! ### Groups of pieces -/

/-- A chunk of text that is put together, at its place there, before the number of chunks is known.
-/
def chunkAt (documentId : String) (chunkIndex startOffset : ℕ) (text : List Char) : DocumentChunk :=
  { id := documentId ++ "_" ++ toString chunkIndex
    documentId := documentId
    content := .ofList (trim text)
    chunkIndex := chunkIndex
    totalChunks := 0
    startOffset := startOffset
    endOffset := startOffset + size text
    metadata := none }

structure Grouping where
  chunks : List DocumentChunk
  currentChunk : List Char
  currentStart : ℕ
  chunkIndex : ℕ

section

variable (documentId : String) (separator : List Char) (full : List Char → List Char → Bool)

/-- One piece: the current chunk is saved if it is full for it and not empty. -/
def groupStep (g : Grouping) (piece : List Char) : Grouping :=
  if full g.currentChunk piece && !g.currentChunk.isEmpty then
    { chunks := g.chunks ++ [chunkAt documentId g.chunkIndex g.currentStart g.currentChunk]
      currentChunk := piece
      currentStart := g.currentStart + size g.currentChunk
      chunkIndex := g.chunkIndex + 1 }
  else
    { g with
      currentChunk :=
        (if g.currentChunk.isEmpty then [] else g.currentChunk ++ separator) ++ piece }

def groupPieces (pieces : List (List Char)) : List DocumentChunk :=
  let g := pieces.foldl (groupStep documentId separator full) ⟨[], [], 0, 0⟩
  setTotals (if (trim g.currentChunk).isEmpty then g.chunks
    else g.chunks ++ [chunkAt documentId g.chunkIndex g.currentStart g.currentChunk])

end

/-- Sentences are joined by a blank, up to so many tokens of four characters. -/
def sentencesFull (maxTokens : ℕ) (current sentence : List Char) : Bool :=
  maxTokens < (current.length + sentence.length) / 4

def chunkBySentence (documentId content : String) (maxTokens : ℕ) : Option (List DocumentChunk) :=
  (splitSentences content.toList).map (groupPieces documentId [' '] (sentencesFull maxTokens))

/-- Paragraphs are joined by an empty line, up to so many bytes. -/
def paragraphsFull (maxSize : ℕ) (current para : List Char) : Bool :=
  maxSize < size current + size para

/-- The paragraphs without white space around them, the empty ones left out. -/
def paragraphs (content : List Char) : List (List Char) :=
  ((split ['\n', '\n'] content).map trim).filter (· ≠ [])

def chunkByParagraph (documentId content : String) (maxSize : ℕ) : List DocumentChunk :=
  groupPieces documentId ['\n', '\n'] (paragraphsFull maxSize) (paragraphs content.toList)

/-! ### Sections -/

def sectionPatterns : List String := ["# ", "## ", "### ", "#### ", "---", "***", "==="]

def isHeader (line : List Char) : Bool := sectionPatterns.any fun p => p.toList.isPrefixOf line

structure Sectioning where
  sections : List (ℕ × List Char)
  currentSection : List Char
  currentStart : ℕ

/-- One line: a header ends the section before it, if that is not empty. -/
def sectionStep (s : Sectioning) (line : List Char) : Sectioning :=
  if isHeader line && !s.currentSection.isEmpty then
    { sections := s.sections ++ [(s.currentStart, s.currentSection)]
      currentSection := line
      currentStart := s.currentStart + (size s.currentSection + 1) }
  else
    { s with
      currentSection :=
        (if s.currentSection.isEmpty then [] else s.currentSection ++ ['\n']) ++ line }

def sections (content : List Char) : List (ℕ × List Char) :=
  let s := (Text.lines content).foldl sectionStep ⟨[], [], 0⟩
  if s.currentSection.isEmpty then s.sections
  else s.sections ++ [(s.currentStart, s.currentSection)]

/-- The chunks of a section: itself, or chunks of a fixed size if it is too large. -/
def sectionChunks (documentId : String) (maxSize chunkIndex : ℕ) (sec : ℕ × List Char) :
    List DocumentChunk :=
  if size sec.2 ≤ maxSize then [chunkAt documentId chunkIndex sec.1 sec.2]
  else
    (chunkFixedSize (documentId ++ "_section") (.ofList sec.2) maxSize 50).zipIdx.map
        fun (sub, i) =>
      { sub with
        id := documentId ++ "_" ++ toString (chunkIndex + i)
        documentId := documentId
        startOffset := sub.startOffset + sec.1
        endOffset := sub.endOffset + sec.1
        chunkIndex := chunkIndex + i }

def semanticChunks (documentId : String) (maxSize : ℕ) :
    ℕ → List (ℕ × List Char) → List DocumentChunk
  | _, [] => []
  | chunkIndex, sec :: rest =>
      let chunks := sectionChunks documentId maxSize chunkIndex sec
      chunks ++ semanticChunks documentId maxSize (chunkIndex + chunks.length) rest

def chunkSemantic (documentId content : String) (maxSize : ℕ) : List DocumentChunk :=
  setTotals (semanticChunks documentId maxSize 0 (sections content.toList))

/-! ### The chunker -/

/-- `Chunker::chunk`; `none` is a panic. -/
def chunk (strategy : ChunkStrategy) (documentId content : String) : Option (List DocumentChunk) :=
  match strategy with
  | .fixedSize chunkSize overlap => some (chunkFixedSize documentId content chunkSize overlap)
  | .sentence maxTokens => chunkBySentence documentId content maxTokens
  | .paragraph maxSize => some (chunkByParagraph documentId content maxSize)
  | .semantic maxSize => some (chunkSemantic documentId content maxSize)

def estimateTokens (text : String) : ℕ := text.toList.length / 4

/-- `a + b` of `usize`: a panic if the build checks for overflow, else modulo 2^64. -/
def addUsize (checked : Bool) (a b : ℕ) : Option ℕ :=
  if a + b < 2 ^ 64 then some (a + b) else if checked then none else some ((a + b) % 2 ^ 64)

def getContextWindow (checked : Bool) (content : String) (chunk : DocumentChunk)
    (contextChars : ℕ) : Option String :=
  (addUsize checked chunk.endOffset contextChars).bind fun stop =>
    (slice (chunk.startOffset - contextChars) (min stop (size content.toList)) content.toList).map
      String.ofList

end AresaDb.Rag
