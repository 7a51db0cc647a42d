import AresaDb.Lib.Framing

/-! # The unified keyspace

The encoder and decoder of keys (`aresadb-core/src/keys.rs`).  A key is an ASCII prefix that tags
its kind and one or more segments: all but the last are escaped and terminated, the last one is
written as it is.

`decode` and `encode` are inverse to each other on the nose: a byte string decodes to a key exactly
when it is the encoding of that key (`decode_eq_ok_iff`).  The splitter is the part with an
argument; `splitLoop_terminated` is what it does on a terminated segment and `splitLoop_sound` what
its input must have been when it succeeds. -/

namespace AresaDb.Core

open ByteOrder Framing

/-- The byte that starts an escape or a terminator. -/
def nul : UInt8 := 0x00

/-- The second byte of a terminator. -/
def terminator : UInt8 := 0x01

/-- The second byte of an escape. -/
def escape : UInt8 := 0xff

/-! ### Prefixes -/

namespace Prefix

/-- Cluster metadata, `/m/`. -/
def metadata : Bytes := [0x2f, 0x6d, 0x2f]

/-- Graph node payloads, `/n/`. -/
def node : Bytes := [0x2f, 0x6e, 0x2f]

/-- Node index entries, `/i/`. -/
def nodeIndex : Bytes := [0x2f, 0x69, 0x2f]

/-- Edge records, `/e/`. -/
def edge : Bytes := [0x2f, 0x65, 0x2f]

/-- Edges by source node, `/ef/`. -/
def edgeFrom : Bytes := [0x2f, 0x65, 0x66, 0x2f]

/-- Edges by target node, `/et/`. -/
def edgeTo : Bytes := [0x2f, 0x65, 0x74, 0x2f]

/-- The property index, `/p/`. -/
def property : Bytes := [0x2f, 0x70, 0x2f]

/-- The full-text index, `/ft/`. -/
def fulltext : Bytes := [0x2f, 0x66, 0x74, 0x2f]

/-- The vector index, `/v/`. -/
def vector : Bytes := [0x2f, 0x76, 0x2f]

/-- Schemas, `/s/`. -/
def schema : Bytes := [0x2f, 0x73, 0x2f]

/-- Transaction records, `/x/`. -/
def transaction : Bytes := [0x2f, 0x78, 0x2f]

end Prefix

/-! ### Keys -/

/-- A structured key, one constructor for each region of the keyspace. -/
inductive Key where
  | metadata (tail : Bytes)
  | node (nodeId : Bytes)
  | nodeIndex (nodeId : Bytes)
  | edge (edgeId : Bytes)
  | edgeFrom (from_ edgeId : Bytes)
  | edgeTo (to_ edgeId : Bytes)
  | propertyIndex (type_ field value nodeId : Bytes)
  | fulltextIndex (type_ field token nodeId : Bytes)
  | vectorIndex (type_ field nodeId : Bytes)
  | schema (type_ : Bytes)
  | transaction (txId : Bytes)
deriving DecidableEq, Repr

/-- Why a byte string is not an encoded key. -/
inductive DecodeError where
  | tooShort (len : ℕ)
  | unknownPrefix (start : Bytes)
  | missingTerminator (index : ℕ)
  | malformedEscape (offset : ℕ) (next : UInt8)
deriving DecidableEq, Repr

/-- How decoding ends without a key: an error, or the panic of a failed `expect`. -/
inductive DecodeFault where
  | error (e : DecodeError)
  | panic
deriving DecidableEq, Repr

/-! ### Encoding -/

def writeSingle (out pre payload : Bytes) : Bytes := out ++ pre ++ payload

def escapeInto (out segment : Bytes) : Bytes :=
  segment.foldl (fun out b => if b = nul then out ++ [nul, escape] else out ++ [b]) out

def writeMulti (out pre : Bytes) (head : List Bytes) (last : Bytes) : Bytes :=
  head.foldl (fun out seg => escapeInto out seg ++ [nul, terminator]) (out ++ pre) ++ last

/-- The canonical bytes of a key. -/
def Key.encode : Key → Bytes
  | .metadata tail => writeSingle [] Prefix.metadata tail
  | .node nodeId => writeSingle [] Prefix.node nodeId
  | .nodeIndex nodeId => writeSingle [] Prefix.nodeIndex nodeId
  | .edge edgeId => writeSingle [] Prefix.edge edgeId
  | .edgeFrom from_ edgeId => writeMulti [] Prefix.edgeFrom [from_] edgeId
  | .edgeTo to_ edgeId => writeMulti [] Prefix.edgeTo [to_] edgeId
  | .propertyIndex type_ field value nodeId =>
      writeMulti [] Prefix.property [type_, field, value] nodeId
  | .fulltextIndex type_ field token nodeId =>
      writeMulti [] Prefix.fulltext [type_, field, token] nodeId
  | .vectorIndex type_ field nodeId => writeMulti [] Prefix.vector [type_, field] nodeId
  | .schema type_ => writeSingle [] Prefix.schema type_
  | .transaction txId => writeSingle [] Prefix.transaction txId

/-! ### Decoding -/

/-- The loop of `split_segments`: `rest` is the body from offset `i` on, `current` the segment read
so far and `segments` the `segmentIdx` segments before it. -/
def splitLoop (n : ℕ) :
    Bytes → ℕ → ℕ → Bytes → List Bytes → Except DecodeFault (List Bytes × Bytes)
  | [], _, segmentIdx, _, segments =>
      if segmentIdx < n then .error (.error (.missingTerminator segmentIdx)) else .ok (segments, [])
  | b :: rest, i, segmentIdx, current, segments =>
      if segmentIdx < n then
        if b = nul then
          match rest with
          | [] => .error (.error (.malformedEscape i 0))
          | next :: rest =>
              if next = escape then splitLoop n rest (i + 2) segmentIdx (current ++ [nul]) segments
              else if next = terminator then
                splitLoop n rest (i + 2) (segmentIdx + 1) [] (segments ++ [current])
              else .error (.error (.malformedEscape i next))
        else splitLoop n rest (i + 1) segmentIdx (current ++ [b]) segments
      else .ok (segments, b :: rest)

/-- Parse `n` escaped segments and the raw remainder. -/
def splitSegments (body : Bytes) (n : ℕ) : Except DecodeFault (List Bytes × Bytes) :=
  splitLoop n body 0 0 [] []

/-- The key of a byte string. -/
def Key.decode (bytes : Bytes) : Except DecodeFault Key :=
  match bytes with
  | b₀ :: b₁ :: b₂ :: rest =>
      if b₀ ≠ 0x2f then .error (.error (.tooShort bytes.length))
      else if b₁ = 0x6d ∧ b₂ = 0x2f then .ok (.metadata rest)
      else if b₁ = 0x6e ∧ b₂ = 0x2f then .ok (.node rest)
      else if b₁ = 0x69 ∧ b₂ = 0x2f then .ok (.nodeIndex rest)
      else if b₁ = 0x65 ∧ b₂ = 0x2f then .ok (.edge rest)
      else if b₁ = 0x65 ∧ b₂ = 0x66 ∧ rest.head? = some 0x2f then
        match splitSegments rest.tail 1 with
        | .ok (from_ :: _, last) => .ok (.edgeFrom from_ last)
        | .ok _ => .error .panic
        | .error f => .error f
      else if b₁ = 0x65 ∧ b₂ = 0x74 ∧ rest.head? = some 0x2f then
        match splitSegments rest.tail 1 with
        | .ok (to_ :: _, last) => .ok (.edgeTo to_ last)
        | .ok _ => .error .panic
        | .error f => .error f
      else if b₁ = 0x70 ∧ b₂ = 0x2f then
        match splitSegments rest 3 with
        | .ok (type_ :: field :: value :: _, last) => .ok (.propertyIndex type_ field value last)
        | .ok _ => .error .panic
        | .error f => .error f
      else if b₁ = 0x66 ∧ b₂ = 0x74 ∧ rest.head? = some 0x2f then
        match splitSegments rest.tail 3 with
        | .ok (type_ :: field :: token :: _, last) => .ok (.fulltextIndex type_ field token last)
        | .ok _ => .error .panic
        | .error f => .error f
      else if b₁ = 0x76 ∧ b₂ = 0x2f then
        match splitSegments rest 2 with
        | .ok (type_ :: field :: _, last) => .ok (.vectorIndex type_ field last)
        | .ok _ => .error .panic
        | .error f => .error f
      else if b₁ = 0x73 ∧ b₂ = 0x2f then .ok (.schema rest)
      else if b₁ = 0x78 ∧ b₂ = 0x2f then .ok (.transaction rest)
      else .error (.error (.unknownPrefix (bytes.take 4)))
  | _ => .error (.error (.tooShort bytes.length))

/-! ### What the encoder writes -/

/-- The escape scheme of segments. -/
def segmentEscape : Escape where
  nul := nul
  esc := escape
  term := terminator
  nul_lt := fun _ h => UInt8.pos_iff_ne_zero.mpr h
  term_lt_esc := by decide

theorem escapeInto_eq (out segment : Bytes) :
    escapeInto out segment = out ++ segmentEscape.escape segment := by
  unfold escapeInto
  induction segment generalizing out with
  | nil => simp [Escape.escape]
  | cons b segment ih =>
      rw [List.foldl_cons, ih]
      by_cases hb : b = nul
      · simp [Escape.escape, segmentEscape, hb]
      · simp [Escape.escape, segmentEscape, hb]

theorem writeMulti_eq (out pre : Bytes) (head : List Bytes) (last : Bytes) :
    writeMulti out pre head last = out ++ pre ++ frame segmentEscape.terminated head last := by
  unfold writeMulti frame
  generalize out ++ pre = start
  induction head generalizing start with
  | nil => simp
  | cons seg head ih =>
      rw [List.foldl_cons, ih, escapeInto_eq]
      simp [Escape.terminated, segmentEscape]

/-- The kinds of keys. -/
inductive Kind where
  | metadata
  | node
  | nodeIndex
  | edge
  | edgeFrom
  | edgeTo
  | propertyIndex
  | fulltextIndex
  | vectorIndex
  | schema
  | transaction
deriving DecidableEq

/-- The prefix that tags a kind. -/
def Kind.tag : Kind → Bytes
  | .metadata => Prefix.metadata
  | .node => Prefix.node
  | .nodeIndex => Prefix.nodeIndex
  | .edge => Prefix.edge
  | .edgeFrom => Prefix.edgeFrom
  | .edgeTo => Prefix.edgeTo
  | .propertyIndex => Prefix.property
  | .fulltextIndex => Prefix.fulltext
  | .vectorIndex => Prefix.vector
  | .schema => Prefix.schema
  | .transaction => Prefix.transaction

/-- How many segments of a kind are escaped. -/
def Kind.escaped : Kind → ℕ
  | .edgeFrom => 1
  | .edgeTo => 1
  | .propertyIndex => 3
  | .fulltextIndex => 3
  | .vectorIndex => 2
  | _ => 0

namespace Key

def kind : Key → Kind
  | .metadata _ => .metadata
  | .node _ => .node
  | .nodeIndex _ => .nodeIndex
  | .edge _ => .edge
  | .edgeFrom _ _ => .edgeFrom
  | .edgeTo _ _ => .edgeTo
  | .propertyIndex _ _ _ _ => .propertyIndex
  | .fulltextIndex _ _ _ _ => .fulltextIndex
  | .vectorIndex _ _ _ => .vectorIndex
  | .schema _ => .schema
  | .transaction _ => .transaction

/-- The components that are escaped. -/
def head : Key → List Bytes
  | .edgeFrom from_ _ => [from_]
  | .edgeTo to_ _ => [to_]
  | .propertyIndex type_ field value _ => [type_, field, value]
  | .fulltextIndex type_ field token _ => [type_, field, token]
  | .vectorIndex type_ field _ => [type_, field]
  | _ => []

/-- The component that is written as it is. -/
def last : Key → Bytes
  | .metadata tail => tail
  | .node nodeId => nodeId
  | .nodeIndex nodeId => nodeId
  | .edge edgeId => edgeId
  | .edgeFrom _ edgeId => edgeId
  | .edgeTo _ edgeId => edgeId
  | .propertyIndex _ _ _ nodeId => nodeId
  | .fulltextIndex _ _ _ nodeId => nodeId
  | .vectorIndex _ _ nodeId => nodeId
  | .schema type_ => type_
  | .transaction txId => txId

/-- The components in the order of the constructor. -/
def components (k : Key) : List Bytes := k.head ++ [k.last]

theorem length_head (k : Key) : k.head.length = k.kind.escaped := by
  cases k <;> rfl

/-- A key is its tag followed by its framed components. -/
theorem encode_eq (k : Key) :
    k.encode = k.kind.tag ++ frame segmentEscape.terminated k.head k.last := by
  cases k <;> simp only [encode, writeSingle, writeMulti_eq] <;> rfl

end Key

/-! ### What the splitter accepts -/

section

variable {n segmentIdx : ℕ}

theorem splitLoop_done (hidx : ¬ segmentIdx < n) (rest : Bytes) (i : ℕ) (current : Bytes)
    (segments : List Bytes) :
    splitLoop n rest i segmentIdx current segments = .ok (segments, rest) := by
  cases rest with
  | nil => simp [splitLoop, hidx]
  | cons b rest =>
      unfold splitLoop
      rw [if_neg hidx]

theorem splitLoop_of_ne_nul (hidx : segmentIdx < n) {b : UInt8} (hb : b ≠ nul) (rest : Bytes)
    (i : ℕ) (current : Bytes) (segments : List Bytes) :
    splitLoop n (b :: rest) i segmentIdx current segments =
      splitLoop n rest (i + 1) segmentIdx (current ++ [b]) segments := by
  conv_lhs => unfold splitLoop
  rw [if_pos hidx, if_neg hb]

theorem splitLoop_nul (hidx : segmentIdx < n) (next : UInt8) (rest : Bytes) (i : ℕ)
    (current : Bytes) (segments : List Bytes) :
    splitLoop n (nul :: next :: rest) i segmentIdx current segments =
      if next = escape then splitLoop n rest (i + 2) segmentIdx (current ++ [nul]) segments
      else if next = terminator then
        splitLoop n rest (i + 2) (segmentIdx + 1) [] (segments ++ [current])
      else .error (.error (.malformedEscape i next)) := by
  conv_lhs => unfold splitLoop
  rw [if_pos hidx, if_pos rfl]

/-- A terminated segment is read back. -/
theorem splitLoop_terminated (hidx : segmentIdx < n) (seg rest : Bytes) (i : ℕ) (current : Bytes)
    (segments : List Bytes) :
    ∃ j, splitLoop n (segmentEscape.terminated seg ++ rest) i segmentIdx current segments =
      splitLoop n rest j (segmentIdx + 1) [] (segments ++ [current ++ seg]) := by
  induction seg generalizing i current with
  | nil =>
      refine ⟨i + 2, ?_⟩
      rw [List.append_nil]
      exact splitLoop_nul hidx terminator rest i current segments
  | cons b seg ih =>
      by_cases hb : b = segmentEscape.nul
      · subst hb
        obtain ⟨j, hj⟩ := ih (i + 2) (current ++ [nul])
        rw [List.append_assoc, List.singleton_append] at hj
        refine ⟨j, ?_⟩
        rw [Escape.terminated_cons_nul]
        exact (splitLoop_nul hidx escape _ i current segments).trans hj
      · obtain ⟨j, hj⟩ := ih (i + 1) (current ++ [b])
        rw [List.append_assoc, List.singleton_append] at hj
        refine ⟨j, ?_⟩
        rw [Escape.terminated_cons_of_ne _ hb]
        exact (splitLoop_of_ne_nul hidx hb _ i current segments).trans hj

/-- The segments of a framed list are read back. -/
theorem splitLoop_frame {head : List Bytes} (hn : segmentIdx + head.length = n) (last : Bytes)
    (i : ℕ) (segments : List Bytes) :
    splitLoop n (frame segmentEscape.terminated head last) i segmentIdx [] segments =
      .ok (segments ++ head, last) := by
  induction head generalizing i segmentIdx segments with
  | nil =>
      rw [List.length_nil] at hn
      rw [frame_nil, splitLoop_done (by omega), List.append_nil]
  | cons seg head ih =>
      rw [List.length_cons] at hn
      have hidx : segmentIdx < n := by omega
      obtain ⟨j, hj⟩ := splitLoop_terminated hidx seg
        (frame segmentEscape.terminated head last) i [] segments
      rw [frame_cons, hj, ih (by omega), List.nil_append, List.append_assoc, List.singleton_append]

/-- What the splitter accepts is the rest of a segment, terminated, and further segments. -/
theorem splitLoop_sound {rest : Bytes} {i : ℕ} {current : Bytes} {segments out : List Bytes}
    {last : Bytes} (hidx : segmentIdx < n)
    (h : splitLoop n rest i segmentIdx current segments = .ok (out, last)) :
    ∃ seg head, out = segments ++ (current ++ seg) :: head ∧ segmentIdx + 1 + head.length = n ∧
      rest = frame segmentEscape.terminated (seg :: head) last := by
  fun_induction splitLoop n rest i segmentIdx current segments with
  | case1 => cases h
  | case2 => contradiction
  | case3 => cases h
  | case4 i segmentIdx current segments _ rest ih =>
      obtain ⟨seg, head, hout, hn, hrest⟩ := ih hidx h
      refine ⟨nul :: seg, head, ?_, hn, ?_⟩
      · rw [hout, List.append_assoc, List.singleton_append]
      · rw [hrest, frame_cons, frame_cons]
        exact congrArg (· ++ _) (segmentEscape.terminated_cons_nul seg).symm
  | case5 i segmentIdx current segments _ rest _ ih =>
      by_cases hnext : segmentIdx + 1 < n
      · obtain ⟨seg, head, hout, hn, hrest⟩ := ih hnext h
        refine ⟨[], seg :: head, ?_, ?_, ?_⟩
        · rw [hout, List.append_nil, List.append_assoc, List.singleton_append, List.nil_append]
        · rw [List.length_cons]
          omega
        · rw [hrest, frame_cons _ []]
          rfl
      · -- The last terminator: what is left is the raw segment.
        rw [splitLoop_done hnext] at h
        obtain ⟨rfl, rfl⟩ := Prod.mk.inj (Except.ok.inj h)
        refine ⟨[], [], ?_, ?_, rfl⟩
        · rw [List.append_nil]
        · rw [List.length_nil]
          omega
  | case6 => cases h
  | case7 b rest i segmentIdx current segments _ hb ih =>
      obtain ⟨seg, head, hout, hn, hrest⟩ := ih hidx h
      refine ⟨b :: seg, head, ?_, hn, ?_⟩
      · rw [hout, List.append_assoc, List.singleton_append]
      · rw [hrest, frame_cons, frame_cons, segmentEscape.terminated_cons_of_ne hb]
        rfl
  | case8 => contradiction

end

/-- The splitter fails with errors only. -/
theorem splitLoop_error {n i segmentIdx : ℕ} {rest current : Bytes} {segments : List Bytes}
    {f : DecodeFault} (h : splitLoop n rest i segmentIdx current segments = .error f) :
    ∃ e, f = .error e := by
  fun_induction splitLoop n rest i segmentIdx current segments with
  | case1 => exact ⟨_, (Except.error.inj h).symm⟩
  | case2 => cases h
  | case3 => exact ⟨_, (Except.error.inj h).symm⟩
  | case4 _ _ _ _ _ _ ih => exact ih h
  | case5 _ _ _ _ _ _ _ ih => exact ih h
  | case6 => exact ⟨_, (Except.error.inj h).symm⟩
  | case7 _ _ _ _ _ _ _ _ ih => exact ih h
  | case8 => cases h

/-- The splitter inverts the framing, and accepts nothing else. -/
theorem splitSegments_eq_ok_iff {body : Bytes} {n : ℕ} {segs : List Bytes} {last : Bytes} :
    splitSegments body n = .ok (segs, last) ↔
      segs.length = n ∧ body = frame segmentEscape.terminated segs last := by
  unfold splitSegments
  constructor
  · intro h
    cases n with
    | zero =>
        rw [splitLoop_done (Nat.lt_irrefl 0)] at h
        obtain ⟨rfl, rfl⟩ := Prod.mk.inj (Except.ok.inj h)
        exact ⟨rfl, rfl⟩
    | succ n =>
        obtain ⟨seg, head, rfl, hn, hbody⟩ := splitLoop_sound (Nat.succ_pos n) h
        refine ⟨?_, hbody⟩
        rw [List.nil_append, List.length_cons]
        omega
  · rintro ⟨hn, rfl⟩
    exact splitLoop_frame (by omega) last 0 []

/-! ### The codec is canonical -/

/-- The key of a kind with the given segments; too few of them are a failed `expect`. -/
def Kind.assemble : Kind → List Bytes → Bytes → Except DecodeFault Key
  | .metadata, _, last => .ok (.metadata last)
  | .node, _, last => .ok (.node last)
  | .nodeIndex, _, last => .ok (.nodeIndex last)
  | .edge, _, last => .ok (.edge last)
  | .edgeFrom, from_ :: _, last => .ok (.edgeFrom from_ last)
  | .edgeTo, to_ :: _, last => .ok (.edgeTo to_ last)
  | .propertyIndex, type_ :: field :: value :: _, last =>
    .ok (.propertyIndex type_ field value last)
  | .fulltextIndex, type_ :: field :: token :: _, last =>
    .ok (.fulltextIndex type_ field token last)
  | .vectorIndex, type_ :: field :: _, last => .ok (.vectorIndex type_ field last)
  | .schema, _, last => .ok (.schema last)
  | .transaction, _, last => .ok (.transaction last)
  | _, _, _ => .error .panic

theorem Key.assemble_eq (k : Key) : k.kind.assemble k.head k.last = .ok k := by
  cases k <;> rfl

/-- As many segments as a kind has are the components of a key. -/
theorem Kind.exists_key {v : Kind} {segs : List Bytes} (hlen : segs.length = v.escaped)
    (last : Bytes) : ∃ k : Key, k.kind = v ∧ k.head = segs ∧ k.last = last := by
  cases v with
  | metadata => exact ⟨.metadata last, rfl, (List.eq_nil_of_length_eq_zero hlen).symm, rfl⟩
  | node => exact ⟨.node last, rfl, (List.eq_nil_of_length_eq_zero hlen).symm, rfl⟩
  | nodeIndex => exact ⟨.nodeIndex last, rfl, (List.eq_nil_of_length_eq_zero hlen).symm, rfl⟩
  | edge => exact ⟨.edge last, rfl, (List.eq_nil_of_length_eq_zero hlen).symm, rfl⟩
  | edgeFrom =>
      obtain ⟨from_, rfl⟩ := List.length_eq_one_iff.mp hlen
      exact ⟨.edgeFrom from_ last, rfl, rfl, rfl⟩
  | edgeTo =>
      obtain ⟨to_, rfl⟩ := List.length_eq_one_iff.mp hlen
      exact ⟨.edgeTo to_ last, rfl, rfl, rfl⟩
  | propertyIndex =>
      obtain ⟨type_, field, value, rfl⟩ := List.length_eq_three.mp hlen
      exact ⟨.propertyIndex type_ field value last, rfl, rfl, rfl⟩
  | fulltextIndex =>
      obtain ⟨type_, field, token, rfl⟩ := List.length_eq_three.mp hlen
      exact ⟨.fulltextIndex type_ field token last, rfl, rfl, rfl⟩
  | vectorIndex =>
      obtain ⟨type_, field, rfl⟩ := List.length_eq_two.mp hlen
      exact ⟨.vectorIndex type_ field last, rfl, rfl, rfl⟩
  | schema => exact ⟨.schema last, rfl, (List.eq_nil_of_length_eq_zero hlen).symm, rfl⟩
  | transaction => exact ⟨.transaction last, rfl, (List.eq_nil_of_length_eq_zero hlen).symm, rfl⟩

/-- Decoding behind a tag. -/
theorem Key.decode_tag (v : Kind) (body : Bytes) :
    Key.decode (v.tag ++ body) =
      match splitSegments body v.escaped with
      | .ok (segs, last) => v.assemble segs last
      | .error f => .error f := by
  have hzero : splitSegments body 0 = .ok ([], body) :=
    splitLoop_done (Nat.lt_irrefl 0) body 0 [] []
  cases v with
  | edgeFrom =>
      rcases hs : splitSegments body 1 with f | ⟨_ | ⟨from_, segs⟩, last⟩
      all_goals simp [Key.decode, Kind.tag, Prefix.edgeFrom, Kind.escaped, Kind.assemble, hs]
  | edgeTo =>
      rcases hs : splitSegments body 1 with f | ⟨_ | ⟨to_, segs⟩, last⟩
      all_goals simp [Key.decode, Kind.tag, Prefix.edgeTo, Kind.escaped, Kind.assemble, hs]
  | propertyIndex =>
      rcases hs : splitSegments body 3 with f | ⟨_ | ⟨type_, _ | ⟨field, _ | ⟨value, segs⟩⟩⟩, last⟩
      all_goals simp [Key.decode, Kind.tag, Prefix.property, Kind.escaped, Kind.assemble, hs]
  | fulltextIndex =>
      rcases hs : splitSegments body 3 with f | ⟨_ | ⟨type_, _ | ⟨field, _ | ⟨token, segs⟩⟩⟩, last⟩
      all_goals simp [Key.decode, Kind.tag, Prefix.fulltext, Kind.escaped, Kind.assemble, hs]
  | vectorIndex =>
      rcases hs : splitSegments body 2 with f | ⟨_ | ⟨type_, _ | ⟨field, segs⟩⟩, last⟩
      all_goals simp [Key.decode, Kind.tag, Prefix.vector, Kind.escaped, Kind.assemble, hs]
  | _ =>
      simp only [Kind.escaped, hzero]
      rfl

/-- Nothing is decoded without a tag. -/
theorem Key.decode_untagged {bytes : Bytes} (h : ∀ (v : Kind) body, bytes ≠ v.tag ++ body) :
    ∃ e, Key.decode bytes = .error (.error e) := by
  match bytes, h with
  | [], _ => exact ⟨_, rfl⟩
  | [_], _ => exact ⟨_, rfl⟩
  | [_, _], _ => exact ⟨_, rfl⟩
  | b₀ :: b₁ :: b₂ :: rest, h =>
      unfold Key.decode
      by_cases hslash : b₀ ≠ 0x2f
      · exact ⟨_, if_pos hslash⟩
      obtain rfl := not_not.mp hslash
      have hm : ¬ (b₁ = 0x6d ∧ b₂ = 0x2f) := by
        rintro ⟨rfl, rfl⟩
        exact h .metadata rest rfl
      have hn : ¬ (b₁ = 0x6e ∧ b₂ = 0x2f) := by
        rintro ⟨rfl, rfl⟩
        exact h .node rest rfl
      have hi : ¬ (b₁ = 0x69 ∧ b₂ = 0x2f) := by
        rintro ⟨rfl, rfl⟩
        exact h .nodeIndex rest rfl
      have he : ¬ (b₁ = 0x65 ∧ b₂ = 0x2f) := by
        rintro ⟨rfl, rfl⟩
        exact h .edge rest rfl
      have hef : ¬ (b₁ = 0x65 ∧ b₂ = 0x66 ∧ rest.head? = some 0x2f) := by
        rintro ⟨rfl, rfl, hslash⟩
        obtain ⟨body, rfl⟩ := List.head?_eq_some_iff.mp hslash
        exact h .edgeFrom body rfl
      have het : ¬ (b₁ = 0x65 ∧ b₂ = 0x74 ∧ rest.head? = some 0x2f) := by
        rintro ⟨rfl, rfl, hslash⟩
        obtain ⟨body, rfl⟩ := List.head?_eq_some_iff.mp hslash
        exact h .edgeTo body rfl
      have hp : ¬ (b₁ = 0x70 ∧ b₂ = 0x2f) := by
        rintro ⟨rfl, rfl⟩
        exact h .propertyIndex rest rfl
      have hft : ¬ (b₁ = 0x66 ∧ b₂ = 0x74 ∧ rest.head? = some 0x2f) := by
        rintro ⟨rfl, rfl, hslash⟩
        obtain ⟨body, rfl⟩ := List.head?_eq_some_iff.mp hslash
        exact h .fulltextIndex body rfl
      have hv : ¬ (b₁ = 0x76 ∧ b₂ = 0x2f) := by
        rintro ⟨rfl, rfl⟩
        exact h .vectorIndex rest rfl
      have hs : ¬ (b₁ = 0x73 ∧ b₂ = 0x2f) := by
        rintro ⟨rfl, rfl⟩
        exact h .schema rest rfl
      have hx : ¬ (b₁ = 0x78 ∧ b₂ = 0x2f) := by
        rintro ⟨rfl, rfl⟩
        exact h .transaction rest rfl
      refine ⟨.unknownPrefix ((0x2f :: b₁ :: b₂ :: rest).take 4), ?_⟩
      simp only [if_neg hslash, if_neg hm, if_neg hn, if_neg hi, if_neg he, if_neg hef, if_neg het,
        if_neg hp, if_neg hft, if_neg hv, if_neg hs, if_neg hx]

theorem Key.decode_encode (k : Key) : Key.decode k.encode = .ok k := by
  have hsplit : splitSegments (frame segmentEscape.terminated k.head k.last) k.kind.escaped =
      .ok (k.head, k.last) := splitSegments_eq_ok_iff.mpr ⟨k.length_head, rfl⟩
  rw [encode_eq, decode_tag, hsplit]
  exact k.assemble_eq

/-- A byte string is the encoding of a key or rejected with an error. -/
theorem Key.encode_or_error (b : Bytes) :
    (∃ k : Key, b = k.encode) ∨ ∃ e, Key.decode b = .error (.error e) := by
  by_cases htag : ∀ (v : Kind) body, b ≠ v.tag ++ body
  · exact .inr (decode_untagged htag)
  push Not at htag
  obtain ⟨v, body, rfl⟩ := htag
  cases hsplit : splitSegments body v.escaped with
  | error f =>
      obtain ⟨e, rfl⟩ := splitLoop_error hsplit
      exact .inr ⟨e, by rw [decode_tag, hsplit]⟩
  | ok out =>
      obtain ⟨segs, last⟩ := out
      obtain ⟨hlen, rfl⟩ := splitSegments_eq_ok_iff.mp hsplit
      obtain ⟨k, rfl, rfl, rfl⟩ := Kind.exists_key hlen last
      exact .inl ⟨k, k.encode_eq.symm⟩

/-- **The codec is canonical**: a byte string decodes to a key exactly when it is the encoding of
that key.  So decoding inverts encoding, no two keys share an encoding, and every other byte string
is rejected with an error. -/
theorem Key.decode_eq_ok_iff (b : Bytes) (k : Key) :
    (Key.decode b = .ok k ↔ b = k.encode) ∧ Key.decode k.encode = .ok k ∧
      Function.Injective Key.encode ∧
      ((∀ k : Key, b ≠ k.encode) → ∃ e, Key.decode b = .error (.error e)) := by
  refine ⟨⟨?_, ?_⟩, decode_encode k, ?_, ?_⟩
  · intro h
    rcases encode_or_error b with ⟨k', rfl⟩ | ⟨e, he⟩
    · rw [decode_encode] at h
      rw [Except.ok.inj h]
    · rw [h] at he
      cases he
  · rintro rfl
    exact decode_encode k
  · intro k₁ k₂ h
    have h₁ := decode_encode k₁
    rw [h, decode_encode] at h₁
    exact (Except.ok.inj h₁).symm
  · intro h
    rcases encode_or_error b with ⟨k', hk'⟩ | he
    · exact absurd hk' (h k')
    · exact he

end AresaDb.Core
