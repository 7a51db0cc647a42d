import AresaDb.Server.Protocol

/-! # Frames

A message is serialised, compressed if the server is set up so (`distributed/compression.rs`), and
sent behind the length of the result (`server/mod.rs`), which is cut to 32 bits.

A frame is read back as the message, and to its end, exactly when the message carries no property
value and the length fits (`wire_exact_iff`). -/

namespace AresaDb.Server

open ByteOrder AresaDb.Store

/-! ### Compression -/

/-- Smaller data is not compressed. -/
def minCompressSize : ℕ := 64

/-- A marker byte, and the data as it is or compressed. -/
def compress (lz4 : Lz4) (data : Bytes) : Bytes :=
  if data.length < minCompressSize then 0x00 :: data
  else 0x01 :: lz4.compressPrependSize data

def decompress (lz4 : Lz4) : Bytes → Option Bytes
  | [] => some []
  | marker :: data =>
      if marker = 0x00 then some data
      else if marker = 0x01 then lz4.decompressSizePrepended data
      else none

theorem decompress_compress (lz4 : Lz4) (data : Bytes) :
    decompress lz4 (compress lz4 data) = some data := by
  unfold compress
  split_ifs
  · rfl
  · exact lz4.decompress_compress data

/-! ### Framing -/

section

variable {α : Type} (X : Libraries) (compression : Bool) (f : Format α)

/-- The body of the frame of a message. -/
def frameBody (message : α) : Bytes :=
  if compression then compress X.lz4 (f.put message) else f.put message

/-- The serialised message of a body. -/
def readBody (body : Bytes) : Option Bytes :=
  if compression then decompress X.lz4 body else some body

/-- `send_response`: the length as a `u32`, and the body. -/
def send (message : α) : Bytes :=
  Codec.dword.put (.ofNat (frameBody X compression f message).length) ++
    frameBody X compression f message

/-- Take a number of bytes off the stream. -/
def readExact (n : ℕ) (stream : Bytes) : Option (Bytes × Bytes) :=
  if stream.length < n then none else some (stream.take n, stream.drop n)

/-- `handle_connection` up to the parsed message; the rest of the stream comes with it.  Bytes of
the body behind the message are ignored. -/
def receive (stream : Bytes) : Option (α × Bytes) := do
  let (len, stream) ← Codec.dword.get stream
  let (body, stream) ← readExact len.toNat stream
  let body ← readBody X compression body
  let (message, _) ← f.get body
  return (message, stream)

/-- The frame of a message is read back as the message, whatever follows it in the stream. -/
def RoundTrips (message : α) : Prop :=
  ∀ rest, receive X compression f (send X compression f message ++ rest) = some (message, rest)

variable {X compression f} {message : α}

/-- A frame whose length fits brings its body. -/
theorem receive_send (hlen : (frameBody X compression f message).length < 2 ^ 32) (rest : Bytes) :
    receive X compression f (send X compression f message ++ rest) =
      (f.get (f.put message)).map fun p => (p.1, rest) := by
  have hword : (UInt32.ofNat (frameBody X compression f message).length).toNat =
      (frameBody X compression f message).length := UInt32.toNat_ofNat_of_lt' hlen
  have hread : readExact (frameBody X compression f message).length
      (frameBody X compression f message ++ rest) =
        some (frameBody X compression f message, rest) := by
    rw [readExact, if_neg (by simp), List.take_left, List.drop_left]
  have hbody : readBody X compression (frameBody X compression f message) =
      some (f.put message) := by
    cases compression with
    | false => rfl
    | true => exact decompress_compress X.lz4 (f.put message)
  unfold receive send
  rw [List.append_assoc, Codec.get_put]
  simp only [Option.bind_eq_bind, Option.bind_some, hword, hread, hbody]
  cases f.get (f.put message) <;> rfl

/-- A length that does not fit leaves some of the body in the stream. -/
theorem not_roundTrips_of_long (hlen : 2 ^ 32 ≤ (frameBody X compression f message).length) :
    ¬ RoundTrips X compression f message := by
  intro h
  have hword : (UInt32.ofNat (frameBody X compression f message).length).toNat <
      (frameBody X compression f message).length :=
    lt_of_lt_of_le (UInt32.toNat_lt _) hlen
  have hread := h []
  unfold receive send at hread
  rw [List.append_assoc, Codec.get_put] at hread
  simp only [Option.bind_eq_bind, Option.bind_some, List.append_nil, readExact,
    if_neg (not_lt.mpr hword.le)] at hread
  -- What is left behind the cut body is the rest of the stream.
  obtain ⟨body, -, hread⟩ := Option.bind_eq_some_iff.mp hread
  obtain ⟨p, -, hread⟩ := Option.bind_eq_some_iff.mp hread
  have hrest := congrArg List.length (Prod.mk.inj (Option.some.inj hread)).2
  rw [List.length_drop, List.length_nil] at hrest
  omega

/-- What a format cannot read, a frame does not bring. -/
theorem receive_unreadable (hlen : (frameBody X compression f message).length < 2 ^ 32)
    (hread : ¬ f.readable message) (rest : Bytes) :
    receive X compression f (send X compression f message ++ rest) = none := by
  have hnone := f.get_unreadable message [] hread
  rw [List.append_nil] at hnone
  rw [receive_send hlen, hnone]
  rfl

theorem frame_readable_iff :
    RoundTrips X compression f message ↔
      f.readable message ∧ (frameBody X compression f message).length < 2 ^ 32 := by
  by_cases hlen : (frameBody X compression f message).length < 2 ^ 32
  · rw [and_iff_left hlen]
    constructor
    · intro h
      by_contra hread
      have hrest := h []
      rw [receive_unreadable hlen hread] at hrest
      cases hrest
    · intro hread rest
      have hget := f.get_put message [] hread
      rw [List.append_nil] at hget
      rw [receive_send hlen, hget]
      rfl
  · exact iff_of_false (not_roundTrips_of_long (not_lt.mp hlen)) fun h => hlen h.2

end

/-! ### The result -/

/-- A message is read back from its frame, with or without compression, exactly when it carries no
property value and the length of the body fits into 32 bits. -/
theorem wire_exact_iff (X : Libraries) (compression : Bool) :
    (∀ r : Request, RoundTrips X compression (Request.format X) r ↔
      r.Valueless ∧ (frameBody X compression (Request.format X) r).length < 2 ^ 32) ∧
    ∀ r : Response, RoundTrips X compression (Response.format X) r ↔
      r.Valueless ∧ (frameBody X compression (Response.format X) r).length < 2 ^ 32 := by
  constructor
  · intro r
    rw [frame_readable_iff, Request.readable_iff]
  · intro r
    rw [frame_readable_iff, Response.readable_iff]

/-- Blocks that are stored as they are. -/
def storedBlocks : Lz4 := ⟨id, some, fun _ => rfl⟩

def sampleLibraries : Libraries := ⟨hexText, storedBlocks, fun _ => 0⟩

/-- A request to insert a node with a number is not read back. -/
theorem value_not_read :
    ¬ RoundTrips sampleLibraries false (Request.format sampleLibraries)
      (.insertNode "user" (.int 30)) := by
  intro h
  have hlen : (frameBody sampleLibraries false (Request.format sampleLibraries)
      (.insertNode "user" (.int 30))).length < 2 ^ 32 := by decide +kernel
  have hrest := h []
  rw [receive_unreadable hlen And.right] at hrest
  cases hrest

end AresaDb.Server
