import DBMesh.Lib.Chunk
import DBMesh.Protocol.PacketFramer

/-!
# The wire format, and what is written in it

`encodeFrames` says what a payload looks like on the wire: cut into chunks, the last of them below
`MAX_PACKET_SIZE`, each in a frame with the next sequence number. `read_packet` inverts it for every
payload. `write_packet` produces it whenever its loop ends, which is on every payload except those
whose length is a positive multiple of `MAX_PACKET_SIZE`: there the condition that should send one
more, empty frame stays true after that frame.

## Main definitions

* `DBMesh.Protocol.frames`, `encodeFrames` — the frames of a payload and their bytes
* `DBMesh.Protocol.WellChunked` — the chunking rule, frame by frame

## Main results

* `DBMesh.Protocol.readPacket_encodeFrames` — reading inverts the wire format
* `DBMesh.Protocol.writePacket_eq_encodeFrames` — if the loop ends without an error, the wire format
  of the payload is on the wire
* `DBMesh.Protocol.writePacket_of_reliable` — on a reliable socket it ends so, or it never ends
* `DBMesh.Protocol.writePacket_cases` — how it can end on any socket
* `DBMesh.Protocol.writePacket_wellChunked_iff` — exactly which payloads are written
* `DBMesh.Protocol.framing_round_trip` — what was written is read back, and no part of it is
* `DBMesh.Protocol.encode_agrees_iff` — for which payloads `encode` gives what `write_packet` sends
-/

namespace DBMesh.Protocol

/-! ### Frames -/

structure Frame where
  sequence : UInt8
  payload : Bytes
  deriving DecidableEq, Repr

def Frame.bytes (f : Frame) : Bytes := header f.payload.length f.sequence ++ f.payload

/-- Chunks in frames, with consecutive sequence numbers. -/
def number : UInt8 → List Bytes → List Frame
  | _, [] => []
  | seq, c :: cs => ⟨seq, c⟩ :: number (seq + 1) cs

def frames (payload : Bytes) (seq : UInt8) : List Frame :=
  number seq (Chunk.chunks maxPacketSize payload)

/-- The bytes of a packet on the wire. -/
def encodeFrames (payload : Bytes) (seq : UInt8) : Bytes := (frames payload seq).flatMap Frame.bytes

theorem maxPacketSize_pos : 0 < maxPacketSize := by rw [maxPacketSize_eq]; decide

theorem frames_of_lt {payload : Bytes} (h : payload.length < maxPacketSize) (seq : UInt8) :
    frames payload seq = [⟨seq, payload⟩] := by
  rw [frames, Chunk.chunks_of_lt h]
  rfl

theorem frames_of_le {payload : Bytes} (h : maxPacketSize ≤ payload.length) (seq : UInt8) :
    frames payload seq =
      ⟨seq, payload.take maxPacketSize⟩ :: frames (payload.drop maxPacketSize) (seq + 1) := by
  rw [frames, Chunk.chunks_of_le maxPacketSize_pos h]
  rfl

theorem encodeFrames_of_lt {payload : Bytes} (h : payload.length < maxPacketSize) (seq : UInt8) :
    encodeFrames payload seq = Frame.bytes ⟨seq, payload⟩ := by
  rw [encodeFrames, frames_of_lt h, List.flatMap_singleton]

theorem encodeFrames_of_le {payload : Bytes} (h : maxPacketSize ≤ payload.length) (seq : UInt8) :
    encodeFrames payload seq = Frame.bytes ⟨seq, payload.take maxPacketSize⟩ ++
      encodeFrames (payload.drop maxPacketSize) (seq + 1) := by
  rw [encodeFrames, frames_of_le h, List.flatMap_cons]
  rfl

theorem map_payload_number (seq : UInt8) (cs : List Bytes) :
    (number seq cs).map Frame.payload = cs := by
  induction cs generalizing seq with
  | nil => rfl
  | cons c cs ih => rw [number, List.map_cons, ih]

/-- Sequence numbers wrap around at a byte. -/
theorem add_one_add_ofNat (seq : UInt8) (n : ℕ) :
    seq + 1 + UInt8.ofNat n = seq + UInt8.ofNat (n + 1) := by
  rw [UInt8.ofNat_add, UInt8.add_assoc, UInt8.add_comm 1]
  rfl

theorem sequence_of_getElem?_number {seq : UInt8} {cs : List Bytes} {i : ℕ} {f : Frame}
    (h : (number seq cs)[i]? = some f) : f.sequence = seq + UInt8.ofNat i := by
  induction cs generalizing seq i with
  | nil => exact absurd h (by simp [number])
  | cons c cs ih =>
    cases i with
    | zero =>
      obtain rfl : (⟨seq, c⟩ : Frame) = f := by simpa [number] using h
      exact (UInt8.add_zero seq).symm
    | succ i =>
      rw [ih (show (number (seq + 1) cs)[i]? = some f by simpa [number] using h), add_one_add_ofNat]

/-! ### Chunking -/

/-- The chunking rule for a payload of length `n`: `n / MAX_PACKET_SIZE` full frames and one of the
remaining length, with consecutive sequence numbers, that make up the payload. -/
structure WellChunked (payload : Bytes) (seq : UInt8) (fs : List Frame) : Prop where
  count : fs.length = payload.length / maxPacketSize + 1
  lengths : ∀ i f, fs[i]? = some f → f.payload.length =
    if i < payload.length / maxPacketSize then maxPacketSize else payload.length % maxPacketSize
  content : (fs.map Frame.payload).flatten = payload
  sequences : ∀ i f, fs[i]? = some f → f.sequence = seq + UInt8.ofNat i

theorem wellChunked_frames (payload : Bytes) (seq : UInt8) :
    WellChunked payload seq (frames payload seq) where
  count := by
    rw [← List.length_map Frame.payload, frames, map_payload_number,
      Chunk.length_chunks maxPacketSize_pos]
  lengths i f h := by
    refine Chunk.length_of_getElem?_chunks maxPacketSize_pos (c := f.payload) ?_
    rw [← map_payload_number seq (Chunk.chunks maxPacketSize payload), List.getElem?_map]
    exact congrArg (Option.map Frame.payload) h
  content := by rw [frames, map_payload_number, Chunk.flatten_chunks maxPacketSize_pos]
  sequences _ _ h := sequence_of_getElem?_number h

/-- Full frames, and a last frame that is not full. -/
theorem exists_last_frame (payload : Bytes) (seq : UInt8) :
    ∃ fs last, frames payload seq = fs ++ [last] ∧
      (∀ f ∈ fs, f.payload.length = maxPacketSize) ∧ last.payload.length < maxPacketSize ∧
      last.sequence = seq + UInt8.ofNat (payload.length / maxPacketSize) := by
  induction payload using Chunk.chunks_induction maxPacketSize_pos generalizing seq with
  | short payload h =>
    refine ⟨[], ⟨seq, payload⟩, frames_of_lt h seq, by simp, h, ?_⟩
    rw [Nat.div_eq_of_lt h]
    exact (UInt8.add_zero seq).symm
  | long payload h ih =>
    obtain ⟨fs, last, hfs, hfull, hlast, hseq⟩ := ih (seq + 1)
    refine ⟨⟨seq, payload.take maxPacketSize⟩ :: fs, last, ?_, ?_, hlast, ?_⟩
    · rw [frames_of_le h, hfs, List.cons_append]
    · rw [List.forall_mem_cons]
      refine ⟨?_, hfull⟩
      rw [List.length_take, Nat.min_eq_left h]
    · rw [hseq, add_one_add_ofNat, List.length_drop, ← Nat.div_eq_sub_div maxPacketSize_pos h]

/-! ### Reading the wire format -/

theorem header_append (chunk : ℕ) (seq : UInt8) (rest : Bytes) : header chunk seq ++ rest =
    byteAt chunk 0 :: byteAt chunk 1 :: byteAt chunk 2 :: seq :: rest := rfl

theorem readHeader_header {chunk : ℕ} (h : chunk ≤ maxPacketSize) (seq : UInt8) (rest : Bytes) :
    readHeader (header chunk seq ++ rest) = .ok ((chunk, seq), rest) := by
  have hlt : chunk < 2 ^ 24 := by
    rw [maxPacketSize_eq] at h
    omega
  rw [header_append, readHeader_cons, readU24Le_writeU24Le, Nat.mod_eq_of_lt hlt]

theorem readChain_frame {f : Frame} (h : f.payload.length ≤ maxPacketSize) (sequence : UInt8)
    (payload rest : Bytes) :
    readChain maxPacketSize sequence payload (f.bytes ++ rest) =
      readChain f.payload.length f.sequence (payload ++ f.payload) rest := by
  rw [readChain_max, Frame.bytes, List.append_assoc, readHeader_header h]
  simp only [readBody_length]

theorem readChain_encodeFrames (payload : Bytes) (seq sequence : UInt8) (acc rest : Bytes) :
    readChain maxPacketSize sequence acc (encodeFrames payload seq ++ rest) =
      .ok (⟨(acc ++ payload).length % 2 ^ 32,
        seq + UInt8.ofNat (payload.length / maxPacketSize), acc ++ payload⟩, rest) := by
  induction payload using Chunk.chunks_induction maxPacketSize_pos
    generalizing seq sequence acc with
  | short payload h =>
    rw [encodeFrames_of_lt h, readChain_frame (Nat.le_of_lt h), readChain_of_ne (Nat.ne_of_lt h),
      Nat.div_eq_of_lt h]
    rw [show seq + UInt8.ofNat 0 = seq from UInt8.add_zero seq]
  | long payload h ih =>
    have hlen : (payload.take maxPacketSize).length = maxPacketSize := by
      rw [List.length_take, Nat.min_eq_left h]
    rw [encodeFrames_of_le h, List.append_assoc, readChain_frame (Nat.le_of_eq hlen)]
    simp only [hlen]
    rw [ih, List.append_assoc, List.take_append_drop, List.length_drop,
      Nat.div_eq_sub_div maxPacketSize_pos h, add_one_add_ofNat]

/-- **Reading inverts the wire format**, for a payload of any length and whatever follows. -/
theorem readPacket_encodeFrames (payload : Bytes) (seq : UInt8) (rest : Bytes) :
    readPacket (encodeFrames payload seq ++ rest) =
      .ok (⟨payload.length % 2 ^ 32, seq + UInt8.ofNat (payload.length / maxPacketSize), payload⟩,
        rest) := by
  rw [readPacket_eq_readChain, readChain_encodeFrames, List.nil_append]

/-! ### Writing the wire format -/

/-- A write that went through. -/
def OutSocket.push (sock : OutSocket) (data : Bytes) : OutSocket :=
  { sock with wire := sock.wire ++ data, writes := sock.writes + 1 }

/-- The frames of a packet, each with one write. -/
def OutSocket.pushFrames (sock : OutSocket) (fs : List Frame) : OutSocket :=
  { sock with wire := sock.wire ++ fs.flatMap Frame.bytes, writes := sock.writes + fs.length }

theorem OutSocket.wire_pushFrames (sock : OutSocket) (payload : Bytes) (seq : UInt8) :
    (sock.pushFrames (frames payload seq)).wire = sock.wire ++ encodeFrames payload seq := rfl

theorem OutSocket.pushFrames_cons (sock : OutSocket) (f : Frame) (fs : List Frame) :
    sock.pushFrames (f :: fs) = (sock.push f.bytes).pushFrames fs := by
  simp only [OutSocket.pushFrames, OutSocket.push, List.flatMap_cons, List.append_assoc,
    List.length_cons, OutSocket.mk.injEq, true_and, and_true]
  omega

/-- The loop goes on after a payload that has not been sent in full, and after every payload whose
length is a positive multiple of `MAX_PACKET_SIZE`. -/
def Endless (payload : Bytes) : Prop := 0 < payload.length ∧ payload.length % maxPacketSize = 0

instance (payload : Bytes) : Decidable (Endless payload) :=
  inferInstanceAs (Decidable (_ ∧ _))

/-- The frame an iteration sends. -/
def nextFrame (payload : Bytes) (st : WriteState) : Frame :=
  ⟨st.seq, (payload.drop st.offset).take maxPacketSize⟩

theorem nextFrame_bytes (payload : Bytes) (st : WriteState) :
    (nextFrame payload st).bytes =
      header (min (payload.length - st.offset) maxPacketSize) st.seq ++
        (payload.drop st.offset).take (min (payload.length - st.offset) maxPacketSize) := by
  have hmin : min (payload.length - st.offset) maxPacketSize =
      ((payload.drop st.offset).take maxPacketSize).length := by
    rw [List.length_take, List.length_drop, Nat.min_comm]
  rw [hmin, ← List.prefix_iff_eq_take.mp (List.take_prefix _ _)]
  rfl

/-- An iteration whose write fails ends the loop. -/
theorem writePacketBody_of_fault (payload : Bytes) {st : WriteState}
    (h : st.sock.fault st.sock.writes ≠ none) :
    ∃ sock, writePacketBody payload st = .inr (.error .writeFailed, st.seq + 1, sock) := by
  obtain ⟨m, hm⟩ := Option.ne_none_iff_exists'.mp h
  simp only [writePacketBody, asyncWrite, hm]
  exact ⟨_, rfl⟩

/-- An iteration whose write goes through goes on or ends as on a socket that never fails. -/
theorem writePacketBody_of_none (payload : Bytes) {st : WriteState}
    (h : st.sock.fault st.sock.writes = none) :
    (writePacketBody payload st = .inl ⟨st.offset + (nextFrame payload st).payload.length,
        st.seq + 1, st.sock.push (nextFrame payload st).bytes⟩ ∧
      (st.offset + (nextFrame payload st).payload.length < payload.length ∨ Endless payload)) ∨
    (writePacketBody payload st = .inr (.ok (), st.seq + 1,
        st.sock.push (nextFrame payload st).bytes) ∧
      payload.length ≤ st.offset + (nextFrame payload st).payload.length ∧ ¬ Endless payload) := by
  have hmin : min (payload.length - st.offset) maxPacketSize =
      (nextFrame payload st).payload.length := by
    rw [nextFrame, List.length_take, List.length_drop, Nat.min_comm]
  simp only [writePacketBody, asyncWrite, ← nextFrame_bytes]
  simp only [h, Bool.not_true, Bool.false_eq_true, if_false, hmin]
  by_cases hc : st.offset + (nextFrame payload st).payload.length < payload.length ∨ Endless payload
  · exact .inl ⟨if_pos hc, hc⟩
  · exact .inr ⟨if_neg hc, Nat.le_of_not_lt fun h => hc (.inl h), fun h => hc (.inr h)⟩

/-- What one iteration of the loop can do. -/
theorem writePacketBody_cases (payload : Bytes) (st : WriteState) :
    (∃ sock, writePacketBody payload st = .inr (.error .writeFailed, st.seq + 1, sock) ∧
      ¬ st.sock.Reliable) ∨
    (writePacketBody payload st = .inl ⟨st.offset + (nextFrame payload st).payload.length,
        st.seq + 1, st.sock.push (nextFrame payload st).bytes⟩ ∧
      (st.offset + (nextFrame payload st).payload.length < payload.length ∨ Endless payload)) ∨
    (writePacketBody payload st = .inr (.ok (), st.seq + 1,
        st.sock.push (nextFrame payload st).bytes) ∧
      payload.length ≤ st.offset + (nextFrame payload st).payload.length ∧ ¬ Endless payload) := by
  by_cases hnone : st.sock.fault st.sock.writes = none
  · exact .inr (writePacketBody_of_none payload hnone)
  · obtain ⟨sock, hb⟩ := writePacketBody_of_fault payload hnone
    exact .inl ⟨sock, hb, fun h => hnone (h st.sock.writes)⟩

/-- Where the loop stands between two iterations: at a chunk boundary, with something left to send
(or an empty payload). -/
def AtChunk (payload : Bytes) (offset : ℕ) : Prop :=
  offset % maxPacketSize = 0 ∧ offset ≤ payload.length ∧ (offset = payload.length → offset = 0)

theorem AtChunk.zero (payload : Bytes) : AtChunk payload 0 :=
  ⟨Nat.zero_mod _, Nat.zero_le _, fun _ => rfl⟩

/-- An iteration that is not the last sends a full frame and moves to the next chunk. -/
theorem AtChunk.step {payload : Bytes} {st : WriteState}
    (h : AtChunk payload st.offset)
    (hlt : st.offset + (nextFrame payload st).payload.length < payload.length) :
    maxPacketSize ≤ (payload.drop st.offset).length ∧
    (nextFrame payload st).payload.length = maxPacketSize ∧
    AtChunk payload (st.offset + maxPacketSize) := by
  rw [nextFrame, List.length_take, List.length_drop] at hlt ⊢
  have hle : maxPacketSize ≤ payload.length - st.offset := by omega
  rw [Nat.min_eq_left hle] at hlt ⊢
  refine ⟨hle, rfl, ?_, Nat.le_of_lt hlt, fun h => absurd h (Nat.ne_of_lt hlt)⟩
  rw [Nat.add_mod_right, h.1]

/-- The last iteration, if the loop ends, sends a frame that is not full. -/
theorem AtChunk.last {payload : Bytes} {st : WriteState}
    (h : AtChunk payload st.offset) (hend : ¬ Endless payload)
    (hle : payload.length ≤ st.offset + (nextFrame payload st).payload.length) :
    (payload.drop st.offset).length < maxPacketSize := by
  obtain ⟨hmod, hoff, hzero⟩ := h
  rw [nextFrame, List.length_take, List.length_drop] at hle
  rw [List.length_drop]
  -- a full last frame would make the length a positive multiple
  by_contra hge
  have hlen : payload.length = st.offset + maxPacketSize := by omega
  refine hend ⟨?_, ?_⟩
  · have := maxPacketSize_pos
    omega
  · rw [hlen, Nat.add_mod_right, hmod]

/-- The sequence number and the socket once the rest of the payload is sent. -/
def outcome (payload : Bytes) (st : WriteState) : UInt8 × OutSocket :=
  let fs := frames (payload.drop st.offset) st.seq
  (st.seq + UInt8.ofNat fs.length, st.sock.pushFrames fs)

theorem outcome_next {payload : Bytes} {st : WriteState} (h : AtChunk payload st.offset)
    (hlt : st.offset + (nextFrame payload st).payload.length < payload.length) :
    outcome payload ⟨st.offset + (nextFrame payload st).payload.length, st.seq + 1,
      st.sock.push (nextFrame payload st).bytes⟩ = outcome payload st := by
  obtain ⟨hle, hfull, -⟩ := h.step hlt
  have hf : frames (payload.drop st.offset) st.seq = nextFrame payload st ::
      frames (payload.drop (st.offset + maxPacketSize)) (st.seq + 1) := by
    rw [frames_of_le hle, List.drop_drop]
    rfl
  rw [hfull, outcome, outcome, hf, OutSocket.pushFrames_cons, List.length_cons, ← add_one_add_ofNat]

theorem outcome_last {payload : Bytes} {st : WriteState} (h : AtChunk payload st.offset)
    (hend : ¬ Endless payload)
    (hle : payload.length ≤ st.offset + (nextFrame payload st).payload.length) :
    outcome payload st = (st.seq + 1, st.sock.push (nextFrame payload st).bytes) := by
  have hlast := h.last hend hle
  have hf : nextFrame payload st = ⟨st.seq, payload.drop st.offset⟩ := by
    rw [nextFrame, List.take_of_length_le (Nat.le_of_lt hlast)]
  rw [outcome, frames_of_lt hlast, hf, OutSocket.pushFrames_cons]
  simp [OutSocket.pushFrames]

/-- **The loop writes the wire format**, if it ends without an error; and then the payload was not
one it never ends on. -/
theorem writePacket_eq_encodeFrames {payload : Bytes} {fuel : ℕ} {sock sock' : OutSocket}
    {seq seq' : UInt8} (h : writePacket fuel sock payload seq = some (.ok (), seq', sock')) :
    ¬ Endless payload ∧ seq' = seq + UInt8.ofNat (frames payload seq).length ∧
      sock' = sock.pushFrames (frames payload seq) := by
  -- the outcome is the same before and after every iteration that is not endless
  have key : ¬ Endless payload ∧ (seq', sock') = outcome payload ⟨0, seq, sock⟩ := by
    refine Loop.run_post
      (I := fun st => Endless payload ∨
        AtChunk payload st.offset ∧ outcome payload st = outcome payload ⟨0, seq, sock⟩)
      (Q := fun r => r.1 = .ok () → ¬ Endless payload ∧ r.2 = outcome payload ⟨0, seq, sock⟩)
      (fun st st' hst hb => ?_) (fun st r hst hb hr => ?_) (.inr ⟨AtChunk.zero payload, rfl⟩) h rfl
    · by_cases hend : Endless payload
      · exact .inl hend
      obtain ⟨hat, hout⟩ := hst.resolve_left hend
      obtain ⟨_, hb', -⟩ | ⟨hb', hgo⟩ | ⟨hb', -⟩ := writePacketBody_cases payload st
      · exact absurd (hb.symm.trans hb') (by simp)
      · obtain rfl := Sum.inl.inj (hb.symm.trans hb')
        have hlt := hgo.resolve_right hend
        refine .inr ⟨?_, (outcome_next hat hlt).trans hout⟩
        rw [(hat.step hlt).2.1]
        exact (hat.step hlt).2.2
      · exact absurd (hb.symm.trans hb') (by simp)
    · obtain ⟨_, hb', -⟩ | ⟨hb', -⟩ | ⟨hb', hle, hend⟩ := writePacketBody_cases payload st
      · obtain rfl := Sum.inr.inj (hb.symm.trans hb')
        exact absurd hr (by simp)
      · exact absurd (hb.symm.trans hb') (by simp)
      · obtain rfl := Sum.inr.inj (hb.symm.trans hb')
        obtain ⟨hat, hout⟩ := hst.resolve_left hend
        exact ⟨hend, (outcome_last hat hend hle).symm.trans hout⟩
  exact ⟨key.1, congrArg Prod.fst key.2, congrArg Prod.snd key.2⟩

/-- On a payload that the loop never ends on, it goes on as long as the socket takes the frames. -/
theorem run_eq_none_of_hangs {payload : Bytes} (hend : Endless payload) (fuel : ℕ) {st : WriteState}
    (hsock : ∀ i, st.sock.fault (st.sock.writes + i) = none) :
    Loop.run (writePacketBody payload) fuel st = none := by
  refine Loop.run_eq_none_of_invariant
    (I := fun st => ∀ i, st.sock.fault (st.sock.writes + i) = none) (fun st hst => ?_) fuel hsock
  obtain ⟨hb, -⟩ | ⟨-, -, hnot⟩ := writePacketBody_of_none payload (hst 0)
  · refine ⟨_, hb, fun i => ?_⟩
    show st.sock.fault (st.sock.writes + 1 + i) = none
    rw [Nat.add_assoc, Nat.add_comm 1]
    exact hst (i + 1)
  · exact absurd hend hnot

/-- The number of iterations that are left, once a full frame is sent. -/
theorem div_drop_succ {payload : Bytes} {offset : ℕ}
    (h : maxPacketSize ≤ (payload.drop offset).length) :
    (payload.drop offset).length / maxPacketSize =
      (payload.drop (offset + maxPacketSize)).length / maxPacketSize + 1 := by
  rw [Nat.div_eq_sub_div maxPacketSize_pos h, ← List.length_drop, List.drop_drop]

/-- The loop from a chunk boundary ends after one iteration for each frame. -/
theorem run_eq_outcome {payload : Bytes} (hend : ¬ Endless payload) (fuel : ℕ) {st : WriteState}
    (hat : AtChunk payload st.offset) (hsock : st.sock.Reliable) :
    Loop.run (writePacketBody payload) fuel st =
      if (payload.drop st.offset).length / maxPacketSize < fuel then
        some (.ok (), outcome payload st)
      else none := by
  induction fuel generalizing st with
  | zero => exact (if_neg (Nat.not_lt_zero _)).symm
  | succ fuel ih =>
    obtain ⟨_, -, hnot⟩ | ⟨hb, hgo⟩ | ⟨hb, hle, -⟩ := writePacketBody_cases payload st
    · exact absurd hsock hnot
    · have hlt := hgo.resolve_right hend
      obtain ⟨hle, hfull, hat'⟩ := hat.step hlt
      have hnext := outcome_next hat hlt
      rw [hfull] at hb hnext
      have hrun := @ih ⟨st.offset + maxPacketSize, st.seq + 1,
        st.sock.push (nextFrame payload st).bytes⟩ hat' hsock
      rw [Loop.run_succ_of_inl hb, hrun, hnext, div_drop_succ hle]
      simp only [Nat.add_lt_add_iff_right]
    · have hzero := Nat.div_eq_of_lt (hat.last hend hle)
      rw [Loop.run_succ_of_inr hb, outcome_last hat hend hle, hzero, if_pos (Nat.succ_pos fuel)]

/-- The bound is enough to send the packet. -/
def Fits (fuel : ℕ) (payload : Bytes) : Prop :=
  ¬ Endless payload ∧ payload.length / maxPacketSize < fuel

instance (fuel : ℕ) (payload : Bytes) : Decidable (Fits fuel payload) :=
  inferInstanceAs (Decidable (_ ∧ _))

/-- **What `write_packet` does on a socket that takes every write**: the wire format of the payload,
one iteration for each frame, unless the length of the payload is a positive multiple of
`MAX_PACKET_SIZE`, when no number of iterations is enough. -/
theorem writePacket_of_reliable {sock : OutSocket} (hsock : sock.Reliable) (fuel : ℕ)
    (payload : Bytes) (seq : UInt8) :
    writePacket fuel sock payload seq =
      if Fits fuel payload then
        some (.ok (), seq + UInt8.ofNat (frames payload seq).length,
          sock.pushFrames (frames payload seq))
      else none := by
  by_cases hend : Endless payload
  · rw [if_neg fun h => h.1 hend]
    exact run_eq_none_of_hangs hend fuel fun _ => hsock _
  · simp only [Fits, hend, not_false_eq_true, true_and]
    exact run_eq_outcome hend fuel (AtChunk.zero payload) hsock

theorem writePacket_of_not_endless {sock : OutSocket} (hsock : sock.Reliable) {payload : Bytes}
    (hend : ¬ Endless payload) (seq : UInt8) :
    ∃ fuel seq', writePacket fuel sock payload seq =
      some (.ok (), seq', sock.pushFrames (frames payload seq)) := by
  have h := writePacket_of_reliable hsock (payload.length / maxPacketSize + 1) payload seq
  rw [if_pos ⟨hend, Nat.lt_succ_self _⟩] at h
  exact ⟨_, _, h⟩

/-! ### Sockets that may fail -/

/-- The writes that a payload takes all go through. -/
def Delivered (sock : OutSocket) (payload : Bytes) : Prop :=
  ¬ Endless payload ∧ ∀ i ≤ payload.length / maxPacketSize, sock.fault (sock.writes + i) = none

/-- The writes all go through, and there is no end to them. -/
def Hangs (sock : OutSocket) (payload : Bytes) : Prop :=
  Endless payload ∧ ∀ i, sock.fault (sock.writes + i) = none

theorem run_eq_ok_of_delivered {payload : Bytes} (hend : ¬ Endless payload) {n : ℕ}
    (st : WriteState) (hat : AtChunk payload st.offset)
    (hn : (payload.drop st.offset).length / maxPacketSize = n)
    (hsock : ∀ i ≤ n, st.sock.fault (st.sock.writes + i) = none) :
    ∃ r, Loop.run (writePacketBody payload) (n + 1) st = some (.ok (), r) := by
  induction n generalizing st with
  | zero =>
    obtain ⟨hb, hgo⟩ | ⟨hb, -⟩ := writePacketBody_of_none payload (hsock 0 le_rfl)
    · obtain ⟨hle, -⟩ := hat.step (hgo.resolve_right hend)
      exact absurd (hn.symm.trans (div_drop_succ hle)) (Nat.succ_ne_zero _).symm
    · exact ⟨_, Loop.run_succ_of_inr hb 0⟩
  | succ n ih =>
    obtain ⟨hb, hgo⟩ | ⟨hb, -⟩ := writePacketBody_of_none payload (hsock 0 (Nat.zero_le _))
    · obtain ⟨hle, hfull, hat'⟩ := hat.step (hgo.resolve_right hend)
      rw [hfull] at hb
      rw [Loop.run_succ_of_inl hb]
      refine ih ⟨_, _, _⟩ hat' ?_ fun i hi => ?_
      · exact Nat.succ.inj ((div_drop_succ hle).symm.trans hn)
      · show st.sock.fault (st.sock.writes + 1 + i) = none
        rw [Nat.add_assoc, Nat.add_comm 1]
        exact hsock (i + 1) (Nat.succ_le_succ hi)
    · exact ⟨_, Loop.run_succ_of_inr hb _⟩

theorem run_eq_error_of_fault {payload : Bytes} {i : ℕ} (st : WriteState)
    (hst : Endless payload ∨
      AtChunk payload st.offset ∧ i ≤ (payload.drop st.offset).length / maxPacketSize)
    (hsock : st.sock.fault (st.sock.writes + i) ≠ none) :
    ∃ n r, Loop.run (writePacketBody payload) n st = some (.error .writeFailed, r) := by
  induction i generalizing st with
  | zero =>
    obtain ⟨_, hb⟩ := writePacketBody_of_fault payload hsock
    exact ⟨1, _, Loop.run_succ_of_inr hb 0⟩
  | succ i ih =>
    by_cases hnow : st.sock.fault st.sock.writes = none
    swap
    · obtain ⟨_, hb⟩ := writePacketBody_of_fault payload hnow
      exact ⟨1, _, Loop.run_succ_of_inr hb 0⟩
    obtain ⟨hb, hgo⟩ | ⟨-, hle, hend⟩ := writePacketBody_of_none payload hnow
    · obtain ⟨n, r, hn⟩ := ih ⟨st.offset + (nextFrame payload st).payload.length, st.seq + 1,
        st.sock.push (nextFrame payload st).bytes⟩ (by
          by_cases hend : Endless payload
          · exact .inl hend
          obtain ⟨hat, hi⟩ := hst.resolve_left hend
          obtain ⟨hle, hfull, hat'⟩ := hat.step (hgo.resolve_right hend)
          rw [div_drop_succ hle] at hi
          rw [hfull]
          exact .inr ⟨hat', Nat.le_of_succ_le_succ hi⟩) (by
          show st.sock.fault (st.sock.writes + 1 + i) ≠ none
          rwa [Nat.add_assoc, Nat.add_comm 1])
      exact ⟨n + 1, r, (Loop.run_succ_of_inl hb n).trans hn⟩
    · obtain ⟨hat, hi⟩ := hst.resolve_left hend
      rw [Nat.div_eq_of_lt (hat.last hend hle)] at hi
      exact absurd hi (Nat.not_succ_le_zero i)

/-- **How a write can end on any socket.** -/
theorem writePacket_cases (sock : OutSocket) (payload : Bytes) (seq : UInt8) :
    (Hangs sock payload ∧ ∀ fuel, writePacket fuel sock payload seq = none) ∨
    (Delivered sock payload ∧ ∃ n r, ∀ fuel, n ≤ fuel →
      writePacket fuel sock payload seq = some (.ok (), r)) ∨
    (¬ Hangs sock payload ∧ ¬ Delivered sock payload ∧ ∃ n r, ∀ fuel, n ≤ fuel →
      writePacket fuel sock payload seq = some (.error .writeFailed, r)) := by
  by_cases hhangs : Hangs sock payload
  · exact .inl ⟨hhangs, fun fuel => run_eq_none_of_hangs hhangs.1 fuel hhangs.2⟩
  by_cases hdel : Delivered sock payload
  · obtain ⟨r, hr⟩ := run_eq_ok_of_delivered hdel.1 ⟨0, seq, sock⟩ (.zero payload) rfl hdel.2
    exact .inr (.inl ⟨hdel, _, r, fun fuel hle => Loop.run_mono hr hle⟩)
  · have hfault : ∃ i, (Endless payload ∨ i ≤ payload.length / maxPacketSize) ∧
        sock.fault (sock.writes + i) ≠ none := by
      by_contra hnone
      push Not at hnone
      by_cases hend : Endless payload
      · exact hhangs ⟨hend, fun i => hnone i (.inl hend)⟩
      · exact hdel ⟨hend, fun i hi => hnone i (.inr hi)⟩
    obtain ⟨i, hi, hfault⟩ := hfault
    obtain ⟨n, r, hr⟩ := run_eq_error_of_fault ⟨0, seq, sock⟩
      (hi.imp_right fun hi => ⟨.zero payload, hi⟩) hfault
    exact .inr (.inr ⟨hhangs, hdel, n, r, fun fuel hle => Loop.run_mono hr hle⟩)

/-! ### Which payloads are written, and that they are read back -/

/-- **Chunking.** On a socket that takes every write, `write_packet` ends with the frames the
chunking rule asks for, one write each, exactly when the length of the payload is not a positive
multiple of `MAX_PACKET_SIZE`. -/
theorem writePacket_wellChunked_iff (payload : Bytes) (seq : UInt8) (sock : OutSocket)
    (hsock : sock.Reliable) :
    (∃ fuel seq' sock' fs, writePacket fuel sock payload seq = some (.ok (), seq', sock') ∧
      sock'.wire = sock.wire ++ fs.flatMap Frame.bytes ∧
      sock'.writes = sock.writes + fs.length ∧ WellChunked payload seq fs) ↔
    ¬ (0 < payload.length ∧ payload.length % maxPacketSize = 0) := by
  constructor
  · rintro ⟨fuel, seq', sock', fs, h, -⟩
    exact (writePacket_eq_encodeFrames h).1
  · intro hend
    obtain ⟨fuel, seq', h⟩ := writePacket_of_not_endless hsock hend seq
    exact ⟨fuel, seq', _, frames payload seq, h, rfl, rfl, wellChunked_frames payload seq⟩

/-- An empty payload is one empty frame. -/
theorem writePacket_wellChunked_nil :
    ∃ fuel seq' sock' fs,
      writePacket fuel ⟨[], 0, fun _ => none⟩ [] 255 = some (.ok (), seq', sock') ∧
      sock'.wire = [] ++ fs.flatMap Frame.bytes ∧ sock'.writes = 0 + fs.length ∧
      WellChunked [] 255 fs :=
  (writePacket_wellChunked_iff [] 255 ⟨[], 0, fun _ => none⟩ fun _ => rfl).mpr
    fun h => Nat.lt_irrefl 0 h.1

/-- A payload of exactly `MAX_PACKET_SIZE` bytes: the socket takes every write and no number of
iterations is enough. -/
theorem writePacket_endless_maxPacketSize :
    ¬ ∃ fuel seq' sock' fs,
      writePacket fuel ⟨[], 0, fun _ => none⟩ (List.replicate maxPacketSize 0) 0 =
        some (.ok (), seq', sock') ∧
      sock'.wire = [] ++ fs.flatMap Frame.bytes ∧ sock'.writes = 0 + fs.length ∧
      WellChunked (List.replicate maxPacketSize 0) 0 fs := by
  rintro ⟨fuel, seq', sock', fs, h, -⟩
  have hend : Endless (List.replicate maxPacketSize 0) := by
    rw [Endless, List.length_replicate]
    exact ⟨maxPacketSize_pos, Nat.mod_self _⟩
  exact (writePacket_eq_encodeFrames h).1 hend

/-- **Framing round trip.** What `write_packet` put on the wire is a run of full frames and a last
frame; `read_packet` returns the payload and the sequence number of that last frame, leaves what
follows unread, and fails on every proper part of it. -/
theorem framing_round_trip (payload : Bytes) (seq seq' : UInt8) (sock sock' : OutSocket) (fuel : ℕ)
    (h : writePacket fuel sock payload seq = some (.ok (), seq', sock')) :
    ∃ B fs last, sock'.wire = sock.wire ++ B ∧ B = (fs ++ [last]).flatMap Frame.bytes ∧
      (∀ f ∈ fs, f.payload.length = maxPacketSize) ∧ last.payload.length < maxPacketSize ∧
      (∀ rest, readPacket (B ++ rest) =
        .ok (⟨payload.length % 2 ^ 32, last.sequence, payload⟩, rest)) ∧
      ∀ p, p <+: B → p ≠ B → readPacket p = .error .readFailed := by
  obtain ⟨-, -, rfl⟩ := writePacket_eq_encodeFrames h
  obtain ⟨fs, last, hfs, hfull, hlast, hseq⟩ := exists_last_frame payload seq
  have hread := readPacket_encodeFrames payload seq
  rw [← hseq] at hread
  refine ⟨encodeFrames payload seq, fs, last, rfl, by rw [encodeFrames, hfs], hfull, hlast, hread,
    ?_⟩
  rintro p ⟨more, hB⟩ hne
  have hmore : more ≠ [] := by
    intro hm
    rw [hm, List.append_nil] at hB
    exact hne hB
  have hall := hread []
  rw [List.append_nil, ← hB] at hall
  exact readPacket_of_partial hmore hall

/-- One short packet, after other bytes on the wire. -/
theorem framing_round_trip_short :
    ∃ B fs last, [9] ++ [2, 0, 0, 255, 7, 8] = [9] ++ B ∧
      B = (fs ++ [last]).flatMap Frame.bytes ∧
      (∀ f ∈ fs, f.payload.length = maxPacketSize) ∧ last.payload.length < maxPacketSize ∧
      (∀ rest, readPacket (B ++ rest) = .ok (⟨2 % 2 ^ 32, last.sequence, [7, 8]⟩, rest)) ∧
      ∀ p, p <+: B → p ≠ B → readPacket p = .error .readFailed :=
  framing_round_trip [7, 8] 255 0 ⟨[9], 0, fun _ => none⟩
    ⟨[9] ++ [2, 0, 0, 255, 7, 8], 1, fun _ => none⟩ 1 (by
      simp [writePacket, Loop.run, writePacketBody, asyncWrite, maxPacketSize_eq, header, byteAt])

/-! ### The pure helpers -/

open PacketFramer

/-- `encode` makes one frame, whatever the length of the payload is. -/
theorem encode_eq_bytes (payload : Bytes) (seq : UInt8) :
    encode payload seq = Frame.bytes ⟨seq, payload⟩ := by
  have hbyte : ∀ i < 3, byteAt (payload.length % 2 ^ 32) i = byteAt payload.length i :=
    fun i hi => byteAt_mod (by omega)
  rw [encode, writeU8, writeU24Le, hbyte 0 (by decide), hbyte 1 (by decide), hbyte 2 (by decide)]
  rfl

/-- `decode` takes of the frame what three bytes of length say. -/
theorem decode_encode (payload : Bytes) (seq : UInt8) :
    decode (encode payload seq) =
      .ok ⟨payload.length % 2 ^ 24, seq, payload.take (payload.length % 2 ^ 24)⟩ := by
  have hle : payload.length % 2 ^ 24 ≤ payload.length := Nat.mod_le _ _
  rw [encode_eq_bytes, Frame.bytes, header_append, decode]
  simp only [readU24Le_writeU24Le]
  exact if_neg (by omega)

theorem Frame.length_bytes (f : Frame) : f.bytes.length = f.payload.length + 4 := by
  rw [Frame.bytes, List.length_append, Nat.add_comm]
  rfl

/-- A packet on the wire has four more bytes for each of its frames. -/
theorem length_encodeFrames (payload : Bytes) (seq : UInt8) :
    (encodeFrames payload seq).length =
      payload.length + 4 * (payload.length / maxPacketSize + 1) := by
  induction payload using Chunk.chunks_induction maxPacketSize_pos generalizing seq with
  | short payload h => rw [encodeFrames_of_lt h, Frame.length_bytes, Nat.div_eq_of_lt h]
  | long payload h ih =>
    rw [encodeFrames_of_le h, List.length_append, Frame.length_bytes, ih, List.length_take,
      Nat.min_eq_left h, List.length_drop, Nat.div_eq_sub_div maxPacketSize_pos h]
    omega

/-- The one frame of `encode` is what is on the wire only if the payload takes one frame. -/
theorem encodeFrames_eq_encode_iff (payload : Bytes) (seq : UInt8) :
    encodeFrames payload seq = encode payload seq ↔ payload.length < maxPacketSize := by
  rw [encode_eq_bytes]
  constructor
  · intro heq
    -- the wire has four bytes more for each further frame
    have hlen := congrArg List.length heq
    rw [length_encodeFrames, Frame.length_bytes] at hlen
    have hone : payload.length / maxPacketSize = 0 := by
      simp only at hlen
      omega
    exact (Nat.div_eq_zero_iff_lt maxPacketSize_pos).mp hone
  · intro hlt
    rw [encodeFrames_of_lt hlt]

/-- **Where the pure helpers agree with the wire.** After a write that went through, `encode` gives
the bytes that are on the wire and `decode` the packet exactly if the payload takes one frame:
`write_packet` puts a longer one in several frames, while `encode` has only the one. -/
theorem encode_agrees_iff (payload : Bytes) (seq seq' : UInt8) (sock sock' : OutSocket) (fuel : ℕ)
    (h : writePacket fuel sock payload seq = some (.ok (), seq', sock')) :
    (sock'.wire = sock.wire ++ encode payload seq ∧
      decode (encode payload seq) = .ok ⟨payload.length, seq, payload⟩) ↔
    payload.length < maxPacketSize := by
  obtain ⟨-, -, rfl⟩ := writePacket_eq_encodeFrames h
  rw [OutSocket.wire_pushFrames, List.append_cancel_left_eq, encodeFrames_eq_encode_iff]
  refine ⟨fun h => h.1, fun hlt => ⟨hlt, ?_⟩⟩
  have hmod : payload.length % 2 ^ 24 = payload.length := by
    rw [maxPacketSize_eq] at hlt
    exact Nat.mod_eq_of_lt (by omega)
  rw [decode_encode, hmod, List.take_length]

/-- One short packet, after other bytes on the wire. -/
theorem encode_agrees_short :
    [9] ++ [2, 0, 0, 255, 7, 8] = [9] ++ encode [7, 8] 255 ∧
      decode (encode [7, 8] 255) = .ok ⟨2, 255, [7, 8]⟩ :=
  (encode_agrees_iff [7, 8] 255 0 ⟨[9], 0, fun _ => none⟩
    ⟨[9] ++ [2, 0, 0, 255, 7, 8], 1, fun _ => none⟩ 1 (by
      simp [writePacket, Loop.run, writePacketBody, asyncWrite, maxPacketSize_eq, header,
        byteAt])).mpr (by rw [maxPacketSize_eq]; decide)

/-- A payload of one byte more than a frame takes: `write_packet` ends after a full frame and one
with the last byte, `encode` writes one frame whose length field is zero, and `decode` returns an
empty packet. -/
theorem encode_cuts_length :
    ∃ fuel seq' sock',
      writePacket fuel ⟨[], 0, fun _ => none⟩ (List.replicate (maxPacketSize + 1) 0) 0 =
        some (.ok (), seq', sock') ∧
      sock'.wire ≠ encode (List.replicate (maxPacketSize + 1) 0) 0 ∧
      decode (encode (List.replicate (maxPacketSize + 1) 0) 0) = .ok ⟨0, 0, []⟩ := by
  have hlength : (List.replicate (maxPacketSize + 1) (0 : UInt8)).length = maxPacketSize + 1 :=
    List.length_replicate
  generalize List.replicate (maxPacketSize + 1) (0 : UInt8) = payload at hlength ⊢
  have hend : ¬ Endless payload := by
    rw [Endless, hlength, maxPacketSize_eq]
    decide
  have hsock : OutSocket.Reliable ⟨[], 0, fun _ => none⟩ := fun _ => rfl
  obtain ⟨fuel, seq', h⟩ := writePacket_of_not_endless hsock hend 0
  refine ⟨fuel, seq', _, h, ?_, ?_⟩
  · rw [OutSocket.wire_pushFrames, List.nil_append, Ne, encodeFrames_eq_encode_iff]
    omega
  · have hmod : payload.length % 2 ^ 24 = 0 := by
      rw [hlength, maxPacketSize_eq]
      rfl
    rw [decode_encode, hmod, List.take_zero]

end DBMesh.Protocol
