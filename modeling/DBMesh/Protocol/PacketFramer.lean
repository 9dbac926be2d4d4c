import DBMesh.Lib.Loop
import DBMesh.Protocol.Codec

/-!
# Packet framing

`protocol/mysql/src/packet_framer.cpp`. A packet goes over the wire in frames: three bytes of
length, one byte of sequence number, and the bytes themselves. A payload of `MAX_PACKET_SIZE` bytes
or more takes several frames.

A socket read takes bytes off the stream the peer sent, which ends where the peer closed; a socket
write appends to the wire, and may fail after any number of bytes.

## Main definitions

* `DBMesh.Protocol.PacketFramer.encode`, `PacketFramer.decode` — one frame, without a socket
* `DBMesh.Protocol.readPacket` — one logical packet off a stream
* `DBMesh.Protocol.writePacketBody`, `writePacket` — the loop of `write_packet`, which need not end

## Main results

* `DBMesh.Protocol.readPacket_append` — a packet that was read is read off any longer stream
* `DBMesh.Protocol.readPacket_of_partial` — part of a packet is never taken for a packet
-/

namespace DBMesh.Protocol

/-- `MAX_PACKET_SIZE` -/
@[irreducible]
def maxPacketSize : ℕ := 0xFFFFFF

theorem maxPacketSize_eq : maxPacketSize = 0xFFFFFF := by rw [maxPacketSize]

inductive IoError
  | readFailed
  | writeFailed
  | packetTooLarge
  deriving DecidableEq, Repr

structure MySqlPacket where
  length : ℕ
  sequence : UInt8
  payload : Bytes
  deriving DecidableEq, Repr

/-! ### Pure helpers -/

/-- `PacketFramer::encode`: one frame. The length is cut to a `uint32_t`, and three bytes of it are
written. -/
def PacketFramer.encode (payload : Bytes) (sequence : UInt8) : Bytes :=
  writeU8 (writeU24Le [] (payload.length % 2 ^ 32)) sequence ++ payload

/-- `PacketFramer::decode`: the first frame of the bytes. -/
def PacketFramer.decode : Bytes → Except IoError MySqlPacket
  | p₀ :: p₁ :: p₂ :: sequence :: rest =>
    let length := readU24Le p₀ p₁ p₂
    if rest.length + 4 < 4 + length then .error .readFailed
    else .ok ⟨length, sequence, rest.take length⟩
  | _ => .error .readFailed

/-! ### Sockets -/

/-- The sending side of a socket: the bytes on the wire, how many writes there were, and for each
write whether it succeeds or fails after some bytes. -/
structure OutSocket where
  wire : Bytes
  writes : ℕ
  fault : ℕ → Option ℕ

/-- Every write succeeds. -/
def OutSocket.Reliable (sock : OutSocket) : Prop := ∀ i, sock.fault i = none

/-- `asio::async_write`: whether it succeeded. -/
def asyncWrite (sock : OutSocket) (data : Bytes) : Bool × OutSocket :=
  match sock.fault sock.writes with
  | none => (true, { sock with wire := sock.wire ++ data, writes := sock.writes + 1 })
  | some m => (false, { sock with wire := sock.wire ++ data.take m, writes := sock.writes + 1 })

/-- `asio::async_read` of `n` bytes from a stream that ends after `stream`: the bytes and what is
left unread, or `none` at end of stream. -/
def asyncRead (n : ℕ) (stream : Bytes) : Option (Bytes × Bytes) :=
  if stream.length < n then none else some (stream.take n, stream.drop n)

theorem asyncRead_append {n : ℕ} {stream : Bytes} {r : Bytes × Bytes}
    (h : asyncRead n stream = some r) (more : Bytes) :
    asyncRead n (stream ++ more) = some (r.1, r.2 ++ more) := by
  rw [asyncRead] at h ⊢
  split_ifs at h with hn
  obtain rfl := Option.some.inj h
  have hn' : n ≤ stream.length := Nat.le_of_not_lt hn
  rw [if_neg (by rw [List.length_append]; omega), List.take_append_of_le_length hn',
    List.drop_append_of_le_length hn']

theorem asyncRead_length (data rest : Bytes) :
    asyncRead data.length (data ++ rest) = some (data, rest) := by
  rw [asyncRead, if_neg (by rw [List.length_append]; omega), List.take_left, List.drop_left]

theorem length_of_asyncRead {n : ℕ} {stream : Bytes} {r : Bytes × Bytes}
    (h : asyncRead n stream = some r) : r.2.length + n = stream.length := by
  rw [asyncRead] at h
  split_ifs at h with hn
  obtain rfl := Option.some.inj h
  rw [List.length_drop]
  omega

/-! ### Reading -/

/-- The four header bytes: `read_u24_le(hdr.data())` and `hdr[3]`. -/
def readHeader (stream : Bytes) : Except IoError ((ℕ × UInt8) × Bytes) :=
  match asyncRead 4 stream with
  | some ([h₀, h₁, h₂, h₃], rest) => .ok ((readU24Le h₀ h₁ h₂, h₃), rest)
  | _ => .error .readFailed

/-- The bytes of one frame; nothing is read for an empty one. -/
def readBody (length : ℕ) (stream : Bytes) : Except IoError (Bytes × Bytes) :=
  if 0 < length then
    match asyncRead length stream with
    | some r => .ok r
    | none => .error .readFailed
  else .ok ([], stream)

theorem readHeader_cons (h₀ h₁ h₂ h₃ : UInt8) (rest : Bytes) :
    readHeader (h₀ :: h₁ :: h₂ :: h₃ :: rest) = .ok ((readU24Le h₀ h₁ h₂, h₃), rest) := by
  rw [readHeader, show asyncRead 4 (h₀ :: h₁ :: h₂ :: h₃ :: rest) = some ([h₀, h₁, h₂, h₃], rest)
    from asyncRead_length [h₀, h₁, h₂, h₃] rest]

theorem readHeader_eq_ok {stream : Bytes} {r : (ℕ × UInt8) × Bytes}
    (h : readHeader stream = .ok r) :
    ∃ h₀ h₁ h₂ h₃, stream = h₀ :: h₁ :: h₂ :: h₃ :: r.2 ∧ r.1 = (readU24Le h₀ h₁ h₂, h₃) := by
  match stream with
  | [] | [_] | [_, _] | [_, _, _] => exact absurd h (by simp [readHeader, asyncRead])
  | h₀ :: h₁ :: h₂ :: h₃ :: rest =>
    rw [readHeader_cons] at h
    obtain rfl := Except.ok.inj h
    exact ⟨h₀, h₁, h₂, h₃, rfl, rfl⟩

theorem readHeader_eq_error {stream : Bytes} {e : IoError} (h : readHeader stream = .error e) :
    e = .readFailed := by
  rw [readHeader] at h
  split at h
  · exact absurd h (by simp)
  · exact (Except.error.inj h).symm

theorem readHeader_append {stream : Bytes} {r : (ℕ × UInt8) × Bytes}
    (h : readHeader stream = .ok r) (more : Bytes) :
    readHeader (stream ++ more) = .ok (r.1, r.2 ++ more) := by
  obtain ⟨h₀, h₁, h₂, h₃, rfl, hr⟩ := readHeader_eq_ok h
  rw [hr]
  exact readHeader_cons h₀ h₁ h₂ h₃ (r.2 ++ more)

theorem readBody_append {length : ℕ} {stream : Bytes} {r : Bytes × Bytes}
    (h : readBody length stream = .ok r) (more : Bytes) :
    readBody length (stream ++ more) = .ok (r.1, r.2 ++ more) := by
  rw [readBody] at h ⊢
  split_ifs at h ⊢
  · cases hr : asyncRead length stream with
    | none => rw [hr] at h; exact absurd h (by simp)
    | some r' =>
      rw [hr] at h
      obtain rfl := Except.ok.inj h
      rw [asyncRead_append hr]
  · obtain rfl := Except.ok.inj h
    rfl

theorem readBody_length (data rest : Bytes) :
    readBody data.length (data ++ rest) = .ok (data, rest) := by
  rw [readBody]
  split_ifs with h
  · rw [asyncRead_length]
  · rw [List.eq_nil_of_length_eq_zero (Nat.eq_zero_of_not_pos h), List.nil_append]

theorem readBody_eq_error {length : ℕ} {stream : Bytes} {e : IoError}
    (h : readBody length stream = .error e) : e = .readFailed := by
  rw [readBody] at h
  split_ifs at h
  split at h
  · exact absurd h (by simp)
  · exact (Except.error.inj h).symm

theorem length_of_readBody {length : ℕ} {stream : Bytes} {r : Bytes × Bytes}
    (h : readBody length stream = .ok r) : r.2.length ≤ stream.length := by
  rw [readBody] at h
  split_ifs at h
  · split at h
    · next r' hr =>
      obtain rfl := Except.ok.inj h
      have := length_of_asyncRead hr
      omega
    · exact absurd h (by simp)
  · obtain rfl := Except.ok.inj h
    exact Nat.le_refl _

/-- The loop of `read_packet`: while the last frame was full, read another one. -/
def readChain (length : ℕ) (sequence : UInt8) (payload stream : Bytes) :
    Except IoError (MySqlPacket × Bytes) :=
  if length = maxPacketSize then
    match _hh : readHeader stream with
    | .error e => .error e
    | .ok ((chunkLen, sequence), rest) =>
      match _hb : readBody chunkLen rest with
      | .error e => .error e
      | .ok (chunk, rest) => readChain chunkLen sequence (payload ++ chunk) rest
  else .ok (⟨payload.length % 2 ^ 32, sequence, payload⟩, stream)
termination_by stream.length
decreasing_by
  obtain ⟨h₀, h₁, h₂, h₃, hs, -⟩ := readHeader_eq_ok _hh
  have := length_of_readBody _hb
  rw [hs]
  simp only [List.length_cons] at this ⊢
  omega

/-- `PacketFramer::read_packet`: the packet and the unread rest of the stream. -/
def readPacket (stream : Bytes) : Except IoError (MySqlPacket × Bytes) :=
  match readHeader stream with
  | .error e => .error e
  | .ok ((length, sequence), rest) =>
    if maxPacketSize < length then .error .packetTooLarge
    else
      match readBody length rest with
      | .error e => .error e
      | .ok (payload, rest) => readChain length sequence payload rest

/-! ### Writing -/

/-- The four bytes before the bytes of a frame. -/
def header (chunk : ℕ) (seq : UInt8) : Bytes :=
  [byteAt chunk 0, byteAt chunk 1, byteAt chunk 2, seq]

structure WriteState where
  offset : ℕ
  seq : UInt8
  sock : OutSocket

/-- One iteration of the `do … while` loop of `write_packet`: the next state, or what is returned
with the sequence number and the socket as they are then. -/
def writePacketBody (payload : Bytes) (st : WriteState) :
    WriteState ⊕ (Except IoError Unit × UInt8 × OutSocket) :=
  let chunk := min (payload.length - st.offset) maxPacketSize
  let seq := st.seq + 1
  let (ok, sock) := asyncWrite st.sock (header chunk st.seq ++ (payload.drop st.offset).take chunk)
  if !ok then .inr (.error .writeFailed, seq, sock)
  else
    let offset := st.offset + chunk
    if offset < payload.length ∨ (0 < payload.length ∧ payload.length % maxPacketSize = 0) then
      .inl ⟨offset, seq, sock⟩
    else .inr (.ok (), seq, sock)

/-- `PacketFramer::write_packet`, with a bound on the iterations of its loop. -/
def writePacket (fuel : ℕ) (sock : OutSocket) (payload : Bytes) (seq : UInt8) :
    Option (Except IoError Unit × UInt8 × OutSocket) :=
  Loop.run (writePacketBody payload) fuel ⟨0, seq, sock⟩

/-! ### What a read can return -/

theorem readChain_of_ne {length : ℕ} (h : length ≠ maxPacketSize) (sequence : UInt8)
    (payload stream : Bytes) : readChain length sequence payload stream =
      .ok (⟨payload.length % 2 ^ 32, sequence, payload⟩, stream) := by
  rw [readChain, if_neg h]

/-- One more frame of a chain. -/
theorem readChain_max (sequence : UInt8) (payload stream : Bytes) :
    readChain maxPacketSize sequence payload stream =
      match readHeader stream with
      | .error e => .error e
      | .ok ((chunkLen, sequence), rest) =>
        match readBody chunkLen rest with
        | .error e => .error e
        | .ok (chunk, rest) => readChain chunkLen sequence (payload ++ chunk) rest := by
  rw [readChain, if_pos rfl]
  split
  · next h => rw [h]
  · next h =>
    rw [h]
    split
    · next h' => simp only [h']
    · next h' => simp only [h']

/-- A chain that was read is read off any longer stream, and a chain that fails fails because the
stream ends. -/
theorem readChain_append (length : ℕ) (sequence : UInt8) (payload stream : Bytes) :
    (∀ pkt rest more, readChain length sequence payload stream = .ok (pkt, rest) →
      readChain length sequence payload (stream ++ more) = .ok (pkt, rest ++ more)) ∧
    ∀ e, readChain length sequence payload stream = .error e → e = .readFailed := by
  -- along the recursion of `readChain`, one frame at a time
  induction length, sequence, payload, stream using readChain.induct with
  | case1 sequence payload stream e hh =>
    rw [readChain_max, hh]
    exact ⟨fun _ _ _ h => absurd h (by simp), fun e' h => by
      rw [← Except.error.inj h]; exact readHeader_eq_error hh⟩
  | case2 sequence payload stream chunkLen sequence' rest hh e hb =>
    rw [readChain_max, hh]
    simp only [hb]
    exact ⟨fun _ _ _ h => absurd h (by simp), fun e' h => by
      rw [← Except.error.inj h]; exact readBody_eq_error hb⟩
  | case3 sequence payload stream chunkLen sequence' rest hh chunk rest' hb ih =>
    refine ⟨fun pkt r more h => ?_, fun e h => ?_⟩
    · rw [readChain_max, hh] at h
      simp only [hb] at h
      rw [readChain_max, readHeader_append hh]
      simp only [readBody_append hb]
      exact ih.1 pkt r more h
    · rw [readChain_max, hh] at h
      simp only [hb] at h
      exact ih.2 e h
  | case4 length sequence payload stream h =>
    simp only [readChain_of_ne h, Except.ok.injEq, Prod.mk.injEq]
    exact ⟨fun pkt rest more h => ⟨h.1, by rw [h.2]⟩, fun e h => absurd h (by simp)⟩

/-- A 24-bit length is never above `MAX_PACKET_SIZE`. -/
theorem readPacket_eq (stream : Bytes) :
    readPacket stream =
      match readHeader stream with
      | .error e => .error e
      | .ok ((length, sequence), rest) =>
        match readBody length rest with
        | .error e => .error e
        | .ok (payload, rest) => readChain length sequence payload rest := by
  rw [readPacket]
  cases hh : readHeader stream with
  | error e => rfl
  | ok r =>
    obtain ⟨h₀, h₁, h₂, h₃, -, hr⟩ := readHeader_eq_ok hh
    have hlt : ¬ maxPacketSize < r.1.1 := by
      have := readU24Le_lt h₀ h₁ h₂
      rw [hr, maxPacketSize_eq]
      simp only
      omega
    exact if_neg hlt

/-- Reading a packet off an empty accumulator: `read_packet` is its own loop entered as if a full
frame of no bytes had come before. -/
theorem readPacket_eq_readChain (stream : Bytes) :
    readPacket stream = readChain maxPacketSize 0 [] stream := by
  rw [readPacket_eq, readChain_max]
  simp only [List.nil_append]

/-- **A packet that was read is read off any longer stream**, and what follows stays unread. -/
theorem readPacket_append {stream rest : Bytes} {pkt : MySqlPacket}
    (h : readPacket stream = .ok (pkt, rest)) (more : Bytes) :
    readPacket (stream ++ more) = .ok (pkt, rest ++ more) := by
  rw [readPacket_eq_readChain] at h ⊢
  exact (readChain_append _ _ _ _).1 pkt rest more h

theorem readPacket_eq_error {stream : Bytes} {e : IoError} (h : readPacket stream = .error e) :
    e = .readFailed := by
  rw [readPacket_eq_readChain] at h
  exact (readChain_append _ _ _ _).2 e h

theorem length_of_readChain {length : ℕ} {sequence : UInt8} {payload stream : Bytes}
    {r : MySqlPacket × Bytes} (h : readChain length sequence payload stream = .ok r) :
    r.2.length ≤ stream.length := by
  induction length, sequence, payload, stream using readChain.induct with
  | case1 sequence payload stream e hh =>
    rw [readChain_max, hh] at h
    exact absurd h (by simp)
  | case2 sequence payload stream chunkLen sequence' rest hh e hb =>
    rw [readChain_max, hh] at h
    simp only [hb] at h
    exact absurd h (by simp)
  | case3 sequence payload stream chunkLen sequence' rest hh chunk rest' hb ih =>
    rw [readChain_max, hh] at h
    simp only [hb] at h
    obtain ⟨h₀, h₁, h₂, h₃, rfl, -⟩ := readHeader_eq_ok hh
    have := length_of_readBody hb
    have := ih h
    simp only [List.length_cons] at *
    omega
  | case4 length sequence payload stream hne =>
    rw [readChain_of_ne hne] at h
    obtain rfl := Except.ok.inj h
    exact Nat.le_refl _

/-- A packet takes its header at least off the stream. -/
theorem length_of_readPacket {stream : Bytes} {r : MySqlPacket × Bytes}
    (h : readPacket stream = .ok r) : r.2.length < stream.length := by
  rw [readPacket_eq] at h
  cases hh : readHeader stream with
  | error e => rw [hh] at h; exact absurd h (by simp)
  | ok hdr =>
    obtain ⟨h₀, h₁, h₂, h₃, hs, -⟩ := readHeader_eq_ok hh
    rw [hh] at h
    cases hb : readBody hdr.1.1 hdr.2 with
    | error e => simp only [hb] at h; exact absurd h (by simp)
    | ok body =>
      simp only [hb] at h
      have h₁ := length_of_readBody hb
      have h₂ := length_of_readChain h
      rw [hs]
      simp only [List.length_cons]
      omega

/-- A stream that holds part of a packet and then ends fails. -/
theorem readPacket_of_partial {stream more : Bytes} {pkt : MySqlPacket} (hmore : more ≠ [])
    (h : readPacket (stream ++ more) = .ok (pkt, [])) : readPacket stream = .error .readFailed := by
  cases hs : readPacket stream with
  | error e => rw [readPacket_eq_error hs]
  | ok r =>
    have hr := (readPacket_append hs more).symm.trans h
    simp only [Except.ok.injEq, Prod.mk.injEq, List.append_eq_nil_iff] at hr
    exact absurd hr.2.2 hmore

end DBMesh.Protocol
