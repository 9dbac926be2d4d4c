import DBMesh.Protocol.ComQuery

/-!
# Sequence numbers towards the client

`handle_command` sets `seq_` behind the last frame of the request, and `write_packet` counts on from
there. For a packet of the backend `proxy_result` sets it again, to the number that `read_packet`
returns. That is the number of the packet's *last* frame, and with it the packet's first frame is
sent: where a packet takes several frames, the numbers the client sees jump.

## Main definitions

* `DBMesh.Protocol.Consecutive` — the frames on a wire are numbered one after the other
* `DBMesh.Protocol.Aligned` — the packets of a response come with the numbers they should be sent
  with
* `DBMesh.Protocol.consecutive` — the packets of a backend that numbers its frames one after the
  other

## Main results

* `DBMesh.Protocol.forall_consecutive_iff_aligned` — the client's numbers are consecutive if the
  packets are aligned, and only then
* `DBMesh.Protocol.sequence_consecutive_iff` — in terms of the lengths of the packets
-/

namespace DBMesh.Protocol

/-! ### Frames on a wire -/

/-- The frames between two states of a wire are numbered one after the other, from `seq` on. -/
def Consecutive (seq : UInt8) (wire wire' : Bytes) : Prop :=
  ∃ cs : List Bytes, (∀ c ∈ cs, c.length ≤ maxPacketSize) ∧
    wire' = wire ++ (number seq cs).flatMap Frame.bytes

/-- Frames can be told apart. -/
theorem frame_bytes_inj {f f' : Frame} {rest rest' : Bytes} (hf : f.payload.length ≤ maxPacketSize)
    (hf' : f'.payload.length ≤ maxPacketSize) (h : f.bytes ++ rest = f'.bytes ++ rest') :
    f = f' ∧ rest = rest' := by
  obtain ⟨seq, payload⟩ := f
  obtain ⟨seq', payload'⟩ := f'
  rw [Frame.bytes, Frame.bytes, List.append_assoc, List.append_assoc] at h
  have hread := congrArg readHeader h
  rw [readHeader_header hf, readHeader_header hf', Except.ok.injEq, Prod.mk.injEq,
    Prod.mk.injEq] at hread
  obtain ⟨⟨hlen, rfl⟩, happend⟩ := hread
  obtain ⟨rfl, rfl⟩ := List.append_inj happend hlen
  exact ⟨rfl, rfl⟩

theorem number_append (seq : UInt8) (cs cs' : List Bytes) :
    number seq (cs ++ cs') = number seq cs ++ number (seq + UInt8.ofNat cs.length) cs' := by
  induction cs generalizing seq with
  | nil =>
    show number seq cs' = number (seq + 0) cs'
    rw [UInt8.add_zero]
  | cons c₀ cs ih =>
    rw [List.cons_append, number, number, ih, List.cons_append, List.length_cons, add_one_add_ofNat]

theorem Consecutive.refl (seq : UInt8) (wire : Bytes) : Consecutive seq wire wire :=
  ⟨[], by simp, (List.append_nil wire).symm⟩

theorem Consecutive.push {client : ClientSide} {cs : List Bytes}
    (hcs : ∀ c ∈ cs, c.length ≤ maxPacketSize) :
    Consecutive client.seq client.socket.wire (client.push cs).socket.wire :=
  ⟨cs, hcs, rfl⟩

/-- A frame that does not have the next number. -/
theorem not_consecutive_of_ne {seq seq' : UInt8} (hne : seq' ≠ seq) {c₀ : Bytes}
    (hc₀ : c₀.length ≤ maxPacketSize) (wire rest : Bytes) :
    ¬ Consecutive seq wire (wire ++ (Frame.bytes ⟨seq', c₀⟩ ++ rest)) := by
  rintro ⟨cs, hcs, h⟩
  have h := List.append_cancel_left h
  cases cs with
  | nil => exact absurd (congrArg List.length h) (by simp [Frame.bytes, header, number])
  | cons c cs =>
    rw [number, List.flatMap_cons] at h
    rw [List.forall_mem_cons] at hcs
    have hf := (frame_bytes_inj hc₀ hcs.1 h).1
    exact hne (congrArg Frame.sequence hf)

/-- What follows frames on a wire that are numbered as they should be. -/
theorem exists_number_rest {seq : UInt8} {cs cs' : List Bytes} {rest : Bytes}
    (hcs : ∀ c ∈ cs, c.length ≤ maxPacketSize) (hcs' : ∀ c ∈ cs', c.length ≤ maxPacketSize)
    (h : (number seq cs).flatMap Frame.bytes ++ rest = (number seq cs').flatMap Frame.bytes) :
    ∃ cs'' : List Bytes, (∀ c ∈ cs'', c.length ≤ maxPacketSize) ∧
      rest = (number (seq + UInt8.ofNat cs.length) cs'').flatMap Frame.bytes := by
  induction cs generalizing seq cs' with
  | nil =>
    refine ⟨cs', hcs', ?_⟩
    show rest = (number (seq + 0) cs').flatMap Frame.bytes
    rw [UInt8.add_zero]
    exact h
  | cons c₀ cs ih =>
    rw [List.forall_mem_cons] at hcs
    cases cs' with
    | nil => exact absurd (congrArg List.length h) (by simp [Frame.bytes, header, number])
    | cons c₁ cs' =>
      rw [List.forall_mem_cons] at hcs'
      rw [number, number, List.flatMap_cons, List.flatMap_cons, List.append_assoc] at h
      rw [List.length_cons, ← add_one_add_ofNat]
      exact ih hcs.2 hcs'.2 (frame_bytes_inj hcs.1 hcs'.1 h).2

/-- Behind frames that are numbered as they should be, the numbers go on. -/
theorem consecutive_push_iff {client client' : ClientSide} {cs : List Bytes} {rest : Bytes}
    (hcs : ∀ c ∈ cs, c.length ≤ maxPacketSize)
    (hwire : client'.socket.wire = (client.push cs).socket.wire ++ rest) :
    Consecutive client.seq client.socket.wire client'.socket.wire ↔
      Consecutive (client.push cs).seq (client.push cs).socket.wire client'.socket.wire := by
  have hpush : (client.push cs).socket.wire =
      client.socket.wire ++ (number client.seq cs).flatMap Frame.bytes := rfl
  rw [hwire]
  constructor
  · rintro ⟨cs', hcs', h⟩
    rw [hpush, List.append_assoc] at h
    obtain ⟨cs'', hcs'', hrest⟩ := exists_number_rest hcs hcs' (List.append_cancel_left h)
    exact ⟨cs'', hcs'', congrArg _ hrest⟩
  · rintro ⟨cs', hcs', h⟩
    refine ⟨cs ++ cs', List.forall_mem_append.mpr ⟨hcs, hcs'⟩, ?_⟩
    rw [h, hpush, number_append, List.flatMap_append, List.append_assoc]
    rfl

/-! ### A response -/

/-- The packets of a response and, if it was not whole, the ERR packet after them. -/
def deliver (fuel : ℕ) (pkts : List MySqlPacket) (whole : Bool) (err : Bytes)
    (client : ClientSide) : ClientSide :=
  match sendAll fuel pkts client with
  | (client, true) => if whole then client else (sendLast fuel client err).1
  | (client, false) => client

/-- The client of a packet of the backend, with the number that comes with the packet. -/
def ClientSide.renumber (client : ClientSide) (pkt : MySqlPacket) : ClientSide :=
  { client with seq := pkt.sequence }

theorem renumber_eq_self {client : ClientSide} {pkt : MySqlPacket}
    (h : pkt.sequence = client.seq) : client.renumber pkt = client := by
  rw [ClientSide.renumber, h]

theorem deliver_cons_of_fits {client : ClientSide} (h : client.socket.Reliable) {fuel : ℕ}
    {pkt : MySqlPacket} (hf : Fits fuel pkt.payload) (pkts : List MySqlPacket) (whole : Bool)
    (err : Bytes) :
    deliver fuel (pkt :: pkts) whole err client =
      deliver fuel pkts whole err ((client.renumber pkt).push (chunksOf pkt.payload)) := by
  rw [deliver, sendAll_cons_of_fits h hf]
  rfl

theorem deliver_cons_of_not_fits {client : ClientSide} (h : client.socket.Reliable) {fuel : ℕ}
    {pkt : MySqlPacket} (hf : ¬ Fits fuel pkt.payload) (pkts : List MySqlPacket) (whole : Bool)
    (err : Bytes) :
    deliver fuel (pkt :: pkts) whole err client =
      (sendSoFar fuel (client.renumber pkt) pkt.payload).1 := by
  rw [deliver, sendAll_cons_of_not_fits h hf]
  rfl

theorem deliver_nil (fuel : ℕ) (whole : Bool) (err : Bytes) (client : ClientSide) :
    deliver fuel [] whole err client =
      if whole then client else (sendSoFar fuel client err).1 := rfl

/-- A response only adds to the wire. -/
theorem exists_wire_deliver {client : ClientSide} (h : client.socket.Reliable) (fuel : ℕ)
    (pkts : List MySqlPacket) (whole : Bool) (err : Bytes) :
    ∃ rest, (deliver fuel pkts whole err client).socket.wire = client.socket.wire ++ rest := by
  induction pkts generalizing client with
  | nil =>
    rw [deliver_nil]
    cases whole with
    | true => exact ⟨[], (List.append_nil _).symm⟩
    | false =>
      obtain ⟨cs, -, -, hsend⟩ := exists_push_sendSoFar h fuel err
      exact ⟨_, congrArg (·.socket.wire) hsend⟩
  | cons pkt pkts ih =>
    have hclient : (client.renumber pkt).socket.Reliable := h
    by_cases hf : Fits fuel pkt.payload
    · rw [deliver_cons_of_fits h hf]
      obtain ⟨rest, hrest⟩ := ih (reliable_push hclient (chunksOf pkt.payload))
      exact ⟨_, hrest.trans (List.append_assoc ..)⟩
    · rw [deliver_cons_of_not_fits h hf]
      obtain ⟨cs, -, -, hsend⟩ := exists_push_sendSoFar hclient fuel pkt.payload
      exact ⟨_, congrArg (·.socket.wire) hsend⟩

/-- The packets come with the numbers that they should be sent with, up to one that is never
sent. -/
def Aligned : UInt8 → List MySqlPacket → Prop
  | _, [] => True
  | seq, pkt :: pkts => pkt.sequence = seq ∧
      (Endless pkt.payload ∨ Aligned (seq + UInt8.ofNat (chunksOf pkt.payload).length) pkts)

theorem length_le_of_mem_chunksOf {payload c₀ : Bytes} (h : c₀ ∈ chunksOf payload) :
    c₀.length ≤ maxPacketSize := by
  obtain ⟨i, hi⟩ := List.getElem?_of_mem h
  rw [Chunk.length_of_getElem?_chunks maxPacketSize_pos hi]
  split
  · exact le_rfl
  · exact (Nat.mod_lt _ maxPacketSize_pos).le

/-- The first packet is sent with a number of its own. -/
theorem not_consecutive_deliver {client : ClientSide} (h : client.socket.Reliable) {fuel : ℕ}
    (hfuel : 0 < fuel) {seq : UInt8} {pkt : MySqlPacket} (hne : pkt.sequence ≠ seq)
    (pkts : List MySqlPacket) (whole : Bool) (err : Bytes) :
    ¬ Consecutive seq client.socket.wire
      (deliver fuel (pkt :: pkts) whole err client).socket.wire := by
  have hclient : (client.renumber pkt).socket.Reliable := h
  obtain ⟨cs, hcs, hcons, hsend⟩ := exists_push_sendSoFar hclient fuel pkt.payload
  -- whatever comes after it, the wire goes on with the frames of this packet
  obtain ⟨rest, hrest⟩ : ∃ rest, (deliver fuel (pkt :: pkts) whole err client).socket.wire =
      ((client.renumber pkt).push cs).socket.wire ++ rest := by
    by_cases hf : Fits fuel pkt.payload
    · rw [deliver_cons_of_fits h hf, ← hsend, sendSoFar_of_fits hclient hf]
      exact exists_wire_deliver (reliable_push hclient _) fuel pkts whole err
    · rw [deliver_cons_of_not_fits h hf, hsend]
      exact ⟨[], (List.append_nil _).symm⟩
  obtain ⟨c₀, cs, rfl⟩ := List.exists_cons_of_ne_nil (hcons hfuel)
  have hwire : ((client.renumber pkt).push (c₀ :: cs)).socket.wire ++ rest =
      client.socket.wire ++ (Frame.bytes ⟨pkt.sequence, c₀⟩ ++
        ((number (pkt.sequence + 1) cs).flatMap Frame.bytes ++ rest)) := by
    rw [ClientSide.push, OutSocket.pushFrames, number, List.flatMap_cons]
    simp only [List.append_assoc]
    rfl
  rw [hrest, hwire]
  exact not_consecutive_of_ne hne (List.forall_mem_cons.mp hcs).1 _ _

/-- A packet with the right number that is not done yet. -/
theorem consecutive_deliver_of_not_fits {client : ClientSide} (h : client.socket.Reliable)
    {fuel : ℕ} {pkt : MySqlPacket} (hseq : pkt.sequence = client.seq)
    (hf : ¬ Fits fuel pkt.payload)
    (pkts : List MySqlPacket) (whole : Bool) (err : Bytes) :
    Consecutive client.seq client.socket.wire
      (deliver fuel (pkt :: pkts) whole err client).socket.wire := by
  obtain ⟨cs, hcs, -, hsend⟩ := exists_push_sendSoFar h fuel pkt.payload
  rw [deliver_cons_of_not_fits h hf, renumber_eq_self hseq, hsend]
  exact .push hcs

/-- A packet with the right number that is sent: the numbers go on behind it. -/
theorem consecutive_deliver_iff_of_fits {client : ClientSide} (h : client.socket.Reliable)
    {fuel : ℕ} {pkt : MySqlPacket} (hseq : pkt.sequence = client.seq)
    (hf : Fits fuel pkt.payload)
    (pkts : List MySqlPacket) (whole : Bool) (err : Bytes) :
    Consecutive client.seq client.socket.wire
        (deliver fuel (pkt :: pkts) whole err client).socket.wire ↔
      Consecutive (client.push (chunksOf pkt.payload)).seq
        (client.push (chunksOf pkt.payload)).socket.wire
        (deliver fuel pkts whole err (client.push (chunksOf pkt.payload))).socket.wire := by
  rw [deliver_cons_of_fits h hf, renumber_eq_self hseq]
  obtain ⟨rest, hrest⟩ :=
    exists_wire_deliver (reliable_push h (chunksOf pkt.payload)) fuel pkts whole err
  exact consecutive_push_iff (fun c hc => length_le_of_mem_chunksOf hc) hrest

/-- At the end of the packets there is nothing more, or the ERR packet. -/
theorem consecutive_deliver_nil {client : ClientSide} (h : client.socket.Reliable) (fuel : ℕ)
    (whole : Bool) (err : Bytes) :
    Consecutive client.seq client.socket.wire (deliver fuel [] whole err client).socket.wire := by
  rw [deliver_nil]
  cases whole with
  | true => exact .refl _ _
  | false =>
    obtain ⟨cs, hcs, -, hsend⟩ := exists_push_sendSoFar h fuel err
    rw [if_neg Bool.false_ne_true, hsend]
    exact .push hcs

/-- **The client's numbers are consecutive if the packets are aligned, and only then**, whatever the
number of iterations at which one looks. -/
theorem forall_consecutive_iff_aligned {client : ClientSide} (h : client.socket.Reliable) (n : ℕ)
    (pkts : List MySqlPacket) (whole : Bool) (err : Bytes) :
    (∀ fuel, n ≤ fuel → Consecutive client.seq client.socket.wire
      (deliver fuel pkts whole err client).socket.wire) ↔ Aligned client.seq pkts := by
  induction pkts generalizing client n with
  | nil => exact iff_of_true (fun fuel _ => consecutive_deliver_nil h fuel whole err) trivial
  | cons pkt pkts ih =>
    by_cases hseq : pkt.sequence = client.seq
    swap
    · refine iff_of_false (fun hall => ?_) fun haligned => hseq haligned.1
      exact not_consecutive_deliver h (Nat.lt_of_lt_of_le Nat.one_pos (Nat.le_max_right n 1)) hseq
        pkts whole err (hall _ (Nat.le_max_left n 1))
    by_cases hend : Endless pkt.payload
    · refine iff_of_true (fun fuel _ => ?_) ⟨hseq, .inl hend⟩
      exact consecutive_deliver_of_not_fits h hseq (fun hf => hf.1 hend) pkts whole err
    have ih := ih (reliable_push h (chunksOf pkt.payload))
    constructor
    · intro hall
      refine ⟨hseq, .inr ?_⟩
      refine (ih (max n (pkt.payload.length / maxPacketSize + 1))).mp fun fuel hle => ?_
      have hfits : Fits fuel pkt.payload := ⟨hend, by omega⟩
      exact (consecutive_deliver_iff_of_fits h hseq hfits pkts whole err).mp (hall fuel (by omega))
    · rintro ⟨-, haligned⟩ fuel hle
      by_cases hf : Fits fuel pkt.payload
      · refine (consecutive_deliver_iff_of_fits h hseq hf pkts whole err).mpr ?_
        exact (ih n).mpr (haligned.resolve_left hend) fuel hle
      · exact consecutive_deliver_of_not_fits h hseq hf pkts whole err

/-! ### The numbers of a backend -/

/-- The packets of a backend that numbers its frames one after the other, from `seq` on. -/
def consecutive : UInt8 → List Bytes → List (UInt8 × Bytes)
  | _, [] => []
  | seq, p :: ps => (seq, p) :: consecutive (seq + UInt8.ofNat (chunksOf p).length) ps

/-- The numbers that come with the packets of such a backend: of each packet that of its last
frame. -/
def Continues : UInt8 → List MySqlPacket → Prop
  | _, [] => True
  | seq, pkt :: pkts => pkt.sequence = seq + UInt8.ofNat (pkt.payload.length / maxPacketSize) ∧
      Continues (seq + UInt8.ofNat (chunksOf pkt.payload).length) pkts

/-- A stream that ends within a packet, or goes on behind it. -/
theorem prefix_encodeFrames_cases {stream rest : Bytes} {p : Bytes} {seq : UInt8}
    (h : stream <+: encodeFrames p seq ++ rest) :
    readPacket stream = .error .readFailed ∨
      ∃ stream', stream = encodeFrames p seq ++ stream' ∧ stream' <+: rest := by
  obtain ⟨more, hmore⟩ := h
  obtain ⟨cut, hcut, -⟩ | ⟨stream', hstream, hrest⟩ := List.append_eq_append_iff.mp hmore
  · by_cases hnil : cut = []
    · refine .inr ⟨[], ?_, List.nil_prefix⟩
      rw [hcut, hnil, List.append_nil, List.append_nil]
    · have hread := readPacket_encodeFrames p seq []
      rw [List.append_nil, hcut] at hread
      have hfailed := readPacket_of_partial hnil hread
      exact .inl hfailed
  · exact .inr ⟨stream', hstream, more, hrest.symm⟩

/-- **The packets that are taken off the stream of such a backend**, wherever the stream ends. -/
theorem continues_taken (payloads : List Bytes) {seq : UInt8} {stream : Bytes}
    (h : stream <+: wireOf (consecutive seq payloads)) (stage : Checkout.Stage) :
    Continues seq (taken stage stream).1 := by
  induction payloads generalizing seq stream stage with
  | nil =>
    obtain rfl := List.prefix_nil.mp h
    rw [taken_eq]
    trivial
  | cons p ps ih =>
    rw [consecutive, wireOf_cons] at h
    obtain herr | ⟨stream', rfl, hprefix⟩ := prefix_encodeFrames_cases h
    · rw [taken_eq, herr]
      trivial
    · rw [taken_eq, readPacket_encodeFrames]
      dsimp only
      cases stage.next p with
      | none => exact ⟨rfl, trivial⟩
      | some stage' => exact ⟨rfl, ih hprefix stage'⟩

/-- The packets that are sent, up to one that is never done. -/
def reached : List MySqlPacket → List MySqlPacket
  | [] => []
  | pkt :: pkts => if Endless pkt.payload then [pkt] else pkt :: reached pkts

theorem aligned_iff {seq seq' : UInt8} {pkts : List MySqlPacket} (h : Continues seq' pkts) :
    Aligned seq pkts ↔
      ∀ pkt ∈ reached pkts, seq' + UInt8.ofNat (pkt.payload.length / maxPacketSize) = seq := by
  induction pkts generalizing seq seq' with
  | nil => exact iff_of_true trivial fun pkt hmem => absurd hmem List.not_mem_nil
  | cons pkt pkts ih =>
    obtain ⟨hseq, hrest⟩ := h
    -- both numberings move on by the frames of the packet
    have hshift : ∀ x : UInt8, seq' + UInt8.ofNat (chunksOf pkt.payload).length + x =
        seq + UInt8.ofNat (chunksOf pkt.payload).length ↔ seq' + x = seq := fun x => by
      rw [UInt8.add_assoc, UInt8.add_comm (UInt8.ofNat _), ← UInt8.add_assoc]
      exact UInt8.add_left_inj _
    rw [Aligned, hseq, reached]
    by_cases hend : Endless pkt.payload
    · rw [if_pos hend, List.forall_mem_singleton]
      exact and_iff_left (.inl hend)
    · rw [if_neg hend, List.forall_mem_cons, or_iff_right hend, ih hrest]
      exact and_congr_right fun _ => forall₂_congr fun p _ => hshift _

/-- `handle_command` on a query. -/
def handleCommandQuery (fuel : ℕ) (env : Env) (session : Session) (pkt : MySqlPacket)
    (client : ClientSide) : (ClientSide × Option Ended) × Session :=
  serveComQuery fuel env session pkt.payload { client with seq := pkt.sequence + 1 }

theorem exchange_fst_of_ok {fuel : ℕ} {backend : Backend} {err payload : Bytes}
    {client : ClientSide} {r : UInt8 × OutSocket} (h : client.socket.Reliable)
    (hwrite : writePacket fuel backend.socket payload 0 = some (.ok (), r)) :
    (exchange fuel backend err payload client).1 =
      deliver fuel (taken .first backend.stream).1 (taken .first backend.stream).2 err client := by
  simp only [exchange, hwrite, proxySoFar_of_reliable fuel .first backend.stream h, deliver]
  obtain ⟨client', all⟩ := sendAll fuel (taken .first backend.stream).1 client
  cases all with
  | false => rfl
  | true => cases (taken .first backend.stream).2 <;> rfl

theorem consecutive_sendLast {client : ClientSide} (h : client.socket.Reliable) (fuel : ℕ)
    (payload : Bytes) :
    Consecutive client.seq client.socket.wire (sendLast fuel client payload).1.socket.wire := by
  obtain ⟨cs, hcs, -, hsend⟩ := exists_push_sendSoFar h fuel payload
  rw [show (sendLast fuel client payload).1 = client.push cs from hsend]
  exact .push hcs

/-- The numbers towards the client are consecutive for every query that gets no answer from a
backend; for the others it is a matter of the packets of the answer. -/
theorem forall_consecutive_serve_iff (client : ClientSide) (h : client.socket.Reliable)
    (payload : Bytes) (course : Course) :
    (∀ fuel, Consecutive client.seq client.socket.wire
      (course.serve fuel payload client).1.socket.wire) ↔
    ∀ backend err, course = .forwarded backend err → Delivered backend.socket payload →
      Aligned client.seq (taken .first backend.stream).1 := by
  cases course with
  | answered => exact iff_of_true (fun fuel => consecutive_sendLast h fuel _) nofun
  | broken => exact iff_of_true (fun fuel => .refl _ _) nofun
  | refused err => exact iff_of_true (fun fuel => consecutive_sendLast h fuel _) nofun
  | forwarded backend err =>
    constructor
    · rintro hall _ _ ⟨rfl, rfl⟩ hdel
      obtain ⟨n, r, hn⟩ := exists_writePacket_of_delivered hdel 0
      refine (forall_consecutive_iff_aligned h n _ (taken .first backend.stream).2 err).mp
        fun fuel hle => ?_
      rw [← exchange_fst_of_ok h (hn fuel hle)]
      exact hall fuel
    · intro haligned fuel
      show Consecutive _ _ (exchange fuel backend err payload client).1.socket.wire
      cases hwrite : writePacket fuel backend.socket payload 0 with
      | none =>
        rw [exchange, hwrite]
        exact .refl _ _
      | some r =>
        obtain ⟨e | ⟨⟩, r⟩ := r
        · rw [exchange, hwrite]
          exact consecutive_sendLast h fuel err
        · rw [exchange_fst_of_ok h hwrite]
          exact (forall_consecutive_iff_aligned h 0 _ _ err).mpr
            (haligned backend err rfl (delivered_of_writePacket hwrite)) fuel (Nat.zero_le _)

theorem ofNat_add_ofNat_eq_iff (m n : ℕ) (seq : UInt8) :
    UInt8.ofNat m + UInt8.ofNat n = seq + 1 ↔ (m + (n + 1)) % 256 = (seq.toNat + 2) % 256 := by
  rw [← UInt8.ofNat_add, ← UInt8.toNat_inj, UInt8.toNat_ofNat', UInt8.toNat_add]
  have hone : (1 : UInt8).toNat = 1 := rfl
  rw [hone]
  omega

/-- **When the numbers towards the client are consecutive.** For every query, session and
surrounding, a client that takes every write, and a backend whose frames are numbered on from those
of the query: the frames to the client are numbered on from the last frame of the request, at every
bound on the iterations, if and only if the frames of the query and of each packet that is sent on
are together two more than the last number of the request, modulo 256. -/
theorem sequence_consecutive_iff (env : Env) (session : Session) (pkt : MySqlPacket)
    (client : ClientSide) (hclient : client.socket.Reliable)
    (hbackend : ∀ backend err, env.course session pkt.payload = .forwarded backend err →
      Delivered backend.socket pkt.payload → ∃ payloads, backend.stream <+:
        wireOf (consecutive (UInt8.ofNat (chunksOf pkt.payload).length) payloads)) :
    (∀ fuel, Consecutive (pkt.sequence + 1) client.socket.wire
      (handleCommandQuery fuel env session pkt client).1.1.socket.wire) ↔
    ∀ backend err, env.course session pkt.payload = .forwarded backend err →
      Delivered backend.socket pkt.payload → ∀ p ∈ reached (taken .first backend.stream).1,
        ((chunksOf pkt.payload).length + (chunksOf p.payload).length) % 256 =
          (pkt.sequence.toNat + 2) % 256 := by
  have hserve : ∀ fuel, (handleCommandQuery fuel env session pkt client).1 =
      (env.course session pkt.payload).serve fuel pkt.payload
        { client with seq := pkt.sequence + 1 } := fun fuel => serveComQuery_fst ..
  have hclient' : ({ client with seq := pkt.sequence + 1 } : ClientSide).socket.Reliable := hclient
  simp only [hserve]
  rw [forall_consecutive_serve_iff _ hclient']
  refine forall₄_congr fun backend err hcourse hdel => ?_
  obtain ⟨payloads, hstream⟩ := hbackend backend err hcourse hdel
  rw [aligned_iff (continues_taken payloads hstream .first)]
  refine forall₂_congr fun p _ => ?_
  rw [length_chunksOf p.payload]
  exact ofNat_add_ofNat_eq_iff _ _ _

/-- A `SELECT 1` that is numbered from zero, and answered with an OK packet in one frame. -/
theorem sequence_consecutive_select :
    encodeFrames okReply 1 <+: wireOf (consecutive 1 [okReply]) ∧
    ∀ fuel, Consecutive (0 + 1) []
      (handleCommandQuery fuel (twoServers (encodeFrames okReply 1)) ⟨[], false, true⟩
        ⟨9, 0, 3 :: bytesOf "SELECT 1"⟩ ⟨⟨[], 0, fun _ => none⟩, 0⟩).1.1.socket.wire := by
  have hquery : (chunksOf (3 :: bytesOf "SELECT 1")).length = 1 := by
    rw [length_chunksOf, maxPacketSize_eq]
    decide +kernel
  have hreply : (chunksOf okReply).length = 1 := by
    rw [length_chunksOf, maxPacketSize_eq]
    decide
  have hstream : encodeFrames okReply 1 <+: wireOf (consecutive 1 [okReply]) :=
    List.prefix_append _ _
  refine ⟨hstream, (sequence_consecutive_iff (twoServers (encodeFrames okReply 1)) ⟨[], false, true⟩
    ⟨9, 0, 3 :: bytesOf "SELECT 1"⟩ ⟨⟨[], 0, fun _ => none⟩, 0⟩ (fun _ => rfl) ?_).mpr ?_⟩
  · intro backend err hcourse _
    obtain ⟨rfl, -⟩ := Course.forwarded.inj ((course_twoServers _).symm.trans hcourse)
    refine ⟨[okReply], ?_⟩
    rw [hquery]
    exact hstream
  · intro backend err hcourse _ p hp
    obtain ⟨rfl, -⟩ := Course.forwarded.inj ((course_twoServers _).symm.trans hcourse)
    rw [taken_encodeFrames_single rfl 1, reached, if_neg not_endless_okReply] at hp
    obtain rfl := List.mem_singleton.mp hp
    rw [hquery, hreply]
    rfl

/-- An OK packet that takes two frames. -/
def longOk : Bytes := okPacket :: List.replicate maxPacketSize 0

/-- The same query, answered in two frames: the client's first frame has the number of the
second. -/
theorem sequence_jumps_longOk :
    encodeFrames longOk 1 <+: wireOf (consecutive 1 [longOk]) ∧
    ¬ ∀ fuel, Consecutive (0 + 1) []
      (handleCommandQuery fuel (twoServers (encodeFrames longOk 1)) ⟨[], false, true⟩
        ⟨9, 0, 3 :: bytesOf "SELECT 1"⟩ ⟨⟨[], 0, fun _ => none⟩, 0⟩).1.1.socket.wire := by
  refine ⟨List.prefix_append _ _, fun hall => ?_⟩
  have hend : ¬ Endless (3 :: bytesOf "SELECT 1") := by
    rw [Endless, maxPacketSize_eq]
    decide +kernel
  have hserve : ∀ fuel, (handleCommandQuery fuel (twoServers (encodeFrames longOk 1))
      ⟨[], false, true⟩ ⟨9, 0, 3 :: bytesOf "SELECT 1"⟩ ⟨⟨[], 0, fun _ => none⟩, 0⟩).1 = _ :=
    fun fuel => serveComQuery_fst ..
  simp only [hserve] at hall
  rw [course_twoServers] at hall
  have haligned := (forall_consecutive_serve_iff ⟨⟨[], 0, fun _ => none⟩, 0 + 1⟩
    (fun _ => rfl) _ _).mp hall _ _ rfl ⟨hend, fun _ _ => rfl⟩
  rw [taken_encodeFrames_single rfl 1] at haligned
  have hdiv : longOk.length / maxPacketSize = 1 := by
    rw [longOk, List.length_cons, List.length_replicate, maxPacketSize_eq]
  have hseq : 1 + UInt8.ofNat (longOk.length / maxPacketSize) = 0 + 1 := haligned.1
  rw [hdiv] at hseq
  exact absurd hseq (by decide)

end DBMesh.Protocol
