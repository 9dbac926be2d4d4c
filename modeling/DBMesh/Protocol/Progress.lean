import DBMesh.Protocol.RouteAndForward

/-!
# A response on its way

`send` and `proxy_result` with what the client has got so far, also where a write has not ended. The
bound on the iterations of each write is where the observation stops: what the client sees of a
write that never ends is what it has seen at every bound.

`taken` says which packets `proxy_result` takes off the backend's stream, and whether they are a
whole response, with no client involved. On a socket that takes every write, `proxy_result` sends
these packets one after the other, up to one that is never sent.

## Main definitions

* `DBMesh.Protocol.sendSoFar`, `proxySoFar` — the client after at most so many iterations
* `DBMesh.Protocol.taken` — the packets of a response

## Main results

* `DBMesh.Protocol.proxySoFar_eq_resume` — where the writes end, this is `proxy_result`
* `DBMesh.Protocol.proxySoFar_of_reliable` — it sends the packets of the response in order
-/

namespace DBMesh.Protocol

open Checkout (Stage resume resume_eq)

/-! ### The code, observed -/

/-- The client's side of a write that has ended, or has not. -/
def WriteState.client : WriteState ⊕ (Except IoError Unit × UInt8 × OutSocket) → ClientSide
  | .inl st => ⟨st.sock, st.seq⟩
  | .inr (_, seq, socket) => ⟨socket, seq⟩

/-- Whether the write has ended, and if it has, whether it went through. -/
def WriteState.sent : WriteState ⊕ (Except IoError Unit × UInt8 × OutSocket) → Option Bool
  | .inl _ => none
  | .inr (.ok (), _, _) => some true
  | .inr (.error _, _, _) => some false

/-- `MySqlConnection::send` after at most `fuel` iterations of `write_packet`. -/
def sendSoFar (fuel : ℕ) (client : ClientSide) (payload : Bytes) : ClientSide × Option Bool :=
  let st := Loop.after (writePacketBody payload) fuel ⟨0, client.seq, client.socket⟩
  (WriteState.client st, WriteState.sent st)

theorem send_eq_sendSoFar (fuel : ℕ) (client : ClientSide) (payload : Bytes) :
    send fuel client payload =
      (sendSoFar fuel client payload).2.map fun ok => (ok, (sendSoFar fuel client payload).1) := by
  rw [send, writePacket, Loop.run_eq_getRight?_after, sendSoFar]
  rcases Loop.after (writePacketBody payload) fuel ⟨0, client.seq, client.socket⟩ with
    st | ⟨_ | _, seq, socket⟩ <;> rfl

/-- `MySqlConnection::proxy_result` from a stage on, with at most `fuel` iterations of each
write. -/
def proxySoFar (fuel : ℕ) (stage : Stage) (backend : Bytes) (client : ClientSide) :
    ClientSide × Option Proxied :=
  match _h : readPacket backend with
  | .error _ => (client, some (.returned false))
  | .ok (pkt, rest) =>
    match sendSoFar fuel { client with seq := pkt.sequence } pkt.payload with
    | (client, none) => (client, none)
    | (client, some false) => (client, some .threw)
    | (client, some true) =>
      match stage.next pkt.payload with
      | none => (client, some (.returned true))
      | some stage => proxySoFar fuel stage rest client
termination_by backend.length
decreasing_by exact length_of_readPacket _h

theorem proxySoFar_eq (fuel : ℕ) (stage : Stage) (backend : Bytes) (client : ClientSide) :
    proxySoFar fuel stage backend client =
      match readPacket backend with
      | .error _ => (client, some (.returned false))
      | .ok (pkt, rest) =>
        match sendSoFar fuel { client with seq := pkt.sequence } pkt.payload with
        | (client, none) => (client, none)
        | (client, some false) => (client, some .threw)
        | (client, some true) =>
          match stage.next pkt.payload with
          | none => (client, some (.returned true))
          | some stage => proxySoFar fuel stage rest client := by
  rw [proxySoFar]
  split
  · next h => rw [h]
  · next h => rw [h]

/-- **Where the writes end, this is `proxy_result`.** -/
theorem proxySoFar_eq_resume (fuel : ℕ) (stage : Stage) (backend : Bytes) (client : ClientSide) :
    (proxySoFar fuel stage backend client).2 =
        (resume fuel stage backend client).map Exit.result ∧
      ∀ exit, resume fuel stage backend client = some exit →
        (proxySoFar fuel stage backend client).1 = exit.client := by
  -- each packet that is forwarded leaves a shorter stream
  induction hn : backend.length using Nat.strong_induction_on generalizing stage backend client with
  | _ n ih =>
    subst hn
    rw [proxySoFar_eq, resume_eq, forwardPacket]
    cases hread : readPacket backend with
    | error e => exact ⟨rfl, fun exit h => by rw [← Option.some.inj h]⟩
    | ok r =>
      obtain ⟨pkt, rest⟩ := r
      simp only [send_eq_sendSoFar]
      rcases sendSoFar fuel { client with seq := pkt.sequence } pkt.payload with
        ⟨client', _ | _ | _⟩
      · exact ⟨rfl, fun exit h => by cases h⟩
      · exact ⟨rfl, fun exit h => by rw [← Option.some.inj h]⟩
      · simp only [Option.map_some]
        cases hnext : stage.next pkt.payload with
        | none => exact ⟨rfl, fun exit h => by rw [← Option.some.inj h]⟩
        | some stage' => exact ih rest.length (length_of_readPacket hread) stage' rest client' rfl

/-! ### The packets of a response -/

/-- The packets that `proxy_result` takes off the backend's stream, and whether the response was
whole. -/
def taken (stage : Stage) (stream : Bytes) : List MySqlPacket × Bool :=
  match _h : readPacket stream with
  | .error _ => ([], false)
  | .ok (pkt, rest) =>
    match stage.next pkt.payload with
    | none => ([pkt], true)
    | some stage => (pkt :: (taken stage rest).1, (taken stage rest).2)
termination_by stream.length
decreasing_by all_goals exact length_of_readPacket _h

theorem taken_eq (stage : Stage) (stream : Bytes) :
    taken stage stream =
      match readPacket stream with
      | .error _ => ([], false)
      | .ok (pkt, rest) =>
        match stage.next pkt.payload with
        | none => ([pkt], true)
        | some stage => (pkt :: (taken stage rest).1, (taken stage rest).2) := by
  rw [taken]
  split
  · next h => rw [h]
  · next h => rw [h]

/-- Packets sent one after the other, up to one whose write has not ended. -/
def sendAll (fuel : ℕ) : List MySqlPacket → ClientSide → ClientSide × Bool
  | [], client => (client, true)
  | pkt :: pkts, client =>
    match sendSoFar fuel { client with seq := pkt.sequence } pkt.payload with
    | (client, some true) => sendAll fuel pkts client
    | (client, _) => (client, false)

/-! ### A client that takes every write -/

/-- The client once frames with these chunks have been written to it. -/
def ClientSide.push (client : ClientSide) (cs : List Bytes) : ClientSide :=
  ⟨client.socket.pushFrames (number client.seq cs), client.seq + UInt8.ofNat cs.length⟩

theorem ClientSide.push_nil (client : ClientSide) : client.push [] = client := by
  obtain ⟨⟨wire, writes, fault⟩, seq⟩ := client
  show ClientSide.mk ⟨wire ++ [], writes + 0, fault⟩ (seq + 0) = _
  rw [List.append_nil, Nat.add_zero, UInt8.add_zero]

theorem ClientSide.push_cons (client : ClientSide) (c₀ : Bytes) (cs : List Bytes) :
    client.push (c₀ :: cs) =
      ClientSide.push ⟨client.socket.push (Frame.bytes ⟨client.seq, c₀⟩), client.seq + 1⟩ cs := by
  rw [push, push, number, OutSocket.pushFrames_cons, List.length_cons, ← add_one_add_ofNat]

theorem reliable_push {client : ClientSide} (h : client.socket.Reliable) (cs : List Bytes) :
    (client.push cs).socket.Reliable := h

/-- A write puts frames on the wire that are numbered on from the client's number, one of them at
least, whether it ends or not. -/
theorem exists_push_after (fuel : ℕ) (payload : Bytes) (st : WriteState) (h : st.sock.Reliable) :
    ∃ cs, (∀ c ∈ cs, c.length ≤ maxPacketSize) ∧ (0 < fuel → cs ≠ []) ∧
      WriteState.client (Loop.after (writePacketBody payload) fuel st) =
        ClientSide.push ⟨st.sock, st.seq⟩ cs := by
  induction fuel generalizing st with
  | zero =>
    exact ⟨[], by simp, fun h => absurd h (Nat.lt_irrefl 0), (ClientSide.push_nil _).symm⟩
  | succ fuel ih =>
    have hlen : (nextFrame payload st).payload.length ≤ maxPacketSize := List.length_take_le _ _
    obtain ⟨_, -, hnot⟩ | ⟨hb, -⟩ | ⟨hb, -⟩ := writePacketBody_cases payload st
    · exact absurd h hnot
    · obtain ⟨cs, hcs, -, hafter⟩ := ih ⟨st.offset + (nextFrame payload st).payload.length,
        st.seq + 1, st.sock.push (nextFrame payload st).bytes⟩ h
      refine ⟨(nextFrame payload st).payload :: cs, List.forall_mem_cons.mpr ⟨hlen, hcs⟩,
        fun _ => List.cons_ne_nil _ _, ?_⟩
      rw [Loop.after_succ_of_inl hb, hafter, ClientSide.push_cons]
      rfl
    · refine ⟨[(nextFrame payload st).payload], List.forall_mem_singleton.mpr hlen,
        fun _ => List.cons_ne_nil _ _, ?_⟩
      rw [Loop.after_succ_of_inr hb, ClientSide.push_cons, ClientSide.push_nil]
      rfl

theorem exists_push_sendSoFar {client : ClientSide} (h : client.socket.Reliable) (fuel : ℕ)
    (payload : Bytes) :
    ∃ cs, (∀ c ∈ cs, c.length ≤ maxPacketSize) ∧ (0 < fuel → cs ≠ []) ∧
      (sendSoFar fuel client payload).1 = client.push cs :=
  exists_push_after fuel payload ⟨0, client.seq, client.socket⟩ h

/-- The chunks in which a payload is sent. -/
def chunksOf (payload : Bytes) : List Bytes := Chunk.chunks maxPacketSize payload

theorem length_chunksOf (payload : Bytes) :
    (chunksOf payload).length = payload.length / maxPacketSize + 1 :=
  Chunk.length_chunks maxPacketSize_pos payload

/-- A write that is given enough iterations ends with the payload on the wire; one that is not has
not ended. -/
theorem sendSoFar_of_reliable {client : ClientSide} (h : client.socket.Reliable) (fuel : ℕ)
    (payload : Bytes) :
    if Fits fuel payload then
      sendSoFar fuel client payload = (client.push (chunksOf payload), some true)
    else (sendSoFar fuel client payload).2 = none := by
  have hsend := send_eq_sendSoFar fuel client payload
  rw [send, writePacket_of_reliable h] at hsend
  split_ifs with hf
  · rw [if_pos hf] at hsend
    obtain ⟨ok, hok, hpair⟩ := Option.map_eq_some_iff.mp hsend.symm
    obtain ⟨rfl, hclient⟩ := Prod.mk.inj hpair
    refine Prod.ext (hclient.trans ?_) hok
    rw [ClientSide.push, length_chunksOf, ← (wellChunked_frames payload client.seq).count]
    rfl
  · rw [if_neg hf] at hsend
    exact Option.map_eq_none_iff.mp hsend.symm

theorem sendSoFar_of_fits {client : ClientSide} (h : client.socket.Reliable) {fuel : ℕ}
    {payload : Bytes} (hf : Fits fuel payload) :
    sendSoFar fuel client payload = (client.push (chunksOf payload), some true) := by
  have hsend := sendSoFar_of_reliable h fuel payload
  rwa [if_pos hf] at hsend

theorem exists_sendSoFar_of_not_fits {client : ClientSide} (h : client.socket.Reliable) {fuel : ℕ}
    {payload : Bytes} (hf : ¬ Fits fuel payload) :
    ∃ client', sendSoFar fuel client payload = (client', none) := by
  have hsend := sendSoFar_of_reliable h fuel payload
  rw [if_neg hf] at hsend
  exact ⟨_, Prod.ext rfl hsend⟩

/-- A packet that is sent, and then the others. -/
theorem sendAll_cons_of_fits {client : ClientSide} (h : client.socket.Reliable) {fuel : ℕ}
    {pkt : MySqlPacket} (hf : Fits fuel pkt.payload) (pkts : List MySqlPacket) :
    sendAll fuel (pkt :: pkts) client =
      sendAll fuel pkts
        (ClientSide.push { client with seq := pkt.sequence } (chunksOf pkt.payload)) := by
  have hclient : ({ client with seq := pkt.sequence } : ClientSide).socket.Reliable := h
  simp only [sendAll, sendSoFar_of_fits hclient hf]

/-- The others wait for a packet that is not done. -/
theorem sendAll_cons_of_not_fits {client : ClientSide} (h : client.socket.Reliable) {fuel : ℕ}
    {pkt : MySqlPacket} (hf : ¬ Fits fuel pkt.payload) (pkts : List MySqlPacket) :
    sendAll fuel (pkt :: pkts) client =
      ((sendSoFar fuel { client with seq := pkt.sequence } pkt.payload).1, false) := by
  have hclient : ({ client with seq := pkt.sequence } : ClientSide).socket.Reliable := h
  obtain ⟨client', hsend⟩ := exists_sendSoFar_of_not_fits hclient hf
  simp only [sendAll, hsend]

/-- **`proxy_result` sends the packets of the response in order**, and returns once the last one is
sent. -/
theorem proxySoFar_of_reliable (fuel : ℕ) (stage : Stage) (stream : Bytes) {client : ClientSide}
    (h : client.socket.Reliable) :
    proxySoFar fuel stage stream client =
      ((sendAll fuel (taken stage stream).1 client).1,
        if (sendAll fuel (taken stage stream).1 client).2 then
          some (.returned (taken stage stream).2)
        else none) := by
  induction hn : stream.length using Nat.strong_induction_on generalizing stage stream client with
  | _ n ih =>
    subst hn
    rw [proxySoFar_eq, taken_eq]
    cases hread : readPacket stream with
    | error e => rfl
    | ok r =>
      obtain ⟨pkt, rest⟩ := r
      have hclient : ({ client with seq := pkt.sequence } : ClientSide).socket.Reliable := h
      by_cases hf : Fits fuel pkt.payload
      · cases hnext : stage.next pkt.payload with
        | none => simp only [hnext, sendAll, sendSoFar_of_fits hclient hf, if_true]
        | some stage' =>
          simp only [hnext, sendAll_cons_of_fits h hf, sendSoFar_of_fits hclient hf]
          exact ih rest.length (length_of_readPacket hread) stage' rest
            (reliable_push hclient _) rfl
      · obtain ⟨client', hnone⟩ := exists_sendSoFar_of_not_fits hclient hf
        cases hnext : stage.next pkt.payload with
        | none => simp only [hnext, sendAll, hnone, Bool.false_eq_true, if_false]
        | some stage' => simp only [hnext, sendAll, hnone, Bool.false_eq_true, if_false]

end DBMesh.Protocol
