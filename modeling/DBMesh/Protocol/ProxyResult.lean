import DBMesh.Protocol.Framing
import DBMesh.Protocol.Packets

/-!
# Forwarding a response

`MySqlConnection::proxy_result` reads packets off the backend and sends each to the client, and
recognises the end of the response from the packets. Here: what it does with a backend that sends
one whole response, and then anything.

## Main definitions

* `DBMesh.Protocol.proxyResult`, `untilEof`, `forwardPacket` — the code, its loop, and what it does
  with one packet
* `DBMesh.Protocol.Forwards` — one response, the whole of it and nothing more, reaches the client

## Main results

* `DBMesh.Protocol.untilEof_wire` — the loop passes over the packets before an EOF
* `DBMesh.Protocol.forwards_iff` — exactly which responses are forwarded: not those that end with an
  ERR packet after the column definitions, and not those with a packet that is never sent
-/

namespace DBMesh.Protocol

/-! ### The code -/

/-- `socket_` and `seq_` of a `MySqlConnection`. -/
structure ClientSide where
  socket : OutSocket
  seq : UInt8

/-- `proxy_result` returns a flag, or `send` throws. -/
inductive Proxied
  | returned (ok : Bool)
  | threw
  deriving DecidableEq, Repr

/-- How `proxy_result` leaves the backend's stream and the client. -/
structure Exit where
  result : Proxied
  backend : Bytes
  client : ClientSide

/-- `MySqlConnection::send`, with a bound on the iterations of each `write_packet`; `false` if it
throws. -/
def send (fuel : ℕ) (client : ClientSide) (payload : Bytes) : Option (Bool × ClientSide) :=
  match writePacket fuel client.socket payload client.seq with
  | none => none
  | some (.ok (), seq, socket) => some (true, ⟨socket, seq⟩)
  | some (.error _, seq, socket) => some (false, ⟨socket, seq⟩)

/-- Read a packet off the backend, take over its sequence number and send it: the payload, the rest
of the backend's stream and the client. A read that fails has taken all there was. -/
def forwardPacket (fuel : ℕ) (backend : Bytes) (client : ClientSide) :
    Option (Except Exit (Bytes × Bytes × ClientSide)) :=
  match readPacket backend with
  | .error _ => some (.error ⟨.returned false, [], client⟩)
  | .ok (pkt, rest) =>
    match send fuel { client with seq := pkt.sequence } pkt.payload with
    | none => none
    | some (false, client) => some (.error ⟨.threw, rest, client⟩)
    | some (true, client) => some (.ok (pkt.payload, rest, client))

theorem length_of_forwardPacket {fuel : ℕ} {backend : Bytes} {client : ClientSide}
    {r : Bytes × Bytes × ClientSide} (h : forwardPacket fuel backend client = some (.ok r)) :
    r.2.1.length < backend.length := by
  rw [forwardPacket] at h
  split at h
  · exact absurd h (by simp)
  · next pkt rest hread =>
    have hlt := length_of_readPacket hread
    split at h
    · exact absurd h (by simp)
    · exact absurd h (by simp)
    · obtain rfl := Except.ok.inj (Option.some.inj h)
      exact hlt

/-- Forward packets up to an EOF packet. -/
def untilEof (fuel : ℕ) (backend : Bytes) (client : ClientSide) :
    Option (Except Exit (Bytes × ClientSide)) :=
  match _h : forwardPacket fuel backend client with
  | none => none
  | some (.error e) => some (.error e)
  | some (.ok (payload, rest, client)) =>
    if isEofPacket payload then some (.ok (rest, client)) else untilEof fuel rest client
termination_by backend.length
decreasing_by exact length_of_forwardPacket _h

/-- The first byte of the first packet decides the shape of the response: one packet, or a result
set. -/
def singlePacket (payload : Bytes) : Bool :=
  let b₀ := payload.headD 0
  b₀ == okPacket || b₀ == errPacket || b₀ == 0xFB

/-- `MySqlConnection::proxy_result` -/
def proxyResult (fuel : ℕ) (backend : Bytes) (client : ClientSide) : Option Exit :=
  match forwardPacket fuel backend client with
  | none => none
  | some (.error e) => some e
  | some (.ok (payload, rest, client)) =>
    if singlePacket payload then some ⟨.returned true, rest, client⟩
    else
      -- column definitions, then rows
      match untilEof fuel rest client with
      | none => none
      | some (.error e) => some e
      | some (.ok (rest, client)) =>
        match untilEof fuel rest client with
        | none => none
        | some (.error e) => some e
        | some (.ok (rest, client)) => some ⟨.returned true, rest, client⟩

theorem untilEof_eq (fuel : ℕ) (backend : Bytes) (client : ClientSide) :
    untilEof fuel backend client =
      match forwardPacket fuel backend client with
      | none => none
      | some (.error e) => some (.error e)
      | some (.ok (payload, rest, client)) =>
        if isEofPacket payload then some (.ok (rest, client)) else untilEof fuel rest client := by
  rw [untilEof]
  split
  · next h => rw [h]
  · next h => rw [h]
  · next h => rw [h]

/-- A loop that ends has taken a packet. -/
theorem length_of_untilEof {fuel : ℕ} {backend : Bytes} {client : ClientSide}
    {r : Bytes × ClientSide} (h : untilEof fuel backend client = some (.ok r)) :
    r.1.length < backend.length := by
  induction backend, client using untilEof.induct fuel with
  | case1 backend client hf =>
    rw [untilEof_eq, hf] at h
    exact absurd h (by simp)
  | case2 backend client e hf =>
    rw [untilEof_eq, hf] at h
    exact absurd h (by simp)
  | case3 backend client payload rest client' hf heof =>
    rw [untilEof_eq, hf] at h
    simp only [heof, if_true] at h
    obtain rfl := Except.ok.inj (Option.some.inj h)
    exact length_of_forwardPacket hf
  | case4 backend client payload rest client' hf heof ih =>
    rw [untilEof_eq, hf] at h
    simp only [heof, Bool.false_eq_true, if_false] at h
    exact Nat.lt_trans (ih h) (length_of_forwardPacket hf)

/-- Leaving early is never taken for success. -/
theorem result_of_forwardPacket {fuel : ℕ} {backend : Bytes} {client : ClientSide} {e : Exit}
    (h : forwardPacket fuel backend client = some (.error e)) : e.result ≠ .returned true := by
  rw [forwardPacket] at h
  split at h
  · obtain rfl := Except.error.inj (Option.some.inj h)
    exact fun hret => absurd hret (by simp)
  · split at h
    · exact absurd h (by simp)
    · obtain rfl := Except.error.inj (Option.some.inj h)
      exact fun hret => absurd hret (by simp)
    · exact absurd h (by simp)

theorem result_of_untilEof {fuel : ℕ} {backend : Bytes} {client : ClientSide} {e : Exit}
    (h : untilEof fuel backend client = some (.error e)) : e.result ≠ .returned true := by
  induction backend, client using untilEof.induct fuel with
  | case1 backend client hf =>
    rw [untilEof_eq, hf] at h
    exact absurd h (by simp)
  | case2 backend client e' hf =>
    rw [untilEof_eq, hf] at h
    obtain rfl := Except.error.inj (Option.some.inj h)
    exact result_of_forwardPacket hf
  | case3 backend client payload rest client' hf heof =>
    rw [untilEof_eq, hf] at h
    simp only [heof, if_true] at h
    exact absurd h (by simp)
  | case4 backend client payload rest client' hf heof ih =>
    rw [untilEof_eq, hf] at h
    simp only [heof, Bool.false_eq_true, if_false] at h
    exact ih h

/-! ### Packets on the wire -/

/-- Packets as a backend sends them, each with the sequence number of its first frame. -/
def wireOf (pkts : List (UInt8 × Bytes)) : Bytes := pkts.flatMap fun p => encodeFrames p.2 p.1

theorem wireOf_cons (p : UInt8 × Bytes) (pkts : List (UInt8 × Bytes)) :
    wireOf (p :: pkts) = encodeFrames p.2 p.1 ++ wireOf pkts := List.flatMap_cons

theorem wireOf_append (pkts pkts' : List (UInt8 × Bytes)) :
    wireOf (pkts ++ pkts') = wireOf pkts ++ wireOf pkts' := List.flatMap_append

/-- The sequence number of the last frame of a packet, which `read_packet` returns. -/
def lastSequence (p : UInt8 × Bytes) : UInt8 := p.1 + UInt8.ofNat (p.2.length / maxPacketSize)

/-- The client once a packet of the backend has been sent on. -/
def ClientSide.sent (client : ClientSide) (p : UInt8 × Bytes) : ClientSide :=
  ⟨client.socket.pushFrames (frames p.2 (lastSequence p)),
    lastSequence p + UInt8.ofNat (frames p.2 (lastSequence p)).length⟩

theorem reliable_foldl_sent {client : ClientSide} (h : client.socket.Reliable)
    (pkts : List (UInt8 × Bytes)) : (pkts.foldl ClientSide.sent client).socket.Reliable := by
  induction pkts generalizing client with
  | nil => exact h
  | cons p pkts ih => exact ih h

theorem wire_foldl_sent (client : ClientSide) (pkts : List (UInt8 × Bytes)) :
    (pkts.foldl ClientSide.sent client).socket.wire =
      client.socket.wire ++ wireOf (pkts.map fun p => (lastSequence p, p.2)) := by
  induction pkts generalizing client with
  | nil => exact (List.append_nil _).symm
  | cons p pkts ih =>
    rw [List.foldl_cons, ih, List.map_cons, wireOf_cons, ← List.append_assoc]
    rfl

theorem forwardPacket_wire {client : ClientSide} (h : client.socket.Reliable) (fuel : ℕ)
    (p : UInt8 × Bytes) (rest : Bytes) :
    forwardPacket fuel (encodeFrames p.2 p.1 ++ rest) client =
      if Fits fuel p.2 then some (.ok (p.2, rest, client.sent p)) else none := by
  rw [forwardPacket, readPacket_encodeFrames]
  simp only [send, writePacket_of_reliable h]
  by_cases hf : Fits fuel p.2
  · simp only [hf, if_true]
    rfl
  · simp only [hf, if_false]

/-- **The loop over packets that are not EOF packets**: it passes them on, unless one of them is
never sent. -/
theorem untilEof_wire (fuel : ℕ) {pkts : List (UInt8 × Bytes)}
    (hpkts : ∀ p ∈ pkts, isEofPacket p.2 = false) {client : ClientSide}
    (h : client.socket.Reliable) (more : Bytes) :
    untilEof fuel (wireOf pkts ++ more) client =
      if ∀ p ∈ pkts, Fits fuel p.2 then untilEof fuel more (pkts.foldl ClientSide.sent client)
      else none := by
  induction pkts generalizing client with
  | nil => simp [wireOf]
  | cons p pkts ih =>
    rw [List.forall_mem_cons] at hpkts
    rw [wireOf_cons, List.append_assoc, untilEof_eq, forwardPacket_wire h]
    simp only [List.forall_mem_cons, List.foldl_cons, ite_and]
    by_cases hf : Fits fuel p.2
    · simp only [hf, if_true, hpkts.1, Bool.false_eq_true, if_false]
      exact ih hpkts.2 h
    · simp only [hf, if_false]

theorem untilEof_eof (fuel : ℕ) {p : UInt8 × Bytes} (hp : isEofPacket p.2 = true)
    {client : ClientSide} (h : client.socket.Reliable) (more : Bytes) :
    untilEof fuel (encodeFrames p.2 p.1 ++ more) client =
      if Fits fuel p.2 then some (.ok (more, client.sent p)) else none := by
  rw [untilEof_eq, forwardPacket_wire h]
  by_cases hf : Fits fuel p.2
  · simp only [hf, if_true, hp]
  · simp only [hf, if_false]

/-! ### Whole responses -/

/-- What is left of `proxy_result` once the rows are being forwarded. -/
def finish : Option (Except Exit (Bytes × ClientSide)) → Option Exit
  | none => none
  | some (.error e) => some e
  | some (.ok (rest, client)) => some ⟨.returned true, rest, client⟩

theorem proxyResult_single (fuel : ℕ) {p : UInt8 × Bytes} (hp : singlePacket p.2 = true)
    {client : ClientSide} (h : client.socket.Reliable) (rest : Bytes) :
    proxyResult fuel (wireOf [p] ++ rest) client =
      if ∀ q ∈ [p], Fits fuel q.2 then
        some ⟨.returned true, rest, [p].foldl ClientSide.sent client⟩
      else none := by
  rw [wireOf_cons, show wireOf [] = [] from rfl, List.append_nil, proxyResult, forwardPacket_wire h]
  by_cases hf : Fits fuel p.2
  · simp [hf, hp]
  · simp [hf]

/-- A result set up to its last packet: the column count, the column definitions and their EOF, and
the rows. -/
theorem proxyResult_rows (fuel : ℕ) {count eof : UInt8 × Bytes}
    {columns rows : List (UInt8 × Bytes)} (hcount : singlePacket count.2 = false)
    (hcolumns : ∀ p ∈ columns, isEofPacket p.2 = false) (heof : isEofPacket eof.2 = true)
    (hrows : ∀ p ∈ rows, isEofPacket p.2 = false) {client : ClientSide}
    (h : client.socket.Reliable) (more : Bytes) :
    proxyResult fuel (wireOf (count :: (columns ++ eof :: rows)) ++ more) client =
      if ∀ p ∈ count :: (columns ++ eof :: rows), Fits fuel p.2 then
        finish (untilEof fuel more
          ((count :: (columns ++ eof :: rows)).foldl ClientSide.sent client))
      else none := by
  have h₁ : (client.sent count).socket.Reliable := h
  have h₂ := reliable_foldl_sent h₁ columns
  have h₃ : ((columns.foldl ClientSide.sent (client.sent count)).sent eof).socket.Reliable := h₂
  simp only [wireOf_cons, wireOf_append, List.append_assoc, List.forall_mem_cons,
    List.forall_mem_append, List.foldl_cons, List.foldl_append, ite_and]
  rw [proxyResult, forwardPacket_wire h]
  by_cases hf : Fits fuel count.2
  swap
  · simp only [hf, if_false]
  simp only [hf, if_true, hcount, Bool.false_eq_true, if_false]
  rw [untilEof_wire fuel hcolumns h₁]
  by_cases hfc : ∀ p ∈ columns, Fits fuel p.2
  swap
  · rw [if_neg hfc, if_neg hfc]
  rw [if_pos hfc, if_pos hfc, untilEof_eof fuel heof h₂]
  by_cases hfe : Fits fuel eof.2
  swap
  · simp only [hfe, if_false]
  simp only [hfe, if_true]
  rw [untilEof_wire fuel hrows h₃]
  by_cases hfr : ∀ p ∈ rows, Fits fuel p.2
  swap
  · rw [if_neg hfr, if_neg hfr]
  rw [if_pos hfr, if_pos hfr]
  rfl

theorem finish_eq_some {o : Option (Except Exit (Bytes × ClientSide))} {e : Exit}
    (h : finish o = some e) : o = some (.error e) ∨
      ∃ rest client, o = some (.ok (rest, client)) ∧ e = ⟨.returned true, rest, client⟩ := by
  match o with
  | none => exact absurd h (by simp [finish])
  | some (.error e') => exact .inl (by rw [Option.some.inj h])
  | some (.ok (rest, client)) => exact .inr ⟨rest, client, rfl, (Option.some.inj h).symm⟩

/-- The packets of a result set, taken apart. -/
theorem exists_packets {rs : ResultSet} {pkts : List (UInt8 × Bytes)}
    (h : pkts.map Prod.snd = (Response.resultSet rs).payloads) :
    ∃ count columns eof rows last, pkts = count :: (columns ++ eof :: rows) ++ [last] ∧
      singlePacket count.2 = false ∧ (∀ p ∈ columns, isEofPacket p.2 = false) ∧
      isEofPacket eof.2 = true ∧ (∀ p ∈ rows, isEofPacket p.2 = false) ∧
      last.2 = rs.closing.payload := by
  obtain ⟨count, tail, rfl, hcount, htail⟩ := List.map_eq_cons_iff.mp h
  obtain ⟨columns, tail, rfl, hcolumns, htail⟩ := List.map_eq_append_iff.mp htail
  obtain ⟨eof, tail, rfl, heof, htail⟩ := List.map_eq_cons_iff.mp htail
  obtain ⟨rows, tail, rfl, hrows, htail⟩ := List.map_eq_append_iff.mp htail
  obtain ⟨last, tail, rfl, hlast, htail⟩ := List.map_eq_cons_iff.mp htail
  obtain rfl := List.map_eq_nil_iff.mp htail
  refine ⟨count, columns, eof, rows, last, by simp, ?_, fun p hp => ?_, ?_, fun p hp => ?_, hlast⟩
  · obtain ⟨b, bs, hb, h00, hFF, hFB⟩ :=
      makeColumnCount_head (List.length_pos_iff.mpr rs.columns_ne_nil)
    rw [hcount, hb]
    simp [singlePacket, h00, hFF, hFB]
  · have hmem : p.2 ∈ rs.columnPayloads := hcolumns ▸ List.mem_map_of_mem hp
    obtain ⟨c, -, hc⟩ := List.mem_map.mp hmem
    rw [← hc]
    exact isEofPacket_columnDef c
  · rw [heof]
    exact isEofPacket_makeEof _ _
  · have hmem : p.2 ∈ rs.rowPayloads := hrows ▸ List.mem_map_of_mem hp
    obtain ⟨row, hrow, hr⟩ := List.mem_map.mp hmem
    rw [← hr]
    refine isEofPacket_textRow fun hnil => rs.columns_ne_nil (List.eq_nil_of_length_eq_zero ?_)
    rw [← rs.length_row row hrow, hnil, List.length_nil]

/-- One response, as the client should get it: `proxy_result` ends, returns `true` with everything
after the response unread, and has sent the client the payloads of the response in order. -/
def Forwards (R : Response) (pkts : List (UInt8 × Bytes)) (rest : Bytes) (client : ClientSide) :
    Prop :=
  ∃ fuel exit, proxyResult fuel (wireOf pkts ++ rest) client = some exit ∧
    exit.result = .returned true ∧ exit.backend = rest ∧
    ∃ sent : List (UInt8 × Bytes), sent.map Prod.snd = R.payloads ∧
      exit.client.socket.wire = client.socket.wire ++ wireOf sent

/-- A response that ends as it should is forwarded, with enough iterations for each packet. -/
theorem proxyResult_response {R : Response} (hR : ¬ R.FailsMidway) {pkts : List (UInt8 × Bytes)}
    (hpkts : pkts.map Prod.snd = R.payloads) (fuel : ℕ) (rest : Bytes) {client : ClientSide}
    (h : client.socket.Reliable) :
    proxyResult fuel (wireOf pkts ++ rest) client =
      if ∀ p ∈ pkts, Fits fuel p.2 then
        some ⟨.returned true, rest, pkts.foldl ClientSide.sent client⟩
      else none := by
  cases R with
  | ok body =>
    obtain ⟨p, tail, rfl, hp, htail⟩ := List.map_eq_cons_iff.mp hpkts
    obtain rfl := List.map_eq_nil_iff.mp htail
    exact proxyResult_single fuel (by rw [hp]; rfl) h rest
  | err body =>
    obtain ⟨p, tail, rfl, hp, htail⟩ := List.map_eq_cons_iff.mp hpkts
    obtain rfl := List.map_eq_nil_iff.mp htail
    exact proxyResult_single fuel (by rw [hp]; rfl) h rest
  | resultSet rs =>
    obtain ⟨count, columns, eof, rows, last, rfl, hcount, hcolumns, heof, hrows, hlast⟩ :=
      exists_packets hpkts
    have hclose : isEofPacket last.2 = true := by
      cases hc : rs.closing with
      | eof warnings statusFlags => rw [hlast, hc]; exact isEofPacket_makeEof _ _
      | err body => exact absurd ⟨body, hc⟩ hR
    have hrel := reliable_foldl_sent h (count :: (columns ++ eof :: rows))
    rw [wireOf_append, List.append_assoc, proxyResult_rows fuel hcount hcolumns heof hrows h,
      wireOf_cons, show wireOf [] = [] from rfl, List.append_nil, untilEof_eof fuel hclose hrel]
    simp only [List.forall_mem_append, List.foldl_append, ite_and]
    by_cases hf : ∀ p ∈ count :: (columns ++ eof :: rows), Fits fuel p.2
    · rw [if_pos hf, if_pos hf]
      by_cases hl : Fits fuel last.2
      · simp [hl, finish]
      · simp [hl, finish]
    · rw [if_neg hf, if_neg hf]

/-- An ERR packet in place of the last EOF is passed on like a row: whatever `proxy_result` then
returns, it has waited for a further packet. -/
theorem not_forwards_of_failsMidway {R : Response} (hR : R.FailsMidway)
    {pkts : List (UInt8 × Bytes)} (hpkts : pkts.map Prod.snd = R.payloads) (rest : Bytes)
    {client : ClientSide} (h : client.socket.Reliable) : ¬ Forwards R pkts rest client := by
  rintro ⟨fuel, exit, hexit, hret, hrest, -⟩
  cases R with
  | ok body => exact hR
  | err body => exact hR
  | resultSet rs =>
    obtain ⟨body, hbody⟩ := hR
    obtain ⟨count, columns, eof, rows, last, rfl, hcount, hcolumns, heof, hrows, hlast⟩ :=
      exists_packets hpkts
    have hlast' : isEofPacket last.2 = false := by
      rw [hlast, hbody]
      exact isEofPacket_err body
    have hrel := reliable_foldl_sent h (count :: (columns ++ eof :: rows))
    rw [wireOf_append, List.append_assoc, proxyResult_rows fuel hcount hcolumns heof hrows h,
      untilEof_wire fuel (by simpa using hlast') hrel] at hexit
    split_ifs at hexit
    obtain herr | ⟨rest', client', hok, rfl⟩ := finish_eq_some hexit
    · exact result_of_untilEof herr hret
    · have := length_of_untilEof hok
      rw [← hrest] at this
      exact Nat.lt_irrefl _ this
    · exact absurd hexit (by simp [finish])

/-- Some bound is enough for every packet unless one of them is never sent. -/
theorem exists_fits_iff (pkts : List (UInt8 × Bytes)) :
    (∃ fuel, ∀ p ∈ pkts, Fits fuel p.2) ↔ ∀ p ∈ pkts, ¬ Endless p.2 := by
  constructor
  · rintro ⟨fuel, h⟩ p hp
    exact (h p hp).1
  · intro h
    induction pkts with
    | nil => exact ⟨0, by simp⟩
    | cons p pkts ih =>
      rw [List.forall_mem_cons] at h
      obtain ⟨fuel, hfuel⟩ := ih h.2
      refine ⟨p.2.length / maxPacketSize + 1 + fuel, List.forall_mem_cons.mpr ⟨?_, ?_⟩⟩
      · exact ⟨h.1, by omega⟩
      · exact fun q hq => ⟨(hfuel q hq).1, Nat.lt_of_lt_of_le (hfuel q hq).2 (Nat.le_add_left _ _)⟩

/-- **One response is forwarded exactly when** it does not fail midway and has no packet whose
length is a positive multiple of `MAX_PACKET_SIZE`. -/
theorem forwards_iff (R : Response) (pkts : List (UInt8 × Bytes))
    (hpkts : pkts.map Prod.snd = R.payloads) (rest : Bytes) (client : ClientSide)
    (hclient : client.socket.Reliable) :
    Forwards R pkts rest client ↔
      ¬ R.FailsMidway ∧ ∀ p ∈ R.payloads, ¬ (0 < p.length ∧ p.length % maxPacketSize = 0) := by
  have hend : (∀ p ∈ R.payloads, ¬ Endless p) ↔ ∃ fuel, ∀ p ∈ pkts, Fits fuel p.2 := by
    rw [exists_fits_iff, ← hpkts, List.forall_mem_map]
  change _ ↔ ¬ R.FailsMidway ∧ ∀ p ∈ R.payloads, ¬ Endless p
  rw [hend]
  constructor
  · intro hfwd
    have hR : ¬ R.FailsMidway := fun hR => not_forwards_of_failsMidway hR hpkts rest hclient hfwd
    obtain ⟨fuel, exit, hexit, -⟩ := hfwd
    rw [proxyResult_response hR hpkts fuel rest hclient] at hexit
    split_ifs at hexit with hfits
    exact ⟨hR, fuel, hfits⟩
  · rintro ⟨hR, fuel, hfits⟩
    have hexit := proxyResult_response hR hpkts fuel rest hclient
    rw [if_pos hfits] at hexit
    refine ⟨fuel, _, hexit, rfl, rfl, pkts.map fun p => (lastSequence p, p.2), ?_,
      wire_foldl_sent client pkts⟩
    rw [List.map_map, ← hpkts]
    rfl

/-- The result set of `SELECT 1`, with one column and the rows given. -/
def selectOne (rows : List (List (Option Bytes))) (hrows : ∀ row ∈ rows, row.length = 1)
    (closing : Closing) : ResultSet where
  columns := [⟨[100, 101, 102], [], [], [], [49], [], 63, 1, 8, 129, 0⟩]
  warnings := 0
  statusFlags := 2
  rows := rows
  closing := closing
  columns_ne_nil := List.cons_ne_nil _ _
  length_row := hrows

/-- The response to `SELECT 1`, with half of another packet after it. -/
theorem forwards_selectOne :
    Forwards (.resultSet (selectOne [[some [49]]] (by decide) (.eof 0 2)))
      ((Response.resultSet (selectOne [[some [49]]] (by decide) (.eof 0 2))).payloads.map fun p =>
        (1, p)) [7, 0, 0] ⟨⟨[], 0, fun _ => none⟩, 0⟩ := by
  refine (forwards_iff _ _ ?_ _ _ fun _ => rfl).mpr ⟨?_, ?_⟩
  · rw [List.map_map]
    exact List.map_id _
  · rintro ⟨body, hbody⟩
    exact absurd hbody (by simp [selectOne])
  · rw [maxPacketSize_eq]
    decide

/-- A `SELECT 1` that fails before its first row: the ERR packet is the last one the backend sends,
and `proxy_result` goes on to read another. -/
theorem not_forwards_selectOne_err :
    ¬ Forwards (.resultSet (selectOne [] (by decide) (.err [37, 4])))
      ((Response.resultSet (selectOne [] (by decide) (.err [37, 4]))).payloads.map fun p => (1, p))
      [] ⟨⟨[], 0, fun _ => none⟩, 0⟩ := by
  have hR : (Response.resultSet (selectOne [] (by decide) (.err [37, 4]))).FailsMidway :=
    ⟨[37, 4], rfl⟩
  refine not_forwards_of_failsMidway hR ?_ [] fun _ => rfl
  rw [List.map_map]
  exact List.map_id _

end DBMesh.Protocol
