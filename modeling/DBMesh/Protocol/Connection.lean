import DBMesh.Protocol.CommandLoop
import DBMesh.Protocol.HandshakeResponse

/-!
# A client connection

`MySqlConnection::do_run`: the greeting, the client's response, and the command loop. The response
is decoded, but its password is not looked at: every user is let in. A response that cannot be
decoded is answered with an ERR packet. The greeting has number 0, the answer to the login 1 or 2,
and every command starts again behind its own number.

## Main definitions

* `DBMesh.Protocol.generateAuthData`, `greetingOf` — the greeting
* `DBMesh.Protocol.doRun` — the code
* `DBMesh.Protocol.login` — what becomes of the client's response

## Main results

* `DBMesh.Protocol.connection_answers` — when a connection ends, and what the client has got by then
-/

namespace DBMesh.Protocol

/-! ### The code -/

/-- `HandshakeV10::generate_auth_data`, on the bytes that `RAND_bytes` gave. -/
def generateAuthData (random : Digest) : Digest := random.map fun b => if b = 0x00 then 0x01 else b

/-- The greeting of `do_run`. -/
def greetingOf (connectionId : UInt32) (nodeName : Bytes) (random : Digest) : HandshakeV10 where
  connectionId := connectionId
  serverVersion :=
    if nodeName = [] then bytesOf "8.0.30-dbmesh" else bytesOf "8.0.30-dbmesh-" ++ nodeName
  authData := generateAuthData random

def accessDenied : ℕ := 1045

def protocolErr : Bytes := makeErr accessDenied (bytesOf "28000") (bytesOf "Protocol error")

/-- How a connection runs: a write has not ended, the decoder left the packet, or the coroutine has
ended. -/
inductive Run
  | pending
  | outOfBounds
  | ended (e : Ended)
  deriving DecidableEq, Repr

def Run.ofOption : Option Ended → Run
  | none => .pending
  | some e => .ended e

/-- `MySqlConnection::do_run` on what the client sends until it closes. `random` is what
`RAND_bytes` gives, if it does not fail. -/
def doRun (fuel : ℕ) (connectionId : UInt32) (nodeName : Bytes) (random : Option Digest)
    (envs : ℕ → Env) (stream : Bytes) (client : ClientSide) : ClientSide × Run :=
  match random with
  | none => (client, .ended .threw)
  | some random =>
    match sendSoFar fuel { client with seq := 0 }
      (greetingOf connectionId nodeName random).encode with
    | (client, none) => (client, .pending)
    | (client, some false) => (client, .ended .threw)
    | (client, some true) =>
      match readPacket stream with
      | .error _ => (client, .ended .returned)
      | .ok (pkt, rest) =>
        match HandshakeResponse41.decode pkt.payload with
        | none => (client, .outOfBounds)
        | some (.error _) =>
          let r := sendLast fuel { client with seq := 1 } protocolErr
          (r.1, .ofOption r.2)
        | some (.ok resp) =>
          -- any user is let in
          match sendSoFar fuel { client with seq := 2 } okReply with
          | (client, none) => (client, .pending)
          | (client, some false) => (client, .ended .threw)
          | (client, some true) =>
            let r := commandLoop fuel connectionId envs 0 ⟨charsOf resp.database, false, true⟩ rest
              client
            (r.1.1, .ofOption r.1.2)

/-! ### The login -/

/-- What becomes of the response: there is none, the decoder leaves it, it cannot be decoded, or it
opens a session, with commands after it. -/
inductive Login
  | absent
  | outOfBounds
  | refused
  | accepted (session : Session) (rest : Bytes)
  deriving DecidableEq, Repr

def login (stream : Bytes) : Login :=
  match readPacket stream with
  | .error _ => .absent
  | .ok (pkt, rest) =>
    match HandshakeResponse41.decode pkt.payload with
    | none => .outOfBounds
    | some (.error _) => .refused
    | some (.ok resp) => .accepted ⟨charsOf resp.database, false, true⟩ rest

/-- What comes after the greeting, once that has been sent. -/
def Login.serve (fuel : ℕ) (connectionId : UInt32) (envs : ℕ → Env) (client : ClientSide) :
    Login → ClientSide × Run
  | .absent => (client, .ended .returned)
  | .outOfBounds => (client, .outOfBounds)
  | .refused =>
    let r := sendLast fuel { client with seq := 1 } protocolErr
    (r.1, .ofOption r.2)
  | .accepted session rest =>
    match sendSoFar fuel { client with seq := 2 } okReply with
    | (client, none) => (client, .pending)
    | (client, some false) => (client, .ended .threw)
    | (client, some true) =>
      let r := commandLoop fuel connectionId envs 0 session rest client
      (r.1.1, .ofOption r.1.2)

theorem doRun_eq (fuel : ℕ) (connectionId : UInt32) (nodeName : Bytes) (random : Digest)
    (envs : ℕ → Env) (stream : Bytes) (client : ClientSide) :
    doRun fuel connectionId nodeName (some random) envs stream client =
      match sendSoFar fuel { client with seq := 0 }
        (greetingOf connectionId nodeName random).encode with
      | (client, none) => (client, .pending)
      | (client, some false) => (client, .ended .threw)
      | (client, some true) => (login stream).serve fuel connectionId envs client := by
  rw [doRun, login]
  rcases sendSoFar fuel { client with seq := 0 } (greetingOf connectionId nodeName random).encode
    with ⟨client', _ | _ | _⟩
  · rfl
  · rfl
  dsimp only
  rcases readPacket stream with e | ⟨pkt, rest⟩
  · rfl
  dsimp only
  rcases HandshakeResponse41.decode pkt.payload with _ | e | resp
  · rfl
  · rfl
  · rfl

/-- A response whose strings hold no zero byte, as it is received. The bounds are those of the
fields' types and of the one byte that holds the length of the auth response. -/
theorem decode_received {r : HandshakeResponse41} (hflags : r.capabilityFlags < 2 ^ 32)
    (hmax : r.maxPacketSize < 2 ^ 32) (hsize : r.encode.length < 2 ^ 64)
    (husername : 0x00 ∉ r.username) (hdatabase : 0x00 ∉ r.database) (hplugin : 0x00 ∉ r.authPlugin)
    (hauth : r.authResponse.length ≤ 250) (hway : r.capabilityFlags &&& secureConnection ≠ 0) :
    HandshakeResponse41.decode r.encode = some (.ok r.received) := by
  obtain ⟨hf, hm, hset, hdrop⟩ := readFixed r rfl hflags hmax
  have hlen : 32 < r.encode.length := by
    have hrest := congrArg List.length hdrop
    rw [List.length_drop, HandshakeResponse41.afterReserved, List.length_append,
      List.length_cons] at hrest
    omega
  obtain ⟨_, _, _, _, huser, hresp, hdb, hplug⟩ := readAfterReserved r hsize hdrop husername
    hdatabase (not_mem_namedPlugin hplugin) hauth (.inl hway)
  rw [HandshakeResponse41.decode, if_neg (by omega), hf, hm, hset]
  simp only [Option.bind_eq_bind, Option.bind_some]
  rw [if_neg (by omega), huser]
  simp only [Option.bind_some, hresp, hdb, hplug]
  rfl

theorem login_of_decode {payload : Bytes} {r : HandshakeResponse41}
    (hdecode : HandshakeResponse41.decode payload = some (.ok r)) (seq : UInt8) (rest : Bytes) :
    login (encodeFrames payload seq ++ rest) =
      .accepted ⟨charsOf r.database, false, true⟩ rest := by
  simp only [login, readPacket_encodeFrames, hdecode]

theorem not_endless_protocolErr : ¬ Endless protocolErr :=
  not_endless_of_length (by rw [protocolErr, length_makeErr, length_bytesOf]; decide)

/-- The packets that the commands of a login need written come to an end. -/
def Login.Finishes (connectionId : UInt32) (envs : ℕ → Env) : Login → Prop
  | .absent | .refused => True
  | .outOfBounds => False
  | .accepted session rest => ∀ pkt course,
    (pkt, .query course) ∈ (dialogue connectionId envs 0 session (requests rest)).1 →
      course.Finishes pkt.payload

/-- What the client gets after the greeting, and how the connection ends: nothing, an ERR packet, or
an OK packet and what the commands are answered with. -/
def Login.Responds (connectionId : UInt32) (envs : ℕ → Env) (sent : List (UInt8 × Bytes))
    (ended : Ended) : Login → Prop
  | .absent => sent = [] ∧ ended = .returned
  | .refused => sent = [(1, protocolErr)] ∧ ended = .returned
  | .outOfBounds => False
  | .accepted session rest =>
    ended = (dialogue connectionId envs 0 session (requests rest)).2.1 ∧
      ∃ sents : List (List (UInt8 × Bytes)),
        List.Forall₂ (fun p sent => p.2.Responds p.1 sent)
          (dialogue connectionId envs 0 session (requests rest)).1 sents ∧
        sent = (2, okReply) :: sents.flatten

theorem Run.ofOption_eq_ended {o : Option Ended} {ended : Ended} :
    Run.ofOption o = .ended ended ↔ o = some ended := by
  cases o with
  | none => simp [Run.ofOption]
  | some e => simp [Run.ofOption]

variable {connectionId : UInt32} {envs : ℕ → Env} {client : ClientSide}

/-- What comes after the greeting has the answer that the login says. -/
theorem Login.responds_of_serve {l : Login} {fuel : ℕ} {client' : ClientSide} {ended : Ended}
    (h : client.socket.Reliable)
    (hserve : l.serve fuel connectionId envs client = (client', .ended ended)) :
    l.Finishes connectionId envs ∧ ∃ sent,
      client'.socket.wire = client.socket.wire ++ wireOf sent ∧
      l.Responds connectionId envs sent ended := by
  cases l with
  | absent =>
    obtain ⟨rfl, hended⟩ := Prod.mk.inj hserve
    obtain rfl := Run.ended.inj hended
    exact ⟨trivial, [], (List.append_nil _).symm, rfl, rfl⟩
  | outOfBounds => exact absurd (congrArg Prod.snd hserve) (by simp [Login.serve])
  | refused =>
    obtain ⟨hclient, hended⟩ := Prod.mk.inj hserve
    have hone : ({ client with seq := 1 } : ClientSide).socket.Reliable := h
    obtain ⟨rfl, rfl⟩ := returned_of_sendLast hone
      (Prod.ext hclient (Run.ofOption_eq_ended.mp hended))
    exact ⟨trivial, [(1, protocolErr)], wire_push_chunksOf _ _, rfl, rfl⟩
  | accepted session rest =>
    have htwo : ({ client with seq := 2 } : ClientSide).socket.Reliable := h
    rw [Login.serve] at hserve
    by_cases hf : Fits fuel okReply
    · rw [sendSoFar_of_fits htwo hf] at hserve
      obtain ⟨hclient, hended⟩ := Prod.mk.inj hserve
      have hserved := served_commandLoop (reliable_push htwo _)
        (Prod.ext (Prod.ext hclient (Run.ofOption_eq_ended.mp hended)) rfl)
      obtain ⟨sents, hall, hwire⟩ := hserved.replies
      refine ⟨forall_finishes_iff.mp hserved.finishes, (2, okReply) :: sents.flatten, ?_,
        congrArg Prod.fst hserved.result, sents, hall, rfl⟩
      rw [hwire, wire_push_chunksOf, List.append_assoc, ← wireOf_append]
      rfl
    · obtain ⟨client₁, hnone⟩ := exists_sendSoFar_of_not_fits htwo hf
      rw [hnone] at hserve
      exact absurd (congrArg Prod.snd hserve) (by simp)

theorem Login.exists_serve {l : Login} (h : client.socket.Reliable)
    (hfinishes : l.Finishes connectionId envs) :
    ∃ n, ∀ fuel, n ≤ fuel → ∃ client' ended,
      l.serve fuel connectionId envs client = (client', .ended ended) := by
  cases l with
  | absent => exact ⟨0, fun fuel _ => ⟨client, .returned, rfl⟩⟩
  | outOfBounds => exact absurd hfinishes not_false
  | refused =>
    obtain ⟨n, hn⟩ := exists_fits not_endless_protocolErr
    have hone : ({ client with seq := 1 } : ClientSide).socket.Reliable := h
    refine ⟨n, fun fuel hle =>
      ⟨ClientSide.push { client with seq := 1 } (chunksOf protocolErr), .returned, ?_⟩⟩
    rw [Login.serve, sendLast_of_fits hone (hn.mono hle)]
    rfl
  | accepted session rest =>
    obtain ⟨n₁, hn₁⟩ := exists_fits not_endless_okReply
    have htwo : ({ client with seq := 2 } : ClientSide).socket.Reliable := h
    obtain ⟨n₂, hn₂⟩ := exists_commandLoop (i := 0) (reliable_push htwo (chunksOf okReply))
      (forall_finishes_iff.mpr hfinishes)
    refine ⟨max n₁ n₂, fun fuel hle => ?_⟩
    obtain ⟨client', ended, session', hloop⟩ := hn₂ fuel (Nat.le_trans (Nat.le_max_right ..) hle)
    refine ⟨client', ended, ?_⟩
    rw [Login.serve,
      sendSoFar_of_fits htwo (hn₁.mono (Nat.le_trans (Nat.le_max_left ..) hle))]
    simp only [hloop]
    rfl

/-- A connection that has ended had a greeting that ends, and what comes after it has the answer
that the login says. -/
theorem responds_of_doRun {nodeName stream : Bytes} {random : Digest} {fuel : ℕ}
    {client' : ClientSide} {ended : Ended} (h : client.socket.Reliable)
    (hrun : doRun fuel connectionId nodeName (some random) envs stream client =
      (client', .ended ended)) :
    ¬ Endless (greetingOf connectionId nodeName random).encode ∧
    (login stream).Finishes connectionId envs ∧
    ∃ sent, client'.socket.wire = client.socket.wire ++
        wireOf ((0, (greetingOf connectionId nodeName random).encode) :: sent) ∧
      (login stream).Responds connectionId envs sent ended := by
  have hzero : ({ client with seq := 0 } : ClientSide).socket.Reliable := h
  rw [doRun_eq] at hrun
  by_cases hf : Fits fuel (greetingOf connectionId nodeName random).encode
  · rw [sendSoFar_of_fits hzero hf] at hrun
    obtain ⟨hfinishes, sent, hwire, hresponds⟩ :=
      Login.responds_of_serve (reliable_push hzero _) hrun
    refine ⟨hf.1, hfinishes, sent, ?_, hresponds⟩
    rw [hwire, wire_push_chunksOf, List.append_assoc, ← wireOf_append]
    rfl
  · obtain ⟨client₁, hnone⟩ := exists_sendSoFar_of_not_fits hzero hf
    rw [hnone] at hrun
    exact absurd (congrArg Prod.snd hrun) (by simp)

theorem exists_doRun {nodeName stream : Bytes} {random : Digest} (h : client.socket.Reliable)
    (hgreeting : ¬ Endless (greetingOf connectionId nodeName random).encode)
    (hfinishes : (login stream).Finishes connectionId envs) :
    ∃ n, ∀ fuel, n ≤ fuel → ∃ client' ended,
      doRun fuel connectionId nodeName (some random) envs stream client =
        (client', .ended ended) := by
  have hzero : ({ client with seq := 0 } : ClientSide).socket.Reliable := h
  obtain ⟨n₁, hn₁⟩ := exists_fits hgreeting
  obtain ⟨n₂, hn₂⟩ := Login.exists_serve
    (reliable_push hzero (chunksOf (greetingOf connectionId nodeName random).encode)) hfinishes
  refine ⟨max n₁ n₂, fun fuel hle => ?_⟩
  obtain ⟨client', ended, hserve⟩ := hn₂ fuel (Nat.le_trans (Nat.le_max_right ..) hle)
  refine ⟨client', ended, ?_⟩
  rw [doRun_eq,
    sendSoFar_of_fits hzero (hn₁.mono (Nat.le_trans (Nat.le_max_left ..) hle))]
  exact hserve

/-- **A connection.** Whatever a client that takes every write sends: the connection ends if and
only if its greeting, the decoding of the response and the packets of the queries do. The client
has got by then the greeting with number 0 and what the login says: nothing more, an ERR packet
with number 1, or an OK packet with number 2 and the replies to the commands in order. -/
theorem connection_answers (connectionId : UInt32) (nodeName : Bytes) (random : Digest)
    (envs : ℕ → Env) (stream : Bytes) (client : ClientSide) (hclient : client.socket.Reliable) :
    ((∃ fuel client' ended,
        doRun fuel connectionId nodeName (some random) envs stream client =
          (client', .ended ended)) ↔
      ¬ Endless (greetingOf connectionId nodeName random).encode ∧
        (login stream).Finishes connectionId envs) ∧
    ∀ fuel client' ended,
      doRun fuel connectionId nodeName (some random) envs stream client =
        (client', .ended ended) →
      ∃ sent, client'.socket.wire = client.socket.wire ++
          wireOf ((0, (greetingOf connectionId nodeName random).encode) :: sent) ∧
        (login stream).Responds connectionId envs sent ended := by
  refine ⟨⟨?_, ?_⟩, fun fuel client' ended hrun => (responds_of_doRun hclient hrun).2.2⟩
  · rintro ⟨fuel, client', ended, hrun⟩
    obtain ⟨hgreeting, hfinishes, -⟩ := responds_of_doRun hclient hrun
    exact ⟨hgreeting, hfinishes⟩
  · rintro ⟨hgreeting, hfinishes⟩
    obtain ⟨n, hn⟩ := exists_doRun hclient hgreeting hfinishes
    exact ⟨n, hn n le_rfl⟩

/-- A client that logs in and goes away: the greeting and an OK packet. -/
theorem connection_answers_hello : ∃ fuel client' ended,
    doRun fuel 7 [] (some (Vector.replicate 20 0)) (fun _ => {})
        (encodeFrames helloBackend.encode 1) ⟨⟨[], 0, fun _ => none⟩, 0⟩ =
      (client', .ended ended) ∧
    client'.socket.wire = [] ++ wireOf [(0, (greetingOf 7 [] (Vector.replicate 20 0)).encode),
      (2, okReply)] := by
  have hlogin : login (encodeFrames helloBackend.encode 1) = .accepted ⟨[], false, true⟩ [] := by
    have hdecode := decode_received (r := helloBackend) (by decide) (by decide) (by decide +kernel)
      (by decide +kernel) (by decide) (by decide) (by decide) (by decide)
    rw [← List.append_nil (encodeFrames helloBackend.encode 1)]
    exact login_of_decode hdecode 1 []
  have hnil : requests [] = [] := by
    rw [requests_eq]
    rfl
  have hgreeting : ¬ Endless (greetingOf 7 [] (Vector.replicate 20 0)).encode :=
    not_endless_of_length (by decide +kernel)
  obtain ⟨hends, hall⟩ := connection_answers 7 [] (Vector.replicate 20 0) (fun _ => {})
    (encodeFrames helloBackend.encode 1) ⟨⟨[], 0, fun _ => none⟩, 0⟩ fun _ => rfl
  rw [hlogin] at hends
  obtain ⟨fuel, client', ended, hrun⟩ := hends.mpr ⟨hgreeting, by
    intro pkt course hmem
    rw [hnil] at hmem
    exact absurd hmem List.not_mem_nil⟩
  obtain ⟨sent, hwire, hresponds⟩ := hall fuel client' ended hrun
  rw [hlogin, Login.Responds, hnil] at hresponds
  obtain ⟨-, sents, hsents, rfl⟩ := hresponds
  cases hsents
  exact ⟨fuel, client', ended, hrun, hwire⟩

end DBMesh.Protocol
