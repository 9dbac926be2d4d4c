import DBMesh.Pool.PoolManager
import DBMesh.Protocol.Responses
import DBMesh.Protocol.Session
import DBMesh.Routing.RoutingEngine

/-!
# Answering a query

`MySqlConnection::handle_com_query` and `route_and_forward`, from the packet of the query to the
last byte of the reply. Everything from outside is an argument: the engine and its registry, the
pools, the connection that a pool hands out, what the backend then sends and whether its socket
takes the query. A write may not end, so the code is observed after at most so many iterations of
each write.

The client gets one response to every query, with three exceptions. `USE` with nothing but blanks
after it makes `substr` throw, and the session ends. A packet whose length is a positive multiple of
`MAX_PACKET_SIZE`, in either direction, is never done. A result set that the backend closes with an
ERR packet is forwarded as if the packet were a row: when nothing comes after it, the client gets a
second ERR packet behind a response that was complete.

## Scope

What the client reads is judged by its own grammar, `IsResponse`, and not by what the code takes for
a response. The bytes of the backend are arbitrary, and so is the place at which its socket fails.
The client's socket takes every write; what a client that goes away sees is the subject of the
connection as a whole. Left out are the log lines, the count of queries a connection has served, and
what `release` does to the pool, for which see the modules on the pool.

## Main definitions

* `DBMesh.Protocol.routeAndForward`, `serveComQuery` — the code
* `DBMesh.Protocol.Env.course` — what becomes of a query, from its text and the routing alone
* `DBMesh.Protocol.Course.Replies` — the packets the client gets for it
* `DBMesh.Protocol.Course.Finishes`, `Course.NotClosedByErr` — when they end, and are one response

## Main results

* `DBMesh.Protocol.handleComQuery_threw_iff` — which texts end the session
* `DBMesh.Protocol.isResponse_iff_of_replies` — which replies are one response
* `DBMesh.Protocol.com_query_answered_iff` — which queries are answered
-/

namespace DBMesh.Protocol

open DBMesh.Routing

/-! ### The code -/

/-- Characters stand for bytes. -/
def bytesOf (s : String) : Bytes := s.toList.map fun c => UInt8.ofNat c.toNat

def charsOf (bs : Bytes) : List Char := bs.map fun b => Char.ofNat b.toNat

/-- A connection that a pool hands out: its socket, and what the backend sends over it from then on,
until the connection ends. -/
structure Backend where
  socket : OutSocket
  stream : Bytes

/-- What the code finds around it; `acquire` gives a connection of a pool, or none if the call
fails. -/
structure Env where
  engine : RoutingEngine := {}
  registry : BackendRegistry := {}
  draw : ℕ := 0
  pools : Pool.PoolManager := {}
  acquire : Pool.ConnectionPool → Option Backend := fun _ => none

/-- How the handler has ended, if it has. -/
inductive Ended
  | returned
  | threw
  deriving DecidableEq, Repr

def routingErrorStr : RoutingError → String
  | .noSchemaConfig => "no_schema_config"
  | .noBackendAvailable => "no_backend_available"
  | .backendDisconnected => "backend_disconnected"
  | .firewallBlocked => "firewall_blocked"
  | .rateLimited => "rate_limited"
  | .poolQueueFull => "pool_queue_full"

def conCountError : ℕ := 1040

def notAllowedCommand : ℕ := 1148

def unknownError : ℕ := 1105

def routingErrorToMysql : RoutingError → ℕ
  | .noBackendAvailable | .poolQueueFull => conCountError
  | .firewallBlocked => notAllowedCommand
  | _ => unknownError

/-- A `send` at the end of the handler. -/
def sendLast (fuel : ℕ) (client : ClientSide) (payload : Bytes) : ClientSide × Option Ended :=
  let r := sendSoFar fuel client payload
  (r.1, r.2.map fun ok => if ok then .returned else .threw)

/-- `send_ok` with its defaults. -/
def okReply : Bytes := makeOk 0 0 0x0002 0

/-- The ERR packets of `route_and_forward`. -/
def planErr (e : RoutingError) : Bytes :=
  makeErr (routingErrorToMysql e) (bytesOf "HY000")
    (bytesOf ("DBMesh routing: " ++ routingErrorStr e))

def noPoolErr (id : BackendID) : Bytes :=
  makeErr unknownError (bytesOf "HY000") (bytesOf ("DBMesh: no pool for backend '" ++ id ++ "'"))

def acquireErr (id : BackendID) : Bytes :=
  makeErr conCountError (bytesOf "08004")
    (bytesOf ("DBMesh: backend pool unavailable for '" ++ id ++ "'"))

def disconnectedErr (id : BackendID) : Bytes :=
  makeErr conCountError (bytesOf "08S01")
    (bytesOf ("DBMesh: backend '" ++ id ++ "' disconnected during query"))

/-- The view of the session that a query is planned with. -/
def Session.view (session : Session) : SessionView where
  currentSchema := session.currentDb
  inTransaction := session.inTransaction
  autocommit := session.autocommit

/-- `MySqlConnection::route_and_forward` -/
def routeAndForward (fuel : ℕ) (env : Env) (session : Session) (payload : Bytes) (sql : List Char)
    (client : ClientSide) : ClientSide × Option Ended :=
  match (env.engine.plan env.registry sql session.view {} env.draw).1 with
  | .error e => sendLast fuel client (planErr e)
  | .ok plan =>
    match env.pools.getPool plan.backendId with
    | none => sendLast fuel client (noPoolErr plan.backendId)
    | some pool =>
      match env.acquire pool with
      | none => sendLast fuel client (acquireErr plan.backendId)
      | some backend =>
        -- the query is numbered from zero, whatever the client's numbers were
        match writePacket fuel backend.socket payload 0 with
        | none => (client, none)
        | some (.error _, _) => sendLast fuel client (disconnectedErr plan.backendId)
        | some (.ok (), _) =>
          match proxySoFar fuel .first backend.stream client with
          | (client, none) => (client, none)
          | (client, some (.returned true)) => (client, some .returned)
          | (client, some _) => sendLast fuel client (disconnectedErr plan.backendId)

/-- `MySqlConnection::handle_com_query` on a packet: the client, how it has ended, and the
session. -/
def serveComQuery (fuel : ℕ) (env : Env) (session : Session) (payload : Bytes)
    (client : ClientSide) : (ClientSide × Option Ended) × Session :=
  match handleComQuery session (charsOf (payload.drop 1)) with
  | (.ok, session) => (sendLast fuel client okReply, session)
  | (.threw, session) => ((client, some .threw), session)
  | (.forward, session) =>
    (routeAndForward fuel env session payload (charsOf (payload.drop 1)) client, session)

/-! ### What becomes of a query -/

/-- A query is answered on the spot, ends the session, is refused with an ERR packet, or is
forwarded to a backend; `err` is the ERR packet in case that fails. -/
inductive Course
  | answered
  | broken
  | refused (err : Bytes)
  | forwarded (backend : Backend) (err : Bytes)

def Env.route (env : Env) (session : Session) (sql : List Char) : Course :=
  match (env.engine.plan env.registry sql session.view {} env.draw).1 with
  | .error e => .refused (planErr e)
  | .ok plan =>
    match env.pools.getPool plan.backendId with
    | none => .refused (noPoolErr plan.backendId)
    | some pool =>
      match env.acquire pool with
      | none => .refused (acquireErr plan.backendId)
      | some backend => .forwarded backend (disconnectedErr plan.backendId)

/-- What becomes of a query, from its text and the routing alone. -/
def Env.course (env : Env) (session : Session) (payload : Bytes) : Course :=
  match (handleComQuery session (charsOf (payload.drop 1))).1 with
  | .ok => .answered
  | .threw => .broken
  | .forward => env.route session (charsOf (payload.drop 1))

/-- Forwarding the query over a connection. -/
def exchange (fuel : ℕ) (backend : Backend) (err payload : Bytes) (client : ClientSide) :
    ClientSide × Option Ended :=
  match writePacket fuel backend.socket payload 0 with
  | none => (client, none)
  | some (.error _, _) => sendLast fuel client err
  | some (.ok (), _) =>
    match proxySoFar fuel .first backend.stream client with
    | (client, none) => (client, none)
    | (client, some (.returned true)) => (client, some .returned)
    | (client, some _) => sendLast fuel client err

/-- The handler, once it is known what becomes of the query. -/
def Course.serve (fuel : ℕ) (payload : Bytes) (client : ClientSide) :
    Course → ClientSide × Option Ended
  | .answered => sendLast fuel client okReply
  | .broken => (client, some .threw)
  | .refused err => sendLast fuel client err
  | .forwarded backend err => exchange fuel backend err payload client

theorem routeAndForward_eq (fuel : ℕ) (env : Env) (session : Session) (payload : Bytes)
    (sql : List Char) (client : ClientSide) :
    routeAndForward fuel env session payload sql client =
      (env.route session sql).serve fuel payload client := by
  rw [routeAndForward, Env.route]
  rcases (env.engine.plan env.registry sql session.view {} env.draw).1 with e | plan
  · rfl
  dsimp only
  rcases env.pools.getPool plan.backendId with _ | pool
  · rfl
  dsimp only
  rcases env.acquire pool with _ | backend
  · rfl
  · rfl

/-- A query that is routed leaves the session as it was. -/
theorem handleComQuery_forward {session session' : Session} {sql : List Char}
    (h : handleComQuery session sql = (.forward, session')) : session' = session := by
  obtain ⟨-, _, h'⟩ | ⟨-, -, h'⟩ | ⟨-, _, -, h'⟩ | ⟨-, h'⟩ | ⟨-, h'⟩ | ⟨-, -, -, -, h'⟩ :=
    handleComQuery_cases session sql
  · exact absurd (congrArg Prod.fst (h'.symm.trans h)) nofun
  · exact absurd (congrArg Prod.fst (h'.symm.trans h)) nofun
  · exact absurd (congrArg Prod.fst (h'.symm.trans h)) nofun
  · exact absurd (congrArg Prod.fst (h'.symm.trans h)) nofun
  · exact absurd (congrArg Prod.fst (h'.symm.trans h)) nofun
  · exact congrArg Prod.snd (h.symm.trans h')

/-- **The handler follows the course of the query.** -/
theorem serveComQuery_fst (fuel : ℕ) (env : Env) (session : Session) (payload : Bytes)
    (client : ClientSide) :
    (serveComQuery fuel env session payload client).1 =
      (env.course session payload).serve fuel payload client := by
  rw [serveComQuery, Env.course]
  obtain ⟨answer, session', h⟩ :
      ∃ answer session', handleComQuery session (charsOf (payload.drop 1)) = (answer, session') :=
    ⟨_, _, rfl⟩
  rw [h]
  cases answer with
  | ok => rfl
  | threw => rfl
  | forward =>
    obtain rfl := handleComQuery_forward h
    exact routeAndForward_eq fuel env session' payload _ client

/-! ### The texts that end the session -/

/-- `USE` in any letter case, then blanks and nothing else. -/
def BlankUse (sql : List Char) : Prop :=
  Opens "USE" sql ∧ sql.drop 3 ≠ [] ∧ ∀ c ∈ sql.drop 3, c = ' ' ∨ c = '\t'

theorem useName_eq_none_iff {sql : List Char} :
    useName sql = none ↔ ∀ c ∈ sql.drop 3, c = ' ' ∨ c = '\t' := by
  have hnil : useName sql = none ↔
      (sql.drop 3).dropWhile (fun c => c == ' ' || c == '\t') = [] := by
    rw [useName]
    split
    · next h => exact iff_of_true rfl h
    · next h => exact iff_of_false nofun h
  rw [hnil, List.dropWhile_eq_nil_iff]
  simp only [Bool.or_eq_true, beq_iff_eq]

theorem isSpace_of_blank {c : Char} (h : c = ' ' ∨ c = '\t') : isSpace c = true := by
  obtain rfl | rfl := h <;> rfl

/-- The third letter of `USE` is no blank. -/
theorem not_blank_of_opens {t : List Char} (h : Opens "USE" t) :
    ¬ ∀ c ∈ t.drop 2, c = ' ' ∨ c = '\t' := by
  intro hblank
  obtain ⟨u, hu⟩ := opens_iff_isPrefix.mp h
  match t, hu with
  | c₀ :: c₁ :: c₂ :: t, hu =>
    have hE : 'E' = c₂.toUpper := by
      have := congrArg (·[2]?) hu
      simpa using this
    obtain rfl | rfl := hblank c₂ (List.mem_cons_self ..)
    · exact absurd hE (by decide)
    · exact absurd hE (by decide)
  | [_, _], hu => exact absurd (congrArg List.length hu) (by simp)
  | [_], hu => exact absurd (congrArg List.length hu) (by simp)
  | [], hu => exact absurd (congrArg List.length hu) (by simp)

/-- Nor is it with whitespace before it, which only moves it back. -/
theorem not_blank_of_opens_dropWhile {cs : List Char} (h : Opens "USE" (cs.dropWhile isSpace)) :
    ¬ ∀ c ∈ cs.drop 2, c = ' ' ∨ c = '\t' := by
  intro hblank
  have hsuffix : (cs.dropWhile isSpace).drop 2 <:+ cs.drop 2 := by
    refine List.suffix_of_suffix_length_le
      ((List.drop_suffix _ _).trans (List.dropWhile_suffix _)) (List.drop_suffix 2 cs) ?_
    rw [List.length_drop, List.length_drop]
    exact Nat.sub_le_sub_right (List.dropWhile_suffix _).length_le 2
  exact not_blank_of_opens h fun c hmem => hblank c (hsuffix.subset hmem)

/-- A text that opens with `USE` has nothing before it that is skipped. -/
theorem dropWhile_isSpace_of_opens {sql : List Char} (h : Opens "USE" sql) :
    sql.dropWhile isSpace = sql := by
  obtain ⟨c, t, rfl, hc⟩ := h.exists_cons (by decide)
  rw [List.dropWhile_cons, if_neg]
  intro hspace
  exact absurd ((isWord_of_isAlpha hc).symm.trans (isWord_of_isSpace hspace)) (by decide)

theorem opensSpaced_and_useName_iff {sql : List Char} :
    OpensSpaced "USE" (sql.dropWhile isSpace) ∧ useName sql = none ↔ BlankUse sql := by
  rw [useName_eq_none_iff]
  constructor
  · rintro ⟨⟨hopens, hspace⟩, hblank⟩
    cases sql with
    | nil => exact absurd (congrArg List.length hopens) (by simp)
    | cons c cs =>
      cases hc : isSpace c with
      | true =>
        rw [List.dropWhile_cons, if_pos hc] at hopens
        exact absurd hblank (not_blank_of_opens_dropWhile hopens)
      | false =>
        rw [List.dropWhile_cons, if_neg (by simp [hc])] at hopens hspace
        refine ⟨hopens, fun hnil => ?_, hblank⟩
        have hnil' : (c :: cs).drop "USE".toList.length = [] := hnil
        rw [hnil'] at hspace
        exact absurd hspace nofun
  · rintro ⟨hopens, hne, hblank⟩
    rw [dropWhile_isSpace_of_opens hopens]
    refine ⟨⟨hopens, ?_⟩, hblank⟩
    show ((sql.drop 3).head?).any isSpace = true
    obtain ⟨b, bs, hb⟩ := List.exists_cons_of_ne_nil hne
    rw [hb]
    exact isSpace_of_blank (hblank b (hb ▸ List.mem_cons_self ..))

/-- **The texts that end the session** are `USE` with nothing but blanks after it. -/
theorem handleComQuery_threw_iff (session : Session) (sql : List Char) :
    (handleComQuery session sql).1 = .threw ↔ BlankUse sql := by
  rw [← opensSpaced_and_useName_iff]
  obtain ⟨hset, _, h⟩ | ⟨huse, hname, h⟩ | ⟨huse, db, hname, h⟩ | ⟨hb, h⟩ | ⟨he, h⟩ |
      ⟨-, huse, -, -, h⟩ := handleComQuery_cases session sql
  · rw [h]
    refine iff_of_false nofun fun ⟨huse, _⟩ => ?_
    exact hset.1.not_opens (by decide) huse.1
  · rw [h]
    exact iff_of_true rfl ⟨huse, hname⟩
  · rw [h, hname]
    exact iff_of_false nofun fun ⟨_, h⟩ => absurd h nofun
  · rw [h]
    exact iff_of_false nofun fun ⟨huse, _⟩ =>
      (not_opensBegin_of_opens huse.1 (by decide)).1 hb
  · rw [h]
    exact iff_of_false nofun fun ⟨huse, _⟩ =>
      (not_opensBegin_of_opens huse.1 (by decide)).2 he
  · rw [h]
    exact iff_of_false nofun fun ⟨h, _⟩ => huse h

theorem course_eq_broken_iff (env : Env) (session : Session) {payload : Bytes} :
    env.course session payload = .broken ↔ BlankUse (charsOf (payload.drop 1)) := by
  rw [← handleComQuery_threw_iff session, Env.course]
  cases (handleComQuery session (charsOf (payload.drop 1))).1 with
  | ok => exact iff_of_false nofun nofun
  | threw => exact iff_of_true rfl rfl
  | forward =>
    refine iff_of_false ?_ nofun
    show env.route session _ ≠ .broken
    rw [Env.route]
    split
    · exact nofun
    · split
      · exact nofun
      · split <;> exact nofun

/-! ### Queries that are answered -/

theorem Fits.mono {n m : ℕ} {payload : Bytes} (h : Fits n payload) (hle : n ≤ m) : Fits m payload :=
  ⟨h.1, Nat.lt_of_lt_of_le h.2 hle⟩

theorem exists_fits {payload : Bytes} (h : ¬ Endless payload) : ∃ n, Fits n payload :=
  ⟨payload.length / maxPacketSize + 1, h, Nat.lt_succ_self _⟩

theorem exists_fits_packets {pkts : List MySqlPacket} (h : ∀ pkt ∈ pkts, ¬ Endless pkt.payload) :
    ∃ n, ∀ pkt ∈ pkts, Fits n pkt.payload := by
  obtain ⟨n, hn⟩ := (exists_fits_iff (pkts.map fun pkt => (pkt.sequence, pkt.payload))).mpr
    (List.forall_mem_map.mpr h)
  exact ⟨n, fun pkt hmem => hn _ (List.mem_map_of_mem hmem)⟩

/-- The client once packets of the backend have been sent on. -/
def ClientSide.pushPackets (client : ClientSide) (pkts : List MySqlPacket) : ClientSide :=
  pkts.foldl (fun client pkt =>
    ClientSide.push { client with seq := pkt.sequence } (chunksOf pkt.payload)) client

theorem wire_pushPackets (client : ClientSide) (pkts : List MySqlPacket) :
    (client.pushPackets pkts).socket.wire =
      client.socket.wire ++ wireOf (pkts.map fun pkt => (pkt.sequence, pkt.payload)) := by
  induction pkts generalizing client with
  | nil => exact (List.append_nil _).symm
  | cons pkt pkts ih =>
    rw [List.map_cons, wireOf_cons, ← List.append_assoc]
    exact ih _

theorem reliable_pushPackets {client : ClientSide} (h : client.socket.Reliable)
    (pkts : List MySqlPacket) : (client.pushPackets pkts).socket.Reliable := by
  induction pkts generalizing client with
  | nil => exact h
  | cons pkt pkts ih => exact ih h

theorem sendAll_of_fits {client : ClientSide} (h : client.socket.Reliable) {fuel : ℕ}
    {pkts : List MySqlPacket} (hf : ∀ pkt ∈ pkts, Fits fuel pkt.payload) :
    sendAll fuel pkts client = (client.pushPackets pkts, true) := by
  induction pkts generalizing client with
  | nil => rfl
  | cons pkt pkts ih =>
    rw [List.forall_mem_cons] at hf
    have hclient : ({ client with seq := pkt.sequence } : ClientSide).socket.Reliable := h
    rw [sendAll_cons_of_fits h hf.1]
    exact ih (reliable_push hclient _) hf.2

theorem fits_of_sendAll {client : ClientSide} (h : client.socket.Reliable) {fuel : ℕ}
    {pkts : List MySqlPacket} (hall : (sendAll fuel pkts client).2 = true) :
    ∀ pkt ∈ pkts, Fits fuel pkt.payload := by
  induction pkts generalizing client with
  | nil => exact fun pkt hmem => absurd hmem List.not_mem_nil
  | cons pkt pkts ih =>
    have hclient : ({ client with seq := pkt.sequence } : ClientSide).socket.Reliable := h
    by_cases hf : Fits fuel pkt.payload
    · rw [sendAll_cons_of_fits h hf] at hall
      exact List.forall_mem_cons.mpr ⟨hf, ih (reliable_push hclient _) hall⟩
    · rw [sendAll_cons_of_not_fits h hf] at hall
      exact absurd hall nofun

theorem sendLast_of_fits {client : ClientSide} (h : client.socket.Reliable) {fuel : ℕ}
    {payload : Bytes} (hf : Fits fuel payload) :
    sendLast fuel client payload = (client.push (chunksOf payload), some .returned) := by
  simp only [sendLast, sendSoFar_of_fits h hf]
  rfl

theorem fits_of_sendLast {client : ClientSide} (h : client.socket.Reliable) {fuel : ℕ}
    {payload : Bytes} {client' : ClientSide} {ended : Ended}
    (hsend : sendLast fuel client payload = (client', some ended)) : Fits fuel payload := by
  by_contra hf
  obtain ⟨client'', hnone⟩ := exists_sendSoFar_of_not_fits h hf
  simp only [sendLast, hnone] at hsend
  exact absurd (congrArg Prod.snd hsend) nofun

/-- A write that has ended well went through as a whole. -/
theorem delivered_of_writePacket {fuel : ℕ} {sock : OutSocket} {payload : Bytes} {seq : UInt8}
    {r : UInt8 × OutSocket} (h : writePacket fuel sock payload seq = some (.ok (), r)) :
    Delivered sock payload := by
  obtain ⟨-, hnone⟩ | ⟨hdel, -⟩ | ⟨-, -, n, r', herr⟩ := writePacket_cases sock payload seq
  · exact absurd ((hnone fuel).symm.trans h) nofun
  · exact hdel
  · have hmono := Loop.run_mono h (Nat.le_max_left fuel n)
    exact absurd (hmono.symm.trans (herr _ (Nat.le_max_right fuel n))) nofun

/-- A write that has ended badly did not. -/
theorem not_delivered_of_writePacket {fuel : ℕ} {sock : OutSocket} {payload : Bytes} {seq : UInt8}
    {e : IoError} {r : UInt8 × OutSocket}
    (h : writePacket fuel sock payload seq = some (.error e, r)) :
    ¬ Hangs sock payload ∧ ¬ Delivered sock payload := by
  obtain ⟨-, hnone⟩ | ⟨-, n, r', hok⟩ | ⟨hhangs, hdel, -⟩ := writePacket_cases sock payload seq
  · exact absurd ((hnone fuel).symm.trans h) nofun
  · have hmono := Loop.run_mono h (Nat.le_max_left fuel n)
    exact absurd (hmono.symm.trans (hok _ (Nat.le_max_right fuel n))) nofun
  · exact ⟨hhangs, hdel⟩

theorem not_endless_okReply : ¬ Endless okReply := by
  rw [Endless, maxPacketSize_eq]
  decide

/-- Every packet that has to be written comes to an end: the query to the backend, unless a write
fails, and the packets of the reply. -/
def Course.Finishes (payload : Bytes) : Course → Prop
  | .answered | .broken => True
  | .refused err => ¬ Endless err
  | .forwarded backend err =>
    ¬ Hangs backend.socket payload ∧
      (Delivered backend.socket payload →
        ∀ pkt ∈ (taken .first backend.stream).1, ¬ Endless pkt.payload) ∧
      (Delivered backend.socket payload ∧ (taken .first backend.stream).2 = true ∨ ¬ Endless err)

/-- What the client gets for a query, packet by packet: an OK packet, an ERR packet, or what is
forwarded of the backend's answer if the query has reached it. -/
inductive Course.Replies (payload : Bytes) : Course → List Bytes → Prop
  | answered : Replies payload .answered [okReply]
  | refused (err : Bytes) : Replies payload (.refused err) [err]
  | lost (backend : Backend) (err : Bytes) (h : ¬ Delivered backend.socket payload) :
    Replies payload (.forwarded backend err) [err]
  | forwarded (backend : Backend) (err : Bytes) (h : Delivered backend.socket payload) :
    Replies payload (.forwarded backend err) (reply .first backend.stream err)

/-- No ERR packet closes a result set that is forwarded: among the packets taken off the backend,
only the first may be one. -/
def Course.NotClosedByErr (payload : Bytes) : Course → Prop
  | .answered | .broken | .refused _ => True
  | .forwarded backend _ =>
    Delivered backend.socket payload → ErrFree (taken .first backend.stream).1.tail

/-- The ERR packets are ERR packets. -/
theorem exists_makeErr_of_course {env : Env} {session : Session} {payload err : Bytes}
    (h : env.course session payload = .refused err ∨
      ∃ backend, env.course session payload = .forwarded backend err) :
    ∃ code state message, err = makeErr code state message := by
  rw [Env.course] at h
  revert h
  cases (handleComQuery session (charsOf (payload.drop 1))).1 with
  | ok => exact fun h => h.elim nofun fun ⟨_, h⟩ => absurd h nofun
  | threw => exact fun h => h.elim nofun fun ⟨_, h⟩ => absurd h nofun
  | forward =>
    dsimp only
    rw [Env.route]
    rcases (env.engine.plan env.registry _ session.view {} env.draw).1 with e | plan
    · rintro (h | ⟨_, h⟩)
      · exact ⟨_, _, _, (Course.refused.inj h).symm⟩
      · exact absurd h nofun
    dsimp only
    rcases env.pools.getPool plan.backendId with _ | pool
    · rintro (h | ⟨_, h⟩)
      · exact ⟨_, _, _, (Course.refused.inj h).symm⟩
      · exact absurd h nofun
    dsimp only
    rcases env.acquire pool with _ | backend
    · rintro (h | ⟨_, h⟩)
      · exact ⟨_, _, _, (Course.refused.inj h).symm⟩
      · exact absurd h nofun
    · rintro (h | ⟨_, h⟩)
      · exact absurd h nofun
      · exact ⟨_, _, _, (Course.forwarded.inj h).2.symm⟩

/-- A handler that has returned had nothing without an end to write. -/
theorem finishes_of_serve {course : Course} {fuel : ℕ} {payload : Bytes}
    {client client' : ClientSide} (h : client.socket.Reliable)
    (hserve : course.serve fuel payload client = (client', some .returned)) :
    course.Finishes payload := by
  cases course with
  | answered => trivial
  | broken => trivial
  | refused err =>
    have hfits : Fits fuel err := fits_of_sendLast h hserve
    exact hfits.1
  | forwarded backend err =>
    rw [Course.serve, exchange] at hserve
    split at hserve
    · exact absurd (congrArg Prod.snd hserve) nofun
    · next e r hwrite =>
      obtain ⟨hhangs, hdel⟩ := not_delivered_of_writePacket hwrite
      have hfits : Fits fuel err := fits_of_sendLast h hserve
      exact ⟨hhangs, fun hdel' => absurd hdel' hdel, .inr hfits.1⟩
    · next r hwrite =>
      have hdel := delivered_of_writePacket hwrite
      have hhangs : ¬ Hangs backend.socket payload := fun hhangs => hdel.1 hhangs.1
      rw [proxySoFar_of_reliable fuel .first backend.stream h] at hserve
      cases hall : (sendAll fuel (taken .first backend.stream).1 client).2 with
      | false =>
        rw [hall] at hserve
        exact absurd (congrArg Prod.snd hserve) nofun
      | true =>
        have hpkts := fits_of_sendAll h hall
        refine ⟨hhangs, fun _ pkt hmem => (hpkts pkt hmem).1, ?_⟩
        cases hwhole : (taken .first backend.stream).2 with
        | true => exact .inl ⟨hdel, rfl⟩
        | false =>
          rw [hall, hwhole, sendAll_of_fits h hpkts] at hserve
          have hclient := reliable_pushPackets h (taken .first backend.stream).1
          have hfits : Fits fuel err := fits_of_sendLast hclient hserve
          exact .inr hfits.1

theorem wire_push_chunksOf (client : ClientSide) (payload : Bytes) :
    (client.push (chunksOf payload)).socket.wire =
      client.socket.wire ++ wireOf [(client.seq, payload)] := by
  rw [wireOf_cons, show wireOf [] = [] from rfl, List.append_nil]
  rfl

/-- The packets with their sequence numbers, as they are sent on. -/
def numbered (pkts : List MySqlPacket) : List (UInt8 × Bytes) :=
  pkts.map fun pkt => (pkt.sequence, pkt.payload)

theorem map_snd_numbered (pkts : List MySqlPacket) :
    (numbered pkts).map Prod.snd = pkts.map MySqlPacket.payload := by
  rw [numbered, List.map_map]
  rfl

/-- A query that can be delivered is, with enough iterations. -/
theorem exists_writePacket_of_delivered {sock : OutSocket} {payload : Bytes}
    (h : Delivered sock payload) (seq : UInt8) :
    ∃ n r, ∀ fuel, n ≤ fuel → writePacket fuel sock payload seq = some (.ok (), r) := by
  obtain ⟨hhangs, -⟩ | ⟨-, hok⟩ | ⟨-, hnot, -⟩ := writePacket_cases sock payload seq
  · exact absurd hhangs.1 h.1
  · exact hok
  · exact absurd h hnot

/-- The reply to a query that has been delivered. -/
theorem exists_exchange_of_delivered {backend : Backend} {err payload : Bytes} {client : ClientSide}
    {pkts : List MySqlPacket} {whole : Bool} (h : client.socket.Reliable)
    (htaken : taken .first backend.stream = (pkts, whole)) (hdel : Delivered backend.socket payload)
    (hpkts : ∀ pkt ∈ pkts, ¬ Endless pkt.payload) (herr : whole = true ∨ ¬ Endless err) :
    ∃ fuel client' sent, exchange fuel backend err payload client = (client', some .returned) ∧
      client'.socket.wire = client.socket.wire ++ wireOf sent ∧
      sent.map Prod.snd = pkts.map MySqlPacket.payload ++ if whole then [] else [err] := by
  obtain ⟨n₁, hn₁⟩ := exists_fits_packets hpkts
  obtain ⟨n₂, r, hn₂⟩ := exists_writePacket_of_delivered hdel 0
  cases whole with
  | true =>
    have hfits : ∀ pkt ∈ pkts, Fits (max n₁ n₂) pkt.payload := fun pkt hmem =>
      (hn₁ pkt hmem).mono (Nat.le_max_left ..)
    refine ⟨max n₁ n₂, client.pushPackets pkts, numbered pkts, ?_, wire_pushPackets client pkts, ?_⟩
    · simp only [exchange, hn₂ _ (Nat.le_max_right ..), proxySoFar_of_reliable _ _ _ h, htaken,
        sendAll_of_fits h hfits, if_true]
    · rw [map_snd_numbered, if_pos rfl, List.append_nil]
  | false =>
    obtain ⟨n₃, hn₃⟩ := exists_fits (herr.resolve_left Bool.false_ne_true)
    have hfits : ∀ pkt ∈ pkts, Fits (max n₁ (max n₂ n₃)) pkt.payload := fun pkt hmem =>
      (hn₁ pkt hmem).mono (Nat.le_max_left ..)
    have hfits' : Fits (max n₁ (max n₂ n₃)) err := hn₃.mono (by omega)
    have hclient := reliable_pushPackets h pkts
    refine ⟨max n₁ (max n₂ n₃), (client.pushPackets pkts).push (chunksOf err),
      numbered pkts ++ [((client.pushPackets pkts).seq, err)], ?_, ?_, ?_⟩
    · simp only [exchange, hn₂ _ (show n₂ ≤ max n₁ (max n₂ n₃) by omega),
        proxySoFar_of_reliable _ _ _ h, htaken, sendAll_of_fits h hfits, if_true]
      exact sendLast_of_fits hclient hfits'
    · rw [wire_push_chunksOf, wire_pushPackets, wireOf_append, List.append_assoc]
      rfl
    · rw [List.map_append, map_snd_numbered]
      rfl

/-- Where everything that has to be written ends, the client gets its reply. -/
theorem exists_serve_of_finishes {course : Course} {payload : Bytes} {client : ClientSide}
    (h : client.socket.Reliable) (hbroken : course ≠ .broken)
    (hfinishes : course.Finishes payload) :
    ∃ fuel client' sent, course.serve fuel payload client = (client', some .returned) ∧
      client'.socket.wire = client.socket.wire ++ wireOf sent ∧
      course.Replies payload (sent.map Prod.snd) := by
  cases course with
  | answered =>
    obtain ⟨n, hn⟩ := exists_fits not_endless_okReply
    exact ⟨n, _, _, sendLast_of_fits h hn, wire_push_chunksOf client okReply, .answered⟩
  | broken => exact absurd rfl hbroken
  | refused err =>
    obtain ⟨n, hn⟩ := exists_fits (show ¬ Endless err from hfinishes)
    exact ⟨n, _, _, sendLast_of_fits h hn, wire_push_chunksOf client err, .refused err⟩
  | forwarded backend err =>
    obtain ⟨hhangs, hpkts, hlast⟩ := hfinishes
    obtain ⟨hhangs', -⟩ | ⟨hdel, -⟩ | ⟨-, hdel, n₁, r, hn₁⟩ :=
      writePacket_cases backend.socket payload 0
    · exact absurd hhangs' hhangs
    · obtain ⟨fuel, client', sent, hserve, hwire, hsent⟩ :=
        exists_exchange_of_delivered h rfl hdel (hpkts hdel) (hlast.imp_left (·.2))
      refine ⟨fuel, client', sent, hserve, hwire, ?_⟩
      rw [hsent]
      exact .forwarded backend err hdel
    · obtain ⟨n₂, hn₂⟩ := exists_fits (hlast.resolve_left fun h => hdel h.1)
      refine ⟨max n₁ n₂, _, _, ?_, wire_push_chunksOf client err, .lost backend err hdel⟩
      simp only [Course.serve, exchange, hn₁ _ (Nat.le_max_left ..)]
      exact sendLast_of_fits h (hn₂.mono (Nat.le_max_right ..))

/-- **The reply to a query is one response** unless an ERR packet closes a result set. -/
theorem isResponse_iff_of_replies {course : Course} {payload : Bytes} {ps : List Bytes}
    (herr : ∀ err, (course = .refused err ∨ ∃ backend, course = .forwarded backend err) →
      ∃ code state message, err = makeErr code state message)
    (h : course.Replies payload ps) : IsResponse ps ↔ course.NotClosedByErr payload := by
  cases h with
  | answered => exact iff_of_true (.single rfl) trivial
  | refused err =>
    obtain ⟨code, state, message, rfl⟩ := herr err (.inl rfl)
    exact iff_of_true (.single (singlePacket_of_isErrPacket (isErrPacket_makeErr ..))) trivial
  | lost backend err hdel =>
    obtain ⟨code, state, message, rfl⟩ := herr err (.inr ⟨backend, rfl⟩)
    exact iff_of_true (.single (singlePacket_of_isErrPacket (isErrPacket_makeErr ..)))
      fun hdel' => absurd hdel' hdel
  | forwarded backend err hdel =>
    obtain ⟨code, state, message, rfl⟩ := herr err (.inr ⟨backend, rfl⟩)
    rw [isResponse_reply_iff (isErrPacket_makeErr ..)]
    exact ⟨fun hfree _ => hfree, fun hclosed => hclosed hdel⟩

/-- **Which queries are answered.** With a client that takes every write, and whatever the session,
the routing, the pool and the backend do: `handle_com_query` returns, having sent its reply and
nothing else, and the client reads exactly one response in it, if and only if the text is not `USE`
with blanks alone after it, every packet that has to be written comes to an end, and no ERR packet
closes a result set that is forwarded. -/
theorem com_query_answered_iff (env : Env) (session : Session) (payload : Bytes)
    (client : ClientSide) (hclient : client.socket.Reliable) :
    (∃ fuel client' session' sent,
      serveComQuery fuel env session payload client = ((client', some .returned), session') ∧
      client'.socket.wire = client.socket.wire ++ wireOf sent ∧
      (env.course session payload).Replies payload (sent.map Prod.snd) ∧
      IsResponse (sent.map Prod.snd)) ↔
    ¬ BlankUse (charsOf (payload.drop 1)) ∧ (env.course session payload).Finishes payload ∧
      (env.course session payload).NotClosedByErr payload := by
  rw [← course_eq_broken_iff env session]
  constructor
  · rintro ⟨fuel, client', session', sent, hserve, -, hreplies, hone⟩
    have hfst := (serveComQuery_fst fuel env session payload client).symm.trans
      (congrArg Prod.fst hserve)
    refine ⟨fun hbroken => ?_, finishes_of_serve hclient hfst,
      (isResponse_iff_of_replies (fun _ => exists_makeErr_of_course) hreplies).mp hone⟩
    rw [hbroken] at hfst
    exact absurd (congrArg Prod.snd hfst) nofun
  · rintro ⟨hbroken, hfinishes, hclosed⟩
    obtain ⟨fuel, client', sent, hserve, hwire, hreplies⟩ :=
      exists_serve_of_finishes hclient hbroken hfinishes
    refine ⟨fuel, client', _, sent, Prod.ext ?_ rfl, hwire, hreplies,
      (isResponse_iff_of_replies (fun _ => exists_makeErr_of_course) hreplies).mpr hclosed⟩
    rw [serveComQuery_fst, hserve]

/-- A response of one packet. -/
theorem taken_encodeFrames_single {payload : Bytes} (h : singlePacket payload = true)
    (seq : UInt8) :
    taken .first (encodeFrames payload seq) =
      ([⟨payload.length % 2 ^ 32, seq + UInt8.ofNat (payload.length / maxPacketSize), payload⟩],
        true) := by
  rw [taken_eq, ← List.append_nil (encodeFrames payload seq), readPacket_encodeFrames]
  simp only [Checkout.Stage.next, h, if_true]

/-- A primary and its replica, each with a pool whose connections take every query and answer it
with `stream`. -/
def twoServers (stream : Bytes) : Env where
  engine := oneGroup
  registry := (Transition.run BackendRegistry.step {} twoBackends).getD {}
  pools := ({} : Pool.PoolManager).createPools
    [{ id := "p", group := "g" }, { id := "r", group := "g", role := .replica }]
  acquire := fun _ => some ⟨⟨[], 0, fun _ => none⟩, stream⟩

theorem course_twoServers (stream : Bytes) :
    (twoServers stream).course ⟨[], false, true⟩ (3 :: bytesOf "SELECT 1") =
      .forwarded ⟨⟨[], 0, fun _ => none⟩, stream⟩ (disconnectedErr "r") := by
  have hanswer :
      (handleComQuery ⟨[], false, true⟩ (charsOf (bytesOf "SELECT 1"))).1 = .forward := by
    decide +kernel
  have hplan : (oneGroup.plan ((Transition.run BackendRegistry.step {} twoBackends).getD {})
      (charsOf (bytesOf "SELECT 1")) (Session.view ⟨[], false, true⟩) {} 0).1 =
        .ok ⟨.select, [], "r", .replica⟩ := by
    decide +kernel
  simp only [Env.course, Env.route, twoServers, List.drop_succ_cons, List.drop_zero, hanswer, hplan]
  rfl

/-- A query that is forwarded, and answered with an OK packet. -/
theorem com_query_answered_select : ∃ fuel client' session' sent,
    serveComQuery fuel (twoServers (encodeFrames okReply 1)) ⟨[], false, true⟩
        (3 :: bytesOf "SELECT 1") ⟨⟨[], 0, fun _ => none⟩, 1⟩ =
      ((client', some .returned), session') ∧
    client'.socket.wire = [] ++ wireOf sent ∧
    ((twoServers (encodeFrames okReply 1)).course ⟨[], false, true⟩
      (3 :: bytesOf "SELECT 1")).Replies (3 :: bytesOf "SELECT 1") (sent.map Prod.snd) ∧
    IsResponse (sent.map Prod.snd) := by
  refine (com_query_answered_iff (twoServers (encodeFrames okReply 1)) ⟨[], false, true⟩
    (3 :: bytesOf "SELECT 1") ⟨⟨[], 0, fun _ => none⟩, 1⟩ fun _ => rfl).mpr ⟨?_, ?_⟩
  · rintro ⟨huse, -⟩
    exact absurd huse (by decide +kernel)
  · rw [course_twoServers]
    have hend : ¬ Endless (3 :: bytesOf "SELECT 1") := by
      rw [Endless, maxPacketSize_eq]
      decide +kernel
    have htaken := taken_encodeFrames_single (show singlePacket okReply = true from rfl) 1
    refine ⟨⟨fun h => hend h.1, fun _ => ?_, .inl ⟨⟨hend, fun _ _ => rfl⟩, ?_⟩⟩, fun _ => ?_⟩
    · rw [htaken]
      exact List.forall_mem_singleton.mpr not_endless_okReply
    · rw [htaken]
    · rw [htaken]
      exact List.forall_mem_nil _

/-- `USE` and a blank: the handler throws, and the client has got nothing. -/
theorem com_query_threw_use :
    (∀ fuel, serveComQuery fuel {} ⟨[], false, true⟩ (3 :: bytesOf "USE ")
        ⟨⟨[], 0, fun _ => none⟩, 1⟩ =
      ((⟨⟨[], 0, fun _ => none⟩, 1⟩, some .threw), ⟨[], false, true⟩)) ∧
    ¬ ∃ fuel client' session' sent,
      serveComQuery fuel {} ⟨[], false, true⟩ (3 :: bytesOf "USE ") ⟨⟨[], 0, fun _ => none⟩, 1⟩ =
        ((client', some .returned), session') ∧
      client'.socket.wire = [] ++ wireOf sent ∧
      (Env.course {} ⟨[], false, true⟩ (3 :: bytesOf "USE ")).Replies (3 :: bytesOf "USE ")
        (sent.map Prod.snd) ∧
      IsResponse (sent.map Prod.snd) := by
  have hthrew : handleComQuery ⟨[], false, true⟩ (charsOf (bytesOf "USE ")) =
      (.threw, ⟨[], false, true⟩) := by
    decide +kernel
  have hserve : ∀ fuel, serveComQuery fuel {} ⟨[], false, true⟩ (3 :: bytesOf "USE ")
      ⟨⟨[], 0, fun _ => none⟩, 1⟩ =
        ((⟨⟨[], 0, fun _ => none⟩, 1⟩, some .threw), ⟨[], false, true⟩) := by
    intro fuel
    simp only [serveComQuery, List.drop_succ_cons, List.drop_zero, hthrew]
  refine ⟨hserve, ?_⟩
  rintro ⟨fuel, client', session', sent, h, -, -⟩
  exact absurd (congrArg (fun r => r.1.2) ((hserve fuel).symm.trans h)) nofun

end DBMesh.Protocol
