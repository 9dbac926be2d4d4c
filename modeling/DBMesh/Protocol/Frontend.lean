import DBMesh.Protocol.Connection

/-!
# The frontend

`MySqlFrontend::accept_loop` of `protocol/mysql/src/mysql_frontend.cpp`: each accepted socket gets a
connection of its own under the next number, or is told that there are too many. `active_conns_` is
counted up and down again before the loop goes on, so the limit is compared with zero every time:
with a limit of zero everybody is turned away, with any other nobody is.

The connections share nothing but their backends, which are part of a connection's surroundings, so
each one is run by itself, as `Protocol/Connection` has it.

## Main definitions

* `DBMesh.Protocol.acceptLoop`, `rejectConnection` — the code
* `DBMesh.Protocol.Client`, `Spawned` — a socket that is accepted, and what becomes of it

## Main results

* `DBMesh.Protocol.acceptLoop_eq` — what becomes of each socket
* `DBMesh.Protocol.frontend_serves` — what each client gets
-/

namespace DBMesh.Protocol

/-! ### The code -/

/-- What `async_accept` ends with: a socket, `operation_aborted`, or another error. -/
inductive Accepted (γ : Type)
  | socket (c : γ)
  | aborted
  | failed

/-- The coroutine that is spawned for a socket. -/
inductive Spawned (γ : Type)
  | served (id : UInt32) (c : γ)
  | rejected (c : γ)

/-- `next_conn_id_` and `active_conns_`. -/
structure MySqlFrontend where
  nextConnId : UInt32 := 1
  activeConns : UInt32 := 0

section

variable {γ : Type}

/-- `MySqlFrontend::accept_loop` on what the acceptor gives, one after the other. -/
def acceptLoop (maxConns : UInt32) :
    MySqlFrontend → List (Accepted γ) → List (Spawned γ) × MySqlFrontend
  | f, [] => ([], f)
  | f, .aborted :: _ => ([], f)
  | f, .failed :: rest => acceptLoop maxConns f rest
  | f, .socket c :: rest =>
    if f.activeConns ≥ maxConns then
      let r := acceptLoop maxConns f rest
      (.rejected c :: r.1, r.2)
    else
      let id := f.nextConnId
      let f := { f with nextConnId := f.nextConnId + 1 }
      let f := { f with activeConns := f.activeConns + 1 }
      -- the connection is spawned here, and not counted while it runs
      let f := { f with activeConns := f.activeConns - 1 }
      let r := acceptLoop maxConns f rest
      (.served id c :: r.1, r.2)

end

def tooManyErr : Bytes := makeErr conCountError (bytesOf "08004") (bytesOf "Too many connections")

/-- `reject_connection`: the payload and its header in one write. -/
def rejectConnection (socket : OutSocket) : OutSocket :=
  (asyncWrite socket (header tooManyErr.length 0 ++ tooManyErr)).2

/-! ### What becomes of the sockets -/

section

variable {γ : Type}

/-- The sockets that are accepted, up to the end of the acceptor. -/
def accepted : List (Accepted γ) → List γ
  | [] => []
  | .aborted :: _ => []
  | .failed :: rest => accepted rest
  | .socket c :: rest => c :: accepted rest

/-- Connections served under the numbers from `n` on, as far as 32 bits go. -/
def servedFrom (n : ℕ) : List γ → List (Spawned γ)
  | [] => []
  | c :: cs => .served (UInt32.ofNat n) c :: servedFrom (n + 1) cs

theorem acceptLoop_zero (f : MySqlFrontend) (outcomes : List (Accepted γ)) :
    (acceptLoop 0 f outcomes).1 = (accepted outcomes).map .rejected := by
  induction outcomes with
  | nil => rfl
  | cons o rest ih =>
    cases o with
    | aborted => rfl
    | failed => exact ih
    | socket c =>
      have hlimit : f.activeConns ≥ 0 := Nat.zero_le _
      rw [acceptLoop, if_pos hlimit]
      exact congrArg (Spawned.rejected c :: ·) ih

/-- **No limit but zero is ever reached.** The sockets get numbers one after the other. -/
theorem acceptLoop_eq {maxConns : UInt32} (hmax : maxConns ≠ 0) (outcomes : List (Accepted γ)) :
    ∀ n : ℕ, (acceptLoop maxConns ⟨UInt32.ofNat n, 0⟩ outcomes).1 =
      servedFrom n (accepted outcomes) := by
  induction outcomes with
  | nil => exact fun _ => rfl
  | cons o rest ih =>
    intro n
    cases o with
    | aborted => rfl
    | failed => exact ih n
    | socket c =>
      have hlimit : ¬ (0 : UInt32) ≥ maxConns := by
        intro hle
        exact hmax (UInt32.le_antisymm hle (Nat.zero_le _))
      have hnext : UInt32.ofNat n + 1 = UInt32.ofNat (n + 1) := (UInt32.ofNat_add n 1).symm
      have hback : (0 : UInt32) + 1 - 1 = 0 := by decide
      rw [acceptLoop, if_neg hlimit]
      dsimp only
      rw [hnext, hback, ih (n + 1)]
      rfl

theorem exists_of_mem_servedFrom {sp : Spawned γ} {cs : List γ} :
    ∀ {n : ℕ}, sp ∈ servedFrom n cs → ∃ id c, c ∈ cs ∧ sp = .served id c := by
  induction cs with
  | nil => exact fun h => absurd h List.not_mem_nil
  | cons c cs ih =>
    intro n h
    rcases List.mem_cons.mp h with rfl | h
    · exact ⟨_, c, List.mem_cons_self .., rfl⟩
    · obtain ⟨id, c', hc', heq⟩ := ih h
      exact ⟨id, c', List.mem_cons_of_mem _ hc', heq⟩

/-- The numbers of the connections that are served. -/
def ids : List (Spawned γ) → List UInt32
  | [] => []
  | .served id _ :: rest => id :: ids rest
  | .rejected _ :: rest => ids rest

theorem ids_map_rejected (cs : List γ) : ids (cs.map Spawned.rejected) = [] := by
  induction cs with
  | nil => rfl
  | cons c cs ih => exact ih

theorem ids_servedFrom (cs : List γ) :
    ∀ n : ℕ, ids (servedFrom n cs) = (List.range' n cs.length).map UInt32.ofNat := by
  induction cs with
  | nil => exact fun _ => rfl
  | cons c cs ih =>
    intro n
    rw [servedFrom, ids, ih (n + 1)]
    rfl

/-- Up to 2^32 numbers in a row are distinct. -/
theorem nodup_ids_servedFrom {cs : List γ} (h : cs.length ≤ 2 ^ 32) (n : ℕ) :
    (ids (servedFrom n cs)).Nodup := by
  rw [ids_servedFrom]
  refine (List.nodup_map_iff_inj_on List.nodup_range').mpr fun i hi j hj heq => ?_
  rw [List.mem_range'_1] at hi hj
  have hmod : i % 2 ^ 32 = j % 2 ^ 32 := by
    have hnat := congrArg UInt32.toNat heq
    rwa [UInt32.toNat_ofNat', UInt32.toNat_ofNat'] at hnat
  omega

end

/-! ### What the clients get -/

/-- A client: what it sends, its socket, and what its connection meets. -/
structure Client where
  stream : Bytes
  socket : OutSocket
  random : Digest
  envs : ℕ → Env

/-- What a client has got when its coroutine has ended. -/
def Spawned.Answered (nodeName : Bytes) : Spawned Client → Prop
  | .served id c => ∀ fuel client' ended,
    doRun fuel id nodeName (some c.random) c.envs c.stream ⟨c.socket, 0⟩ =
        (client', .ended ended) →
      ∃ sent, client'.socket.wire = c.socket.wire ++
          wireOf ((0, (greetingOf id nodeName c.random).encode) :: sent) ∧
        (login c.stream).Responds id c.envs sent ended
  | .rejected c =>
    (rejectConnection c.socket).wire = c.socket.wire ++ wireOf [(0, tooManyErr)]

theorem wire_rejectConnection {socket : OutSocket} (h : socket.Reliable) :
    (rejectConnection socket).wire = socket.wire ++ wireOf [(0, tooManyErr)] := by
  have hlen : tooManyErr.length < maxPacketSize := by
    rw [tooManyErr, length_makeErr, length_bytesOf, maxPacketSize_eq]
    decide
  have hone : wireOf [(0, tooManyErr)] = header tooManyErr.length 0 ++ tooManyErr := by
    rw [wireOf_cons, encodeFrames_of_lt hlen]
    exact List.append_nil _
  rw [hone, rejectConnection, asyncWrite, h socket.writes]

/-- **The frontend serves everybody or nobody.** Whatever the acceptor gives, errors among it: with
a limit of zero each client is sent one ERR packet with number 0; with any other limit each gets a
connection, numbered one after the other from 1, and no two of the first 2^32 have the same number.
A client whose connection has ended has got the greeting with the number of its own connection and
what its own login and commands are answered with. -/
theorem frontend_serves (maxConns : UInt32) (nodeName : Bytes) (outcomes : List (Accepted Client))
    (h : ∀ c ∈ accepted outcomes, c.socket.Reliable) :
    ((acceptLoop maxConns {} outcomes).1 =
      if maxConns = 0 then (accepted outcomes).map .rejected
      else servedFrom 1 (accepted outcomes)) ∧
    ((accepted outcomes).length ≤ 2 ^ 32 → (ids (acceptLoop maxConns {} outcomes).1).Nodup) ∧
    ∀ sp ∈ (acceptLoop maxConns {} outcomes).1, sp.Answered nodeName := by
  have hspawned : (acceptLoop maxConns {} outcomes).1 =
      if maxConns = 0 then (accepted outcomes).map .rejected
      else servedFrom 1 (accepted outcomes) := by
    split_ifs with hmax
    · rw [hmax]
      exact acceptLoop_zero {} outcomes
    · exact acceptLoop_eq hmax outcomes 1
  refine ⟨hspawned, fun hlen => ?_, ?_⟩
  · rw [hspawned]
    split_ifs
    · rw [ids_map_rejected]
      exact List.nodup_nil
    · exact nodup_ids_servedFrom hlen 1
  · rw [hspawned]
    intro sp hsp
    split_ifs at hsp
    · obtain ⟨c, hc, rfl⟩ := List.mem_map.mp hsp
      exact wire_rejectConnection (h c hc)
    · obtain ⟨id, c, hc, rfl⟩ := exists_of_mem_servedFrom hsp
      intro fuel client' ended hrun
      have hreliable : (⟨c.socket, 0⟩ : ClientSide).socket.Reliable := h c hc
      exact (responds_of_doRun hreliable hrun).2.2

/-- Two clients that send nothing, with an error of the acceptor in between. -/
def twoSilent : List (Accepted Client) :=
  [.socket ⟨[], ⟨[], 0, fun _ => none⟩, Vector.replicate 20 1, fun _ => {}⟩, .failed,
    .socket ⟨[], ⟨[], 0, fun _ => none⟩, Vector.replicate 20 2, fun _ => {}⟩]

/-- With a limit of one both are served. -/
theorem frontend_serves_two : ids (acceptLoop 1 {} twoSilent).1 = [1, 2] ∧
    ∀ sp ∈ (acceptLoop 1 {} twoSilent).1, sp.Answered [] := by
  have hreliable : ∀ c ∈ accepted twoSilent, c.socket.Reliable := by
    intro c hc
    rcases List.mem_cons.mp hc with rfl | hc
    · exact fun _ => rfl
    · obtain rfl := List.mem_singleton.mp hc
      exact fun _ => rfl
  exact ⟨rfl, (frontend_serves 1 [] twoSilent hreliable).2.2⟩

end DBMesh.Protocol
