import DBMesh.Protocol.Connection
import DBMesh.Protocol.NativePassword

/-!
# Logging in to a backend

`BackendConnector::connect` of `protocol/mysql/src/backend_connector.cpp`, from the backend's
greeting on, and `MySqlBackendConnection::validate`. The connector answers the greeting with a token
made of the password and the challenge. A backend that wants another challenge answered sends an
AuthSwitchRequest, and gets the token for it; then, or at once, it accepts with an OK packet.

A backend is what it sends: a greeting, an answer to the response, and an answer to the second
token, each any function of what it has received. How a MySQL server decides is not this program's
to say: it is an argument too, and a result that needs it assumes what `mysql_native_password` is
documented to do. Resolving the host's name and connecting the socket come before all this and are
left out, and so are the log lines.

## Main definitions

* `DBMesh.Protocol.parseSwitchSalt`, `connect`, `validate` — the code
* `DBMesh.Protocol.Connected` — how a login ends
* `DBMesh.Protocol.Server`, `NativeBackend` — a backend, and one that lets users in or does not
* `DBMesh.Protocol.Passes`, `NativeBackend.Documented` — the documented check, and that a backend
  decides by it
* `DBMesh.Protocol.Disclosed` — what the connector sends to a backend

## Main results

* `DBMesh.Protocol.exists_connect` — the login against any backend
* `DBMesh.Protocol.connect_native` — the login against a backend that checks the password
* `DBMesh.Protocol.connect_discloses` — what a backend gets to see, whatever it sends
* `DBMesh.Protocol.connect_doRun` — the login against this program, and a ping after it
-/

namespace DBMesh.Protocol

/-! ### The code -/

/-- `kClientFlags`, bit by bit as the source has them. -/
def kClientFlags : UInt32 :=
  0x00000001 ||| 0x00000200 ||| 0x00008000 ||| 0x00080000 ||| 0x00002000 ||| 0x00000008

/-- The salt of an AuthSwitchRequest: the bytes after the plugin name and its zero. -/
def parseSwitchSalt (payload : Bytes) : Digest :=
  let pos := 1 + ((payload.drop 1).takeWhile (· ≠ 0x00)).length
  (copyLoop payload 20 0 (pos + 1) (Vector.replicate 20 0)).1

section

variable (SHA1 : Bytes → Digest)

/-- The response of `connect`. -/
def responseOf (user password : Bytes) (challenge : Digest) : HandshakeResponse41 where
  capabilityFlags := (kClientFlags &&& ~~~0x00000008).toNat
  maxPacketSize := maxPacketSize
  characterSet := 0x2D
  username := user
  authResponse := scrambleNativePassword SHA1 password challenge
  database := []
  authPlugin := nativePassword

/-- How a login runs: a write has not ended, the decoder left the packet, or `connect` has returned
with an error or with a connection, on which the backend sends `rest`. -/
inductive Connected
  | pending
  | outOfBounds
  | failed
  | ok (backendThreadId : UInt32) (rest : Bytes)
  deriving DecidableEq, Repr

/-- The last packet of a login. -/
def finalPacket (threadId : UInt32) (payload rest : Bytes) : Connected :=
  if payload.head? = some okPacket then .ok threadId rest else .failed

/-- The fourth part of `connect`: the answer to the response. -/
def readAuthResult (fuel : ℕ) (password : Bytes) (backendThreadId : UInt32) (stream : Bytes)
    (socket : OutSocket) : OutSocket × Connected :=
  match readPacket stream with
  | .error _ => (socket, .failed)
  | .ok (ap, stream) =>
    if ap.payload.head? = some 0xFE then
      let newSalt := parseSwitchSalt ap.payload
      let token := scrambleNativePassword SHA1 password newSalt
      match sendSoFar fuel ⟨socket, ap.sequence + 1⟩ token with
      | (side, none) => (side.socket, .pending)
      | (side, some false) => (side.socket, .failed)
      | (side, some true) =>
        match readPacket stream with
        | .error _ => (side.socket, .failed)
        | .ok (fp, stream) => (side.socket, finalPacket backendThreadId fp.payload stream)
    else (socket, finalPacket backendThreadId ap.payload stream)

/-- `BackendConnector::connect` over a socket that is connected, on what the backend sends. -/
def connect (fuel : ℕ) (user password stream : Bytes) (socket : OutSocket) :
    OutSocket × Connected :=
  match readPacket stream with
  | .error _ => (socket, .failed)
  | .ok (hsPkt, stream) =>
    match HandshakeV10.decode hsPkt.payload with
    | none => (socket, .outOfBounds)
    | some (.error _) => (socket, .failed)
    | some (.ok serverHs) =>
      let resp := responseOf SHA1 user password serverHs.authData
      match sendSoFar fuel ⟨socket, hsPkt.sequence + 1⟩ resp.encode with
      | (side, none) => (side.socket, .pending)
      | (side, some false) => (side.socket, .failed)
      | (side, some true) =>
        readAuthResult SHA1 fuel password serverHs.connectionId stream side.socket

end

/-- `MySqlBackendConnection::validate` over an open socket: whether the backend answers a ping with
an OK packet, and what it sends after that. -/
def validate (fuel : ℕ) (stream : Bytes) (socket : OutSocket) :
    OutSocket × Option (Bool × Bytes) :=
  match sendSoFar fuel ⟨socket, 0⟩ [Cmd.ping] with
  | (side, none) => (side.socket, none)
  | (side, some false) => (side.socket, some (false, stream))
  | (side, some true) =>
    match readPacket stream with
    | .error _ => (side.socket, some (false, []))
    | .ok (pkt, rest) => (side.socket, some (decide (pkt.payload.head? = some okPacket), rest))

/-! ### An AuthSwitchRequest -/

/-- An AuthSwitchRequest: the plugin, the salt, and what comes after it. -/
def authSwitchRequest (plugin : Bytes) (challenge : Digest) (tail : Bytes) : Bytes :=
  0xFE :: (plugin ++ 0x00 :: (challenge.toList ++ tail))

theorem takeWhile_nonzero {s rest : Bytes} (h : 0x00 ∉ s) :
    (s ++ 0x00 :: rest).takeWhile (· ≠ 0x00) = s := by
  rw [List.takeWhile_append_of_pos fun b hb => ?_]
  · rw [List.takeWhile_cons_of_neg (by decide), List.append_nil]
  · exact decide_eq_true fun hzero => h (hzero ▸ hb)

/-- **The salt of an AuthSwitchRequest is read back**, whatever comes after it. -/
theorem parseSwitchSalt_request {plugin tail : Bytes} (hplugin : 0x00 ∉ plugin) (challenge : Digest)
    (hsize : (authSwitchRequest plugin challenge tail).length < 2 ^ 64) :
    parseSwitchSalt (authSwitchRequest plugin challenge tail) = challenge := by
  have hname : ((authSwitchRequest plugin challenge tail).drop 1).takeWhile (· ≠ 0x00) = plugin :=
    takeWhile_nonzero hplugin
  have hdrop : (authSwitchRequest plugin challenge tail).drop (1 + plugin.length + 1) =
      challenge.toList ++ tail := by
    have hlen : 1 + plugin.length + 1 = (0xFE :: (plugin ++ [0x00]) : Bytes).length := by
      simp only [List.length_cons, List.length_append, List.length_nil]
      omega
    have hsplit : authSwitchRequest plugin challenge tail =
        (0xFE :: (plugin ++ [0x00])) ++ (challenge.toList ++ tail) := by
      simp [authSwitchRequest]
    rw [hlen, hsplit, List.drop_left]
  have hcopy := copyLoop_of_drop (Vector.replicate 20 0) hsize hdrop
    (by simp : 0 + challenge.toList.length ≤ 20)
  rw [Vector.length_toList] at hcopy
  rw [parseSwitchSalt, hname]
  refine Vector.toList_inj.mp (hcopy.2.trans ?_)
  simp

/-! ### The login against a backend -/

/-- A backend: its greeting, its answer to the response, and its answer to the response and the
token after an AuthSwitchRequest; and the numbers of these packets. -/
structure Server where
  greeting : Greeting
  answer : Bytes → Bytes
  final : Bytes → Bytes → Bytes
  sequences : UInt8 × UInt8 × UInt8

variable {SHA1 : Bytes → Digest} {user password : Bytes}

namespace Server

variable (srv : Server) (SHA1) (user password)

/-- The response that the backend gets. -/
def response : Bytes := (responseOf SHA1 user password srv.greeting.salt).encode

/-- The token that the backend gets after an AuthSwitchRequest. -/
def token : Bytes :=
  scrambleNativePassword SHA1 password
    (parseSwitchSalt (srv.answer (srv.response SHA1 user password)))

/-- The backend wants another challenge answered. -/
def switches : Bool := (srv.answer (srv.response SHA1 user password)).head? == some 0xFE

/-- The packet that decides. -/
def verdict : Bytes :=
  let resp := srv.response SHA1 user password
  if srv.switches SHA1 user password then srv.final resp (srv.token SHA1 user password)
  else srv.answer resp

/-- The packets that the backend sends. -/
def sends : List (UInt8 × Bytes) :=
  let answer := srv.answer (srv.response SHA1 user password)
  (srv.sequences.1, srv.greeting.bytes) :: (srv.sequences.2.1, answer) ::
    if srv.switches SHA1 user password then
      [(srv.sequences.2.2, srv.verdict SHA1 user password)]
    else []

/-- The packets that the backend gets, each with the number after that of the packet before it. -/
def receives : List (UInt8 × Bytes) :=
  let answer := srv.answer (srv.response SHA1 user password)
  (lastSequence (srv.sequences.1, srv.greeting.bytes) + 1, srv.response SHA1 user password) ::
    if srv.switches SHA1 user password then
      [(lastSequence (srv.sequences.2.1, answer) + 1, srv.token SHA1 user password)]
    else []

end Server

theorem not_endless_scramble (SHA1 : Bytes → Digest) (password : Bytes) (challenge : Digest) :
    ¬ Endless (scrambleNativePassword SHA1 password challenge) := by
  by_cases hp : password = []
  · subst hp
    rintro ⟨hpos, -⟩
    exact absurd hpos (Nat.lt_irrefl 0)
  · refine not_endless_of_length ?_
    rw [length_scrambleNativePassword hp]
    decide

theorem readAuthResult_final {fuel : ℕ} {threadId : UInt32} {payload : Bytes}
    (h : payload.head? ≠ some 0xFE) (seq : UInt8) (rest : Bytes) (socket : OutSocket) :
    readAuthResult SHA1 fuel password threadId (encodeFrames payload seq ++ rest) socket =
      (socket, finalPacket threadId payload rest) := by
  simp only [readAuthResult, readPacket_encodeFrames]
  exact if_neg h

/-- A request for another challenge is answered with its token, numbered on from the request. -/
theorem readAuthResult_switch {fuel : ℕ} {threadId : UInt32} {request verdict : Bytes}
    (h : request.head? = some 0xFE) {socket : OutSocket} (hsocket : socket.Reliable)
    (hf : Fits fuel (scrambleNativePassword SHA1 password (parseSwitchSalt request)))
    (seq seq' : UInt8) (rest : Bytes) :
    readAuthResult SHA1 fuel password threadId
        (encodeFrames request seq ++ (encodeFrames verdict seq' ++ rest)) socket =
      ((ClientSide.push ⟨socket, lastSequence (seq, request) + 1⟩
        (chunksOf (scrambleNativePassword SHA1 password (parseSwitchSalt request)))).socket,
        finalPacket threadId verdict rest) := by
  have hside : (⟨socket, lastSequence (seq, request) + 1⟩ : ClientSide).socket.Reliable := hsocket
  have hsend := sendSoFar_of_fits hside hf
  rw [lastSequence] at hsend
  simp only [readAuthResult, readPacket_encodeFrames, hsend]
  exact if_pos h

/-- The greeting is answered with the response, numbered on from the greeting. -/
theorem connect_greeting {fuel : ℕ} {g : Greeting} (hsize : g.bytes.length < 2 ^ 64)
    {socket : OutSocket} (hsocket : socket.Reliable)
    (hf : Fits fuel (responseOf SHA1 user password g.salt).encode) (seq : UInt8) (stream : Bytes) :
    connect SHA1 fuel user password (encodeFrames g.bytes seq ++ stream) socket =
      readAuthResult SHA1 fuel password g.connectionId stream
        (ClientSide.push ⟨socket, lastSequence (seq, g.bytes) + 1⟩
          (chunksOf (responseOf SHA1 user password g.salt).encode)).socket := by
  have hside : (⟨socket, lastSequence (seq, g.bytes) + 1⟩ : ClientSide).socket.Reliable := hsocket
  have hsend := sendSoFar_of_fits hside hf
  rw [lastSequence] at hsend
  have hsalt : g.handshake.authData = g.salt := rfl
  simp only [connect, readPacket_encodeFrames, g.decode_bytes hsize, hsalt, hsend]
  rfl

/-- **The login against any backend.** Over a socket that takes every write, unless the response has
no end, `connect` sends the response and, where it is asked, the token for the other challenge, each
numbered on from the packet that it answers; and it returns with a connection of the backend's id
exactly if the packet that decides is an OK packet. -/
theorem exists_connect (srv : Server) (hsize : srv.greeting.bytes.length < 2 ^ 64)
    (hresp : ¬ Endless (srv.response SHA1 user password)) {socket : OutSocket}
    (h : socket.Reliable) (rest : Bytes) :
    ∃ n, ∀ fuel, n ≤ fuel → ∃ socket',
      connect SHA1 fuel user password (wireOf (srv.sends SHA1 user password) ++ rest) socket =
        (socket', finalPacket srv.greeting.connectionId (srv.verdict SHA1 user password) rest) ∧
      socket'.wire = socket.wire ++ wireOf (srv.receives SHA1 user password) ∧
      socket'.Reliable := by
  obtain ⟨n₁, hn₁⟩ := exists_fits hresp
  obtain ⟨n₂, hn₂⟩ := exists_fits (not_endless_scramble SHA1 password
    (parseSwitchSalt (srv.answer (srv.response SHA1 user password))))
  refine ⟨max n₁ n₂, fun fuel hle => ?_⟩
  have hf₁ := hn₁.mono (Nat.le_trans (Nat.le_max_left ..) hle)
  have hf₂ := hn₂.mono (Nat.le_trans (Nat.le_max_right ..) hle)
  let side := ClientSide.push ⟨socket, lastSequence (srv.sequences.1, srv.greeting.bytes) + 1⟩
    (chunksOf (srv.response SHA1 user password))
  have hside : side.socket.Reliable := h
  rw [Server.sends, wireOf_cons, List.append_assoc, connect_greeting hsize h hf₁, wireOf_cons,
    List.append_assoc]
  cases hswitch : srv.switches SHA1 user password with
  | false =>
    have hhead : (srv.answer (srv.response SHA1 user password)).head? ≠ some 0xFE :=
      beq_eq_false_iff_ne.mp hswitch
    have hverdict : srv.verdict SHA1 user password =
        srv.answer (srv.response SHA1 user password) := by
      rw [Server.verdict, hswitch, if_neg Bool.false_ne_true]
    refine ⟨side.socket, ?_, ?_, hside⟩
    · rw [hverdict]
      exact readAuthResult_final hhead _ rest side.socket
    · rw [Server.receives, hswitch]
      exact wire_push_chunksOf _ _
  | true =>
    have hhead : (srv.answer (srv.response SHA1 user password)).head? = some 0xFE :=
      beq_iff_eq.mp hswitch
    let answer := srv.answer (srv.response SHA1 user password)
    let last : ClientSide := ⟨side.socket, lastSequence (srv.sequences.2.1, answer) + 1⟩
    refine ⟨(last.push (chunksOf (srv.token SHA1 user password))).socket, ?_, ?_, hside⟩
    · rw [if_pos rfl, wireOf_cons, show wireOf [] = [] from rfl, List.append_nil]
      exact readAuthResult_switch hhead hside hf₂ _ _ rest
    · have hwire : last.socket.wire = socket.wire ++ wireOf
          [(lastSequence (srv.sequences.1, srv.greeting.bytes) + 1,
            srv.response SHA1 user password)] := wire_push_chunksOf _ _
      rw [wire_push_chunksOf, hwire, List.append_assoc, ← wireOf_append, Server.receives, hswitch]
      rfl

/-! ### The response on the wire -/

/-- The response of a client with the flags of the connector, as the protocol lays it out: the
flags, the greatest packet size, the character set and 23 zero bytes; the user; the token behind its
length; and the name of the plugin. -/
def loginRequest (user token : Bytes) : Bytes :=
  [0x01, 0xA2, 0x08, 0x00] ++ ([0xFF, 0xFF, 0xFF, 0x00] ++ 0x2D :: (List.replicate 23 0x00 ++
    (user ++ 0x00 :: (UInt8.ofNat token.length :: (token ++ (nativePassword ++ [0x00]))))))

/-- The response of `connect` with a token in it. -/
def responseWith (user token : Bytes) : HandshakeResponse41 where
  capabilityFlags := (kClientFlags &&& ~~~0x00000008).toNat
  maxPacketSize := maxPacketSize
  characterSet := 0x2D
  username := user
  authResponse := token
  database := []
  authPlugin := nativePassword

theorem encode_responseWith (user token : Bytes) :
    (responseWith user token).encode = loginRequest user token := by
  have hflags : u32Le (kClientFlags &&& ~~~0x00000008).toNat = [0x01, 0xA2, 0x08, 0x00] := by
    decide +kernel
  have hmax : u32Le maxPacketSize = [0xFF, 0xFF, 0xFF, 0x00] := by
    rw [maxPacketSize_eq]
    decide +kernel
  have hdb : ¬ ((kClientFlags &&& ~~~0x00000008).toNat &&& connectWithDb ≠ 0) := by decide
  have hplugin : (kClientFlags &&& ~~~0x00000008).toNat &&& pluginAuth ≠ 0 := by decide
  have hrest : (responseWith user token).databaseAndPlugin = nativePassword ++ [0x00] := by
    show (if (kClientFlags &&& ~~~0x00000008).toNat &&& connectWithDb ≠ 0 then [] ++ [0x00] else
      []) ++ (if (kClientFlags &&& ~~~0x00000008).toNat &&& pluginAuth ≠ 0 then
        (responseWith user token).namedPlugin ++ [0x00] else []) = _
    have hname : (responseWith user token).namedPlugin = nativePassword := ite_self _
    rw [if_neg hdb, if_pos hplugin, hname, List.nil_append]
  rw [HandshakeResponse41.encode_eq, HandshakeResponse41.afterReserved, hrest]
  show u32Le (kClientFlags &&& ~~~0x00000008).toNat ++ (u32Le maxPacketSize ++ _) = _
  rw [hflags, hmax]
  rfl

theorem length_scrambleNativePassword_le (password : Bytes) (challenge : Digest) :
    (scrambleNativePassword SHA1 password challenge).length ≤ 20 := by
  by_cases hp : password = []
  · subst hp
    exact Nat.zero_le 20
  · exact (length_scrambleNativePassword hp).le

/-- A response is decoded to the user and the token. -/
theorem decode_responseWith {token : Bytes} (hauth : token.length ≤ 250) (huser : 0x00 ∉ user)
    (hsize : (responseWith user token).encode.length < 2 ^ 64) :
    HandshakeResponse41.decode (responseWith user token).encode =
      some (.ok (responseWith user token).received) := by
  have hflags : (kClientFlags &&& ~~~0x00000008).toNat < 2 ^ 32 := UInt32.toNat_lt _
  have hmax : maxPacketSize < 2 ^ 32 := by
    rw [maxPacketSize_eq]
    omega
  have hname : 0x00 ∉ nativePassword := by decide +kernel
  have hway : (kClientFlags &&& ~~~0x00000008).toNat &&& secureConnection ≠ 0 := by decide
  exact decode_received hflags hmax hsize huser List.not_mem_nil hname hauth hway

/-! ### A backend that checks the password -/

/-- What an AuthSwitchRequest is made of. The bound is that of the size of a payload. -/
structure SwitchRequest where
  plugin : Bytes
  challenge : Digest
  tail : Bytes
  zero_notMem_plugin : 0x00 ∉ plugin
  length_lt : (authSwitchRequest plugin challenge tail).length < 2 ^ 64

def SwitchRequest.bytes (r : SwitchRequest) : Bytes := authSwitchRequest r.plugin r.challenge r.tail

/-- A backend that lets users in or does not: the other challenge that it wants answered, if any,
and its decision on the response, or on the response and the token that has come after it. -/
structure NativeBackend where
  greeting : Greeting
  request : Option SwitchRequest
  decides : Bytes → Option Bytes → Bytes
  sequences : UInt8 × UInt8 × UInt8

/-- What `mysql_native_password` is documented to accept of an account. Twenty bytes that, with the
hash of the challenge and of the password hashed twice taken off, hash to the password hashed twice;
and of an account without a password the empty response, and nothing else. -/
def Passes (SHA1 : Bytes → Digest) (challenge : Digest) (token : Bytes) : Option Bytes → Prop
  | none => False
  | some [] => token = []
  | some (p :: ps) =>
    let twice := SHA1 (SHA1 (p :: ps)).toList
    token.length = 20 ∧ SHA1 (List.zipWith (· ^^^ ·) token
      (SHA1 (challenge.toList ++ twice.toList)).toList) = twice

instance (SHA1 : Bytes → Digest) (challenge : Digest) (token : Bytes) :
    (account : Option Bytes) → Decidable (Passes SHA1 challenge token account)
  | none => inferInstanceAs (Decidable False)
  | some [] => inferInstanceAs (Decidable (token = []))
  | some (_ :: _) => inferInstanceAs (Decidable (_ ∧ _))

namespace NativeBackend

variable (b : NativeBackend)

/-- The challenge that counts. -/
def challenge : Digest :=
  match b.request with
  | some r => r.challenge
  | none => b.greeting.salt

/-- The backend decides as it is documented to, where the accounts have these passwords: an OK
packet if the token passes, that of the response or the one that has replaced it, and an ERR packet
if it does not. -/
def Documented (SHA1 : Bytes → Digest) (accounts : Bytes → Option Bytes) : Prop :=
  ∀ user auth token, 0x00 ∉ user → auth.length ≤ 250 → (loginRequest user auth).length < 2 ^ 64 →
    token.isSome = b.request.isSome →
    (b.decides (loginRequest user auth) token).head? =
      some (if Passes SHA1 b.challenge (token.getD auth) (accounts user) then okPacket
        else errPacket)

def server : Server where
  greeting := b.greeting
  answer := fun resp =>
    match b.request with
    | some r => r.bytes
    | none => b.decides resp none
  final := fun resp token => b.decides resp (some token)
  sequences := b.sequences

end NativeBackend

/-- The token of the account's own password passes. -/
theorem passes_scramble (SHA1 : Bytes → Digest) (password : Bytes) (challenge : Digest) :
    Passes SHA1 challenge (scrambleNativePassword SHA1 password challenge) (some password) := by
  cases password with
  | nil => rfl
  | cons p ps =>
    refine ⟨length_scrambleNativePassword (List.cons_ne_nil p ps), ?_⟩
    have hcancel : List.zipWith (· ^^^ ·) (scrambleNativePassword SHA1 (p :: ps) challenge)
        (SHA1 (challenge.toList ++ (SHA1 (SHA1 (p :: ps)).toList).toList)).toList =
          (SHA1 (p :: ps)).toList :=
      zipWith_xor_cancel (by simp)
    rw [hcancel]

/-- An account without a password is not entered with one, and the other way round. -/
theorem not_passes_scramble {SHA1 : Bytes → Digest} {password stored : Bytes} {challenge : Digest}
    (h : stored = [] ↔ password ≠ []) :
    ¬ Passes SHA1 challenge (scrambleNativePassword SHA1 password challenge) (some stored) := by
  cases stored with
  | nil =>
    intro hpass
    have hlen : (scrambleNativePassword SHA1 password challenge).length = 20 :=
      length_scrambleNativePassword (h.mp rfl)
    rw [show scrambleNativePassword SHA1 password challenge = [] from hpass] at hlen
    exact absurd hlen (by simp)
  | cons p ps =>
    obtain rfl : password = [] := by
      by_contra hne
      exact absurd (h.mpr hne) (List.cons_ne_nil p ps)
    intro hpass
    exact absurd hpass.1 (by simp [scrambleNativePassword])

/-- What the backend decides, with the connector's token for its challenge. -/
theorem NativeBackend.head?_verdict {b : NativeBackend} {accounts : Bytes → Option Bytes}
    (hdoc : b.Documented SHA1 accounts) (huser : 0x00 ∉ user)
    (hsize : (b.server.response SHA1 user password).length < 2 ^ 64) :
    (b.server.verdict SHA1 user password).head? =
      some (if Passes SHA1 b.challenge (scrambleNativePassword SHA1 password b.challenge)
        (accounts user) then okPacket else errPacket) := by
  have hauth : (scrambleNativePassword SHA1 password b.greeting.salt).length ≤ 250 :=
    (length_scrambleNativePassword_le password _).trans (by omega)
  have hresp : b.server.response SHA1 user password =
      loginRequest user (scrambleNativePassword SHA1 password b.greeting.salt) :=
    encode_responseWith user _
  rw [hresp] at hsize
  cases hrequest : b.request with
  | some r =>
    have hanswer : b.server.answer (b.server.response SHA1 user password) = r.bytes := by
      simp only [NativeBackend.server, hrequest]
    have hswitch : b.server.switches SHA1 user password = true := by
      rw [Server.switches, hanswer]
      rfl
    have htoken : b.server.token SHA1 user password =
        scrambleNativePassword SHA1 password b.challenge := by
      rw [Server.token, hanswer, SwitchRequest.bytes,
        parseSwitchSalt_request r.zero_notMem_plugin r.challenge r.length_lt,
        NativeBackend.challenge, hrequest]
    rw [Server.verdict, if_pos hswitch, htoken, hresp]
    exact hdoc user _ (some _) huser hauth hsize (by rw [hrequest]; rfl)
  | none =>
    have hsalt : b.challenge = b.greeting.salt := by rw [NativeBackend.challenge, hrequest]
    have hdecides := hdoc user _ none huser hauth hsize (by rw [hrequest]; rfl)
    have hanswer : b.server.answer (b.server.response SHA1 user password) =
        b.decides (b.server.response SHA1 user password) none := by
      simp only [NativeBackend.server, hrequest]
    have hswitch : b.server.switches SHA1 user password = false := by
      rw [Server.switches, hanswer, hresp, hdecides]
      split_ifs
      · rfl
      · rfl
    rw [Server.verdict, if_neg (by rw [hswitch]; exact Bool.false_ne_true), hanswer, hresp,
      hdecides, hsalt]
    rfl

/-- **The login against a backend that checks the password**, as `mysql_native_password` is
documented. Whether the backend takes the token in the response or asks for one for another
challenge, whatever its greeting is: the connector gets a connection exactly if its token for the
challenge that counts passes. So it does with the password of the account, which may be empty; and
it does not where one of the two passwords is empty and the other is not. -/
theorem connect_native (SHA1 : Bytes → Digest) (user password : Bytes) (b : NativeBackend)
    (accounts : Bytes → Option Bytes) (hdoc : b.Documented SHA1 accounts)
    (hsize : b.greeting.bytes.length < 2 ^ 64) (huser : 0x00 ∉ user)
    (hresponse : (b.server.response SHA1 user password).length < 2 ^ 64)
    (hresp : ¬ Endless (b.server.response SHA1 user password)) (socket : OutSocket)
    (h : socket.Reliable) (rest : Bytes) :
    (∃ n, ∀ fuel, n ≤ fuel → ∃ socket',
      connect SHA1 fuel user password (wireOf (b.server.sends SHA1 user password) ++ rest) socket =
        (socket',
          if Passes SHA1 b.challenge (scrambleNativePassword SHA1 password b.challenge)
              (accounts user)
          then .ok b.greeting.connectionId rest else .failed)) ∧
      (accounts user = some password →
        Passes SHA1 b.challenge (scrambleNativePassword SHA1 password b.challenge)
          (accounts user)) ∧
      ∀ stored, accounts user = some stored → (stored = [] ↔ password ≠ []) →
        ¬ Passes SHA1 b.challenge (scrambleNativePassword SHA1 password b.challenge)
          (accounts user) := by
  refine ⟨?_, fun haccount => ?_, fun stored haccount hempty => ?_⟩
  · obtain ⟨n, hn⟩ := exists_connect b.server hsize hresp h rest
    refine ⟨n, fun fuel hle => ?_⟩
    obtain ⟨socket', hconnect, -⟩ := hn fuel hle
    refine ⟨socket', hconnect.trans (congrArg (Prod.mk socket') ?_)⟩
    rw [finalPacket, NativeBackend.head?_verdict hdoc huser hresponse]
    by_cases hpass : Passes SHA1 b.challenge (scrambleNativePassword SHA1 password b.challenge)
      (accounts user)
    · rw [if_pos hpass, if_pos hpass, if_pos rfl]
      rfl
    · rw [if_neg hpass, if_neg hpass, if_neg (by decide)]
  · rw [haccount]
    exact passes_scramble SHA1 password b.challenge
  · rw [haccount]
    exact not_passes_scramble hempty

theorem serverFlags_secure : serverFlags.toNat &&& secureConnection ≠ 0 := by decide

theorem serverFlags_plugin : serverFlags.toNat &&& pluginAuth ≠ 0 := by decide

theorem zero_notMem_version : 0x00 ∉ ({} : HandshakeV10).serverVersion := by decide +kernel

theorem zero_notMem_name : 0x00 ∉ ([0x6D] : Bytes) := by decide

theorem length_switch :
    (authSwitchRequest [0x6D] (Vector.replicate 20 0x09) [0x00]).length < 2 ^ 64 := by decide

/-- The token in a response. -/
def tokenOf (resp : Bytes) : Option Bytes :=
  (HandshakeResponse41.decode resp).bind fun r => r.toOption.map HandshakeResponse41.authResponse

/-- A backend that has one password for every user, and asks for a token for another challenge. -/
def switchingBackend (SHA1 : Bytes → Digest) : NativeBackend where
  greeting := HandshakeV10.greeting {} zero_notMem_version serverFlags_secure serverFlags_plugin
  request := some ⟨[0x6D], Vector.replicate 20 0x09, [0x00], zero_notMem_name, length_switch⟩
  decides := fun resp token =>
    if (tokenOf resp).any fun auth =>
      Passes SHA1 (Vector.replicate 20 0x09) (token.getD auth) (some [0x73]) then okReply
    else protocolErr
  sequences := (0, 2, 4)

theorem documented_switchingBackend (SHA1 : Bytes → Digest) :
    (switchingBackend SHA1).Documented SHA1 fun _ => some [0x73] := by
  intro user auth token huser hauth hsize _
  rw [← encode_responseWith] at hsize ⊢
  have htoken : tokenOf (responseWith user auth).encode = some auth := by
    rw [tokenOf, decode_responseWith hauth huser hsize]
    rfl
  have hdecides : (switchingBackend SHA1).decides (responseWith user auth).encode token =
      if Passes SHA1 (Vector.replicate 20 0x09) (token.getD auth) (some [0x73]) then okReply
      else protocolErr := by
    simp only [switchingBackend, htoken, Option.any_some, decide_eq_true_eq]
  rw [hdecides, show (switchingBackend SHA1).challenge = Vector.replicate 20 0x09 from rfl]
  by_cases hpass : Passes SHA1 (Vector.replicate 20 0x09) (token.getD auth) (some [0x73])
  · rw [if_pos hpass, if_pos hpass]
    rfl
  · rw [if_neg hpass, if_neg hpass]
    rfl

/-- With the right password the connector is let in. -/
theorem connect_native_switching : ∃ fuel socket',
    connect (fun _ => Vector.replicate 20 7) fuel [0x72] [0x73]
        (wireOf ((switchingBackend fun _ => Vector.replicate 20 7).server.sends
          (fun _ => Vector.replicate 20 7) [0x72] [0x73]) ++ [])
        ⟨[], 0, fun _ => none⟩ =
      (socket', .ok 0 []) := by
  obtain ⟨⟨n, hn⟩, hright, -⟩ := connect_native (fun _ => Vector.replicate 20 7) [0x72] [0x73]
    (switchingBackend fun _ => Vector.replicate 20 7) (fun _ => some [0x73])
    (documented_switchingBackend _) (by decide +kernel) (by decide) (by decide +kernel)
    (not_endless_of_length (by decide +kernel)) ⟨[], 0, fun _ => none⟩ (fun _ => rfl) []
  obtain ⟨socket', hconnect⟩ := hn n le_rfl
  rw [if_pos (hright rfl)] at hconnect
  exact ⟨n, socket', hconnect⟩

/-! ### What the connector discloses -/

/-- What `connect` sends to a backend that sends `stream`: nothing, the response to the challenge of
the greeting, or that and the token for the challenge of the AuthSwitchRequest. Each has the number
after that of the packet it answers. -/
inductive Disclosed (SHA1 : Bytes → Digest) (user password stream : Bytes) :
    List (UInt8 × Bytes) → Prop
  | nothing : Disclosed SHA1 user password stream []
  | response (hsPkt : MySqlPacket) (rest : Bytes) (hs : HandshakeV10)
    (hread : readPacket stream = .ok (hsPkt, rest))
    (hdecode : HandshakeV10.decode hsPkt.payload = some (.ok hs)) :
    Disclosed SHA1 user password stream
      [(hsPkt.sequence + 1, (responseOf SHA1 user password hs.authData).encode)]
  | token (hsPkt ap : MySqlPacket) (rest rest' : Bytes) (hs : HandshakeV10)
    (hread : readPacket stream = .ok (hsPkt, rest))
    (hdecode : HandshakeV10.decode hsPkt.payload = some (.ok hs))
    (hread' : readPacket rest = .ok (ap, rest')) (hswitch : ap.payload.head? = some 0xFE) :
    Disclosed SHA1 user password stream
      [(hsPkt.sequence + 1, (responseOf SHA1 user password hs.authData).encode),
        (ap.sequence + 1, scrambleNativePassword SHA1 password (parseSwitchSalt ap.payload))]

theorem readAuthResult_cases {fuel : ℕ} {threadId : UInt32} {stream : Bytes}
    {socket socket' : OutSocket} {r : Connected} (h : socket.Reliable) (hr : r ≠ .pending)
    (hread : readAuthResult SHA1 fuel password threadId stream socket = (socket', r)) :
    (socket' = socket ∨ ∃ ap rest, readPacket stream = .ok (ap, rest) ∧
        ap.payload.head? = some 0xFE ∧ socket'.wire = socket.wire ++
          encodeFrames (scrambleNativePassword SHA1 password (parseSwitchSalt ap.payload))
            (ap.sequence + 1)) ∧
      (r = .failed ∨ ∃ rest, r = .ok threadId rest) := by
  have hfinal : ∀ payload rest, finalPacket threadId payload rest = .failed ∨
      ∃ rest', finalPacket threadId payload rest = .ok threadId rest' := by
    intro payload rest
    rw [finalPacket]
    split_ifs
    · exact .inr ⟨rest, rfl⟩
    · exact .inl rfl
  rw [readAuthResult] at hread
  split at hread
  · obtain ⟨rfl, rfl⟩ := Prod.mk.inj hread
    exact ⟨.inl rfl, .inl rfl⟩
  rename_i ap stream₁ hap
  split_ifs at hread with hswitch
  · have hside : (⟨socket, ap.sequence + 1⟩ : ClientSide).socket.Reliable := h
    by_cases hf : Fits fuel (scrambleNativePassword SHA1 password (parseSwitchSalt ap.payload))
    · simp only [sendSoFar_of_fits hside hf] at hread
      split at hread
      · obtain ⟨rfl, rfl⟩ := Prod.mk.inj hread
        exact ⟨.inr ⟨ap, stream₁, hap, hswitch, rfl⟩, .inl rfl⟩
      · obtain ⟨rfl, rfl⟩ := Prod.mk.inj hread
        exact ⟨.inr ⟨ap, stream₁, hap, hswitch, rfl⟩, hfinal _ _⟩
    · obtain ⟨side, hnone⟩ := exists_sendSoFar_of_not_fits hside hf
      simp only [hnone] at hread
      exact absurd (congrArg Prod.snd hread).symm hr
  · obtain ⟨rfl, rfl⟩ := Prod.mk.inj hread
    exact ⟨.inl rfl, hfinal _ _⟩

/-- **What the connector discloses.** Whatever a backend sends, up to the end of its stream: once
`connect` has returned it has sent nothing, the response to the challenge of the greeting that it
has read, or that and the token for the challenge of the AuthSwitchRequest that it has read next.
Nothing that it sends depends on the password but by these tokens; and it returns with a connection
only after it has read a greeting, whose id the connection has. -/
theorem connect_discloses (SHA1 : Bytes → Digest) (user password : Bytes) (fuel : ℕ)
    (stream : Bytes) (socket : OutSocket) (h : socket.Reliable) (socket' : OutSocket)
    (r : Connected) (hr : r ≠ .pending)
    (hconnect : connect SHA1 fuel user password stream socket = (socket', r)) :
    (∃ sent, Disclosed SHA1 user password stream sent ∧
        socket'.wire = socket.wire ++ wireOf sent) ∧
      ∀ threadId rest, r = .ok threadId rest → ∃ pkt stream' hs,
        readPacket stream = .ok (pkt, stream') ∧
        HandshakeV10.decode pkt.payload = some (.ok hs) ∧ threadId = hs.connectionId := by
  have hnone : socket.wire = socket.wire ++ wireOf [] := (List.append_nil _).symm
  rw [connect] at hconnect
  split at hconnect
  · obtain ⟨rfl, rfl⟩ := Prod.mk.inj hconnect
    exact ⟨⟨[], .nothing, hnone⟩, fun _ _ hok => by cases hok⟩
  rename_i hsPkt stream₁ hread
  split at hconnect
  · obtain ⟨rfl, rfl⟩ := Prod.mk.inj hconnect
    exact ⟨⟨[], .nothing, hnone⟩, fun _ _ hok => by cases hok⟩
  · obtain ⟨rfl, rfl⟩ := Prod.mk.inj hconnect
    exact ⟨⟨[], .nothing, hnone⟩, fun _ _ hok => by cases hok⟩
  rename_i serverHs hdecode
  have hside : (⟨socket, hsPkt.sequence + 1⟩ : ClientSide).socket.Reliable := h
  by_cases hf : Fits fuel (responseOf SHA1 user password serverHs.authData).encode
  · simp only [sendSoFar_of_fits hside hf] at hconnect
    have hone := wire_push_chunksOf ⟨socket, hsPkt.sequence + 1⟩
      (responseOf SHA1 user password serverHs.authData).encode
    obtain ⟨hwire, hresult⟩ := readAuthResult_cases (reliable_push hside _) hr hconnect
    refine ⟨?_, fun threadId rest hok => ?_⟩
    · rcases hwire with rfl | ⟨ap, rest, hread', hswitch, hwire⟩
      · exact ⟨_, .response hsPkt stream₁ serverHs hread hdecode, hone⟩
      · refine ⟨_, .token hsPkt ap stream₁ rest serverHs hread hdecode hread' hswitch, ?_⟩
        rw [hwire, hone, List.append_assoc]
        simp [wireOf]
    · rcases hresult with rfl | ⟨rest', rfl⟩
      · cases hok
      · obtain ⟨rfl, rfl⟩ := Connected.ok.inj hok
        exact ⟨hsPkt, stream₁, serverHs, hread, hdecode, rfl⟩
  · obtain ⟨side, hpend⟩ := exists_sendSoFar_of_not_fits hside hf
    simp only [hpend] at hconnect
    exact absurd (congrArg Prod.snd hconnect).symm hr

/-- A backend that lets the connector in has got the response and a token. -/
theorem connect_discloses_switching : ∃ fuel stream socket',
    connect (fun _ => Vector.replicate 20 7) fuel [0x72] [0x73] stream ⟨[], 0, fun _ => none⟩ =
        (socket', .ok 0 []) ∧
      ∃ sent, Disclosed (fun _ => Vector.replicate 20 7) [0x72] [0x73] stream sent ∧
        socket'.wire = [] ++ wireOf sent := by
  have hresp : ¬ Endless ((switchingBackend fun _ => Vector.replicate 20 7).server.response
      (fun _ => Vector.replicate 20 7) [0x72] [0x73]) := not_endless_of_length (by decide +kernel)
  have hfresh : (⟨[], 0, fun _ => none⟩ : OutSocket).Reliable := fun _ => rfl
  obtain ⟨n, hn⟩ := exists_connect _ (by decide +kernel) hresp hfresh []
  obtain ⟨socket', hconnect, -⟩ := hn n le_rfl
  have hok : finalPacket 0 ((switchingBackend fun _ => Vector.replicate 20 7).server.verdict
      (fun _ => Vector.replicate 20 7) [0x72] [0x73]) [] = .ok 0 [] := by decide +kernel
  have hlogin := hconnect.trans (congrArg (Prod.mk socket') hok)
  exact ⟨n, _, socket', hlogin,
    (connect_discloses _ _ _ n _ _ (fun _ => rfl) socket' (.ok 0 []) (by simp) hlogin).1⟩

/-! ### The login to this program -/

/-- What a handshake is encoded to is complete, with the challenge of the handshake. -/
theorem exists_greeting {hs : HandshakeV10} (hversion : 0x00 ∉ hs.serverVersion)
    (hsecure : hs.capabilityFlags.toNat &&& secureConnection ≠ 0)
    (hplugin : hs.capabilityFlags.toNat &&& pluginAuth ≠ 0) :
    ∃ g : Greeting, g.bytes = hs.encode ∧ g.connectionId = hs.connectionId ∧
      g.salt = hs.authData := by
  refine ⟨hs.greeting hversion hsecure hplugin, ?_, rfl, Vector.toList_inj.mp ?_⟩
  · rw [hs.encode_eq, HandshakeV10.afterCapLow, HandshakeV10.saltAndPlugin]
    simp only [Greeting.bytes, Greeting.afterCapLow, HandshakeV10.greeting, List.append_assoc,
      List.singleton_append]
    rfl
  · have hrest : (hs.authData.toList.drop 8).take 12 = hs.authData.toList.drop 8 :=
      List.take_of_length_le (by simp)
    rw [Greeting.toList_salt]
    simp [HandshakeV10.greeting, hrest]

theorem zero_notMem_serverVersion {connectionId : UInt32} {nodeName : Bytes} (random : Digest)
    (h : 0x00 ∉ nodeName) : 0x00 ∉ (greetingOf connectionId nodeName random).serverVersion := by
  have hplain : 0x00 ∉ bytesOf "8.0.30-dbmesh" := by decide +kernel
  have hdash : 0x00 ∉ bytesOf "8.0.30-dbmesh-" := by decide +kernel
  rw [greetingOf]
  dsimp only
  split_ifs with hnil
  · exact hplain
  · rw [List.mem_append]
    rintro (hmem | hmem)
    · exact hdash hmem
    · exact h hmem

theorem not_endless_ping : ¬ Endless [Cmd.ping] := not_endless_of_length (by decide)

/-- A ping that is answered with an OK packet. -/
theorem validate_ok {fuel : ℕ} {socket : OutSocket} (h : socket.Reliable)
    (hf : Fits fuel [Cmd.ping]) (seq : UInt8) (rest : Bytes) :
    ∃ socket', validate fuel (encodeFrames okReply seq ++ rest) socket =
        (socket', some (true, rest)) ∧
      socket'.wire = socket.wire ++ encodeFrames [Cmd.ping] 0 := by
  have hside : (⟨socket, 0⟩ : ClientSide).socket.Reliable := h
  refine ⟨(ClientSide.push ⟨socket, 0⟩ (chunksOf [Cmd.ping])).socket, ?_, ?_⟩
  · simp only [validate, sendSoFar_of_fits hside hf, readPacket_encodeFrames]
    rfl
  · rw [wire_push_chunksOf]
    simp [wireOf]

/-- What a client that has logged in and pinged is answered with. -/
theorem dialogue_ping {connectionId : UInt32} {envs : ℕ → Env} {session : Session} :
    dialogue connectionId envs 0 session (requests (encodeFrames [Cmd.ping] 0)) =
      ([(⟨1, 0, [Cmd.ping]⟩, .reply okReply)], .returned, session) := by
  have hone : 1 / maxPacketSize = 0 := Nat.div_eq_of_lt (by rw [maxPacketSize_eq]; omega)
  have hnil : requests [] = [] := by
    rw [requests_eq]
    rfl
  have hping := readPacket_encodeFrames [Cmd.ping] 0 []
  simp only [List.length_singleton, hone] at hping
  rw [← List.append_nil (encodeFrames [Cmd.ping] 0), requests_of_readPacket hping (by decide), hnil]
  rfl

/-- **The connector and this program.** The two are run against each other, each on what the other
has sent. The connector is let in, whatever its password is, and gets a connection with the id that
the greeting has; and a ping on it is answered. -/
theorem connect_doRun (SHA1 : Bytes → Digest) (user password : Bytes) (connectionId : UInt32)
    (nodeName : Bytes) (random : Digest) (envs : ℕ → Env) (huser : 0x00 ∉ user)
    (hresponse : (responseOf SHA1 user password (generateAuthData random)).encode.length < 2 ^ 64)
    (hresp : ¬ Endless (responseOf SHA1 user password (generateAuthData random)).encode)
    (hnode : 0x00 ∉ nodeName)
    (hgreeting : (greetingOf connectionId nodeName random).encode.length < 2 ^ 64)
    (hgreet : ¬ Endless (greetingOf connectionId nodeName random).encode) :
    ∃ n, ∀ fuel, n ≤ fuel → ∃ connected validated client rest,
      connect SHA1 fuel user password client.socket.wire ⟨[], 0, fun _ => none⟩ =
        (connected, .ok connectionId rest) ∧
      validate fuel rest connected = (validated, some (true, [])) ∧
      doRun fuel connectionId nodeName (some random) envs validated.wire
          ⟨⟨[], 0, fun _ => none⟩, 0⟩ = (client, .ended .returned) := by
  have hfresh : (⟨[], 0, fun _ => none⟩ : OutSocket).Reliable := fun _ => rfl
  have hversion : 0x00 ∉ (greetingOf connectionId nodeName random).serverVersion :=
    zero_notMem_serverVersion random hnode
  obtain ⟨g, hbytes, hid, hsalt⟩ := exists_greeting hversion serverFlags_secure serverFlags_plugin
  -- to the connector the program is a backend that accepts every response
  let srv : Server := ⟨g, fun _ => okReply, fun _ _ => okReply, 0, 2, 0⟩
  let resp := (responseOf SHA1 user password (generateAuthData random)).encode
  have hserver : srv.response SHA1 user password = resp := by
    rw [Server.response, show srv.greeting.salt = generateAuthData random from hsalt]
  have hsends : srv.sends SHA1 user password =
      [(0, (greetingOf connectionId nodeName random).encode), (2, okReply)] := by
    rw [← hbytes]
    rfl
  have hreceives : srv.receives SHA1 user password = [(lastSequence (0, g.bytes) + 1, resp)] := by
    rw [← hserver]
    rfl
  -- what the program is sent is a login and a ping
  have hlogin : login (encodeFrames resp (lastSequence (0, g.bytes) + 1) ++
      encodeFrames [Cmd.ping] 0) = .accepted ⟨[], false, true⟩ (encodeFrames [Cmd.ping] 0) := by
    have hdb : (responseOf SHA1 user password (generateAuthData random)).received.database = [] :=
      ite_self _
    have hauth : (scrambleNativePassword SHA1 password (generateAuthData random)).length ≤ 250 :=
      (length_scrambleNativePassword_le password _).trans (by omega)
    have hdecode := login_of_decode (decode_responseWith hauth huser hresponse)
      (lastSequence (0, g.bytes) + 1) (encodeFrames [Cmd.ping] 0)
    refine hdecode.trans ?_
    rw [show (responseWith user (scrambleNativePassword SHA1 password
      (generateAuthData random))).received.database = [] from hdb]
    rfl
  obtain ⟨n₁, hconnect⟩ := exists_connect srv (by rw [← hbytes] at hgreeting; exact hgreeting)
    (by rw [hserver]; exact hresp) hfresh (encodeFrames okReply 1)
  obtain ⟨n₂, hping⟩ := exists_fits not_endless_ping
  have hfinishes : (login (encodeFrames resp (lastSequence (0, g.bytes) + 1) ++
      encodeFrames [Cmd.ping] 0)).Finishes connectionId envs := by
    rw [hlogin, Login.Finishes, dialogue_ping]
    intro pkt course hmem
    exact absurd hmem (by simp)
  have hsilent : (⟨⟨[], 0, fun _ => none⟩, 0⟩ : ClientSide).socket.Reliable := hfresh
  obtain ⟨n₃, hrun⟩ := exists_doRun hsilent hgreet hfinishes
  refine ⟨max n₁ (max n₂ n₃), fun fuel hle => ?_⟩
  have hfits : Fits fuel [Cmd.ping] := hping.mono (by omega)
  obtain ⟨connected, hok, hwire, hreliable⟩ := hconnect fuel (by omega)
  obtain ⟨validated, hvalid, hsent⟩ := validate_ok hreliable hfits 1 []
  obtain ⟨client, ended, hended⟩ := hrun fuel (by omega)
  have hstream : validated.wire = encodeFrames resp (lastSequence (0, g.bytes) + 1) ++
      encodeFrames [Cmd.ping] 0 := by
    rw [hsent, hwire, hreceives]
    simp [wireOf]
  obtain ⟨-, -, sent, hout, hresponds⟩ := responds_of_doRun hfresh hended
  rw [hlogin, Login.Responds, dialogue_ping] at hresponds
  obtain ⟨rfl, sents, hsents, rfl⟩ := hresponds
  have hclient : client.socket.wire =
      wireOf (srv.sends SHA1 user password) ++ encodeFrames okReply 1 := by
    cases hsents with
    | cons hone hrest =>
      cases hrest
      obtain rfl := hone
      rw [hout, hsends]
      simp [wireOf]
  refine ⟨connected, validated, client, encodeFrames okReply 1, ?_, ?_, ?_⟩
  · rw [hclient, hok, show srv.greeting.connectionId = connectionId from hid]
    rfl
  · rw [← List.append_nil (encodeFrames okReply 1)]
    exact hvalid
  · rw [hstream]
    exact hended

/-- A login to this program with a user's name and a password. -/
theorem connect_doRun_user : ∃ fuel connected validated client rest,
    connect (fun _ => Vector.replicate 20 7) fuel [0x72] [0x73] client.socket.wire
        ⟨[], 0, fun _ => none⟩ = (connected, .ok 7 rest) ∧
      validate fuel rest connected = (validated, some (true, [])) ∧
      doRun fuel 7 [] (some (Vector.replicate 20 0)) (fun _ => {}) validated.wire
          ⟨⟨[], 0, fun _ => none⟩, 0⟩ = (client, .ended .returned) := by
  obtain ⟨n, hn⟩ := connect_doRun (fun _ => Vector.replicate 20 7) [0x72] [0x73] 7 []
    (Vector.replicate 20 0) (fun _ => {}) (by decide) (by decide +kernel)
    (not_endless_of_length (by decide +kernel)) List.not_mem_nil (by decide +kernel)
    (not_endless_of_length (by decide +kernel))
  exact ⟨n, hn n le_rfl⟩

end DBMesh.Protocol
