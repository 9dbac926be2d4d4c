import DBMesh.Protocol.SequenceIds
import DBMesh.Protocol.SessionVariables

/-!
# The command loop

`MySqlConnection::handle_command` and `command_loop`, over the whole of what a client sends. The
loop reads a packet only when the reply to the one before it is out, so a client that sends ahead is
served in order. It ends with the stream, with an empty packet, with `COM_QUIT`, or when a handler
throws.

What is around the session may change from one command to the next: the `i`-th command finds the
engine, the registry, the pools and the backends of `envs i`.

## Main definitions

* `DBMesh.Protocol.handleCommand`, `commandLoop` — the code
* `DBMesh.Protocol.commandCourse`, `sessionAfter` — what becomes of a command, and of the session
* `DBMesh.Protocol.requests`, `dialogue` — the packets the loop reads, and the commands it serves

## Main results

* `DBMesh.Protocol.handleCommand_eq` — every handler follows the course of its command
* `DBMesh.Protocol.Course.serve_mono` — more iterations do not change what has ended
* `DBMesh.Protocol.command_loop_answers` — when the loop ends, and what the client has got by then
-/

namespace DBMesh.Protocol

/-! ### The code -/

namespace Cmd

def quit : UInt8 := 0x01

def initDb : UInt8 := 0x02

def query : UInt8 := 0x03

def fieldList : UInt8 := 0x04

def statistics : UInt8 := 0x09

def ping : UInt8 := 0x0E

def stmtPrepare : UInt8 := 0x16

def stmtExecute : UInt8 := 0x17

def stmtClose : UInt8 := 0x19

def stmtReset : UInt8 := 0x1A

def setOption : UInt8 := 0x1B

end Cmd

def unknownComError : ℕ := 1047

/-- How `handle_command` ends: it tells the loop to go on or to quit, or it throws. -/
inductive Handled
  | next
  | quit
  | threw
  deriving DecidableEq, Repr

def Ended.handled : Ended → Handled
  | .returned => .next
  | .threw => .threw

/-- A handler that returns lets the loop go on. -/
def goOn (r : ClientSide × Option Ended) : ClientSide × Option Handled :=
  (r.1, r.2.map Ended.handled)

def statisticsText (connectionId : UInt32) : Bytes :=
  bytesOf ("DBMesh connection_id=" ++ toString connectionId.toNat)

def binaryErr : Bytes :=
  makeErr unknownComError (bytesOf "08S01")
    (bytesOf "Binary protocol not yet supported (Milestone 1.19)")

def unknownErr (command : UInt8) : Bytes :=
  makeErr unknownComError (bytesOf "08S01")
    (bytesOf ("Unknown command " ++ toString command.toNat))

/-- `MySqlConnection::handle_command` -/
def handleCommand (fuel : ℕ) (connectionId : UInt32) (env : Env) (session : Session)
    (pkt : MySqlPacket) (client : ClientSide) : (ClientSide × Option Handled) × Session :=
  let client := { client with seq := pkt.sequence + 1 }
  let command := pkt.payload.headD 0
  if command = Cmd.quit then ((client, some .quit), session)
  else if command = Cmd.ping then (goOn (sendLast fuel client okReply), session)
  else if command = Cmd.initDb then
    (goOn (sendLast fuel client okReply), handleComInitDb session pkt.payload)
  else if command = Cmd.query then
    let r := serveComQuery fuel env session pkt.payload client
    (goOn r.1, r.2)
  else if command = Cmd.fieldList then (goOn (sendLast fuel client (makeEof 0 0x0002)), session)
  else if command = Cmd.statistics then
    (goOn (sendLast fuel client (statisticsText connectionId)), session)
  else if command = Cmd.setOption then (goOn (sendLast fuel client okReply), session)
  else if command = Cmd.stmtPrepare ∨ command = Cmd.stmtExecute ∨ command = Cmd.stmtClose ∨
      command = Cmd.stmtReset then
    (goOn (sendLast fuel client binaryErr), session)
  else (goOn (sendLast fuel client (unknownErr command)), session)

/-- `MySqlConnection::command_loop` from the `i`-th command on, on what the client sends until it
closes. -/
def commandLoop (fuel : ℕ) (connectionId : UInt32) (envs : ℕ → Env) (i : ℕ) (session : Session)
    (stream : Bytes) (client : ClientSide) : (ClientSide × Option Ended) × Session :=
  let client := { client with seq := 0 }
  match _h : readPacket stream with
  | .error _ => ((client, some .returned), session)
  | .ok (pkt, rest) =>
    if pkt.payload = [] then ((client, some .returned), session)
    else
      match handleCommand fuel connectionId (envs i) session pkt client with
      | ((client, none), session) => ((client, none), session)
      | ((client, some .quit), session) => ((client, some .returned), session)
      | ((client, some .threw), session) => ((client, some .threw), session)
      | ((client, some .next), session) =>
        commandLoop fuel connectionId envs (i + 1) session rest client
termination_by stream.length
decreasing_by exact length_of_readPacket _h

/-! ### What becomes of a command -/

/-- A command ends the connection, is answered with one packet, or is a query. -/
inductive CommandCourse
  | quit
  | reply (payload : Bytes)
  | query (course : Course)

def commandCourse (connectionId : UInt32) (env : Env) (session : Session) (payload : Bytes) :
    CommandCourse :=
  let command := payload.headD 0
  if command = Cmd.quit then .quit
  else if command = Cmd.ping then .reply okReply
  else if command = Cmd.initDb then .reply okReply
  else if command = Cmd.query then .query (env.course session payload)
  else if command = Cmd.fieldList then .reply (makeEof 0 0x0002)
  else if command = Cmd.statistics then .reply (statisticsText connectionId)
  else if command = Cmd.setOption then .reply okReply
  else if command = Cmd.stmtPrepare ∨ command = Cmd.stmtExecute ∨ command = Cmd.stmtClose ∨
      command = Cmd.stmtReset then
    .reply binaryErr
  else .reply (unknownErr command)

/-- The session after a command: it depends on the text alone. -/
def sessionAfter (session : Session) (payload : Bytes) : Session :=
  if payload.headD 0 = Cmd.initDb then handleComInitDb session payload
  else if payload.headD 0 = Cmd.query then
    (handleComQuery session (charsOf (payload.drop 1))).2
  else session

def CommandCourse.serve (fuel : ℕ) (payload : Bytes) (client : ClientSide) :
    CommandCourse → ClientSide × Option Handled
  | .quit => (client, some .quit)
  | .reply p => goOn (sendLast fuel client p)
  | .query course => goOn (course.serve fuel payload client)

theorem serveComQuery_snd (fuel : ℕ) (env : Env) (session : Session) (payload : Bytes)
    (client : ClientSide) :
    (serveComQuery fuel env session payload client).2 =
      (handleComQuery session (charsOf (payload.drop 1))).2 := by
  rw [serveComQuery]
  obtain ⟨answer, session', h⟩ :
      ∃ answer session', handleComQuery session (charsOf (payload.drop 1)) = (answer, session') :=
    ⟨_, _, rfl⟩
  rw [h]
  cases answer <;> rfl

/-- **Every handler follows the course of its command.** -/
theorem handleCommand_eq (fuel : ℕ) (connectionId : UInt32) (env : Env) (session : Session)
    (pkt : MySqlPacket) (client : ClientSide) :
    handleCommand fuel connectionId env session pkt client =
      ((commandCourse connectionId env session pkt.payload).serve fuel pkt.payload
        { client with seq := pkt.sequence + 1 }, sessionAfter session pkt.payload) := by
  -- `COM_INIT_DB` and `COM_QUERY` are the commands that change the session
  have hother : ∀ command : UInt8, pkt.payload.headD 0 = command → command ≠ Cmd.initDb →
      command ≠ Cmd.query → sessionAfter session pkt.payload = session := by
    rintro _ rfl hinit hquery
    rw [sessionAfter, if_neg hinit, if_neg hquery]
  simp only [handleCommand, commandCourse]
  split_ifs with hquit hping hinit hquery hfield hstat hoption hstmt
  · rw [hother _ hquit (by decide) (by decide)]
    rfl
  · rw [hother _ hping (by decide) (by decide)]
    rfl
  · rw [sessionAfter, if_pos hinit]
    rfl
  · rw [sessionAfter, if_neg hinit, if_pos hquery, serveComQuery_snd, serveComQuery_fst]
    rfl
  · rw [hother _ rfl hinit hquery]
    rfl
  · rw [hother _ rfl hinit hquery]
    rfl
  · rw [hother _ rfl hinit hquery]
    rfl
  · rw [hother _ rfl hinit hquery]
    rfl
  · rw [hother _ rfl hinit hquery]
    rfl

/-- How a command of that course is handled, once it has been. -/
def CommandCourse.handled (course : CommandCourse) : Handled :=
  match course with
  | .quit => .quit
  | .query .broken => .threw
  | _ => .next

/-! ### The commands of a connection -/

/-- The packets that the loop may read: those up to the end of the stream, or to an empty one. -/
def requests (stream : Bytes) : List MySqlPacket :=
  match _h : readPacket stream with
  | .error _ => []
  | .ok (pkt, rest) => if pkt.payload = [] then [] else pkt :: requests rest
termination_by stream.length
decreasing_by exact length_of_readPacket _h

theorem requests_eq (stream : Bytes) : requests stream =
    match readPacket stream with
    | .error _ => []
    | .ok (pkt, rest) => if pkt.payload = [] then [] else pkt :: requests rest := by
  rw [requests]
  split
  · next h => rw [h]
  · next h => rw [h]

/-- The commands that are served, each with what becomes of it; how the loop ends, and the session
it leaves. -/
def dialogue (connectionId : UInt32) (envs : ℕ → Env) :
    ℕ → Session → List MySqlPacket → List (MySqlPacket × CommandCourse) × Ended × Session
  | _, session, [] => ([], .returned, session)
  | i, session, pkt :: pkts =>
    let course := commandCourse connectionId (envs i) session pkt.payload
    match course.handled with
    | .quit => ([(pkt, course)], .returned, sessionAfter session pkt.payload)
    | .threw => ([(pkt, course)], .threw, sessionAfter session pkt.payload)
    | .next =>
      let r := dialogue connectionId envs (i + 1) (sessionAfter session pkt.payload) pkts
      ((pkt, course) :: r.1, r.2)

/-- Every packet that a command needs written comes to an end. -/
def CommandCourse.Finishes (payload : Bytes) : CommandCourse → Prop
  | .quit => True
  | .reply p => ¬ Endless p
  | .query course => course.Finishes payload

/-- What the client gets for a command: nothing if the connection ends, one packet with the number
after that of the command, or the reply to a query, which is one response exactly if no ERR packet
closes a result set. -/
def CommandCourse.Responds (pkt : MySqlPacket) : CommandCourse → List (UInt8 × Bytes) → Prop
  | .quit, sent => sent = []
  | .reply p, sent => sent = [(pkt.sequence + 1, p)]
  | .query .broken, sent => sent = []
  | .query course, sent =>
    course.Replies pkt.payload (sent.map Prod.snd) ∧
      (IsResponse (sent.map Prod.snd) ↔ course.NotClosedByErr pkt.payload)

/-! ### More iterations -/

theorem sendSoFar_mono {n m : ℕ} {client client' : ClientSide} {payload : Bytes} {ok : Bool}
    (h : sendSoFar n client payload = (client', some ok)) (hle : n ≤ m) :
    sendSoFar m client payload = (client', some ok) := by
  rw [sendSoFar] at h ⊢
  cases hn : Loop.after (writePacketBody payload) n ⟨0, client.seq, client.socket⟩ with
  | inl st =>
    rw [hn] at h
    exact absurd (congrArg Prod.snd h) (by simp [WriteState.sent])
  | inr r =>
    rw [Loop.after_mono hn hle]
    rwa [hn] at h

theorem sendLast_mono {n m : ℕ} {client client' : ClientSide} {payload : Bytes} {ended : Ended}
    (h : sendLast n client payload = (client', some ended)) (hle : n ≤ m) :
    sendLast m client payload = (client', some ended) := by
  obtain ⟨client₁, ok, hsend⟩ : ∃ client₁ ok, sendSoFar n client payload = (client₁, ok) :=
    ⟨_, _, rfl⟩
  rw [sendLast] at h ⊢
  cases ok with
  | none =>
    rw [hsend] at h
    exact absurd (congrArg Prod.snd h) (by simp)
  | some ok =>
    rw [sendSoFar_mono hsend hle]
    rwa [hsend] at h

theorem proxySoFar_mono {n m : ℕ} (hle : n ≤ m) {stage : Checkout.Stage} {stream : Bytes}
    {client client' : ClientSide} {r : Proxied}
    (h : proxySoFar n stage stream client = (client', some r)) :
    proxySoFar m stage stream client = (client', some r) := by
  induction hlen : stream.length using Nat.strong_induction_on generalizing stage stream client with
  | _ k ih =>
    subst hlen
    rw [proxySoFar_eq] at h ⊢
    cases hread : readPacket stream with
    | error e =>
      rw [hread] at h
      exact h
    | ok p =>
      obtain ⟨pkt, rest⟩ := p
      rw [hread] at h
      obtain ⟨client₁, ok, hsend⟩ : ∃ client₁ ok,
          sendSoFar n { client with seq := pkt.sequence } pkt.payload = (client₁, ok) :=
        ⟨_, _, rfl⟩
      cases ok with
      | none =>
        simp only [hsend] at h
        exact absurd (congrArg Prod.snd h) (by simp)
      | some ok =>
        have hsend' := sendSoFar_mono hsend hle
        cases ok with
        | false =>
          simp only [hsend] at h
          simp only [hsend']
          exact h
        | true =>
          simp only [hsend] at h
          simp only [hsend']
          cases hnext : stage.next pkt.payload with
          | none =>
            rw [hnext] at h
            exact h
          | some stage' =>
            simp only [hnext] at h
            exact ih rest.length (length_of_readPacket hread) h rfl

theorem exchange_mono {n m : ℕ} (hle : n ≤ m) {backend : Backend} {err payload : Bytes}
    {client client' : ClientSide} {ended : Ended}
    (h : exchange n backend err payload client = (client', some ended)) :
    exchange m backend err payload client = (client', some ended) := by
  rw [exchange] at h ⊢
  cases hwrite : writePacket n backend.socket payload 0 with
  | none =>
    rw [hwrite] at h
    exact absurd (congrArg Prod.snd h) (by simp)
  | some w =>
    rw [show writePacket m backend.socket payload 0 = some w from Loop.run_mono hwrite hle]
    rw [hwrite] at h
    obtain ⟨e | ⟨⟩, w⟩ := w
    · exact sendLast_mono h hle
    · obtain ⟨client₁, r, hproxy⟩ : ∃ client₁ r,
          proxySoFar n .first backend.stream client = (client₁, r) := ⟨_, _, rfl⟩
      simp only [hproxy] at h
      cases r with
      | none => exact absurd (congrArg Prod.snd h) (by simp)
      | some r =>
        simp only [proxySoFar_mono hle hproxy]
        obtain (_ | _) | _ := r
        · exact sendLast_mono h hle
        · exact h
        · exact sendLast_mono h hle

/-- **More iterations** do not change what has ended. -/
theorem Course.serve_mono {n m : ℕ} (hle : n ≤ m) {course : Course} {payload : Bytes}
    {client client' : ClientSide} {ended : Ended}
    (h : course.serve n payload client = (client', some ended)) :
    course.serve m payload client = (client', some ended) := by
  cases course with
  | answered => exact sendLast_mono h hle
  | broken => exact h
  | refused err => exact sendLast_mono h hle
  | forwarded backend err => exact exchange_mono hle h

/-! ### One command -/

theorem reliable_sendSoFar {client : ClientSide} (h : client.socket.Reliable) (fuel : ℕ)
    (payload : Bytes) : (sendSoFar fuel client payload).1.socket.Reliable := by
  obtain ⟨cs, -, -, hsend⟩ := exists_push_sendSoFar h fuel payload
  rw [hsend]
  exact reliable_push h cs

theorem reliable_sendAll {client : ClientSide} (h : client.socket.Reliable) (fuel : ℕ)
    (pkts : List MySqlPacket) : (sendAll fuel pkts client).1.socket.Reliable := by
  induction pkts generalizing client with
  | nil => exact h
  | cons pkt pkts ih =>
    have hclient : ({ client with seq := pkt.sequence } : ClientSide).socket.Reliable := h
    by_cases hf : Fits fuel pkt.payload
    · rw [sendAll_cons_of_fits h hf]
      exact ih (reliable_push hclient _)
    · rw [sendAll_cons_of_not_fits h hf]
      exact reliable_sendSoFar hclient fuel pkt.payload

theorem returned_of_sendLast {client client' : ClientSide} (h : client.socket.Reliable)
    {fuel : ℕ} {payload : Bytes} {ended : Ended}
    (hsend : sendLast fuel client payload = (client', some ended)) :
    ended = .returned ∧ client' = client.push (chunksOf payload) := by
  rw [sendLast_of_fits h (fits_of_sendLast h hsend)] at hsend
  obtain ⟨rfl, hended⟩ := Prod.mk.inj hsend
  exact ⟨(Option.some.inj hended).symm, rfl⟩

/-- A query that does not throw of itself returns, and the client takes further writes. -/
theorem returned_of_serve {course : Course} (hbroken : course ≠ .broken) {fuel : ℕ}
    {payload : Bytes} {client client' : ClientSide} (h : client.socket.Reliable) {ended : Ended}
    (hserve : course.serve fuel payload client = (client', some ended)) :
    ended = .returned ∧ client'.socket.Reliable := by
  have hlast : ∀ {client₀ : ClientSide} {p : Bytes}, client₀.socket.Reliable →
      sendLast fuel client₀ p = (client', some ended) →
      ended = .returned ∧ client'.socket.Reliable := by
    intro client₀ p h₀ hsend
    obtain ⟨hended, rfl⟩ := returned_of_sendLast h₀ hsend
    exact ⟨hended, reliable_push h₀ _⟩
  cases course with
  | answered => exact hlast h hserve
  | broken => exact absurd rfl hbroken
  | refused err => exact hlast h hserve
  | forwarded backend err =>
    rw [Course.serve, exchange] at hserve
    cases hwrite : writePacket fuel backend.socket payload 0 with
    | none =>
      rw [hwrite] at hserve
      exact absurd (congrArg Prod.snd hserve) (by simp)
    | some w =>
      rw [hwrite] at hserve
      obtain ⟨e | ⟨⟩, w⟩ := w
      · exact hlast h hserve
      · rw [proxySoFar_of_reliable fuel .first backend.stream h] at hserve
        have hclient := reliable_sendAll h fuel (taken .first backend.stream).1
        cases hall : (sendAll fuel (taken .first backend.stream).1 client).2 with
        | false =>
          rw [hall] at hserve
          exact absurd (congrArg Prod.snd hserve) (by simp)
        | true =>
          rw [hall] at hserve
          cases hwhole : (taken .first backend.stream).2 with
          | true =>
            rw [hwhole] at hserve
            obtain ⟨rfl, hended⟩ := Prod.mk.inj hserve
            exact ⟨(Option.some.inj hended).symm, hclient⟩
          | false =>
            rw [hwhole] at hserve
            exact hlast hclient hserve

/-- A query that has been served got its reply. -/
theorem replies_of_serve {course : Course} (hbroken : course ≠ .broken) {fuel : ℕ}
    {payload : Bytes} {client client' : ClientSide} (h : client.socket.Reliable)
    (hserve : course.serve fuel payload client = (client', some .returned)) :
    ∃ sent, client'.socket.wire = client.socket.wire ++ wireOf sent ∧
      course.Replies payload (sent.map Prod.snd) := by
  obtain ⟨fuel₁, client₁, sent, hserve₁, hwire, hreplies⟩ :=
    exists_serve_of_finishes h hbroken (finishes_of_serve h hserve)
  have hmax := Course.serve_mono (Nat.le_max_left fuel fuel₁) hserve
  obtain ⟨rfl, -⟩ := Prod.mk.inj
    (hmax.symm.trans (Course.serve_mono (Nat.le_max_right fuel fuel₁) hserve₁))
  exact ⟨sent, hwire, hreplies⟩

/-- The ERR packets of a query are ERR packets. -/
def CommandCourse.ErrsAreErrs (course : CommandCourse) : Prop :=
  ∀ err, (course = .query (.refused err) ∨ ∃ backend, course = .query (.forwarded backend err)) →
    ∃ code state message, err = makeErr code state message

theorem errsAreErrs_commandCourse (connectionId : UInt32) (env : Env) (session : Session)
    (payload : Bytes) : (commandCourse connectionId env session payload).ErrsAreErrs := by
  intro err h
  have hcourse : env.course session payload = .refused err ∨
      ∃ backend, env.course session payload = .forwarded backend err := by
    simp only [commandCourse] at h
    split_ifs at h with hquit hping hinit hquery
    all_goals try simp at h
    exact h
  exact exists_makeErr_of_course hcourse

/-- **A command that has been handled**: what it had to write has come to an end, and the client
has got what the course of the command says. -/
theorem CommandCourse.serve_spec {course : CommandCourse} (herr : course.ErrsAreErrs) {fuel : ℕ}
    {pkt : MySqlPacket} {client client' : ClientSide} (h : client.socket.Reliable)
    (hseq : client.seq = pkt.sequence + 1) {handled : Handled}
    (hserve : course.serve fuel pkt.payload client = (client', some handled)) :
    handled = course.handled ∧ client'.socket.Reliable ∧ course.Finishes pkt.payload ∧
      ∃ sent, client'.socket.wire = client.socket.wire ++ wireOf sent ∧
        course.Responds pkt sent := by
  have hnone : client.socket.wire = client.socket.wire ++ wireOf [] := (List.append_nil _).symm
  cases course with
  | quit =>
    obtain ⟨rfl, hhandled⟩ := Prod.mk.inj hserve
    exact ⟨(Option.some.inj hhandled).symm, h, trivial, [], hnone, rfl⟩
  | reply p =>
    obtain ⟨hclient, hhandled⟩ := Prod.mk.inj hserve
    obtain ⟨ended, hended, rfl⟩ := Option.map_eq_some_iff.mp hhandled
    have hsend : sendLast fuel client p = (client', some ended) := Prod.ext hclient hended
    have hfits := (fits_of_sendLast h hsend).1
    obtain ⟨rfl, rfl⟩ := returned_of_sendLast h hsend
    refine ⟨rfl, reliable_push h _, hfits, [(client.seq, p)], wire_push_chunksOf client p, ?_⟩
    rw [hseq]
    rfl
  | query course =>
    obtain ⟨hclient, hhandled⟩ := Prod.mk.inj hserve
    obtain ⟨ended, hended, rfl⟩ := Option.map_eq_some_iff.mp hhandled
    have hserve' : course.serve fuel pkt.payload client = (client', some ended) :=
      Prod.ext hclient hended
    by_cases hbroken : course = .broken
    · subst hbroken
      obtain ⟨rfl, hended⟩ := Prod.mk.inj hserve'
      obtain rfl := Option.some.inj hended
      exact ⟨rfl, h, trivial, [], hnone, rfl⟩
    · obtain ⟨rfl, hreliable⟩ := returned_of_serve hbroken h hserve'
      obtain ⟨sent, hwire, hreplies⟩ := replies_of_serve hbroken h hserve'
      have hone := isResponse_iff_of_replies (fun err hcourse =>
        herr err (hcourse.imp (congrArg _) fun hb => hb.imp fun _ => congrArg _)) hreplies
      have hhandled : Handled.next = (CommandCourse.query course).handled := by
        cases course with
        | broken => exact absurd rfl hbroken
        | _ => rfl
      have hresponds : (CommandCourse.query course).Responds pkt sent := by
        cases course with
        | broken => exact absurd rfl hbroken
        | _ => exact ⟨hreplies, hone⟩
      exact ⟨hhandled, hreliable, finishes_of_serve h hserve', sent, hwire, hresponds⟩

/-- A command whose packets all come to an end is handled, with enough iterations. -/
theorem CommandCourse.exists_serve {course : CommandCourse} {payload : Bytes} {client : ClientSide}
    (h : client.socket.Reliable) (hfinishes : course.Finishes payload) :
    ∃ n client' handled, ∀ fuel, n ≤ fuel →
      course.serve fuel payload client = (client', some handled) := by
  cases course with
  | quit => exact ⟨0, client, .quit, fun fuel _ => rfl⟩
  | reply p =>
    obtain ⟨n, hn⟩ := exists_fits (show ¬ Endless p from hfinishes)
    refine ⟨n, client.push (chunksOf p), .next, fun fuel hle => ?_⟩
    rw [CommandCourse.serve, sendLast_of_fits h (hn.mono hle)]
    rfl
  | query course =>
    by_cases hbroken : course = .broken
    · subst hbroken
      exact ⟨0, client, .threw, fun fuel _ => rfl⟩
    · obtain ⟨n, client', sent, hserve, -, -⟩ := exists_serve_of_finishes h hbroken hfinishes
      refine ⟨n, client', .next, fun fuel hle => ?_⟩
      rw [CommandCourse.serve, Course.serve_mono hle hserve]
      rfl

/-! ### The packets of the proxy itself -/

theorem length_bytesOf (t : String) : (bytesOf t).length = t.length := by
  rw [bytesOf, List.length_map, String.length_toList]

theorem not_endless_of_length {payload : Bytes} (h : payload.length ≤ 100) : ¬ Endless payload := by
  rw [Endless, maxPacketSize_eq]
  rintro ⟨hpos, hmod⟩
  omega

theorem length_makeErr (code : ℕ) (state message : Bytes) :
    (makeErr code state message).length = message.length + 9 := by
  simp only [makeErr, writeU8, writeU16Le, writeBytes, List.length_append, List.length_cons,
    List.length_nil, List.length_rightpad, List.length_take]
  omega

/-- The packets with which the proxy answers a command itself are short. -/
theorem not_endless_of_commandCourse {connectionId : UInt32} {env : Env} {session : Session}
    {payload p : Bytes} (h : commandCourse connectionId env session payload = .reply p) :
    ¬ Endless p := by
  have hdigits : ∀ n : ℕ, n < 10000000000 → (toString n).length ≤ 10 := fun n hn =>
    Nat.repr_length n 10 (by decide) hn
  have hunknown : ∀ command : UInt8, (unknownErr command).length ≤ 100 := by
    intro command
    have hcommand := hdigits command.toNat (by have := command.toNat_lt; omega)
    rw [unknownErr, length_makeErr, length_bytesOf, String.length_append]
    have htext : "Unknown command ".length = 16 := rfl
    omega
  have hstat : (statisticsText connectionId).length ≤ 100 := by
    have hid := hdigits connectionId.toNat (by have := connectionId.toNat_lt; omega)
    rw [statisticsText, length_bytesOf, String.length_append]
    have htext : "DBMesh connection_id=".length = 21 := rfl
    omega
  have hbinary : binaryErr.length ≤ 100 := by
    rw [binaryErr, length_makeErr, length_bytesOf]
    decide
  simp only [commandCourse] at h
  split_ifs at h
  all_goals obtain rfl := CommandCourse.reply.inj h
  · exact not_endless_okReply
  · exact not_endless_okReply
  · exact not_endless_of_length (by decide)
  · exact not_endless_of_length hstat
  · exact not_endless_okReply
  · exact not_endless_of_length hbinary
  · exact not_endless_of_length (hunknown _)

/-- Each command that is served has the course that goes with some session. -/
theorem exists_commandCourse_of_mem {connectionId : UInt32} {envs : ℕ → Env} {i : ℕ}
    {session : Session} {pkts : List MySqlPacket} {p : MySqlPacket × CommandCourse}
    (h : p ∈ (dialogue connectionId envs i session pkts).1) :
    ∃ env session', p.2 = commandCourse connectionId env session' p.1.payload := by
  induction pkts generalizing i session with
  | nil => exact absurd h List.not_mem_nil
  | cons pkt pkts ih =>
    rw [dialogue] at h
    have hlast : p = (pkt, commandCourse connectionId (envs i) session pkt.payload) →
        ∃ env session', p.2 = commandCourse connectionId env session' p.1.payload := by
      rintro rfl
      exact ⟨envs i, session, rfl⟩
    cases hhandled : (commandCourse connectionId (envs i) session pkt.payload).handled with
    | next =>
      rw [hhandled] at h
      exact (List.mem_cons.mp h).elim hlast ih
    | quit =>
      rw [hhandled] at h
      exact hlast (List.mem_singleton.mp h)
    | threw =>
      rw [hhandled] at h
      exact hlast (List.mem_singleton.mp h)

/-- Only a query may need something written that has no end. -/
theorem forall_finishes_iff {connectionId : UInt32} {envs : ℕ → Env} {i : ℕ} {session : Session}
    {pkts : List MySqlPacket} :
    (∀ p ∈ (dialogue connectionId envs i session pkts).1, p.2.Finishes p.1.payload) ↔
      ∀ pkt course, (pkt, .query course) ∈ (dialogue connectionId envs i session pkts).1 →
        course.Finishes pkt.payload := by
  constructor
  · intro h pkt course hmem
    exact h _ hmem
  · rintro h ⟨pkt, course⟩ hmem
    cases course with
    | quit => trivial
    | query course => exact h pkt course hmem
    | reply p =>
      obtain ⟨env, session', hcourse⟩ := exists_commandCourse_of_mem hmem
      exact not_endless_of_commandCourse hcourse.symm

/-! ### The loop -/

theorem commandLoop_eq (fuel : ℕ) (connectionId : UInt32) (envs : ℕ → Env) (i : ℕ)
    (session : Session) (stream : Bytes) (client : ClientSide) :
    commandLoop fuel connectionId envs i session stream client =
      match readPacket stream with
      | .error _ => (({ client with seq := 0 }, some .returned), session)
      | .ok (pkt, rest) =>
        if pkt.payload = [] then (({ client with seq := 0 }, some .returned), session)
        else
          match handleCommand fuel connectionId (envs i) session pkt { client with seq := 0 } with
          | ((client, none), session) => ((client, none), session)
          | ((client, some .quit), session) => ((client, some .returned), session)
          | ((client, some .threw), session) => ((client, some .threw), session)
          | ((client, some .next), session) =>
            commandLoop fuel connectionId envs (i + 1) session rest client := by
  rw [commandLoop]
  split
  · next h => rw [h]
  · next h => rw [h]

/-- The loop on a packet that is served, by the course of the command. -/
theorem commandLoop_of_readPacket {fuel : ℕ} {connectionId : UInt32} {envs : ℕ → Env} {i : ℕ}
    {session : Session} {stream rest : Bytes} {pkt : MySqlPacket} {client : ClientSide}
    (hread : readPacket stream = .ok (pkt, rest)) (hne : pkt.payload ≠ []) :
    commandLoop fuel connectionId envs i session stream client =
      match (commandCourse connectionId (envs i) session pkt.payload).serve fuel pkt.payload
        { client with seq := pkt.sequence + 1 } with
      | (client, none) => ((client, none), sessionAfter session pkt.payload)
      | (client, some .quit) => ((client, some .returned), sessionAfter session pkt.payload)
      | (client, some .threw) => ((client, some .threw), sessionAfter session pkt.payload)
      | (client, some .next) =>
        commandLoop fuel connectionId envs (i + 1) (sessionAfter session pkt.payload) rest
          client := by
  rw [commandLoop_eq, hread]
  simp only [if_neg hne, handleCommand_eq]
  rcases (commandCourse connectionId (envs i) session pkt.payload).serve fuel pkt.payload
    { client with seq := pkt.sequence + 1 } with ⟨client', _ | _ | _ | _⟩ <;> rfl

theorem requests_of_readPacket {stream rest : Bytes} {pkt : MySqlPacket}
    (hread : readPacket stream = .ok (pkt, rest)) (hne : pkt.payload ≠ []) :
    requests stream = pkt :: requests rest := by
  rw [requests_eq, hread]
  exact if_neg hne

/-- Where there is nothing to read but an empty packet, if any, the loop returns at once. -/
theorem commandLoop_of_requests_nil {stream : Bytes}
    (h : ∀ pkt rest, readPacket stream = .ok (pkt, rest) → pkt.payload = []) (fuel : ℕ)
    (connectionId : UInt32) (envs : ℕ → Env) (i : ℕ) (session : Session) (client : ClientSide) :
    requests stream = [] ∧ commandLoop fuel connectionId envs i session stream client =
      (({ client with seq := 0 }, some .returned), session) := by
  rw [requests_eq, commandLoop_eq]
  cases hread : readPacket stream with
  | error e => exact ⟨rfl, rfl⟩
  | ok r =>
    obtain ⟨pkt, rest⟩ := r
    have hnil : pkt.payload = [] := h pkt rest hread
    exact ⟨if_pos hnil, if_pos hnil⟩

theorem readPacket_cases (stream : Bytes) :
    (∀ pkt rest, readPacket stream = .ok (pkt, rest) → pkt.payload = []) ∨
      ∃ pkt rest, readPacket stream = .ok (pkt, rest) ∧ pkt.payload ≠ [] := by
  by_cases h : ∃ pkt rest, readPacket stream = .ok (pkt, rest) ∧ pkt.payload ≠ []
  · exact .inr h
  · refine .inl fun pkt rest hread => ?_
    by_contra hne
    exact h ⟨pkt, rest, hread, hne⟩

/-- What a loop that has ended has done. -/
structure Served (d : List (MySqlPacket × CommandCourse) × Ended × Session)
    (client client' : ClientSide) (ended : Ended) (session' : Session) : Prop where
  result : (ended, session') = d.2
  finishes : ∀ p ∈ d.1, p.2.Finishes p.1.payload
  replies : ∃ sents : List (List (UInt8 × Bytes)),
    List.Forall₂ (fun p sent => p.2.Responds p.1 sent) d.1 sents ∧
      client'.socket.wire = client.socket.wire ++ wireOf sents.flatten

/-- The command that ends the connection is the last. -/
theorem served_last {p : MySqlPacket × CommandCourse} {ended : Ended} {session' : Session}
    {client client' : ClientSide} (hfinishes : p.2.Finishes p.1.payload)
    {sent : List (UInt8 × Bytes)}
    (hwire : client'.socket.wire = client.socket.wire ++ wireOf sent)
    (hresponds : p.2.Responds p.1 sent) :
    Served ([p], ended, session') client client' ended session' := by
  refine ⟨rfl, List.forall_mem_singleton.mpr hfinishes, [sent], .cons hresponds .nil, ?_⟩
  rw [List.flatten_cons, List.flatten_nil, List.append_nil]
  exact hwire

theorem Served.cons {p : MySqlPacket × CommandCourse}
    {d : List (MySqlPacket × CommandCourse) × Ended × Session} {ended : Ended} {session' : Session}
    {client client₁ client' : ClientSide} (h : Served d client₁ client' ended session')
    (hfinishes : p.2.Finishes p.1.payload) {sent : List (UInt8 × Bytes)}
    (hwire : client₁.socket.wire = client.socket.wire ++ wireOf sent)
    (hresponds : p.2.Responds p.1 sent) :
    Served (p :: d.1, d.2) client client' ended session' := by
  obtain ⟨sents, hall, hrest⟩ := h.replies
  refine ⟨h.result, List.forall_mem_cons.mpr ⟨hfinishes, h.finishes⟩, sent :: sents,
    .cons hresponds hall, ?_⟩
  rw [hrest, hwire, List.flatten_cons, wireOf_append, List.append_assoc]

/-- **A loop that has ended** has served the commands of the dialogue, and no others. -/
theorem served_commandLoop {fuel : ℕ} {connectionId : UInt32} {envs : ℕ → Env} {i : ℕ}
    {session session' : Session} {stream : Bytes} {client client' : ClientSide} {ended : Ended}
    (h : client.socket.Reliable)
    (hloop : commandLoop fuel connectionId envs i session stream client =
      ((client', some ended), session')) :
    Served (dialogue connectionId envs i session (requests stream)) client client' ended
      session' := by
  induction hlen : stream.length using Nat.strong_induction_on
    generalizing i session stream client with
  | _ k ih =>
    subst hlen
    rcases readPacket_cases stream with hnil | ⟨pkt, rest, hread, hne⟩
    · obtain ⟨hreq, hend⟩ :=
        commandLoop_of_requests_nil hnil fuel connectionId envs i session client
      rw [hend] at hloop
      obtain ⟨hfst, rfl⟩ := Prod.mk.inj hloop
      obtain ⟨rfl, hended⟩ := Prod.mk.inj hfst
      obtain rfl := Option.some.inj hended
      rw [hreq]
      exact ⟨rfl, List.forall_mem_nil _, [], .nil, (List.append_nil _).symm⟩
    · rw [requests_of_readPacket hread hne, dialogue]
      rw [commandLoop_of_readPacket hread hne] at hloop
      have herr := errsAreErrs_commandCourse connectionId (envs i) session pkt.payload
      generalize commandCourse connectionId (envs i) session pkt.payload = course at hloop herr ⊢
      obtain ⟨client₁, handled, hserve⟩ : ∃ client₁ handled, course.serve fuel pkt.payload
          { client with seq := pkt.sequence + 1 } = (client₁, handled) := ⟨_, _, rfl⟩
      rw [hserve] at hloop
      cases handled with
      | none => exact absurd (congrArg (fun r => r.1.2) hloop) (by simp)
      | some handled =>
        have hclient : ({ client with seq := pkt.sequence + 1 } : ClientSide).socket.Reliable := h
        obtain ⟨hhandled, hclient₁, hfinishes, sent, hwire, hresponds⟩ :=
          CommandCourse.serve_spec herr hclient rfl hserve
        rw [← hhandled]
        cases handled with
        | quit =>
          obtain ⟨hfst, rfl⟩ := Prod.mk.inj hloop
          obtain ⟨rfl, hended⟩ := Prod.mk.inj hfst
          obtain rfl := Option.some.inj hended
          exact served_last hfinishes hwire hresponds
        | threw =>
          obtain ⟨hfst, rfl⟩ := Prod.mk.inj hloop
          obtain ⟨rfl, hended⟩ := Prod.mk.inj hfst
          obtain rfl := Option.some.inj hended
          exact served_last hfinishes hwire hresponds
        | next =>
          have hrest := ih rest.length (length_of_readPacket hread) hclient₁ hloop rfl
          exact Served.cons (p := (pkt, course)) hrest hfinishes hwire hresponds

/-- Where every packet that has to be written comes to an end, so does the loop. -/
theorem exists_commandLoop {connectionId : UInt32} {envs : ℕ → Env} {i : ℕ} {session : Session}
    {stream : Bytes} {client : ClientSide} (h : client.socket.Reliable)
    (hfinishes : ∀ p ∈ (dialogue connectionId envs i session (requests stream)).1,
      p.2.Finishes p.1.payload) :
    ∃ n, ∀ fuel, n ≤ fuel → ∃ client' ended session',
      commandLoop fuel connectionId envs i session stream client =
        ((client', some ended), session') := by
  induction hlen : stream.length using Nat.strong_induction_on
    generalizing i session stream client with
  | _ k ih =>
    subst hlen
    rcases readPacket_cases stream with hnil | ⟨pkt, rest, hread, hne⟩
    · refine ⟨0, fun fuel _ => ⟨{ client with seq := 0 }, .returned, session, ?_⟩⟩
      exact (commandLoop_of_requests_nil hnil fuel connectionId envs i session client).2
    · rw [requests_of_readPacket hread hne, dialogue] at hfinishes
      simp only [commandLoop_of_readPacket hread hne]
      have herr := errsAreErrs_commandCourse connectionId (envs i) session pkt.payload
      generalize commandCourse connectionId (envs i) session pkt.payload = course
        at hfinishes herr ⊢
      have hclient : ({ client with seq := pkt.sequence + 1 } : ClientSide).socket.Reliable := h
      have hfirst : course.Finishes pkt.payload := by
        cases hhandled : course.handled with
        | next =>
          rw [hhandled] at hfinishes
          exact hfinishes _ (List.mem_cons_self ..)
        | quit =>
          rw [hhandled] at hfinishes
          exact hfinishes _ (List.mem_cons_self ..)
        | threw =>
          rw [hhandled] at hfinishes
          exact hfinishes _ (List.mem_cons_self ..)
      obtain ⟨n₁, client₁, handled, hserve⟩ := CommandCourse.exists_serve hclient hfirst
      obtain ⟨hhandled, hclient₁, -⟩ :=
        CommandCourse.serve_spec herr hclient rfl (hserve n₁ le_rfl)
      cases handled with
      | quit => exact ⟨n₁, fun fuel hle => by rw [hserve fuel hle]; exact ⟨_, _, _, rfl⟩⟩
      | threw => exact ⟨n₁, fun fuel hle => by rw [hserve fuel hle]; exact ⟨_, _, _, rfl⟩⟩
      | next =>
        rw [← hhandled] at hfinishes
        obtain ⟨n₂, hn₂⟩ := ih rest.length (length_of_readPacket hread) hclient₁
          (List.forall_mem_cons.mp hfinishes).2 rfl
        refine ⟨max n₁ n₂, fun fuel hle => ?_⟩
        rw [hserve fuel (Nat.le_trans (Nat.le_max_left ..) hle)]
        exact hn₂ fuel (Nat.le_trans (Nat.le_max_right ..) hle)

/-- **A connection is served in order.** Whatever a client that takes every write sends, ahead or
not, and however the surroundings change from command to command: the loop ends if and only if
every packet that the queries served need written comes to an end. When it has ended, the client
has got for each command served what its course says, one reply after the other and nothing else,
and the session is what the texts of the commands make of it. The reply to a query is one response
exactly if no ERR packet closes a result set that is forwarded. -/
theorem command_loop_answers (connectionId : UInt32) (envs : ℕ → Env) (session : Session)
    (stream : Bytes) (client : ClientSide) (hclient : client.socket.Reliable) :
    ((∃ fuel client' ended session', commandLoop fuel connectionId envs 0 session stream client =
        ((client', some ended), session')) ↔
      ∀ pkt course,
        (pkt, .query course) ∈ (dialogue connectionId envs 0 session (requests stream)).1 →
          course.Finishes pkt.payload) ∧
    ∀ fuel client' ended session', commandLoop fuel connectionId envs 0 session stream client =
        ((client', some ended), session') →
      (ended, session') = (dialogue connectionId envs 0 session (requests stream)).2 ∧
      ∃ sents : List (List (UInt8 × Bytes)),
        List.Forall₂ (fun p sent => p.2.Responds p.1 sent)
          (dialogue connectionId envs 0 session (requests stream)).1 sents ∧
        client'.socket.wire = client.socket.wire ++ wireOf sents.flatten := by
  refine ⟨⟨?_, fun hfinishes => ?_⟩, fun fuel client' ended session' hloop => ?_⟩
  · rintro ⟨fuel, client', ended, session', hloop⟩
    exact forall_finishes_iff.mp (served_commandLoop hclient hloop).finishes
  · obtain ⟨n, hn⟩ := exists_commandLoop hclient (forall_finishes_iff.mpr hfinishes)
    exact ⟨n, hn n le_rfl⟩
  · have hserved := served_commandLoop hclient hloop
    exact ⟨hserved.result, hserved.replies⟩

/-- A ping, and then the end: one OK packet, with the number after that of the ping. -/
theorem command_loop_answers_ping : ∃ fuel client' ended session',
    commandLoop fuel 7 (fun _ => {}) 0 ⟨[], false, true⟩
        (encodeFrames [0x0E] 0 ++ encodeFrames [0x01] 0) ⟨⟨[], 0, fun _ => none⟩, 0⟩ =
      ((client', some ended), session') ∧
    ended = .returned ∧ client'.socket.wire = encodeFrames okReply 1 := by
  have hrequests : requests (encodeFrames [0x0E] 0 ++ encodeFrames [0x01] 0) =
      [⟨1, 0, [0x0E]⟩, ⟨1, 0, [0x01]⟩] := by
    have hone : 1 / maxPacketSize = 0 := Nat.div_eq_of_lt (by rw [maxPacketSize_eq]; omega)
    have hnil : requests [] = [] := by
      rw [requests_eq]
      rfl
    have hping := readPacket_encodeFrames [0x0E] 0 (encodeFrames [0x01] 0)
    have hquit := readPacket_encodeFrames [0x01] 0 []
    simp only [List.length_singleton, hone] at hping hquit
    rw [requests_of_readPacket hping (by decide), ← List.append_nil (encodeFrames [0x01] 0),
      requests_of_readPacket hquit (by decide), hnil]
    rfl
  have hdialogue : dialogue 7 (fun _ => {}) 0 ⟨[], false, true⟩
      [⟨1, 0, [0x0E]⟩, ⟨1, 0, [0x01]⟩] =
        ([(⟨1, 0, [0x0E]⟩, .reply okReply), (⟨1, 0, [0x01]⟩, .quit)], .returned,
          ⟨[], false, true⟩) := rfl
  obtain ⟨hends, hall⟩ := command_loop_answers 7 (fun _ => {}) ⟨[], false, true⟩
    (encodeFrames [0x0E] 0 ++ encodeFrames [0x01] 0) ⟨⟨[], 0, fun _ => none⟩, 0⟩ fun _ => rfl
  rw [hrequests, hdialogue] at hends hall
  obtain ⟨fuel, client', ended, session', hloop⟩ := hends.mpr (by simp)
  obtain ⟨hresult, sents, hsents, hwire⟩ := hall fuel client' ended session' hloop
  refine ⟨fuel, client', ended, session', hloop, (Prod.mk.inj hresult).1, ?_⟩
  cases hsents with
  | cons hping hrest =>
    cases hrest with
    | cons hquit hrest =>
      cases hrest
      obtain rfl := hping
      obtain rfl := hquit
      rw [hwire]
      simp [wireOf]

end DBMesh.Protocol
