import DBMesh.Pool.Calls
import DBMesh.Protocol.ProxyResult

/-!
# Forwarding over a pooled connection

`MySqlConnection::route_and_forward` takes a connection out of the pool, forwards a query over it,
calls `release` and then increments `queries_served`. Its calls run beside each other and beside the
strand of the pool: `release` only dispatches its handler, which may run inside the call or at any
time after it. Here many calls and one pool move in any order, and each access a call makes to its
`PooledConnection` is a step of its own.

A call is named by its `acquire()`. What it does before, planning a route and finding the pool,
touches no connection.

## Main definitions

* `Checkout.forward` — the `try` block, with every outcome of the I/O in it
* `Checkout.State`, `Checkout.Action`, `Checkout.step` — the calls and the pool
* `Checkout.touched` — the connection an action accesses
* `Checkout.Owned`, `Checkout.UsesOwned` — the connection is active and checked out to the call, at
  every access

## Main results

* `Checkout.exists_run_of_resume` — the `try` block goes through the packets as `proxy_result` does
* `Checkout.move_of_step` — what each action can do
-/

namespace DBMesh.Checkout

open Transition
open Pool (CoroId Ptr Handle)
open Protocol (Bytes Proxied singlePacket isEofPacket)

/-! ### The try block -/

/-- Where `proxy_result` is: before the first packet, among the column definitions, or the rows. -/
inductive Stage
  | first
  | columns
  | rows
  deriving DecidableEq, Repr

/-- What `proxy_result` does once a packet has been sent on: read the next one, or return `true`. -/
def Stage.next : Stage → Bytes → Option Stage
  | .first, payload => if singlePacket payload then none else some .columns
  | .columns, payload => if isEofPacket payload then some .rows else some .columns
  | .rows, payload => if isEofPacket payload then none else some .rows

/-- Where the `try` block is suspended; `settled` is behind it, with the value of `ok`. -/
inductive Point
  | writing
  | reading (stage : Stage)
  | sending (stage : Stage) (payload : Bytes)
  | settled (ok : Bool)
  deriving DecidableEq, Repr

/-- The outcomes of the I/O. -/
inductive Event
  /-- An operation on the backend's socket completes and the next one of the packet is started. -/
  | transferred
  /-- `write_packet` returns. -/
  | wrote (ok : Bool)
  /-- `read_packet` returns a packet or an error. -/
  | read (packet : Option Bytes)
  /-- `send` returns, or throws if the client is gone. -/
  | sent (ok : Bool)
  deriving DecidableEq, Repr

/-- The `try` block of `route_and_forward`: where it goes on, and how `proxy_result` has ended if it
has. -/
def forward : Point → Event → Option (Point × Option Proxied)
  | .writing, .transferred => some (.writing, none)
  | .writing, .wrote true => some (.reading .first, none)
  | .writing, .wrote false => some (.settled false, none)
  | .reading stage, .transferred => some (.reading stage, none)
  | .reading stage, .read (some payload) => some (.sending stage payload, none)
  | .reading _, .read none => some (.settled false, some (.returned false))
  | .sending stage payload, .sent true =>
    match stage.next payload with
    | some stage => some (.reading stage, none)
    | none => some (.settled true, some (.returned true))
  | .sending _ _, .sent false => some (.settled false, some .threw)
  | _, _ => none

/-- An event in the `try` block, with what is known of `proxy_result` so far. -/
def advance (q : Point × Option Proxied) (e : Event) : Option (Point × Option Proxied) :=
  (forward q.1 e).map fun r => (r.1, r.2 <|> q.2)

/-- The segment after an event accesses the connection: all but the one after the last `send`. -/
def accesses : Point → Event → Bool
  | .sending stage payload, .sent ok => ok && (stage.next payload).isSome
  | _, _ => true

/-- The last loop of `proxy_result`. -/
def resumeRows (fuel : ℕ) (backend : Bytes) (client : Protocol.ClientSide) : Option Protocol.Exit :=
  match Protocol.untilEof fuel backend client with
  | none => none
  | some (.error e) => some e
  | some (.ok (rest, client)) => some ⟨.returned true, rest, client⟩

/-- The rest of `proxy_result` from a stage on. -/
def resume (fuel : ℕ) (stage : Stage) (backend : Bytes) (client : Protocol.ClientSide) :
    Option Protocol.Exit :=
  match stage with
  | .first => Protocol.proxyResult fuel backend client
  | .columns =>
    match Protocol.untilEof fuel backend client with
    | none => none
    | some (.error e) => some e
    | some (.ok (rest, client)) => resumeRows fuel rest client
  | .rows => resumeRows fuel backend client

/-- **The stages are those of `proxy_result`**: it forwards a packet and goes on as `Stage.next`
says. -/
theorem resume_eq (fuel : ℕ) (stage : Stage) (backend : Bytes) (client : Protocol.ClientSide) :
    resume fuel stage backend client =
      match Protocol.forwardPacket fuel backend client with
      | none => none
      | some (.error e) => some e
      | some (.ok (payload, rest, client)) =>
        match stage.next payload with
        | some stage => resume fuel stage rest client
        | none => some ⟨.returned true, rest, client⟩ := by
  cases stage with
  | first =>
    rw [resume, Protocol.proxyResult]
    rcases Protocol.forwardPacket fuel backend client with _ | e | ⟨payload, rest, client⟩
    · rfl
    · rfl
    · by_cases hs : singlePacket payload
      · simp only [Stage.next, hs, if_true]
      · simp only [Stage.next, hs, resume]
        rfl
  | columns =>
    rw [resume, Protocol.untilEof_eq]
    rcases Protocol.forwardPacket fuel backend client with _ | e | ⟨payload, rest, client⟩
    · rfl
    · rfl
    · by_cases hs : isEofPacket payload
      · simp only [Stage.next, hs, if_true, resume]
      · simp only [Stage.next, hs, resume]
        rfl
  | rows =>
    rw [resume, resumeRows, Protocol.untilEof_eq]
    rcases Protocol.forwardPacket fuel backend client with _ | e | ⟨payload, rest, client⟩
    · rfl
    · rfl
    · by_cases hs : isEofPacket payload
      · simp only [Stage.next, hs, if_true]
      · simp only [Stage.next, hs, resume]
        rfl

/-- `ok` behind the `try` block, from how `proxy_result` has ended. -/
def okOf : Proxied → Bool
  | .returned ok => ok
  | .threw => false

theorem forwardPacket_error {fuel : ℕ} {backend : Bytes} {client : Protocol.ClientSide}
    {e : Protocol.Exit} (h : Protocol.forwardPacket fuel backend client = some (.error e)) :
    e.result = .returned false ∨ e.result = .threw := by
  rw [Protocol.forwardPacket] at h
  split at h
  · obtain rfl := Except.error.inj (Option.some.inj h)
    exact .inl rfl
  · split at h
    · cases h
    · obtain rfl := Except.error.inj (Option.some.inj h)
      exact .inr rfl
    · cases Option.some.inj h

/-- **`proxy_result` is a run of the `try` block.** Whatever the backend sends and the client takes,
some I/O outcomes lead through it as `proxy_result` goes, to the same end. -/
theorem exists_run_of_resume {fuel : ℕ} {stage : Stage} {backend : Bytes}
    {client : Protocol.ClientSide} {exit : Protocol.Exit}
    (h : resume fuel stage backend client = some exit) :
    ∃ es, run advance (.reading stage, none) es =
      some (.settled (okOf exit.result), some exit.result) := by
  -- each packet that is forwarded leaves a shorter stream
  induction hn : backend.length using Nat.strong_induction_on generalizing stage backend client with
  | _ n ih =>
    rw [resume_eq] at h
    cases hf : Protocol.forwardPacket fuel backend client with
    | none =>
      rw [hf] at h
      exact absurd h nofun
    | some r =>
      rw [hf] at h
      rcases r with e | ⟨payload, rest, client'⟩
      · obtain rfl := Option.some.inj h
        rcases forwardPacket_error hf with hr | hr
        · rw [hr]
          exact ⟨[.read none], rfl⟩
        · rw [hr]
          exact ⟨[.read (some []), .sent false], rfl⟩
      · have hlt := Protocol.length_of_forwardPacket hf
        have hsend : run advance (.reading stage, none) [.read (some payload)] =
            some (.sending stage payload, none) := rfl
        cases hnext : stage.next payload with
        | none =>
          simp only [hnext] at h
          obtain rfl := Option.some.inj h
          refine ⟨[.read (some payload)] ++ [.sent true], ?_⟩
          rw [run_append, hsend, Option.bind_some, run_singleton, advance, forward, hnext]
          rfl
        | some stage' =>
          simp only [hnext] at h
          obtain ⟨es, hes⟩ := ih rest.length (hn ▸ hlt) h rfl
          refine ⟨[.read (some payload)] ++ (.sent true :: es), ?_⟩
          rw [run_append, hsend, Option.bind_some, run_cons, advance, forward, hnext]
          exact hes

/-! ### Calls and pool -/

/-- Where a call of `route_and_forward` is, from its `acquire()` on. -/
inductive Phase
  | acquiring
  | refused
  | holding (h : Handle) (p : Point)
  /-- `release` has been called, the increment is next. -/
  | released (h : Handle) (ok : Bool)
  | finished (h : Handle) (ok : Bool)
  deriving DecidableEq, Repr

/-- The pool, the calls, and the handlers `release` has dispatched and that have not run.

`queriesServed` is the counter of each connection object. The last two fields are history: how
`proxy_result` has ended in a call, and the calls of `release` it has made. -/
structure State where
  pool : Pool.State := {}
  calls : CoroId → Option Phase := fun _ => none
  pending : CoroId → Option (Ptr × Bool) := fun _ => none
  queriesServed : ℕ → ℕ := fun _ => 0
  proxied : CoroId → Option Proxied := fun _ => none
  releases : CoroId → List (Ptr × Bool) := fun _ => []

/-- No call has been made and the pool has just been constructed. -/
def initial : State := {}

inductive Action
  /-- A call reaches `pool->acquire()`, which starts on the strand. -/
  | call (now : Int)
  /-- The call resumes with the result of `acquire()`. -/
  | acquired (k : CoroId)
  /-- An I/O outcome in the `try` block. -/
  | forward (k : CoroId) (e : Event)
  /-- `pool->release(pooled, ok)` dispatches its handler. -/
  | release (k : CoroId)
  /-- The handler of the call's release runs on the strand. -/
  | handler (k : CoroId) (now : Int)
  /-- `pooled->queries_served++`. -/
  | count (k : CoroId)
  /-- Any other segment of the strand. -/
  | strand (a : Pool.Action)
  deriving DecidableEq, Repr

/-- The call that takes a step. -/
def Action.caller : Action → Option CoroId
  | .acquired k | .forward k _ | .release k | .count k => some k
  | _ => none

/-- A call goes on to a phase. -/
def State.goTo (s : State) (k : CoroId) (phase : Phase) : State :=
  { s with calls := Function.update s.calls k (some phase) }

/-- Calls enter the pool through `acquire()` and `release()` only. -/
def ofCaller : Pool.Action → Bool
  | .acquire _ | .release _ _ _ _ => true
  | _ => false

def step (cfg : Pool.PoolConfig) (s : State) : Action → Option State
  | .call now =>
    (Pool.step cfg s.pool (.acquire now)).map fun p =>
      { s.goTo s.pool.nextId .acquiring with pool := p }
  | .acquired k =>
    match s.calls k, s.pool.answer k with
    | some .acquiring, some (.ok h) => some (s.goTo k (.holding h .writing))
    | some .acquiring, some (.error _) => some (s.goTo k .refused)
    | _, _ => none
  | .forward k e =>
    match s.calls k with
    | some (.holding h p) =>
      (advance (p, s.proxied k) e).map fun q =>
        { s.goTo k (.holding h q.1) with proxied := Function.update s.proxied k q.2 }
    | _ => none
  | .release k =>
    match s.calls k with
    | some (.holding h (.settled ok)) =>
      some { s.goTo k (.released h ok) with
        pending := Function.update s.pending k (some (h.ptr, ok))
        releases := Function.update s.releases k (s.releases k ++ [(h.ptr, ok)]) }
    | _ => none
  | .handler k now =>
    match s.pending k with
    | some (c, healthy) =>
      (Pool.step cfg s.pool (.release k c healthy now)).map fun p =>
        { s with pool := p, pending := Function.update s.pending k none }
    | none => none
  | .count k =>
    match s.calls k with
    | some (.released h ok) =>
      some { s.goTo k (.finished h ok) with
        queriesServed := Function.update s.queriesServed h.obj (s.queriesServed h.obj + 1) }
    | _ => none
  | .strand a =>
    if ofCaller a then none
    else (Pool.step cfg s.pool a).map fun p => { s with pool := p }

/-- What each action can do, guards included. -/
inductive Move (cfg : Pool.PoolConfig) (s : State) : Action → State → Prop
  | call {now : Int} {p : Pool.State} (hp : Pool.step cfg s.pool (.acquire now) = some p) :
      Move cfg s (.call now) { s.goTo s.pool.nextId .acquiring with pool := p }
  | granted {k : CoroId} {h : Handle} (hk : s.calls k = some .acquiring)
      (ha : s.pool.answer k = some (.ok h)) :
      Move cfg s (.acquired k) (s.goTo k (.holding h .writing))
  | refused {k : CoroId} {e : Pool.PoolError} (hk : s.calls k = some .acquiring)
      (ha : s.pool.answer k = some (.error e)) : Move cfg s (.acquired k) (s.goTo k .refused)
  | forward {k : CoroId} {e : Event} {h : Handle} {p : Point} {q : Point × Option Proxied}
      (hk : s.calls k = some (.holding h p)) (hq : advance (p, s.proxied k) e = some q) :
      Move cfg s (.forward k e)
        { s.goTo k (.holding h q.1) with proxied := Function.update s.proxied k q.2 }
  | release {k : CoroId} {h : Handle} {ok : Bool}
      (hk : s.calls k = some (.holding h (.settled ok))) :
      Move cfg s (.release k) { s.goTo k (.released h ok) with
        pending := Function.update s.pending k (some (h.ptr, ok))
        releases := Function.update s.releases k (s.releases k ++ [(h.ptr, ok)]) }
  | handler {k : CoroId} {now : Int} {c : Ptr} {healthy : Bool} {p : Pool.State}
      (hk : s.pending k = some (c, healthy))
      (hp : Pool.step cfg s.pool (.release k c healthy now) = some p) :
      Move cfg s (.handler k now)
        { s with pool := p, pending := Function.update s.pending k none }
  | count {k : CoroId} {h : Handle} {ok : Bool} (hk : s.calls k = some (.released h ok)) :
      Move cfg s (.count k) { s.goTo k (.finished h ok) with
        queriesServed := Function.update s.queriesServed h.obj (s.queriesServed h.obj + 1) }
  | strand {a : Pool.Action} {p : Pool.State} (ha : ofCaller a = false)
      (hp : Pool.step cfg s.pool a = some p) : Move cfg s (.strand a) { s with pool := p }

variable {cfg : Pool.PoolConfig} {s s' : State} {a : Action} {k j : CoroId} {h : Handle}

theorem move_of_step (hs : step cfg s a = some s') : Move cfg s a s' := by
  cases a with
  | call now =>
    simp only [step, Option.map_eq_some_iff] at hs
    obtain ⟨p, hp, rfl⟩ := hs
    exact .call hp
  | acquired k =>
    simp only [step] at hs
    split at hs
    case h_1 h hk ha => exact Option.some.inj hs ▸ .granted hk ha
    case h_2 e hk ha => exact Option.some.inj hs ▸ .refused hk ha
    case h_3 => exact absurd hs.symm (Option.some_ne_none _)
  | forward k e =>
    simp only [step] at hs
    split at hs
    case h_1 h p hk =>
      obtain ⟨q, hq, rfl⟩ := Option.map_eq_some_iff.mp hs
      exact .forward hk hq
    case h_2 => exact absurd hs.symm (Option.some_ne_none _)
  | release k =>
    simp only [step] at hs
    split at hs
    case h_1 h ok hk => exact Option.some.inj hs ▸ .release hk
    case h_2 => exact absurd hs.symm (Option.some_ne_none _)
  | handler k now =>
    simp only [step] at hs
    split at hs
    case h_1 c healthy hk =>
      obtain ⟨p, hp, rfl⟩ := Option.map_eq_some_iff.mp hs
      exact .handler hk hp
    case h_2 => exact absurd hs.symm (Option.some_ne_none _)
  | count k =>
    simp only [step] at hs
    split at hs
    case h_1 h ok hk => exact Option.some.inj hs ▸ .count hk
    case h_2 => exact absurd hs.symm (Option.some_ne_none _)
  | strand a =>
    simp only [step] at hs
    split at hs
    case isTrue => exact absurd hs.symm (Option.some_ne_none _)
    case isFalse ha =>
      obtain ⟨p, hp, rfl⟩ := Option.map_eq_some_iff.mp hs
      exact .strand (Bool.eq_false_iff.mpr ha) hp

/-! ### Accesses -/

/-- The connection an action accesses, and the call it does so for. -/
def touched (s : State) : Action → Option (CoroId × Handle)
  | .acquired k =>
    match s.calls k, s.pool.answer k with
    | some .acquiring, some (.ok h) => some (k, h)
    | _, _ => none
  | .forward k e =>
    match s.calls k with
    | some (.holding h p) => if accesses p e then some (k, h) else none
    | _ => none
  | .count k =>
    match s.calls k with
    | some (.released h _) => some (k, h)
    | _ => none
  | _ => none

/-- The connection is in `active_`, checked out to this call. -/
def Owned (p : Pool.State) (k : CoroId) (h : Handle) : Prop :=
  h ∈ p.handles ∧ h.ptr ∈ p.active ∧ p.held k = some h

/-- An action accesses only a connection that its call owns. -/
def UsesOwned (s : State) (a : Action) : Prop :=
  match touched s a with
  | some (k, h) => Owned s.pool k h
  | none => True

instance (p : Pool.State) (k : CoroId) (h : Handle) : Decidable (Owned p k h) :=
  inferInstanceAs (Decidable (_ ∧ _ ∧ _))

instance (s : State) (a : Action) : Decidable (UsesOwned s a) :=
  match h : touched s a with
  | some (k, g) => decidable_of_iff (Owned s.pool k g) (by simp [UsesOwned, h])
  | none => isTrue (by simp [UsesOwned, h])

end DBMesh.Checkout
