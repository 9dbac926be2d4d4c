import DBMesh.Lib.Transition
import Mathlib.Algebra.Group.Int.Defs
import Mathlib.Data.Finset.Card
import Mathlib.Logic.Function.Basic

/-!
# The connection pool as a transition system

`ConnectionPool` (pool/src/connection_pool.cpp) keeps all its mutable state on one strand. Its
coroutines give up the strand only at a `co_await`, so the segments of code between two suspension
points are atomic, and a run of the pool is a sequence of such segments in any order. Each of them
is one `Action` here, and `step` is the state after it.

What is outside the pool is part of the action: the time read from the clock, the outcome of a
`factory_()` call, the address the allocator gives a new `PooledConnection`, the moment a timer
expires, the caller that releases.

## Addresses and objects

The containers hold raw pointers and `release` looks a pointer up in `active_` by its address. An
allocator may hand out an address again once the object there is gone, so an address does not
identify a connection. Every tracked connection therefore carries the serial number `obj` of its
object, and a caller's checkout is a `Handle`: the pointer it was given, and the object that pointer
meant. The code never reads `obj`; it is there to state which connection a caller was given.

## Scope

A strand segment is the whole of the code between two suspension points, and nothing else reads or
writes the members. The source has the counters atomic so that other threads may read them; here
they are fields that `syncMetrics` writes. A call of `factory_()` gives a connection or none, and
`is_open()` is a field of the connection that the environment sets. The timers expire when an action
says so: how long a wait lasts is not modelled, only that it may end. The numbers are unbounded,
since none of them exceeds the number of connections and calls that fit into memory.

Left out are the logger, the id of the backend, which no decision reads, and what a connection does
on its socket. The pool manager, who may call the pool at which moment, and what a run of these
actions keeps are the subjects of the modules that import this one.

## Main definitions

* `Pool.PooledConnection`, `Pool.Handle`, `Pool.Waiter`, `Pool.Connect` — the data
* `Pool.State` — the members of `ConnectionPool` and its suspended coroutines
* `Pool.track`, `untrack`, `syncMetrics`, `acquireImpl`, `release`, `warmLoop`, `drainImpl`,
  `idleReaperImpl` — the strand segments, under the source's names
* `Pool.Action`, `Pool.step`, `Pool.initial` — the transition system
-/

namespace DBMesh

namespace Pool

/-- The members of `PoolConfig` the strand segments read. The acquire timeout only decides *when*
a timer expires, which the actions leave open. -/
structure PoolConfig where
  min : ℕ := 10
  max : ℕ := 100
  idleTimeoutSec : ℕ := 60
  deriving DecidableEq, Repr

inductive PoolError
  | poolExhausted
  | connectFailed
  | backendUnavailable
  | queueFull
  | timedOut
  | poolShutdown
  deriving DecidableEq, Repr

inductive ConnectionState
  | idle
  | inUse
  | validating
  | closed
  deriving DecidableEq, Repr

/-- The address of a `PooledConnection`. -/
abbrev Ptr := ℕ

/-- Names a coroutine: one call of `acquire()` or `warm()`. -/
abbrev CoroId := ℕ

/-- A pooled connection, with its address and the serial number of the object. Times are readings
of the steady clock in nanoseconds; `isOpen` is what `conn->is_open()` answers. -/
structure PooledConnection where
  addr : Ptr
  obj : ℕ
  isOpen : Bool
  connectedAt : Int
  lastUsed : Int
  state : ConnectionState
  deriving DecidableEq, Repr

/-- A pointer together with the object it was handed out for. -/
structure Handle where
  ptr : Ptr
  obj : ℕ
  deriving DecidableEq, Repr

def PooledConnection.handle (x : PooledConnection) : Handle := ⟨x.addr, x.obj⟩

/-- A `steady_timer` with one pending wait: still armed, or completed by expiry or by `cancel`. -/
inductive Timer
  | armed
  | expired
  | cancelled
  deriving DecidableEq, Repr

/-- Cancelling completes an armed wait; a wait that has already completed is not affected. -/
def Timer.cancel : Timer → Timer
  | .armed => .cancelled
  | t => t

structure Waiter where
  timer : Timer := .armed
  result : Option Handle := none
  deriving DecidableEq, Repr

/-- A coroutine suspended in `factory_()`: an acquire, or a warm in iteration `i` of its loop. -/
inductive Connect
  | acquire (k : CoroId)
  | warm (k : CoroId) (i : ℕ)
  deriving DecidableEq, Repr

/-- The members of `ConnectionPool` and the coroutines suspended in it.

`connects`, `parked` and `reapers` are the suspended frames: connects in flight, acquires waiting on
their `Waiter`, idle reapers waiting on `idle_timer_`. The last three fields are history: the next
serial number, the completed acquires (latest first), and the checkouts not yet released. -/
structure State where
  all : List PooledConnection := []
  freeList : List Ptr := []
  active : Finset Ptr := ∅
  waiters : List CoroId := []
  shuttingDown : Bool := false
  freeCount : ℕ := 0
  activeCount : ℕ := 0
  waiterCount : ℕ := 0
  totalCount : ℕ := 0
  totalAcquired : ℕ := 0
  connects : List Connect := []
  parked : CoroId → Option Waiter := fun _ => none
  reapers : ℕ := 0
  nextId : CoroId := 0
  nextObj : ℕ := 0
  returned : List (CoroId × Except PoolError Handle) := []
  held : CoroId → Option Handle := fun _ => none

/-- The pool as constructed. -/
def initial : State := {}

/-! ### Tracked connections -/

/-- The tracked connections as handles, in the order of `all_`. -/
def State.handles (s : State) : List Handle := s.all.map PooledConnection.handle

/-- The addresses of the tracked connections. -/
def State.addrs (s : State) : List Ptr := s.all.map PooledConnection.addr

/-- The connection a pointer into `all_` refers to. -/
def State.deref (s : State) (c : Ptr) : Option PooledConnection := s.all.find? (·.addr = c)

/-- The handle a caller gets when the code hands out the pointer `c`. -/
def State.handleOf (s : State) (c : Ptr) : Handle := ⟨c, ((s.deref c).map (·.obj)).getD 0⟩

/-- Writing members of the connection behind a pointer. -/
def State.modify (s : State) (c : Ptr) (f : PooledConnection → PooledConnection) : State :=
  { s with all := s.all.map fun x => if x.addr = c then f x else x }

/-- `c->conn->close()`. -/
def State.close (s : State) (c : Ptr) : State := s.modify c fun x => { x with isOpen := false }

def track (s : State) (addr : Ptr) (now : Int) : State :=
  { s with
    all := s.all ++ [⟨addr, s.nextObj, true, now, now, .idle⟩]
    nextObj := s.nextObj + 1 }

/-- Erases the first entry of `all_` with that address, if there is one. -/
def untrack (s : State) (c : Ptr) : State :=
  { s with all := s.all.eraseP (·.addr = c) }

def syncMetrics (s : State) : State :=
  { s with
    freeCount := s.freeList.length
    activeCount := s.active.card
    waiterCount := s.waiters.length
    totalCount := s.all.length }

/-- `co_return` of `acquire_impl`: the call completes, and an `Ok` result is checked out to its
caller. -/
def coReturn (s : State) (k : CoroId) (r : Except PoolError Handle) : State :=
  { s with
    returned := (k, r) :: s.returned
    held := match r with
      | .ok h => Function.update s.held k (some h)
      | .error _ => s.held }

/-- A new coroutine is spawned; its name is `s.nextId`. -/
def State.spawn (s : State) : State := { s with nextId := s.nextId + 1 }

/-! ### acquire -/

/-- The end of both successful paths: the connection is active and `acquire_impl` returns it. -/
def checkOut (s : State) (k : CoroId) (c : Ptr) : State :=
  let s := { s with active := insert c s.active, totalAcquired := s.totalAcquired + 1 }
  coReturn (syncMetrics s) k (.ok (s.handleOf c))

/-- The fast path: pop the front of the free list and check it out. -/
def reuse (s : State) (k : CoroId) (c : Ptr) (rest : List Ptr) (now : Int) : State :=
  let s := { s with freeList := rest }
  let s := s.modify c fun x => { x with state := .inUse, lastUsed := now }
  checkOut s k c

/-- The wait path: enqueue a waiter and suspend on its timer. -/
def park (s : State) (k : CoroId) : State :=
  syncMetrics { s with
    parked := Function.update s.parked k (some {})
    waiters := s.waiters ++ [k] }

/-- `acquire_impl` up to its return or first suspension. -/
def acquireImpl (cfg : PoolConfig) (s : State) (now : Int) : State :=
  let k := s.nextId
  let s := s.spawn
  if s.shuttingDown then coReturn s k (.error .poolShutdown)
  else match s.freeList with
    | c :: rest => reuse s k c rest now
    | [] =>
      if s.all.length < cfg.max then { s with connects := s.connects ++ [.acquire k] }
      else park s k

/-- `acquire_impl` after its `factory_()` call succeeded. -/
def acquireConnected (s : State) (k : CoroId) (addr : Ptr) (now : Int) : State :=
  let s := track s addr now
  let s := s.modify addr fun x => { x with state := .inUse }
  checkOut s k addr

/-- `acquire_impl` after its timer wait completed. -/
def acquireWoken (s : State) (k : CoroId) (w : Waiter) : State :=
  let s := { s with parked := Function.update s.parked k none }
  match w.result with
  | some h => coReturn { s with totalAcquired := s.totalAcquired + 1 } k (.ok h)
  | none => coReturn (syncMetrics { s with waiters := s.waiters.erase k }) k (.error .timedOut)

/-! ### release -/

/-- Hand the connection to the waiter at the front of the queue and wake it. -/
def handOff (s : State) (c : Ptr) (w : CoroId) (rest : List CoroId) : State :=
  let s := { s with waiters := rest }
  let s := s.modify c fun x => { x with state := .inUse }
  let s := { s with active := insert c s.active }
  syncMetrics { s with
    parked := Function.update s.parked w
      ((s.parked w).map fun p => { timer := p.timer.cancel, result := some (s.handleOf c) }) }

/-- The handler `release` dispatches to the strand. -/
def release (s : State) (c : Ptr) (healthy : Bool) (now : Int) : State :=
  if c ∈ s.active then
    let s := { s with active := s.active.erase c }
    if !healthy || s.shuttingDown || !((s.deref c).map (·.isOpen)).getD false then
      syncMetrics (untrack (s.close c) c)
    else match s.waiters with
      | w :: rest => handOff s c w rest
      | [] =>
        let s := s.modify c fun x => { x with state := .idle, lastUsed := now }
        syncMetrics { s with freeList := s.freeList ++ [c] }
  else s

/-- The handler closes the connection: `!healthy || shutting_down_ || !c->conn->is_open()`. -/
def State.closes (s : State) (c : Ptr) (healthy : Bool) : Bool :=
  !healthy || s.shuttingDown || !((s.deref c).map (·.isOpen)).getD false

theorem State.shuttingDown_of_not_closes {s : State} {c : Ptr} {healthy : Bool}
    (h : s.closes c healthy = false) : s.shuttingDown = false := by
  cases hd : s.shuttingDown with
  | false => rfl
  | true => simp [State.closes, hd] at h

/-- What the handler of `release` can do. -/
theorem release_cases (s : State) (c : Ptr) (healthy : Bool) (now : Int) :
    (c ∉ s.active ∧ release s c healthy now = s) ∨
    (c ∈ s.active ∧ s.closes c healthy = true ∧ release s c healthy now =
      syncMetrics (untrack ({ s with active := s.active.erase c }.close c) c)) ∨
    (c ∈ s.active ∧ s.closes c healthy = false ∧ ∃ w rest, s.waiters = w :: rest ∧
      release s c healthy now = handOff { s with active := s.active.erase c } c w rest) ∨
    (c ∈ s.active ∧ s.closes c healthy = false ∧ s.waiters = [] ∧ release s c healthy now =
      syncMetrics { { s with active := s.active.erase c }.modify c
          fun x => { x with state := .idle, lastUsed := now } with
        freeList := s.freeList ++ [c] }) := by
  by_cases hc : c ∈ s.active
  · simp only [release, if_pos hc]
    split
    case isTrue hclose => exact .inr (.inl ⟨hc, hclose, rfl⟩)
    case isFalse hopen =>
      have hopen : s.closes c healthy = false := Bool.eq_false_iff.mpr hopen
      split
      case h_1 w rest hq => exact .inr (.inr (.inl ⟨hc, hopen, w, rest, hq, rfl⟩))
      case h_2 hq => exact .inr (.inr (.inr ⟨hc, hopen, hq, rfl⟩))
  · exact .inl ⟨hc, if_neg hc⟩

/-! ### warm -/

/-- The head of the loop of `warm_impl`: leave the loop, or suspend in `factory_()`. -/
def warmLoop (cfg : PoolConfig) (s : State) (k : CoroId) (i : ℕ) : State :=
  if i < cfg.min && !s.shuttingDown then
    if s.all.length ≥ cfg.max then s else { s with connects := s.connects ++ [.warm k i] }
  else s

theorem warmLoop_eq (cfg : PoolConfig) (s : State) (k : CoroId) (i : ℕ) :
    warmLoop cfg s k i =
      if i < cfg.min ∧ s.shuttingDown = false ∧ s.all.length < cfg.max then
        { s with connects := s.connects ++ [.warm k i] }
      else s := by
  by_cases hi : i < cfg.min
  · by_cases hup : s.shuttingDown = false
    · by_cases hmax : s.all.length < cfg.max
      · simp [warmLoop, hi, hup, hmax, Nat.not_le.mpr]
      · simp [warmLoop, hup, hmax, Nat.not_lt.mp hmax]
    · simp [warmLoop, hup]
  · simp [warmLoop, hi]

/-- The rest of the loop body after `factory_()` succeeded, and the next loop head. -/
def warmConnected (cfg : PoolConfig) (s : State) (k : CoroId) (i : ℕ) (addr : Ptr) (now : Int) :
    State :=
  let s := track s addr now
  let s := s.modify addr fun x => { x with state := .idle }
  warmLoop cfg (syncMetrics { s with freeList := s.freeList ++ [addr] }) k (i + 1)

/-! ### drain -/

/-- `w->result = nullptr; w->timer.cancel()`. -/
def failWaiter (parked : CoroId → Option Waiter) (k : CoroId) : CoroId → Option Waiter :=
  Function.update parked k
    ((parked k).map fun p => { timer := p.timer.cancel, result := none })

/-- `drain_impl`. Closing the connections has no effect that outlasts `all_.clear()`, which destroys
them. Cancelling `idle_timer_` lets every waiting reaper resume, as it could anyway. -/
def drainImpl (s : State) : State :=
  syncMetrics { s with
    shuttingDown := true
    parked := s.waiters.foldl failWaiter s.parked
    waiters := []
    freeList := []
    active := ∅
    all := [] }

/-! ### idle reaper -/

/-- `(now - c->last_used) > max_idle`. -/
def tooOld (cfg : PoolConfig) (s : State) (now : Int) (c : Ptr) : Bool :=
  ((s.deref c).map fun x => decide (now - x.lastUsed > cfg.idleTimeoutSec * 10 ^ 9)).getD false

/-- The loop over the free list; `keep` collects the connections that stay. -/
def reapLoop (cfg : PoolConfig) (now : Int) : List Ptr → State → List Ptr → State × List Ptr
  | [], s, keep => (s, keep)
  | c :: cs, s, keep =>
    if tooOld cfg s now c && decide (s.all.length > cfg.min) then
      reapLoop cfg now cs (untrack (s.close c) c) keep
    else reapLoop cfg now cs s (keep ++ [c])

/-- One round of `idle_reaper_impl` after its timer wait completed with error code `ec`. -/
def idleReaperImpl (cfg : PoolConfig) (s : State) (ec : Bool) (now : Int) : State :=
  if ec || s.shuttingDown then { s with reapers := s.reapers - 1 }
  else
    let r := reapLoop cfg now s.freeList s []
    syncMetrics { r.1 with freeList := r.2 }

/-- What the loop of the reaper leaves alone. -/
theorem reapLoop_frame (cfg : PoolConfig) (now : Int) :
    ∀ (cs : List Ptr) (s : State) (keep : List Ptr), ∃ conns : List PooledConnection,
      (reapLoop cfg now cs s keep).1 = { s with all := conns }
  | [], s, _ => ⟨s.all, rfl⟩
  | c :: cs, s, keep => by
    rw [reapLoop]
    split
    · obtain ⟨conns, h⟩ := reapLoop_frame cfg now cs (untrack (s.close c) c) keep
      exact ⟨conns, h⟩
    · exact reapLoop_frame cfg now cs s (keep ++ [c])

/-- A round of the reaper: it ends, or it changes `all_` and `free_list_`. -/
theorem idleReaperImpl_cases (cfg : PoolConfig) (s : State) (ec : Bool) (now : Int) :
    idleReaperImpl cfg s ec now = { s with reapers := s.reapers - 1 } ∨
    ∃ conns, (reapLoop cfg now s.freeList s []).1 = { s with all := conns } ∧
      idleReaperImpl cfg s ec now =
        syncMetrics { s with all := conns, freeList := (reapLoop cfg now s.freeList s []).2 } := by
  rw [idleReaperImpl]
  split
  · exact .inl rfl
  · obtain ⟨conns, hconns⟩ := reapLoop_frame cfg now s.freeList s []
    exact .inr ⟨conns, hconns, by simp only [hconns]⟩

/-! ### The transition system -/

/-- The strand segments, and the moves of the environment they depend on. -/
inductive Action
  /-- A new call of `acquire()` starts. -/
  | acquire (now : Int)
  /-- `factory_()` answers with a connection, which `track` places at `addr`. -/
  | connectOk (f : Connect) (addr : Ptr) (now : Int)
  /-- `factory_()` answers with an error. -/
  | connectErr (f : Connect) (e : PoolError)
  /-- The timer of a waiter reaches its expiry time. -/
  | timerExpire (k : CoroId)
  /-- A waiter whose timer wait has completed resumes. -/
  | wake (k : CoroId)
  /-- The handler of `release(c, healthy)` runs, called for the checkout of acquire `k`. -/
  | release (k : CoroId) (c : Ptr) (healthy : Bool) (now : Int)
  /-- A new call of `warm()` starts. -/
  | warm
  /-- `start_idle_reaper()`. -/
  | startReaper
  /-- The timer wait of an idle reaper completes, with error code `ec`. -/
  | reaperTick (ec : Bool) (now : Int)
  /-- `drain()`. -/
  | drain
  /-- The socket of a connection breaks: `is_open()` answers false from now on. -/
  | connLost (c : Ptr)
  deriving DecidableEq, Repr

/-- A connect in flight completes: its frame is resumed. -/
def State.resume (s : State) (f : Connect) : State := { s with connects := s.connects.erase f }

/-- The state after one strand segment, if it can run. -/
def step (cfg : PoolConfig) (s : State) : Action → Option State
  | .acquire now => some (acquireImpl cfg s now)
  | .connectOk f addr now =>
    -- the allocator never returns the address of an object that is alive
    if f ∈ s.connects ∧ addr ∉ s.addrs then
      match f with
      | .acquire k => some (acquireConnected (s.resume f) k addr now)
      | .warm k i => some (warmConnected cfg (s.resume f) k i addr now)
    else none
  | .connectErr f e =>
    if f ∈ s.connects then
      match f with
      | .acquire k => some (coReturn (s.resume f) k (.error e))
      | .warm _ _ => some (s.resume f)
    else none
  | .timerExpire k =>
    match s.parked k with
    | some w =>
      if w.timer = .armed then
        some { s with parked := Function.update s.parked k (some { w with timer := .expired }) }
      else none
    | none => none
  | .wake k =>
    match s.parked k with
    | some w => if w.timer = .armed then none else some (acquireWoken s k w)
    | none => none
  | .release k c healthy now =>
    some (release { s with held := Function.update s.held k none } c healthy now)
  | .warm => some (warmLoop cfg s.spawn s.nextId 0)
  | .startReaper => some (if s.shuttingDown then s else { s with reapers := s.reapers + 1 })
  | .reaperTick ec now => if s.reapers = 0 then none else some (idleReaperImpl cfg s ec now)
  | .drain => some (drainImpl s)
  | .connLost c => some (s.close c)

/-! ### Inversion

What each action can do, guards included. Every statement about single segments below is a case
analysis on `Segment`. -/

inductive Segment (cfg : PoolConfig) (s : State) : Action → State → Prop
  | acquireRefused {now : Int} (hd : s.shuttingDown = true) :
      Segment cfg s (.acquire now) (coReturn s.spawn s.nextId (.error .poolShutdown))
  | acquireReuse {now : Int} {c : Ptr} {rest : List Ptr} (hd : s.shuttingDown = false)
      (hf : s.freeList = c :: rest) :
      Segment cfg s (.acquire now) (reuse s.spawn s.nextId c rest now)
  | acquireOpen {now : Int} (hd : s.shuttingDown = false) (hf : s.freeList = [])
      (hm : s.all.length < cfg.max) : Segment cfg s (.acquire now)
        { s.spawn with connects := s.connects ++ [.acquire s.nextId] }
  | acquirePark {now : Int} (hd : s.shuttingDown = false) (hf : s.freeList = [])
      (hm : ¬ s.all.length < cfg.max) : Segment cfg s (.acquire now) (park s.spawn s.nextId)
  | acquireConnected {k : CoroId} {addr : Ptr} {now : Int} (hf : .acquire k ∈ s.connects)
      (ha : addr ∉ s.addrs) : Segment cfg s (.connectOk (.acquire k) addr now)
        (acquireConnected (s.resume (.acquire k)) k addr now)
  | warmConnected {k : CoroId} {i : ℕ} {addr : Ptr} {now : Int} (hf : .warm k i ∈ s.connects)
      (ha : addr ∉ s.addrs) : Segment cfg s (.connectOk (.warm k i) addr now)
        (warmConnected cfg (s.resume (.warm k i)) k i addr now)
  | acquireFailed {k : CoroId} {e : PoolError} (hf : .acquire k ∈ s.connects) :
      Segment cfg s (.connectErr (.acquire k) e) (coReturn (s.resume (.acquire k)) k (.error e))
  | warmFailed {k : CoroId} {i : ℕ} {e : PoolError} (hf : .warm k i ∈ s.connects) :
      Segment cfg s (.connectErr (.warm k i) e) (s.resume (.warm k i))
  | timerExpire {k : CoroId} {w : Waiter} (hk : s.parked k = some w) (ht : w.timer = .armed) :
      Segment cfg s (.timerExpire k)
        { s with parked := Function.update s.parked k (some { w with timer := .expired }) }
  | wake {k : CoroId} {w : Waiter} (hk : s.parked k = some w) (ht : w.timer ≠ .armed) :
      Segment cfg s (.wake k) (acquireWoken s k w)
  | release (k : CoroId) (c : Ptr) (healthy : Bool) (now : Int) :
      Segment cfg s (.release k c healthy now)
        (release { s with held := Function.update s.held k none } c healthy now)
  | warm : Segment cfg s .warm (warmLoop cfg s.spawn s.nextId 0)
  | startReaper : Segment cfg s .startReaper
      (if s.shuttingDown then s else { s with reapers := s.reapers + 1 })
  | reaperTick {ec : Bool} {now : Int} (hr : s.reapers ≠ 0) :
      Segment cfg s (.reaperTick ec now) (idleReaperImpl cfg s ec now)
  | drain : Segment cfg s .drain (drainImpl s)
  | connLost (c : Ptr) : Segment cfg s (.connLost c) (s.close c)

theorem segment_of_step {cfg : PoolConfig} {s s' : State} {a : Action}
    (hs : step cfg s a = some s') : Segment cfg s a s' := by
  cases a with
  | acquire now =>
    obtain rfl := Option.some.inj hs
    simp only [acquireImpl]
    split
    case isTrue hd => exact .acquireRefused hd
    case isFalse hd =>
      have hd : s.shuttingDown = false := Bool.eq_false_iff.mpr hd
      split
      case h_1 c rest hf => exact .acquireReuse hd hf
      case h_2 hf =>
        split
        case isTrue hm => exact .acquireOpen hd hf hm
        case isFalse hm => exact .acquirePark hd hf hm
  | connectOk f addr now =>
    simp only [step, Option.ite_none_right_eq_some] at hs
    obtain ⟨⟨hf, ha⟩, hs⟩ := hs
    cases f with
    | acquire k => exact Option.some.inj hs ▸ .acquireConnected hf ha
    | warm k i => exact Option.some.inj hs ▸ .warmConnected hf ha
  | connectErr f e =>
    simp only [step, Option.ite_none_right_eq_some] at hs
    obtain ⟨hf, hs⟩ := hs
    cases f with
    | acquire k => exact Option.some.inj hs ▸ .acquireFailed hf
    | warm k i => exact Option.some.inj hs ▸ .warmFailed hf
  | timerExpire k =>
    simp only [step] at hs
    split at hs
    case h_1 w hk =>
      obtain ⟨ht, hs⟩ := Option.ite_none_right_eq_some.mp hs
      exact Option.some.inj hs ▸ .timerExpire hk ht
    case h_2 => exact absurd hs.symm (Option.some_ne_none _)
  | wake k =>
    simp only [step] at hs
    split at hs
    case h_1 w hk =>
      obtain ⟨ht, hs⟩ := Option.ite_none_left_eq_some.mp hs
      exact Option.some.inj hs ▸ .wake hk ht
    case h_2 => exact absurd hs.symm (Option.some_ne_none _)
  | reaperTick ec now =>
    simp only [step, Option.ite_none_left_eq_some] at hs
    exact Option.some.inj hs.2 ▸ .reaperTick hs.1
  | release k c healthy now => exact Option.some.inj hs ▸ .release k c healthy now
  | warm => exact Option.some.inj hs ▸ .warm
  | startReaper => exact Option.some.inj hs ▸ .startReaper
  | drain => exact Option.some.inj hs ▸ .drain
  | connLost c => exact Option.some.inj hs ▸ .connLost c

/-- A connect in flight can succeed at any address that is not in use. -/
theorem exists_step_connectOk (cfg : PoolConfig) {s : State} {f : Connect} {addr : Ptr} (now : Int)
    (hf : f ∈ s.connects) (ha : addr ∉ s.addrs) :
    ∃ s', step cfg s (.connectOk f addr now) = some s' := by
  simp only [step, if_pos (And.intro hf ha)]
  cases f <;> exact ⟨_, rfl⟩

/-- Callers release a pointer only for a checkout they have, so at most once per checkout. -/
def Disciplined (s : State) : Action → Prop
  | .release k c _ _ => ∃ h, s.held k = some h ∧ h.ptr = c
  | _ => True

instance (s : State) : (a : Action) → Decidable (Disciplined s a)
  | .release k c _ _ =>
    match h : s.held k with
    | none => isFalse (by simp [Disciplined, h])
    | some g => decidable_of_iff (g.ptr = c) (by simp [Disciplined, h])
  | .acquire _ | .connectOk _ _ _ | .connectErr _ _ | .timerExpire _ | .wake _ | .warm
  | .startReaper | .reaperTick _ _ | .drain | .connLost _ => isTrue trivial

end Pool

end DBMesh
