import DBMesh.Core.Types
import DBMesh.Lib.Trace
import DBMesh.Pool.Settling

/-!
# The pools of a pool manager

`PoolManager::warm_all` and `PoolManager::shutdown` of `pool/src/pool_manager.cpp`, over the pools
they are called for. Each takes the pools out of the map once, as raw pointers, and then awaits one
pool after the other: `warm_all` their `warm()`, `shutdown` their `drain()`, after which it clears
the map and with it destroys the pools. All pools and both coroutines share the executor, so what
one does comes between any two segments of the others.

Nothing that is suspended in a pool, or queued on its strand, keeps the pool alive. When it runs
after the map has been cleared, it uses the members of an object that is gone; `dangling` tells when
this has happened, and the state says nothing from then on.

## Main definitions

* `Pool.Managed`, `Pool.ManagerAction`, `Pool.mstep` — the pools, `warm_all` and `shutdown`
* `Pool.touches` — the segments that use their pool
* `Pool.segmentsOf` — the segments of one pool in a run of the manager
* `Pool.Managed.Idle` — nothing is left that could use a pool

## Main results

* `Pool.pools_run` — each pool runs as it would by itself
* `Pool.warm_all_in_turn` — `warm_all` has one connect in flight at most
* `Pool.shutdown_safe_iff` — when clearing the map is safe
-/

namespace DBMesh

namespace Pool

open Transition

/-! ### The system -/

/-- The `warm()` that `warm_all` awaits: none, one whose body has not started, or coroutine `k`. -/
inductive Warming
  | idle
  | called (id : BackendID)
  | running (id : BackendID) (k : CoroId)
  deriving DecidableEq, Repr

/-- The pools and what is queued on their strands besides their own coroutines: calls of `acquire()`
whose bodies have not started, and a reaper whose timer has expired. Then the coroutines of the
manager: the pools that `warm_all` has left, and those that `shutdown` has left once it has been
called. -/
structure Managed where
  pools : BackendID → State
  called : BackendID → ℕ := fun _ => 0
  due : BackendID → Bool := fun _ => false
  toWarm : List BackendID
  warming : Warming := .idle
  toDrain : Option (List BackendID) := none
  cleared : Bool := false
  dangling : Bool := false

/-- The manager after `start_subsystems`: each pool has its reaper, and `warm_all` its pointers. -/
def managed (ids : List BackendID) : Managed where
  pools := fun id => if id ∈ ids then { initial with reapers := 1 } else initial
  toWarm := ids

inductive ManagerAction
  /-- A client gets the pool out of the map and calls `acquire()`. -/
  | call (id : BackendID)
  /-- The timer of the pool's reaper expires. -/
  | expire (id : BackendID)
  /-- A segment of the pool runs. -/
  | pool (id : BackendID) (a : Action)
  /-- `warm_all` goes on with the next pool. -/
  | warmNext
  /-- `shutdown` is called. -/
  | shutdown
  /-- `shutdown` goes on with the next pool. -/
  | drainNext
  /-- `shutdown` clears the map. -/
  | clear
  deriving DecidableEq, Repr

/-- The segments that use a member of their pool: all but those of a connect of `acquire()` that has
failed, of a timer, and of a reaper whose wait was cancelled. -/
def touches : Action → Bool
  | .connectErr (.acquire _) _ | .timerExpire _ | .reaperTick true _ => false
  | .connectErr (.warm _ _) _ | .connectOk _ _ _ | .wake _ | .release _ _ _ _
  | .reaperTick false _ | .acquire _ | .connLost _ | .warm | .startReaper | .drain => true

/-- The manager lets a segment of the pool run: a call has been made for it, the reaper's wait has
ended as it says, or the connection is there to break. -/
def Managed.ready (m : Managed) (id : BackendID) : Action → Bool
  | .acquire _ => decide (m.called id ≠ 0)
  | .warm => decide (m.warming = .called id)
  | .reaperTick ec _ => if ec then !m.due id && (m.pools id).shuttingDown else m.due id
  | .connLost _ => !m.cleared
  | .startReaper | .drain => false
  | .connectOk _ _ _ | .connectErr _ _ | .timerExpire _ | .wake _ | .release _ _ _ _ => true

/-- The manager after segment `a` of a pool, which has left the pool in state `s`. -/
def Managed.after (m : Managed) (id : BackendID) (a : Action) (s : State) : Managed :=
  { m with
    pools := Function.update m.pools id s
    called :=
      match a with
      | .acquire _ => Function.update m.called id (m.called id - 1)
      | _ => m.called
    due :=
      match a with
      | .reaperTick _ _ => Function.update m.due id false
      | _ => m.due
    warming :=
      match a with
      | .warm => .running id (m.pools id).nextId
      | _ => m.warming
    dangling := m.dangling || (m.cleared && touches a) }

/-- The `warm()` that `warm_all` awaits has returned. -/
def Managed.warmed (m : Managed) : Bool :=
  match m.warming with
  | .idle => true
  | .called _ => false
  | .running id k => (m.pools id).connects.all fun f =>
    match f with
    | .warm j _ => j != k
    | .acquire _ => true

/-- The manager and its pools, one segment at a time. -/
def mstep (cfg : BackendID → PoolConfig) (ids : List BackendID) (m : Managed) :
    ManagerAction → Option Managed
  | .call id =>
    if id ∈ ids ∧ m.cleared = false then
      some { m with called := Function.update m.called id (m.called id + 1) }
    else none
  | .expire id =>
    -- the timer is a member of the pool, and `drain` has cancelled it
    if (m.pools id).reapers ≠ 0 ∧ (m.pools id).shuttingDown = false ∧ m.cleared = false then
      some { m with due := Function.update m.due id true }
    else none
  | .pool id a =>
    if m.ready id a then (step (cfg id) (m.pools id) a).map (m.after id a) else none
  | .warmNext =>
    match m.toWarm with
    | [] => none
    | id :: rest =>
      if m.warmed then
        some { m with
          toWarm := rest
          warming := .called id
          dangling := m.dangling || m.cleared }
      else none
  | .shutdown => if m.toDrain.isSome then none else some { m with toDrain := some ids }
  | .drainNext =>
    match m.toDrain with
    | some (id :: rest) =>
      some { m with
        pools := Function.update m.pools id (drainImpl (m.pools id))
        toDrain := some rest }
    | _ => none
  | .clear =>
    if m.toDrain = some [] ∧ m.cleared = false then some { m with cleared := true } else none

/-- Callers release what they have checked out, once. -/
def Managed.Disciplined (m : Managed) : ManagerAction → Prop
  | .pool id a => Pool.Disciplined (m.pools id) a
  | .call _ | .expire _ | .warmNext | .shutdown | .drainNext | .clear => True

instance (m : Managed) : (a : ManagerAction) → Decidable (m.Disciplined a)
  | .pool id a => inferInstanceAs (Decidable (Pool.Disciplined (m.pools id) a))
  | .call _ | .expire _ | .warmNext | .shutdown | .drainNext | .clear => isTrue trivial

variable {cfg : BackendID → PoolConfig} {ids : List BackendID} {m m' : Managed} {id : BackendID}
  {a : Action} {s s' : State}

@[simp]
theorem pools_after_self : (m.after id a s).pools id = s :=
  Function.update_self ..

theorem pools_after_of_ne {j : BackendID} (h : j ≠ id) :
    (m.after id a s).pools j = m.pools j :=
  Function.update_of_ne h ..

theorem mstep_pool (h : mstep cfg ids m (.pool id a) = some m') :
    m.ready id a = true ∧ ∃ s, step (cfg id) (m.pools id) a = some s ∧ m' = m.after id a s := by
  rw [mstep] at h
  split_ifs at h with hready
  obtain ⟨s, hs, rfl⟩ := Option.map_eq_some_iff.mp h
  exact ⟨hready, s, hs, rfl⟩

theorem mstep_pool_of_step (ids : List BackendID) (hready : m.ready id a = true)
    (hs : step (cfg id) (m.pools id) a = some s) :
    mstep cfg ids m (.pool id a) = some (m.after id a s) := by
  rw [mstep, if_pos hready, hs]
  rfl

theorem mstep_warmNext (h : mstep cfg ids m .warmNext = some m') :
    ∃ id rest, m.toWarm = id :: rest ∧ m.warmed = true ∧ m' = { m with
      toWarm := rest, warming := .called id, dangling := m.dangling || m.cleared } := by
  rw [mstep] at h
  split at h
  · cases h
  · split_ifs at h with hw
    exact ⟨_, _, ‹_›, hw, (Option.some.inj h).symm⟩

theorem mstep_drainNext (h : mstep cfg ids m .drainNext = some m') :
    ∃ id rest, m.toDrain = some (id :: rest) ∧ m' = { m with
      pools := Function.update m.pools id (drainImpl (m.pools id)), toDrain := some rest } := by
  rw [mstep] at h
  split at h
  · exact ⟨_, _, ‹_›, (Option.some.inj h).symm⟩
  · cases h

/-! ### One pool by itself -/

/-- The segments of one pool that a step of the manager is. -/
def Managed.segments (id : BackendID) (m : Managed) : ManagerAction → List Action
  | .pool j a => if j = id then [a] else []
  | .drainNext => if m.toDrain.bind List.head? = some id then [.drain] else []
  | .call _ | .expire _ | .warmNext | .shutdown | .clear => []

/-- The segments of one pool in a run of the manager, from the start of its reaper on. -/
def segmentsOf (cfg : BackendID → PoolConfig) (ids : List BackendID) (id : BackendID)
    (bs : List ManagerAction) : List Action :=
  .startReaper :: trace (mstep cfg ids) (Managed.segments id) (managed ids) bs

/-- What a step of the manager is to one pool, and that it is disciplined there too. -/
theorem run_segments {b : ManagerAction} (h : mstep cfg ids m b = some m') (id : BackendID) :
    run (step (cfg id)) (m.pools id) (m.segments id b) = some (m'.pools id) ∧
      (m.Disciplined b → Along (step (cfg id)) Disciplined (m.pools id) (m.segments id b)) := by
  cases b with
  | call j =>
    rw [mstep] at h
    split_ifs at h
    obtain rfl := Option.some.inj h
    exact ⟨rfl, fun _ => trivial⟩
  | expire j =>
    rw [mstep] at h
    split_ifs at h
    obtain rfl := Option.some.inj h
    exact ⟨rfl, fun _ => trivial⟩
  | pool j a =>
    obtain ⟨-, s, hs, rfl⟩ := mstep_pool h
    rw [Managed.segments]
    split_ifs with hj
    · subst hj
      rw [pools_after_self, run_singleton]
      exact ⟨hs, fun hd => ⟨hd, fun _ _ => trivial⟩⟩
    · rw [pools_after_of_ne fun hid => hj hid.symm]
      exact ⟨rfl, fun _ => trivial⟩
  | warmNext =>
    obtain ⟨j, rest, -, -, rfl⟩ := mstep_warmNext h
    exact ⟨rfl, fun _ => trivial⟩
  | shutdown =>
    rw [mstep] at h
    split_ifs at h
    obtain rfl := Option.some.inj h
    exact ⟨rfl, fun _ => trivial⟩
  | drainNext =>
    obtain ⟨j, rest, htodo, rfl⟩ := mstep_drainNext h
    rw [Managed.segments, htodo, Option.bind_some, List.head?_cons]
    split_ifs with hj
    · obtain rfl := Option.some.inj hj
      have hself : Function.update m.pools j (drainImpl (m.pools j)) j = drainImpl (m.pools j) :=
        Function.update_self ..
      rw [run_singleton]
      exact ⟨congrArg some hself.symm, fun _ => ⟨trivial, fun _ _ => trivial⟩⟩
    · have hother : Function.update m.pools j (drainImpl (m.pools j)) id = m.pools id :=
        Function.update_of_ne (fun hid => hj (congrArg some hid.symm)) ..
      exact ⟨congrArg some hother.symm, fun _ => trivial⟩
  | clear =>
    rw [mstep] at h
    split_ifs at h
    obtain rfl := Option.some.inj h
    exact ⟨rfl, fun _ => trivial⟩

/-- **Each pool runs as it would by itself.** The segments of a pool in a run of the manager are a
run of that pool from its construction, and one in which callers release only what they have if the
manager's run is. So every invariant of a pool is one of every pool that is managed. -/
theorem pools_run (cfg : BackendID → PoolConfig) (ids : List BackendID) (bs : List ManagerAction)
    (m : Managed) (hrun : run (mstep cfg ids) (managed ids) bs = some m) (id : BackendID)
    (hid : id ∈ ids) :
    run (step (cfg id)) initial (segmentsOf cfg ids id bs) = some (m.pools id) ∧
      (Along (mstep cfg ids) Managed.Disciplined (managed ids) bs →
        Along (step (cfg id)) Disciplined initial (segmentsOf cfg ids id bs)) := by
  have hpool : (managed ids).pools id = { initial with reapers := 1 } := if_pos hid
  have hstart : step (cfg id) initial .startReaper = some ((managed ids).pools id) := by
    rw [hpool]
    rfl
  have hobs : ∀ m b m', mstep cfg ids m b = some m' →
      run (step (cfg id)) (m.pools id) (m.segments id b) = some (m'.pools id) :=
    fun m b m' h => (run_segments h id).1
  constructor
  · refine run_cons_eq_some.mpr ⟨_, hstart, ?_⟩
    exact run_trace (I := fun _ => True) (fun _ _ _ _ _ => trivial)
      (fun m b m' _ h => hobs m b m' h) trivial hrun
  · intro hd
    refine ⟨trivial, fun s hs => ?_⟩
    obtain rfl := Option.some.inj (hstart.symm.trans hs)
    exact along_trace hobs (fun m b m' h => (run_segments h id).2) hrun hd

/-- A connection of the pool that is drained is still checked out. -/
theorem pools_run_drained : ∃ m,
    run (mstep (fun _ => { min := 0, max := 1 }) ["a", "b"]) (managed ["a", "b"])
        [.call "a", .call "b", .pool "b" (.acquire 0), .pool "a" (.acquire 0), .shutdown,
          .pool "a" (.connectOk (.acquire 0) 5 0), .drainNext] = some m ∧
      run (step { min := 0, max := 1 }) initial
        [.startReaper, .acquire 0, .connectOk (.acquire 0) 5 0, .drain] = some (m.pools "a") := by
  obtain ⟨m, hm⟩ : ∃ m, run (mstep (fun _ => { min := 0, max := 1 }) ["a", "b"])
      (managed ["a", "b"]) [.call "a", .call "b", .pool "b" (.acquire 0), .pool "a" (.acquire 0),
        .shutdown, .pool "a" (.connectOk (.acquire 0) 5 0), .drainNext] = some m := ⟨_, rfl⟩
  exact ⟨m, hm, (pools_run _ _ _ m hm "a" (by decide)).1⟩

/-! ### What a segment does to the connects in flight -/

/-- What `a` does to `connects`: nothing, an acquire opens one, one is gone, a warm goes on with the
next, or a warm starts. -/
inductive Connects (s s' : State) (a : Action) : Prop
  | same (h : s'.connects = s.connects)
  | acquire (h : s'.connects = s.connects ++ [.acquire s.nextId])
  | gone (f : Connect) (h : s'.connects = s.connects.erase f)
  | next (k : CoroId) (i : ℕ) (hf : .warm k i ∈ s.connects)
    (h : s'.connects = s.connects.erase (.warm k i) ++ [.warm k (i + 1)])
  | warm (ha : a = .warm) (h : s'.connects = s.connects ++ [.warm s.nextId 0])

theorem connects_warmLoop (c : PoolConfig) (s : State) (k : CoroId) (i : ℕ) :
    (warmLoop c s k i).connects = s.connects ∨
      (warmLoop c s k i).connects = s.connects ++ [.warm k i] := by
  rw [warmLoop_eq]
  split_ifs
  · exact .inr rfl
  · exact .inl rfl

theorem connects_step {c : PoolConfig} (hs : step c s a = some s') : Connects s s' a := by
  cases segment_of_step hs with
  | acquireOpen _ _ _ => exact .acquire rfl
  | acquireConnected _ _ => exact .gone _ rfl
  | acquireFailed _ => exact .gone _ rfl
  | warmFailed _ => exact .gone _ rfl
  | @warmConnected k i addr now hf _ =>
    obtain h | h := connects_warmLoop c (syncMetrics {
      (track (s.resume (.warm k i)) addr now).modify addr (fun x => { x with state := .idle }) with
        freeList := (track (s.resume (.warm k i)) addr now).freeList ++ [addr] }) k (i + 1)
    · exact .gone _ h
    · exact .next k i hf h
  | warm =>
    obtain h | h := connects_warmLoop c s.spawn s.nextId 0
    · exact .same h
    · exact .warm rfl h
  | release j d healthy now =>
    refine .same ?_
    obtain ⟨-, h⟩ | ⟨-, -, h⟩ | ⟨-, -, w, rest, -, h⟩ | ⟨-, -, -, h⟩ :=
      release_cases { s with held := Function.update s.held j none } d healthy now
    · exact (congrArg State.connects h).trans rfl
    · exact (congrArg State.connects h).trans rfl
    · exact (congrArg State.connects h).trans rfl
    · exact (congrArg State.connects h).trans rfl
  | @wake k w _ _ =>
    refine .same ?_
    rw [acquireWoken]
    cases w.result with
    | some h => rfl
    | none => rfl
  | startReaper =>
    refine .same ?_
    split_ifs
    · rfl
    · rfl
  | @reaperTick ec now _ =>
    refine .same ?_
    obtain h | ⟨conns, -, h⟩ := idleReaperImpl_cases c s ec now
    · rw [h]
    · rw [h]
      rfl
  | acquireRefused _ | acquireReuse _ _ | acquirePark _ _ _ | timerExpire _ _ | drain
  | connLost _ => exact .same rfl

def Connect.isWarm : Connect → Bool
  | .warm _ _ => true
  | .acquire _ => false

/-- A connect of `warm()` in flight was there before, in an earlier iteration at most, and no second
one beside it; unless it starts. -/
theorem warm_of_step {c : PoolConfig} (hs : step c s a = some s') (ha : a ≠ .warm) :
    (∀ k i, .warm k i ∈ s'.connects → ∃ j, .warm k j ∈ s.connects) ∧
      s'.connects.countP Connect.isWarm ≤ s.connects.countP Connect.isWarm := by
  cases connects_step hs with
  | same h =>
    rw [h]
    exact ⟨fun k i hmem => ⟨i, hmem⟩, le_rfl⟩
  | acquire h =>
    rw [h, List.countP_append]
    refine ⟨fun k i hmem => ⟨i, ?_⟩, le_rfl⟩
    rcases List.mem_append.mp hmem with hmem | hmem
    · exact hmem
    · cases List.mem_singleton.mp hmem
  | gone f h =>
    rw [h]
    exact ⟨fun k i hmem => ⟨i, List.mem_of_mem_erase hmem⟩, List.erase_sublist.countP_le⟩
  | next k i hf h =>
    rw [h]
    refine ⟨fun k' i' hmem => ?_, ?_⟩
    · rcases List.mem_append.mp hmem with hmem | hmem
      · exact ⟨i', List.mem_of_mem_erase hmem⟩
      · obtain ⟨rfl, -⟩ := Connect.warm.inj (List.mem_singleton.mp hmem)
        exact ⟨i, hf⟩
    · have hperm := (List.perm_cons_erase hf).countP_eq Connect.isWarm
      rw [hperm, List.countP_append, Nat.add_comm, ← List.countP_append]
      exact le_rfl
  | warm hwarm _ => exact absurd hwarm ha

/-! ### One pool after the other -/

/-- `warm_all` has a connect in flight in the pool only whose `warm()` it awaits, and one there at
most; and what it has left is the end of the list. -/
structure InTurn (ids : List BackendID) (m : Managed) : Prop where
  awaited : ∀ id k i, .warm k i ∈ (m.pools id).connects → m.warming = .running id k
  one : ∀ id, (m.pools id).connects.countP Connect.isWarm ≤ 1
  suffix : ∃ done, ids = done ++ m.toWarm ∧
    ∀ id, m.warming = .called id ∨ (∃ k, m.warming = .running id k) → id ∈ done

theorem inTurn_managed (ids : List BackendID) : InTurn ids (managed ids) := by
  have hnone : ∀ id, ((managed ids).pools id).connects = [] := by
    intro id
    simp only [managed]
    split_ifs
    · rfl
    · rfl
  refine ⟨fun id k i hmem => ?_, fun id => ?_, [], rfl, ?_⟩
  · rw [hnone] at hmem
    exact absurd hmem List.not_mem_nil
  · rw [hnone]
    exact Nat.zero_le 1
  · rintro id (h | ⟨k, h⟩)
    · cases h
    · cases h

/-- Where no `warm()` is running there is no connect of one. -/
theorem countP_isWarm_eq_zero (h : ∀ id k i, .warm k i ∉ (m.pools id).connects) (id : BackendID) :
    (m.pools id).connects.countP Connect.isWarm = 0 := by
  refine List.countP_eq_zero.mpr fun f hf => ?_
  cases f with
  | acquire k => exact Bool.false_ne_true
  | warm k i => exact absurd hf (h id k i)

/-- `warm_all` goes on when the `warm()` that it awaits has no connect in flight any more. -/
theorem InTurn.notMem_of_warmed (T : InTurn ids m) (hw : m.warmed = true) :
    ∀ id k i, .warm k i ∉ (m.pools id).connects := by
  intro id k i hmem
  have hrun := T.awaited id k i hmem
  rw [Managed.warmed, hrun] at hw
  have hne := List.all_eq_true.mp hw _ hmem
  exact absurd hne (by simp)

/-- A step of a pool that does not start a `warm()`. -/
theorem InTurn.pools_of_ne_warm (T : InTurn ids m) (pools : BackendID → State)
    (h : ∀ id, (∀ k i, .warm k i ∈ (pools id).connects → ∃ j, .warm k j ∈ (m.pools id).connects) ∧
      (pools id).connects.countP Connect.isWarm ≤ (m.pools id).connects.countP Connect.isWarm) :
    (∀ id k i, .warm k i ∈ (pools id).connects → m.warming = .running id k) ∧
      ∀ id, (pools id).connects.countP Connect.isWarm ≤ 1 := by
  refine ⟨fun id k i hmem => ?_, fun id => (h id).2.trans (T.one id)⟩
  obtain ⟨j, hj⟩ := (h id).1 k i hmem
  exact T.awaited id k j hj

theorem InTurn.step (T : InTurn ids m) {b : ManagerAction} (hs : mstep cfg ids m b = some m') :
    InTurn ids m' := by
  have hsame : ∀ id, (∀ k i, .warm k i ∈ (m.pools id).connects →
      ∃ j, .warm k j ∈ (m.pools id).connects) ∧
      (m.pools id).connects.countP Connect.isWarm ≤ (m.pools id).connects.countP Connect.isWarm :=
    fun id => ⟨fun k i hmem => ⟨i, hmem⟩, le_rfl⟩
  cases b with
  | call j =>
    rw [mstep] at hs
    split_ifs at hs
    obtain rfl := Option.some.inj hs
    exact ⟨T.awaited, T.one, T.suffix⟩
  | expire j =>
    rw [mstep] at hs
    split_ifs at hs
    obtain rfl := Option.some.inj hs
    exact ⟨T.awaited, T.one, T.suffix⟩
  | shutdown =>
    rw [mstep] at hs
    split_ifs at hs
    obtain rfl := Option.some.inj hs
    exact ⟨T.awaited, T.one, T.suffix⟩
  | clear =>
    rw [mstep] at hs
    split_ifs at hs
    obtain rfl := Option.some.inj hs
    exact ⟨T.awaited, T.one, T.suffix⟩
  | drainNext =>
    obtain ⟨j, rest, -, rfl⟩ := mstep_drainNext hs
    obtain ⟨hawaited, hone⟩ := T.pools_of_ne_warm
      (Function.update m.pools j (drainImpl (m.pools j))) fun id => by
        rcases eq_or_ne id j with rfl | hne
        · rw [Function.update_self]
          exact hsame id
        · rw [Function.update_of_ne hne]
          exact hsame id
    exact ⟨hawaited, hone, T.suffix⟩
  | warmNext =>
    obtain ⟨j, rest, hrest, hw, rfl⟩ := mstep_warmNext hs
    have hnone := T.notMem_of_warmed hw
    refine ⟨fun id k i hmem => absurd hmem (hnone id k i), T.one, ?_⟩
    obtain ⟨done, hids, -⟩ := T.suffix
    refine ⟨done ++ [j], ?_, ?_⟩
    · rw [hids, hrest]
      simp
    · rintro id (h | ⟨k, h⟩)
      · obtain rfl := Warming.called.inj h
        simp
      · cases h
  | pool j a =>
    obtain ⟨hready, s, hstep, rfl⟩ := mstep_pool hs
    by_cases ha : a = .warm
    · subst ha
      -- the call of `warm_all` that awaits it was made while no other was running
      have hcalled : m.warming = .called j := of_decide_eq_true hready
      have hnone : ∀ id k i, .warm k i ∉ (m.pools id).connects := by
        intro id k i hmem
        cases hcalled.symm.trans (T.awaited id k i hmem)
      have hzero := countP_isWarm_eq_zero hnone
      have hnew : ∀ k i, .warm k i ∈ s.connects → k = (m.pools j).nextId := by
        intro k i hmem
        obtain rfl := Option.some.inj hstep
        obtain h | h := connects_warmLoop (cfg j) (m.pools j).spawn (m.pools j).nextId 0
        · rw [h] at hmem
          exact absurd hmem (hnone j k i)
        · rw [h] at hmem
          rcases List.mem_append.mp hmem with hmem | hmem
          · exact absurd hmem (hnone j k i)
          · exact (Connect.warm.inj (List.mem_singleton.mp hmem)).1
      have hcount : s.connects.countP Connect.isWarm ≤ 1 := by
        obtain rfl := Option.some.inj hstep
        obtain h | h := connects_warmLoop (cfg j) (m.pools j).spawn (m.pools j).nextId 0
        · rw [h]
          exact (hzero j).le.trans (Nat.zero_le 1)
        · rw [h, List.countP_append]
          exact (congrArg (· + 1) (hzero j)).le
      refine ⟨fun id k i hmem => ?_, fun id => ?_, ?_⟩
      · rcases eq_or_ne id j with rfl | hne
        · have hmem : .warm k i ∈ s.connects := by
            simpa only [Managed.after, Function.update_self] using hmem
          rw [hnew k i hmem]
          rfl
        · have hmem : .warm k i ∈ (m.pools id).connects := by
            simpa only [Managed.after, Function.update_of_ne hne] using hmem
          exact absurd hmem (hnone id k i)
      · rcases eq_or_ne id j with rfl | hne
        · simpa only [Managed.after, Function.update_self] using hcount
        · simpa only [Managed.after, Function.update_of_ne hne] using T.one id
      · obtain ⟨done, hids, hdone⟩ := T.suffix
        refine ⟨done, hids, ?_⟩
        rintro id (h | ⟨k, h⟩)
        · cases h
        · obtain ⟨rfl, -⟩ := Warming.running.inj h
          exact hdone j (.inl hcalled)
    · have hwarming : (m.after j a s).warming = m.warming := by
        cases a with
        | warm => exact absurd rfl ha
        | acquire _ | connectOk _ _ _ | connectErr _ _ | timerExpire _ | wake _ | release _ _ _ _
        | startReaper | reaperTick _ _ | drain | connLost _ => rfl
      obtain ⟨hawaited, hone⟩ := T.pools_of_ne_warm
        (Function.update m.pools j s) fun id => by
          rcases eq_or_ne id j with rfl | hne
          · rw [Function.update_self]
            exact warm_of_step hstep ha
          · rw [Function.update_of_ne hne]
            exact hsame id
      refine ⟨fun id k i hmem => hwarming.trans (hawaited id k i hmem), hone, ?_⟩
      obtain ⟨done, hids, hdone⟩ := T.suffix
      refine ⟨done, hids, fun id h => hdone id ?_⟩
      rw [hwarming] at h
      exact h

/-- **`warm_all` warms one pool after the other.** In every run of the manager, whatever clients,
backends and a shutdown do in between: `warm_all` has a connect in flight only in the pool whose
`warm()` it awaits, one there at most, and so one in all; and the pools that it has left are an end
of the list that this pool is not in. -/
theorem warm_all_in_turn (cfg : BackendID → PoolConfig) (ids : List BackendID) (hids : ids.Nodup)
    (as : List ManagerAction) (m : Managed) (hr : run (mstep cfg ids) (managed ids) as = some m) :
    m.toWarm <:+ ids ∧
      ∀ id k i, .warm k i ∈ (m.pools id).connects →
        m.warming = .running id k ∧ id ∉ m.toWarm ∧
        (∀ id' k' i', .warm k' i' ∈ (m.pools id').connects → id' = id ∧ k' = k) ∧
        (m.pools id).connects.countP Connect.isWarm = 1 := by
  have T : InTurn ids m :=
    preserved_run (fun _ _ _ T hs => InTurn.step T hs) (inTurn_managed ids) hr
  obtain ⟨done, hsplit, hdone⟩ := T.suffix
  refine ⟨⟨done, hsplit.symm⟩, fun id k i hmem => ?_⟩
  have hrun := T.awaited id k i hmem
  refine ⟨hrun, fun hleft => ?_, fun id' k' i' hmem' => ?_, ?_⟩
  · rw [hsplit, List.nodup_append] at hids
    exact hids.2.2 id (hdone id (.inr ⟨k, hrun⟩)) id hleft rfl
  · obtain ⟨rfl, rfl⟩ := Warming.running.inj (hrun.symm.trans (T.awaited id' k' i' hmem'))
    exact ⟨rfl, rfl⟩
  · have hpos : 0 < (m.pools id).connects.countP Connect.isWarm :=
      List.countP_pos_iff.mpr ⟨_, hmem, rfl⟩
    exact le_antisymm (T.one id) hpos

/-- Two pools of one connection each. The first is warmed while a client waits for the second. -/
def warmingTwo : List ManagerAction :=
  [.warmNext, .pool "a" .warm, .call "b", .pool "b" (.acquire 0)]

theorem warm_all_in_turn_two : ∃ m,
    run (mstep (fun _ => { min := 1, max := 1 }) ["a", "b"]) (managed ["a", "b"]) warmingTwo =
        some m ∧
      .warm 0 0 ∈ (m.pools "a").connects ∧ "a" ∉ m.toWarm ∧
      (m.pools "a").connects.countP Connect.isWarm = 1 := by
  obtain ⟨m, hm⟩ : ∃ m, run (mstep (fun _ => { min := 1, max := 1 }) ["a", "b"])
      (managed ["a", "b"]) warmingTwo = some m := ⟨_, rfl⟩
  have hmem : .warm 0 0 ∈ (m.pools "a").connects := by
    rw [← Option.some.inj hm]
    decide
  obtain ⟨-, hall⟩ := warm_all_in_turn _ _ (by decide) warmingTwo m hm
  obtain ⟨-, hleft, -, hcount⟩ := hall "a" 0 0 hmem
  exact ⟨m, hm, hmem, hleft, hcount⟩

/-! ### Clearing the map -/

/-- Nothing is left that could use a pool: `warm_all` is done with its pointers, no call is
suspended in a pool or queued for one, every connection has been given back, and no reaper is about
to run. -/
structure Managed.Idle (m : Managed) : Prop where
  toWarm : m.toWarm = []
  warming : ∀ id, m.warming ≠ .called id
  settled : ∀ id, (m.pools id).Settled
  held : ∀ id k, (m.pools id).held k = none
  called : ∀ id, m.called id = 0
  due : ∀ id, m.due id = false

/-- Only a reaper that ends changes the number of reapers. -/
theorem reapers_step {c : PoolConfig} (hs : step c s a = some s') (hstart : a ≠ .startReaper)
    (htick : ∀ ec now, a ≠ .reaperTick ec now) : s'.reapers = s.reapers := by
  have hloop : ∀ (t : State) (k : CoroId) (i : ℕ), (warmLoop c t k i).reapers = t.reapers := by
    intro t k i
    rw [warmLoop_eq]
    split_ifs
    · rfl
    · rfl
  cases segment_of_step hs with
  | warmConnected _ _ => exact hloop _ _ _
  | warm => exact hloop _ _ _
  | release j d healthy now =>
    obtain ⟨-, h⟩ | ⟨-, -, h⟩ | ⟨-, -, w, rest, -, h⟩ | ⟨-, -, -, h⟩ :=
      release_cases { s with held := Function.update s.held j none } d healthy now
    · exact (congrArg State.reapers h).trans rfl
    · exact (congrArg State.reapers h).trans rfl
    · exact (congrArg State.reapers h).trans rfl
    · exact (congrArg State.reapers h).trans rfl
  | @wake k w _ _ =>
    rw [acquireWoken]
    cases w.result with
    | some h => rfl
    | none => rfl
  | startReaper => exact absurd rfl hstart
  | @reaperTick ec now _ => exact absurd rfl (htick ec now)
  | acquireRefused _ | acquireReuse _ _ | acquireOpen _ _ _ | acquirePark _ _ _
  | acquireConnected _ _ | acquireFailed _ | warmFailed _ | timerExpire _ _ | drain
  | connLost _ => rfl

/-- A reaper that is about to run is there, and nothing dangles before the map is cleared. -/
structure Sane (m : Managed) : Prop where
  due : ∀ id, m.due id = true → (m.pools id).reapers ≠ 0
  dangling : m.dangling = true → m.cleared = true

theorem sane_managed (ids : List BackendID) : Sane (managed ids) where
  due := fun _ h => absurd h Bool.false_ne_true
  dangling := fun h => absurd h Bool.false_ne_true

theorem Sane.step (S : Sane m) {b : ManagerAction} (hs : mstep cfg ids m b = some m') :
    Sane m' := by
  cases b with
  | call j =>
    rw [mstep] at hs
    split_ifs at hs
    obtain rfl := Option.some.inj hs
    exact ⟨S.due, S.dangling⟩
  | expire j =>
    rw [mstep] at hs
    split_ifs at hs with h
    obtain rfl := Option.some.inj hs
    refine ⟨fun id hdue => ?_, S.dangling⟩
    have hdue : Function.update m.due j true id = true := hdue
    rcases eq_or_ne id j with rfl | hne
    · exact h.1
    · rw [Function.update_of_ne hne] at hdue
      exact S.due id hdue
  | shutdown =>
    rw [mstep] at hs
    split_ifs at hs
    obtain rfl := Option.some.inj hs
    exact ⟨S.due, S.dangling⟩
  | clear =>
    rw [mstep] at hs
    split_ifs at hs
    obtain rfl := Option.some.inj hs
    exact ⟨S.due, fun _ => rfl⟩
  | drainNext =>
    obtain ⟨j, rest, -, rfl⟩ := mstep_drainNext hs
    refine ⟨fun id hdue => ?_, S.dangling⟩
    have hkeep : (Function.update m.pools j (drainImpl (m.pools j)) id).reapers =
        (m.pools id).reapers := by
      rcases eq_or_ne id j with rfl | hne
      · rw [Function.update_self]
        rfl
      · rw [Function.update_of_ne hne]
    exact hkeep.trans_ne (S.due id hdue)
  | warmNext =>
    obtain ⟨j, rest, -, -, rfl⟩ := mstep_warmNext hs
    refine ⟨S.due, fun h => ?_⟩
    have hor : (m.dangling || m.cleared) = true := h
    rcases Bool.or_eq_true_iff.mp hor with h | h
    · exact S.dangling h
    · exact h
  | pool j a =>
    obtain ⟨hready, s, hstep, rfl⟩ := mstep_pool hs
    refine ⟨fun id hdue => ?_, fun h => ?_⟩
    · by_cases htick : ∃ ec now, a = .reaperTick ec now
      · obtain ⟨ec, now, rfl⟩ := htick
        have hdue : Function.update m.due j false id = true := hdue
        rcases eq_or_ne id j with rfl | hne
        · rw [Function.update_self] at hdue
          exact absurd hdue Bool.false_ne_true
        · rw [Function.update_of_ne hne] at hdue
          rw [pools_after_of_ne hne]
          exact S.due id hdue
      · have hne : a ≠ .startReaper := by
          rintro rfl
          exact absurd hready Bool.false_ne_true
        have hsame : (m.after j a s).due id = m.due id := by
          cases a with
          | reaperTick ec now => exact absurd ⟨ec, now, rfl⟩ htick
          | acquire _ | connectOk _ _ _ | connectErr _ _ | timerExpire _ | wake _ | release _ _ _ _
          | warm | startReaper | drain | connLost _ => rfl
        rw [hsame] at hdue
        have hkeep : s.reapers = (m.pools j).reapers :=
          reapers_step hstep hne fun ec now h => htick ⟨ec, now, h⟩
        rcases eq_or_ne id j with rfl | hid
        · rw [pools_after_self, hkeep]
          exact S.due id hdue
        · rw [pools_after_of_ne hid]
          exact S.due id hdue
    · have hor : (m.dangling || (m.cleared && touches a)) = true := h
      rcases Bool.or_eq_true_iff.mp hor with h | h
      · exact S.dangling h
      · exact (Bool.and_eq_true_iff.mp h).1

/-- The map has been cleared when nothing was left. -/
structure Gone (m : Managed) : Prop where
  idle : m.Idle
  cleared : m.cleared = true
  toDrain : m.toDrain = some []
  safe : m.dangling = false

/-- Nothing but the end of a cancelled reaper happens then. -/
theorem Gone.step (G : Gone m) {b : ManagerAction} (hd : m.Disciplined b)
    (hs : mstep cfg ids m b = some m') : Gone m' := by
  have hcleared : m.cleared ≠ false := by
    rw [G.cleared]
    exact Bool.noConfusion
  cases b with
  | call j =>
    rw [mstep] at hs
    split_ifs at hs with h
    exact absurd h.2 hcleared
  | expire j =>
    rw [mstep] at hs
    split_ifs at hs with h
    exact absurd h.2.2 hcleared
  | shutdown =>
    rw [mstep, G.toDrain] at hs
    cases hs
  | clear =>
    rw [mstep] at hs
    split_ifs at hs with h
    exact absurd h.2 hcleared
  | drainNext =>
    obtain ⟨j, rest, h, -⟩ := mstep_drainNext hs
    cases G.toDrain.symm.trans h
  | warmNext =>
    obtain ⟨j, rest, h, -, -⟩ := mstep_warmNext hs
    cases G.idle.toWarm.symm.trans h
  | pool j a =>
    obtain ⟨hready, s, hstep, rfl⟩ := mstep_pool hs
    have hsettled : completes a = 1 → False := by
      intro hc
      have hnone : step (cfg j) (m.pools j) a = none := settled_iff.mp (G.idle.settled j) a hc
      cases hnone.symm.trans hstep
    cases a with
    | reaperTick ec now =>
      cases ec with
      | false =>
        have hdue : m.due j = true := hready
        cases (G.idle.due j).symm.trans hdue
      | true =>
        cases segment_of_step hstep with
        | reaperTick _ =>
          refine ⟨⟨G.idle.toWarm, G.idle.warming, fun id => ?_, fun id k => ?_, G.idle.called,
            fun id => ?_⟩, G.cleared, G.toDrain, ?_⟩
          · rcases eq_or_ne id j with rfl | hne
            · rw [pools_after_self]
              exact G.idle.settled id
            · rw [pools_after_of_ne hne]
              exact G.idle.settled id
          · rcases eq_or_ne id j with rfl | hne
            · rw [pools_after_self]
              exact G.idle.held id k
            · rw [pools_after_of_ne hne]
              exact G.idle.held id k
          · rcases eq_or_ne id j with rfl | hne
            · exact Function.update_self ..
            · exact (Function.update_of_ne hne ..).trans (G.idle.due id)
          · show (m.dangling || (m.cleared && false)) = false
            rw [G.safe, Bool.and_false]
            rfl
    | acquire now => exact absurd (G.idle.called j) (of_decide_eq_true hready)
    | warm => exact absurd (of_decide_eq_true hready) (G.idle.warming j)
    | release k c healthy now =>
      obtain ⟨h, hk, -⟩ := hd
      cases (G.idle.held j k).symm.trans hk
    | connLost c =>
      have hnot : m.cleared = false := by simpa [Managed.ready] using hready
      exact absurd hnot hcleared
    | startReaper => exact absurd hready Bool.false_ne_true
    | drain => exact absurd hready Bool.false_ne_true
    | connectOk _ _ _ | connectErr _ _ | timerExpire _ | wake _ => exact (hsettled rfl).elim

/-- A run of the callers' segments after which a pool has been used that is gone. -/
def Dangles (cfg : BackendID → PoolConfig) (ids : List BackendID) (m : Managed) : Prop :=
  ∃ bs t, Along (mstep cfg ids) Managed.Disciplined m bs ∧ run (mstep cfg ids) m bs = some t ∧
    t.dangling = true

/-- One segment that uses a pool is enough. -/
theorem dangles_of_segment (id : BackendID) (a : Action) (hcleared : m.cleared = true)
    (hready : m.ready id a = true) (htouch : touches a = true)
    (hd : Pool.Disciplined (m.pools id) a)
    (hs : step (cfg id) (m.pools id) a = some s) : Dangles cfg ids m := by
  have hstep := mstep_pool_of_step ids hready hs
  refine ⟨[.pool id a], m.after id a s, ⟨hd, fun _ _ => trivial⟩, ?_, ?_⟩
  · rw [run_singleton]
    exact hstep
  · have hused : (m.cleared && touches a) = true := by
      rw [hcleared, htouch]
      rfl
    exact Bool.or_eq_true_iff.mpr (.inr hused)

theorem Dangles.of_step {b : ManagerAction} (hd : m.Disciplined b)
    (hs : mstep cfg ids m b = some m') : Dangles cfg ids m' → Dangles cfg ids m := by
  rintro ⟨bs, t, hdis, hrun, h⟩
  refine ⟨b :: bs, t, ⟨hd, fun t' ht' => ?_⟩, run_cons_eq_some.mpr ⟨m', hs, hrun⟩, h⟩
  obtain rfl := Option.some.inj (hs.symm.trans ht')
  exact hdis

/-- A suspended call uses its pool, a waiting `acquire()` as soon as its timer is due. -/
theorem dangles_of_not_settled (hcleared : m.cleared = true) (h : ¬ (m.pools id).Settled) :
    Dangles cfg ids m := by
  by_cases hc : (m.pools id).connects = []
  · obtain ⟨k, hk⟩ : ∃ k, (m.pools id).parked k ≠ none := by
      by_contra hnone
      exact h ⟨hc, fun k => not_not.mp fun hk => hnone ⟨k, hk⟩⟩
    obtain ⟨w, hw⟩ := Option.ne_none_iff_exists'.mp hk
    by_cases ht : w.timer = .armed
    · have hstep : step (cfg id) (m.pools id) (.timerExpire k) = some { m.pools id with
          parked :=
            Function.update (m.pools id).parked k (some { w with timer := .expired }) } := by
        simp only [step, hw, if_pos ht]
      refine Dangles.of_step (b := .pool id (.timerExpire k)) trivial
        (mstep_pool_of_step ids rfl hstep) ?_
      have hwake : ∃ s, step (cfg id) ((m.after id (.timerExpire k) { m.pools id with
          parked := Function.update (m.pools id).parked k
            (some { w with timer := .expired }) }).pools id) (.wake k) = some s := by
        simp [step]
      obtain ⟨s, hs⟩ := hwake
      exact dangles_of_segment id (.wake k) hcleared rfl rfl trivial hs
    · have hstep : step (cfg id) (m.pools id) (.wake k) = some (acquireWoken (m.pools id) k w) := by
        simp only [step, hw, if_neg ht]
      exact dangles_of_segment id (.wake k) hcleared rfl rfl trivial hstep
  · obtain ⟨f, hf⟩ := List.exists_mem_of_ne_nil _ hc
    obtain ⟨addr, hfresh⟩ := Infinite.exists_notMem_finset (m.pools id).addrs.toFinset
    have hunused : addr ∉ (m.pools id).addrs := fun hmem => hfresh (List.mem_toFinset.mpr hmem)
    obtain ⟨s, hs⟩ := exists_step_connectOk (cfg id) 0 hf hunused
    exact dangles_of_segment id (.connectOk f addr 0) hcleared rfl rfl trivial hs

/-- Once the map has been cleared, whatever is left can use a pool. -/
theorem idle_of_not_dangles (S : Sane m) (hcleared : m.cleared = true)
    (h : ¬ Dangles cfg ids m) : m.Idle := by
  have hsettled : ∀ id, (m.pools id).Settled := fun id =>
    not_not.mp fun hnot => h (dangles_of_not_settled hcleared hnot)
  have hwarming : ∀ id, m.warming ≠ .called id := by
    intro id hcalled
    refine h (dangles_of_segment id .warm hcleared ?_ rfl trivial rfl)
    exact decide_eq_true hcalled
  refine ⟨?_, hwarming, hsettled, fun id k => ?_, fun id => ?_, fun id => ?_⟩
  · by_contra hleft
    obtain ⟨id, rest, hrest⟩ := List.exists_cons_of_ne_nil hleft
    have hwarmed : m.warmed = true := by
      rw [Managed.warmed]
      split
      · rfl
      case h_2 id hcalled => exact absurd hcalled (hwarming id)
      case h_3 id k hrun => rw [(hsettled id).1, List.all_nil]
    have hstep : mstep cfg ids m .warmNext = some { m with
        toWarm := rest, warming := .called id, dangling := m.dangling || m.cleared } := by
      simp only [mstep, hrest, if_pos hwarmed]
    refine h ⟨[.warmNext], _, ⟨trivial, fun _ _ => trivial⟩, (run_singleton _ _).trans hstep, ?_⟩
    exact Bool.or_eq_true_iff.mpr (.inr hcleared)
  · by_contra hk
    obtain ⟨g, hg⟩ := Option.ne_none_iff_exists'.mp hk
    exact h (dangles_of_segment id (.release k g.ptr true 0) hcleared rfl rfl
      ⟨g, hg, rfl⟩ rfl)
  · by_contra hcalled
    refine h (dangles_of_segment id (.acquire 0) hcleared ?_ rfl trivial rfl)
    exact decide_eq_true hcalled
  · by_contra hdue
    have hdue : m.due id = true := eq_true_of_ne_false hdue
    have hstep : step (cfg id) (m.pools id) (.reaperTick false 0) =
        some (idleReaperImpl (cfg id) (m.pools id) false 0) := if_neg (S.due id hdue)
    exact h (dangles_of_segment id (.reaperTick false 0) hcleared hdue rfl trivial
      hstep)

/-- **When `shutdown` is safe.** `shutdown` clears the map as soon as every pool has been drained,
and a drain waits for nobody. In every run up to there, whatever the clients, the backends and
`warm_all` have done: no run from there uses a pool that is gone exactly if the manager is idle at
that moment. So one connection that a client still has, one call that is suspended, queued or
connecting, one pool that `warm_all` has left, or one reaper whose timer has just expired is
enough. -/
theorem shutdown_safe_iff (cfg : BackendID → PoolConfig) (ids : List BackendID)
    (as : List ManagerAction) (m m' : Managed)
    (hd : Along (mstep cfg ids) Managed.Disciplined (managed ids) as)
    (hr : run (mstep cfg ids) (managed ids) as = some m)
    (hs : mstep cfg ids m .clear = some m') :
    (∀ bs t, Along (mstep cfg ids) Managed.Disciplined m' bs →
      run (mstep cfg ids) m' bs = some t → t.dangling = false) ↔ m.Idle := by
  have S : Sane m :=
    invariant_run (fun _ _ _ S _ hs => Sane.step S hs) (sane_managed ids) hd hr
  have S' : Sane m' := S.step hs
  rw [mstep] at hs
  split_ifs at hs with hdone
  obtain rfl := Option.some.inj hs
  have hsafe : m.dangling = false :=
    Bool.eq_false_iff.mpr fun h => Bool.false_ne_true (hdone.2.symm.trans (S.dangling h))
  constructor
  · intro h
    have hnot : ¬ Dangles cfg ids { m with cleared := true } := by
      rintro ⟨bs, t, hdis, hrun, ht⟩
      exact Bool.false_ne_true ((h bs t hdis hrun).symm.trans ht)
    have hidle := idle_of_not_dangles S' rfl hnot
    exact ⟨hidle.toWarm, hidle.warming, hidle.settled, hidle.held, hidle.called, hidle.due⟩
  · intro hidle bs t hdis hrun
    have hgone : Gone { m with cleared := true } :=
      ⟨⟨hidle.toWarm, hidle.warming, hidle.settled, hidle.held, hidle.called, hidle.due⟩, rfl,
        hdone.1, hsafe⟩
    exact (invariant_run (fun _ _ _ G hd hs => Gone.step G hd hs) hgone hdis hrun).safe

/-- A client has a connection when `shutdown` is called. Giving it back later uses the pool. -/
def heldAtShutdown : List ManagerAction :=
  [.warmNext, .pool "a" .warm, .call "a", .pool "a" (.acquire 0),
    .pool "a" (.connectOk (.acquire 1) 5 0), .shutdown, .drainNext]

theorem shutdown_safe_iff_held : ∃ m m',
    run (mstep (fun _ => { min := 0, max := 1 }) ["a"]) (managed ["a"]) heldAtShutdown = some m ∧
      mstep (fun _ => { min := 0, max := 1 }) ["a"] m .clear = some m' ∧
      ¬ ∀ bs t, Along (mstep (fun _ => { min := 0, max := 1 }) ["a"]) Managed.Disciplined m' bs →
        run (mstep (fun _ => { min := 0, max := 1 }) ["a"]) m' bs = some t →
        t.dangling = false := by
  obtain ⟨m, hm⟩ : ∃ m, run (mstep (fun _ => { min := 0, max := 1 }) ["a"]) (managed ["a"])
      heldAtShutdown = some m := ⟨_, rfl⟩
  obtain ⟨m', hm'⟩ : ∃ m', mstep (fun _ => { min := 0, max := 1 }) ["a"] m .clear = some m' := by
    rw [← Option.some.inj hm]
    exact ⟨_, rfl⟩
  have hheld : (m.pools "a").held 1 ≠ none := by
    rw [← Option.some.inj hm]
    decide
  refine ⟨m, m', hm, hm', fun hsafe => hheld ?_⟩
  exact ((shutdown_safe_iff _ _ _ m m' (by decide) hm hm').mp hsafe).held "a" 1

end Pool

end DBMesh
