import DBMesh.Lib.RefCount
import DBMesh.Routing.RoutingEngine

/-!
# The schema registry under concurrent calls

`SchemaRegistry` keeps its map as a snapshot behind an atomic `shared_ptr`. A reader loads the
pointer and looks its name up; a writer copies the map, changes the copy and swaps it in, under
`write_lock_`. Here each of these is a step of its own, so that the steps of the calls interleave in
every order, and the reference counts of the snapshots are part of the state. `lookup` gives up its
reference when it returns, and `plan` and `select` read the entry afterwards, through the pointer
alone.

What such a read finds in a snapshot that is gone is not said by anything in the program: the action
says what it is.

## Main definitions

* `DBMesh.Rcu.State` — the snapshots with their counts, and the calls under way
* `DBMesh.Rcu.Phase.move` — the next step of a call, and what it does to the shared state
* `DBMesh.Rcu.State.step` — one step of the system

## Main results

* `DBMesh.Rcu.accounted_run` — every count is the number of references
* `DBMesh.Rcu.store_run` — a swap applies its change to the map that is current: no update is lost
-/

namespace DBMesh.Rcu

open DBMesh.Routing

abbrev SchemaMap := AList fun _ : SchemaName => SchemaConfig

/-- Snapshots are numbered in the order in which they are made. -/
abbrev Snap := ℕ

/-- What `lookup` returns: the place of an entry in a snapshot. -/
structure Ptr where
  snap : Snap
  name : SchemaName
  deriving DecidableEq, Repr

/-- The place of the entry that `lookup` finds: of the name, or else of `default`. -/
def find (m : SchemaMap) (name : SchemaName) : Option SchemaName :=
  if name ∈ m then some name else if defaultSchema ∈ m then some defaultSchema else none

/-- A call of `RoutingEngine::plan`. -/
structure Call where
  sql : List Char := []
  session : SessionView := {}
  deriving DecidableEq, Repr

def Call.schema (call : Call) : SchemaName := extractOr call.sql call.session.currentSchema

/-- A call of a writer. -/
inductive Write
  | load (schemas : List SchemaConfig)
  | change (c : SchemaRegistry.Change)

/-- What a writer makes of the map, by the registry that nothing runs beside. -/
def Write.apply (m : SchemaMap) : Write → SchemaMap
  | .load schemas => (SchemaRegistry.load { current := m } schemas).current
  | .change (.upsert config) => (SchemaRegistry.upsert { current := m } config).current
  | .change (.remove name) => (SchemaRegistry.remove { current := m } name).current

/-- The reads through the pointer: `plan` reads the split, `select` the group, for the candidates of
a role, and then the policy. -/
inductive Field
  | readWriteSplit
  | backendGroup (role : BackendRole)
  | routingPolicy
  deriving DecidableEq, Repr

/-- The read that follows a read, if one does: `config` is the entry that was read and `found` tells
whether the group has a candidate for the role. -/
def Call.after (routing : RoutingConfig) (call : Call) (config : SchemaConfig) (found : Bool) :
    Field → Option Field
  | .readWriteSplit =>
    let role := RoutingEngine.roleFor { routing := routing } config call.sql call.session
    if call.session.pinnedBackend.isSome ∧ role = .primary then none else some (.backendGroup role)
  | .backendGroup role =>
    if found then some .routingPolicy
    -- no healthy replica: the group is asked again, for its primary
    else if role = .replica then some (.backendGroup .primary)
    else none
  | .routingPolicy => none

/-- Where a call is. The snapshots that it holds a `shared_ptr` to are arguments of the phase, with
one exception: `reading` holds none. -/
inductive Phase
  | planning (call : Call)
  | lookingUp (call : Call) (snap : Snap)
  | reading (call : Call) (p : Ptr) (f : Field)
  -- `load` builds its map before it asks for the lock
  | building (schemas : List SchemaConfig)
  | ready (schemas : List SchemaConfig) (next : Snap)
  | waiting (c : SchemaRegistry.Change)
  | locked (c : SchemaRegistry.Change)
  | loaded (c : SchemaRegistry.Change) (cur : Snap)
  -- `upsert` has its copy, and still the temporary that it copied from
  | copied (config : SchemaConfig) (cur next : Snap)
  | built (w : Write) (cur : Option Snap) (next : Snap)
  | stored (cur : Option Snap)
  | leaving (cur : Option Snap)
  | done

/-- What a step does to the shared state. -/
inductive Effect
  | none
  | load
  | release (x : Snap)
  | make (m : SchemaMap)
  | store (x : Snap)
  | lock
  | unlock
  | bump
  | read (x : Snap) (f : Field)

/-- A read that was made: by which call, from which snapshot, and whether it was alive. -/
structure Read where
  proc : ℕ
  snap : Snap
  field : Field
  live : Bool
  deriving DecidableEq, Repr

structure State where
  maps : Snap → SchemaMap := fun _ => ∅
  refs : Snap → ℕ := fun x => if x = 0 then 1 else 0
  next : Snap := 1
  current : Snap := 0
  lock : Option ℕ := none
  version : ℕ := 0
  procs : List Phase := []
  reads : List Read := []

/-- The entry behind a pointer. In a snapshot that is retired there may be anything. -/
def State.deref (s : State) (p : Ptr) (junk : SchemaConfig) : SchemaConfig :=
  if s.refs p.snap = 0 then junk else ((s.maps p.snap).lookup p.name).getD junk

def State.apply (s : State) (i : ℕ) : Effect → State
  | .none => s
  | .load => { s with refs := RefCount.inc s.refs s.current }
  | .release x => { s with refs := RefCount.dec s.refs x }
  | .make m =>
    { s with
      maps := Function.update s.maps s.next m
      refs := RefCount.inc s.refs s.next
      next := s.next + 1 }
  -- the reference moves into `current_`, which gives up the one it had
  | .store x => { s with current := x, refs := RefCount.dec s.refs s.current }
  | .lock => { s with lock := some i }
  | .unlock => { s with lock := none }
  | .bump => { s with version := s.version + 1 }
  | .read x f => { s with reads := ⟨i, x, f, decide (0 < s.refs x)⟩ :: s.reads }

/-- The next step of a call; `none` while it waits for the lock, and after its end. A snapshot is
out of reach for the others until it is stored, so that a copy and its change are one step. -/
def Phase.move (routing : RoutingConfig) (s : State) (found : Bool) (junk : SchemaConfig) :
    Phase → Option (Effect × Phase)
  | .planning call => some (.load, .lookingUp call s.current)
  | .lookingUp call x =>
    match find (s.maps x) call.schema with
    | some name => some (.release x, .reading call ⟨x, name⟩ .readWriteSplit)
    | none => some (.release x, .done)
  | .reading call p f =>
    match call.after routing (s.deref p junk) found f with
    | some f' => some (.read p.snap f, .reading call p f')
    | none => some (.read p.snap f, .done)
  | .building schemas => some (.make (Write.apply ∅ (.load schemas)), .ready schemas s.next)
  | .ready schemas next =>
    if s.lock = none then some (.lock, .built (.load schemas) none next) else none
  | .waiting c => if s.lock = none then some (.lock, .locked c) else none
  | .locked c => some (.load, .loaded c s.current)
  | .loaded (.upsert config) cur =>
    some (.make ((s.maps cur).insert config.name config), .copied config cur s.next)
  | .loaded (.remove name) cur =>
    if name ∈ s.maps cur then
      some (.make ((s.maps cur).erase name), .built (.change (.remove name)) (some cur) s.next)
    else some (.none, .leaving (some cur))
  | .copied config cur next => some (.release cur, .built (.change (.upsert config)) none next)
  | .built _ cur next => some (.store next, .stored cur)
  | .stored cur => some (.bump, .leaving cur)
  -- `cur` goes out of scope before the lock does
  | .leaving (some cur) => some (.release cur, .leaving none)
  | .leaving none => some (.unlock, .done)
  | .done => none

/-- A call that comes in. -/
inductive Job
  | plan (call : Call)
  | write (w : Write)

def Job.start : Job → Phase
  | .plan call => .planning call
  | .write (.load schemas) => .building schemas
  | .write (.change (.upsert config)) => .waiting (.upsert config)
  | .write (.change (.remove name)) =>
    if name = defaultSchema then .done else .waiting (.remove name)

inductive Act
  | call (job : Job)
  | step (i : ℕ) (found : Bool) (junk : SchemaConfig)

def State.step (routing : RoutingConfig) (s : State) : Act → Option State
  | .call job => some { s with procs := s.procs ++ [job.start] }
  | .step i found junk =>
    s.procs[i]?.bind fun q =>
      (q.move routing s found junk).map fun (e, q') =>
        { s.apply i e with procs := s.procs.set i q' }

variable {routing : RoutingConfig} {s s' : State} {a : Act} {i : ℕ} {q q' : Phase} {e : Effect}
  {found : Bool} {junk : SchemaConfig} {x : Snap}

/-- The default entry is not up for removal. -/
def Removable : SchemaRegistry.Change → Prop
  | .upsert _ => True
  | .remove name => name ≠ defaultSchema

/-- Where a call that comes in can be. -/
theorem start_cases (job : Job) :
    (∃ call, job.start = .planning call) ∨ (∃ schemas, job.start = .building schemas) ∨
      (∃ c, Removable c ∧ job.start = .waiting c) ∨ job.start = .done := by
  rcases job with call | (schemas | (config | name))
  · exact .inl ⟨call, rfl⟩
  · exact .inr (.inl ⟨schemas, rfl⟩)
  · exact .inr (.inr (.inl ⟨.upsert config, trivial, rfl⟩))
  · rw [Job.start]
    split
    · exact .inr (.inr (.inr rfl))
    · next hname => exact .inr (.inr (.inl ⟨.remove name, hname, rfl⟩))

/-- The moves of a call, one by one. -/
inductive Move (s : State) : Phase → Effect → Phase → Prop
  | load (call : Call) : Move s (.planning call) .load (.lookingUp call s.current)
  | hit (call : Call) (x : Snap) (name : SchemaName) (h : find (s.maps x) call.schema = some name) :
    Move s (.lookingUp call x) (.release x) (.reading call ⟨x, name⟩ .readWriteSplit)
  | miss (call : Call) (x : Snap) (h : find (s.maps x) call.schema = none) :
    Move s (.lookingUp call x) (.release x) .done
  | read (call : Call) (p : Ptr) (f f' : Field) :
    Move s (.reading call p f) (.read p.snap f) (.reading call p f')
  | readLast (call : Call) (p : Ptr) (f : Field) :
    Move s (.reading call p f) (.read p.snap f) .done
  | build (schemas : List SchemaConfig) :
    Move s (.building schemas) (.make (Write.apply ∅ (.load schemas))) (.ready schemas s.next)
  | lockLoad (schemas : List SchemaConfig) (next : Snap) (h : s.lock = none) :
    Move s (.ready schemas next) .lock (.built (.load schemas) none next)
  | lock (c : SchemaRegistry.Change) (h : s.lock = none) : Move s (.waiting c) .lock (.locked c)
  | loadCurrent (c : SchemaRegistry.Change) : Move s (.locked c) .load (.loaded c s.current)
  | copy (config : SchemaConfig) (cur : Snap) :
    Move s (.loaded (.upsert config) cur) (.make ((s.maps cur).insert config.name config))
      (.copied config cur s.next)
  | erase (name : SchemaName) (cur : Snap) (h : name ∈ s.maps cur) :
    Move s (.loaded (.remove name) cur) (.make ((s.maps cur).erase name))
      (.built (.change (.remove name)) (some cur) s.next)
  | absent (name : SchemaName) (cur : Snap) :
    Move s (.loaded (.remove name) cur) .none (.leaving (some cur))
  | dropTemporary (config : SchemaConfig) (cur next : Snap) :
    Move s (.copied config cur next) (.release cur) (.built (.change (.upsert config)) none next)
  | store (w : Write) (cur : Option Snap) (next : Snap) :
    Move s (.built w cur next) (.store next) (.stored cur)
  | bump (cur : Option Snap) : Move s (.stored cur) .bump (.leaving cur)
  | dropCurrent (cur : Snap) : Move s (.leaving (some cur)) (.release cur) (.leaving none)
  | unlock : Move s (.leaving none) .unlock .done

theorem Move.of_move (h : q.move routing s found junk = some (e, q')) : Move s q e q' := by
  cases q with
  | planning call =>
    obtain ⟨rfl, rfl⟩ := Prod.mk.inj (Option.some.inj h)
    exact .load call
  | lookingUp call x =>
    rw [Phase.move] at h
    split at h
    · next name hname =>
      obtain ⟨rfl, rfl⟩ := Prod.mk.inj (Option.some.inj h)
      exact .hit call x name hname
    · next hname =>
      obtain ⟨rfl, rfl⟩ := Prod.mk.inj (Option.some.inj h)
      exact .miss call x hname
  | reading call p f =>
    rw [Phase.move] at h
    split at h
    · next f' _ =>
      obtain ⟨rfl, rfl⟩ := Prod.mk.inj (Option.some.inj h)
      exact .read call p f f'
    · obtain ⟨rfl, rfl⟩ := Prod.mk.inj (Option.some.inj h)
      exact .readLast call p f
  | building schemas =>
    obtain ⟨rfl, rfl⟩ := Prod.mk.inj (Option.some.inj h)
    exact .build schemas
  | ready schemas next =>
    obtain ⟨hlock, h⟩ := Option.ite_none_right_eq_some.mp h
    obtain ⟨rfl, rfl⟩ := Prod.mk.inj (Option.some.inj h)
    exact .lockLoad schemas next hlock
  | waiting c =>
    obtain ⟨hlock, h⟩ := Option.ite_none_right_eq_some.mp h
    obtain ⟨rfl, rfl⟩ := Prod.mk.inj (Option.some.inj h)
    exact .lock c hlock
  | locked c =>
    obtain ⟨rfl, rfl⟩ := Prod.mk.inj (Option.some.inj h)
    exact .loadCurrent c
  | loaded c cur =>
    cases c with
    | upsert config =>
      obtain ⟨rfl, rfl⟩ := Prod.mk.inj (Option.some.inj h)
      exact .copy config cur
    | remove name =>
      rw [Phase.move] at h
      split at h
      · next hmem =>
        obtain ⟨rfl, rfl⟩ := Prod.mk.inj (Option.some.inj h)
        exact .erase name cur hmem
      · obtain ⟨rfl, rfl⟩ := Prod.mk.inj (Option.some.inj h)
        exact .absent name cur
  | copied config cur next =>
    obtain ⟨rfl, rfl⟩ := Prod.mk.inj (Option.some.inj h)
    exact .dropTemporary config cur next
  | built w cur next =>
    obtain ⟨rfl, rfl⟩ := Prod.mk.inj (Option.some.inj h)
    exact .store w cur next
  | stored cur =>
    obtain ⟨rfl, rfl⟩ := Prod.mk.inj (Option.some.inj h)
    exact .bump cur
  | leaving cur =>
    cases cur with
    | none =>
      obtain ⟨rfl, rfl⟩ := Prod.mk.inj (Option.some.inj h)
      exact .unlock
    | some cur =>
      obtain ⟨rfl, rfl⟩ := Prod.mk.inj (Option.some.inj h)
      exact .dropCurrent cur
  | done => exact absurd h nofun

/-- What a step can be: a call comes in, or one of the calls moves. -/
theorem step_cases (h : s.step routing a = some s') :
    (∃ job, a = .call job ∧ s' = { s with procs := s.procs ++ [job.start] }) ∨
      ∃ i found junk q e q', a = .step i found junk ∧ s.procs[i]? = some q ∧ Move s q e q' ∧
        s' = { s.apply i e with procs := s.procs.set i q' } := by
  cases a with
  | call job => exact .inl ⟨job, rfl, (Option.some.inj h).symm⟩
  | step i found junk =>
    obtain ⟨q, hq, h⟩ := Option.bind_eq_some_iff.mp h
    obtain ⟨⟨e, q'⟩, hmove, rfl⟩ := Option.map_eq_some_iff.mp h
    exact .inr ⟨i, found, junk, q, e, q', rfl, hq, .of_move hmove, rfl⟩

/-! ### References -/

/-- The snapshots to which a call holds a `shared_ptr`. -/
def Phase.holds : Phase → List Snap
  | .lookingUp _ x => [x]
  | .ready _ next => [next]
  | .loaded _ cur => [cur]
  | .copied _ cur next => [cur, next]
  | .built _ cur next => next :: cur.toList
  | .stored cur => cur.toList
  | .leaving cur => cur.toList
  | _ => []

/-- The snapshot of which a call is still going to read an entry. -/
def Phase.pointsTo : Phase → Option Snap
  | .reading _ p _ => some p.snap
  | _ => none

theorem holds_start (job : Job) : job.start.holds = [] := by
  obtain ⟨call, h⟩ | ⟨schemas, h⟩ | ⟨c, -, h⟩ | h := start_cases job <;> rw [h] <;> rfl

theorem pointsTo_start (job : Job) : job.start.pointsTo = none := by
  obtain ⟨call, h⟩ | ⟨schemas, h⟩ | ⟨c, -, h⟩ | h := start_cases job <;> rw [h] <;> rfl

/-- How an effect changes what the call that has it holds. -/
def Effect.Changes (s : State) (old new : List Snap) : Effect → Prop
  | .load => new.Perm (s.current :: old)
  | .make _ => new.Perm (s.next :: old)
  | .release x => old.Perm (x :: new)
  | .store x => old.Perm (x :: new)
  | _ => new.Perm old

/-- The effect of a move is what becomes of the references of the call. -/
theorem Move.changes (h : Move s q e q') : e.Changes s q.holds q'.holds := by
  cases h with
  | copy config cur => exact .swap ..
  | _ => exact .refl _

/-- The counts are right, and no snapshot is in use that has not been made. -/
structure State.Inv (s : State) : Prop where
  accounted : RefCount.Accounted Phase.holds s.refs s.current s.procs
  current_lt : s.current < s.next
  holds_lt : ∀ q ∈ s.procs, ∀ x ∈ q.holds, x < s.next
  pointsTo_lt : ∀ q ∈ s.procs, ∀ x, q.pointsTo = some x → x < s.next

theorem next_le_apply (s : State) (i : ℕ) (e : Effect) : s.next ≤ (s.apply i e).next := by
  cases e <;> first | exact le_rfl | exact Nat.le_succ _

/-- A move lets a call point to what it pointed to before, or to what it had looked up. -/
theorem Move.pointsTo (h : Move s q e q') (hx : q'.pointsTo = some x) :
    q.pointsTo = some x ∨
      ∃ call name, q = .lookingUp call x ∧ e = .release x ∧
        find (s.maps x) call.schema = some name := by
  cases h with
  | hit call y name hname =>
    obtain rfl : y = x := Option.some.inj hx
    exact .inr ⟨call, name, rfl, rfl, hname⟩
  | read call p f f' => exact .inl hx
  | _ => exact absurd hx nofun

namespace State.Inv

variable (I : s.Inv)

include I

theorem accounted_apply (hq : s.procs[i]? = some q) (hmove : Move s q e q') :
    RefCount.Accounted Phase.holds (s.apply i e).refs (s.apply i e).current (s.procs.set i q') := by
  have hchanges := hmove.changes
  cases e with
  | load => exact I.accounted.take hq hchanges
  | make m => exact I.accounted.take hq hchanges
  | release x => exact I.accounted.drop hq hchanges
  | store x => exact I.accounted.swap hq hchanges
  | _ => exact I.accounted.keep hq hchanges

theorem holds_lt_apply (hq : q ∈ s.procs) (hmove : Move s q e q') (hx : x ∈ q'.holds) :
    x < (s.apply i e).next := by
  have hchanges := hmove.changes
  cases e with
  | load =>
    obtain rfl | hold := List.mem_cons.mp (hchanges.mem_iff.mp hx)
    · exact I.current_lt
    · exact I.holds_lt q hq x hold
  | make m =>
    obtain rfl | hold := List.mem_cons.mp (hchanges.mem_iff.mp hx)
    · exact Nat.lt_succ_self _
    · exact Nat.lt_succ_of_lt (I.holds_lt q hq x hold)
  | release y => exact I.holds_lt q hq x (hchanges.mem_iff.mpr (List.mem_cons_of_mem _ hx))
  | store y => exact I.holds_lt q hq x (hchanges.mem_iff.mpr (List.mem_cons_of_mem _ hx))
  | _ => exact I.holds_lt q hq x (hchanges.mem_iff.mp hx)

theorem current_lt_apply (hq : q ∈ s.procs) (hmove : Move s q e q') :
    (s.apply i e).current < (s.apply i e).next := by
  cases hmove with
  | store w cur next => exact I.holds_lt _ hq next (List.mem_cons_self ..)
  | build schemas => exact Nat.lt_succ_of_lt I.current_lt
  | copy config cur => exact Nat.lt_succ_of_lt I.current_lt
  | erase name cur h => exact Nat.lt_succ_of_lt I.current_lt
  | _ => exact I.current_lt

theorem pointsTo_lt_apply (hq : q ∈ s.procs) (hmove : Move s q e q') (hx : q'.pointsTo = some x) :
    x < (s.apply i e).next := by
  refine lt_of_lt_of_le ?_ (next_le_apply s i e)
  obtain hold | ⟨call, name, rfl, -, -⟩ := hmove.pointsTo hx
  · exact I.pointsTo_lt q hq x hold
  · exact I.holds_lt _ hq x (List.mem_singleton_self x)

theorem step (h : s.step routing a = some s') : s'.Inv := by
  obtain ⟨job, -, rfl⟩ | ⟨i, found, junk, q, e, q', -, hq, hmove, rfl⟩ := step_cases h
  · refine ⟨I.accounted.concat (holds_start job), I.current_lt,
      List.forall_mem_append.mpr ⟨I.holds_lt, List.forall_mem_singleton.mpr fun x hx => ?_⟩,
      List.forall_mem_append.mpr ⟨I.pointsTo_lt, List.forall_mem_singleton.mpr fun x hx => ?_⟩⟩
    · rw [holds_start] at hx
      exact absurd hx List.not_mem_nil
    · rw [pointsTo_start] at hx
      exact absurd hx nofun
  · have hmem := List.mem_of_getElem? hq
    refine ⟨I.accounted_apply hq hmove, I.current_lt_apply hmem hmove, fun p hp x hx => ?_,
      fun p hp x hx => ?_⟩
    · obtain hp | rfl := List.mem_or_eq_of_mem_set hp
      · exact lt_of_lt_of_le (I.holds_lt p hp x hx) (next_le_apply s i e)
      · exact I.holds_lt_apply hmem hmove hx
    · obtain hp | rfl := List.mem_or_eq_of_mem_set hp
      · exact lt_of_lt_of_le (I.pointsTo_lt p hp x hx) (next_le_apply s i e)
      · exact I.pointsTo_lt_apply hmem hmove hx

end State.Inv

theorem inv_init : ({} : State).Inv where
  accounted := fun _ => rfl
  current_lt := Nat.one_pos
  holds_lt := fun _ hq => absurd hq List.not_mem_nil
  pointsTo_lt := fun _ hq => absurd hq List.not_mem_nil

theorem inv_run {as : List Act} (h : Transition.run (State.step routing) {} as = some s) : s.Inv :=
  Transition.preserved_run (fun _ _ _ I h => State.Inv.step I h) inv_init h

/-- A snapshot is retired when neither `current_` nor any `shared_ptr` of a call refers to it. -/
def Retired (s : State) (x : Snap) : Prop := x ≠ s.current ∧ ∀ q ∈ s.procs, x ∉ q.holds

/-- **The counts count.** In every reachable state, a snapshot has the count zero just when it is
retired. -/
theorem refs_eq_zero_iff {as : List Act} (h : Transition.run (State.step routing) {} as = some s) :
    s.refs x = 0 ↔ Retired s x :=
  (inv_run h).accounted.refs_eq_zero_iff

/-! ### Writers

Between its load of `current_` and its store a writer has the lock, so that no other writer stores
in between: what it stores is its change of the map that is current then. -/

/-- The phases of a writer that has the lock. -/
def Phase.hasLock : Phase → Prop
  | .locked _ | .loaded _ _ | .copied _ _ _ | .built _ _ _ | .stored _ | .leaving _ => True
  | _ => False

/-- What a writer has made so far goes with the map that is current. -/
def Phase.UpToDate (s : State) : Phase → Prop
  | .ready schemas next => s.maps next = Write.apply ∅ (.load schemas)
  | .waiting c | .locked c => Removable c
  | .loaded c cur => Removable c ∧ cur = s.current
  | .copied config _ next =>
    s.maps next = Write.apply (s.maps s.current) (.change (.upsert config))
  | .built w _ next => s.maps next = w.apply (s.maps s.current)
  | _ => True

structure State.Serial (s : State) : Prop where
  lock_lt : ∀ i, s.lock = some i → i < s.procs.length
  lock_iff : ∀ (i : ℕ) (q : Phase), s.procs[i]? = some q → (q.hasLock ↔ s.lock = some i)
  upToDate : ∀ (i : ℕ) (q : Phase), s.procs[i]? = some q → q.UpToDate s

theorem not_hasLock_start (job : Job) : ¬ job.start.hasLock := by
  obtain ⟨call, h⟩ | ⟨schemas, h⟩ | ⟨c, -, h⟩ | h := start_cases job <;> rw [h] <;> exact not_false

theorem upToDate_start (job : Job) : job.start.UpToDate s := by
  obtain ⟨call, h⟩ | ⟨schemas, h⟩ | ⟨c, hc, h⟩ | h := start_cases job <;> rw [h]
  · trivial
  · trivial
  · exact hc
  · trivial

/-- The maps that there are stay as they are. -/
theorem maps_apply (s : State) (i : ℕ) (e : Effect) (hx : x < s.next) :
    (s.apply i e).maps x = s.maps x := by
  cases e with
  | make m => exact Function.update_of_ne hx.ne _ _
  | _ => rfl

/-- A call that does not move stays up to date, unless it has the lock and another one stores. -/
theorem Phase.UpToDate.apply (I : s.Inv) (hq : q ∈ s.procs) (h : q.UpToDate s)
    (hcurrent : (s.apply i e).current = s.current ∨ ¬ q.hasLock) : q.UpToDate (s.apply i e) := by
  have hmaps : ∀ x ∈ q.holds, (s.apply i e).maps x = s.maps x := fun x hx =>
    maps_apply s i e (I.holds_lt q hq x hx)
  have hmade : ∀ (w : Write), ∀ next ∈ q.holds, q.hasLock →
      s.maps next = w.apply (s.maps s.current) →
      (s.apply i e).maps next = w.apply ((s.apply i e).maps (s.apply i e).current) := by
    intro w next hmem hlock hnext
    rw [hcurrent.resolve_right (not_not.mpr hlock), maps_apply s i e I.current_lt, hmaps next hmem]
    exact hnext
  cases q with
  | ready schemas next => exact (hmaps next (List.mem_singleton_self _)).trans h
  | loaded c cur =>
    refine ⟨h.1, h.2.trans ?_⟩
    exact (hcurrent.resolve_right (not_not.mpr trivial)).symm
  | copied config cur next =>
    exact hmade _ next (List.mem_cons_of_mem _ (List.mem_singleton_self _)) trivial h
  | built w cur next => exact hmade w next (List.mem_cons_self ..) trivial h
  | _ => exact h

theorem Move.upToDate (I : s.Inv) (hq : q ∈ s.procs) (h : Move s q e q') (hold : q.UpToDate s) :
    q'.UpToDate (s.apply i e) := by
  cases h with
  | build schemas => exact Function.update_self ..
  | lockLoad schemas next hlock => exact hold
  | lock c hlock => exact hold
  | loadCurrent c => exact ⟨hold, rfl⟩
  | copy config cur =>
    obtain ⟨-, rfl⟩ := hold
    show Function.update s.maps s.next _ s.next = _
    rw [Function.update_self]
    show _ = Write.apply (Function.update s.maps s.next _ s.current) _
    rw [Function.update_of_ne I.current_lt.ne]
    rfl
  | erase name cur hmem =>
    obtain ⟨hname, rfl⟩ := hold
    show Function.update s.maps s.next _ s.next = _
    rw [Function.update_self]
    show _ = Write.apply (Function.update s.maps s.next _ s.current) _
    rw [Function.update_of_ne I.current_lt.ne, Write.apply, SchemaRegistry.remove, if_neg hname,
      if_pos hmem]
  | dropTemporary config cur next => exact hold
  | _ => trivial

theorem Move.lock_cases (h : Move s q e q') (i : ℕ) :
    (e = .lock ∧ s.lock = none ∧ q'.hasLock) ∨ (e = .unlock ∧ q.hasLock ∧ ¬ q'.hasLock) ∨
      ((s.apply i e).lock = s.lock ∧ (q'.hasLock ↔ q.hasLock)) := by
  cases h with
  | lockLoad schemas next hlock => exact .inl ⟨rfl, hlock, trivial⟩
  | lock c hlock => exact .inl ⟨rfl, hlock, trivial⟩
  | unlock => exact .inr (.inl ⟨rfl, trivial, not_false⟩)
  | _ => exact .inr (.inr ⟨rfl, Iff.rfl⟩)

theorem Move.current_eq_or_hasLock (h : Move s q e q') (i : ℕ) :
    (s.apply i e).current = s.current ∨ q.hasLock := by
  cases h with
  | store w cur next => exact .inr trivial
  | _ => exact .inl rfl

/-- The calls after a move: the one that moved, and the others as they were. -/
theorem getElem?_set_cases {j : ℕ} {p : Phase} (h : (s.procs.set i q')[j]? = some p) :
    (j = i ∧ p = q') ∨ (j ≠ i ∧ s.procs[j]? = some p) := by
  rw [List.getElem?_set] at h
  split at h
  · next hij =>
    obtain ⟨-, h⟩ := Option.ite_none_right_eq_some.mp h
    exact .inl ⟨hij.symm, (Option.some.inj h).symm⟩
  · next hij => exact .inr ⟨Ne.symm hij, h⟩

/-- The calls after one has come in. -/
theorem getElem?_concat_cases {ps : List Phase} {j : ℕ} {p : Phase}
    (h : (ps ++ [q])[j]? = some p) : ps[j]? = some p ∨ (j = ps.length ∧ p = q) := by
  obtain hlt | hle := Nat.lt_or_ge j ps.length
  · exact .inl ((List.getElem?_append_left hlt).symm.trans h)
  · rw [List.getElem?_append_right hle, List.getElem?_singleton] at h
    obtain ⟨hj, h⟩ := Option.ite_none_right_eq_some.mp h
    exact .inr ⟨by omega, (Option.some.inj h).symm⟩

namespace State.Serial

variable (S : s.Serial)

include S

theorem lock_lt_apply (hq : s.procs[i]? = some q) (hmove : Move s q e q') {j : ℕ}
    (hj : (s.apply i e).lock = some j) : j < (s.procs.set i q').length := by
  rw [List.length_set]
  obtain ⟨rfl, -, -⟩ | ⟨rfl, -, -⟩ | ⟨hsame, -⟩ := hmove.lock_cases i
  · obtain rfl : i = j := Option.some.inj hj
    exact (List.getElem?_eq_some_iff.mp hq).1
  · exact absurd hj nofun
  · exact S.lock_lt j (hsame.symm.trans hj)

theorem lock_iff_apply (hq : s.procs[i]? = some q) (hmove : Move s q e q') {j : ℕ} {p : Phase}
    (hp : (s.procs.set i q')[j]? = some p) : p.hasLock ↔ (s.apply i e).lock = some j := by
  have hlock := S.lock_iff i q hq
  obtain ⟨rfl, hnone, hhas⟩ | ⟨rfl, hhas, hnot⟩ | ⟨hsame, hhas⟩ := hmove.lock_cases i
  · obtain ⟨rfl, rfl⟩ | ⟨hne, hp⟩ := getElem?_set_cases hp
    · exact iff_of_true hhas rfl
    · refine iff_of_false (fun hother => ?_) fun h => hne (Option.some.inj h).symm
      exact absurd ((S.lock_iff j p hp).mp hother) (by rw [hnone]; nofun)
  · obtain ⟨rfl, rfl⟩ | ⟨hne, hp⟩ := getElem?_set_cases hp
    · exact iff_of_false hnot nofun
    · refine iff_of_false (fun hother => ?_) nofun
      rw [S.lock_iff j p hp, hlock.mp hhas] at hother
      exact hne (Option.some.inj hother).symm
  · rw [hsame]
    obtain ⟨rfl, rfl⟩ | ⟨hne, hp⟩ := getElem?_set_cases hp
    · exact hhas.trans hlock
    · exact S.lock_iff j p hp

theorem upToDate_apply (I : s.Inv) (hq : s.procs[i]? = some q) (hmove : Move s q e q') {j : ℕ}
    {p : Phase} (hp : (s.procs.set i q')[j]? = some p) : p.UpToDate (s.apply i e) := by
  obtain ⟨rfl, rfl⟩ | ⟨hne, hp⟩ := getElem?_set_cases hp
  · exact hmove.upToDate I (List.mem_of_getElem? hq) (S.upToDate _ q hq)
  · refine (S.upToDate j p hp).apply I (List.mem_of_getElem? hp) ?_
    refine (hmove.current_eq_or_hasLock i).imp_right fun hhas hother => hne ?_
    rw [S.lock_iff j p hp, (S.lock_iff i q hq).mp hhas] at hother
    exact (Option.some.inj hother).symm

theorem step (I : s.Inv) (h : s.step routing a = some s') : s'.Serial := by
  obtain ⟨job, -, rfl⟩ | ⟨i, found, junk, q, e, q', -, hq, hmove, rfl⟩ := step_cases h
  · refine ⟨fun j hj => ?_, fun j p hp => ?_, fun j p hp => ?_⟩
    · have hlt := S.lock_lt j hj
      rw [List.length_append]
      omega
    · obtain hp | ⟨rfl, rfl⟩ := getElem?_concat_cases hp
      · exact S.lock_iff j p hp
      · exact iff_of_false (not_hasLock_start job) fun hlock => (S.lock_lt _ hlock).ne rfl
    · obtain hp | ⟨rfl, rfl⟩ := getElem?_concat_cases hp
      · exact S.upToDate j p hp
      · exact upToDate_start job
  · exact ⟨fun j hj => S.lock_lt_apply hq hmove hj, fun j p hp => S.lock_iff_apply hq hmove hp,
      fun j p hp => S.upToDate_apply I hq hmove hp⟩

end State.Serial

theorem serial_init : ({} : State).Serial where
  lock_lt := fun _ h => absurd h nofun
  lock_iff := fun _ _ h => absurd h (by simp)
  upToDate := fun _ _ h => absurd h (by simp)

theorem serial_run {as : List Act} (h : Transition.run (State.step routing) {} as = some s) :
    s.Inv ∧ s.Serial :=
  Transition.preserved_run (I := fun s => s.Inv ∧ s.Serial)
    (fun _ _ _ ⟨I, S⟩ h => ⟨I.step h, S.step I h⟩) ⟨inv_init, serial_init⟩ h

/-- The change that an action swaps in, if it is the store of a writer. -/
def State.installs (s : State) : Act → Option Write
  | .call _ => none
  | .step i _ _ =>
    match s.procs[i]? with
    | some (.built w _ _) => some w
    | _ => none

/-- **No update is lost.** From every reachable state, a store makes of the current map what its
call makes of it when it is alone, and every other step leaves the current map as it is. -/
theorem store_run {as : List Act} (hrun : Transition.run (State.step routing) {} as = some s)
    (h : s.step routing a = some s') :
    s'.maps s'.current =
      (s.installs a).elim (s.maps s.current) (Write.apply (s.maps s.current)) := by
  obtain ⟨I, S⟩ := serial_run hrun
  obtain ⟨job, rfl, rfl⟩ | ⟨i, found, junk, q, e, q', rfl, hq, hmove, rfl⟩ := step_cases h
  · rfl
  · show (s.apply i e).maps (s.apply i e).current = _
    rw [State.installs, hq]
    cases hmove with
    | store w cur next => exact S.upToDate i _ hq
    | build schemas => exact maps_apply s i (.make _) I.current_lt
    | copy config cur => exact maps_apply s i (.make _) I.current_lt
    | erase name cur hmem => exact maps_apply s i (.make _) I.current_lt
    | _ => rfl

end DBMesh.Rcu
