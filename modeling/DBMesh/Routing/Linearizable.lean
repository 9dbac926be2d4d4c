import DBMesh.Lib.Linearization
import DBMesh.Routing.RcuRegistry

/-!
# The schema registry is linearizable

Lookups, loads and changes of the registry run beside each other, in steps that interleave in every
order. What they return is what the registry returns when it has the same calls one after the other,
in an order in which no call comes before one that had returned when it came in. A lookup takes its
turn when it loads `current_`, a writer when it stores to it, and a `remove` that finds nothing to
remove when it has looked.

What `lookup` returns is a place in a snapshot. The result here is the entry in this place, as it
was when `lookup` returned; whether the snapshot is alive when the plan reads it is another
question.

## Main definitions

* `DBMesh.Rcu.Op`, `Res`, `alone` — the calls and their results on the registry alone
* `DBMesh.Rcu.history` — the calls and returns of a run
* `DBMesh.Rcu.State.object` — the registry as an object that takes one call at a time

## Main results

* `DBMesh.Rcu.run_marked` — every step is a run of this object
* `DBMesh.Rcu.registry_linearizable` — every run is explained by a run of the calls one by one
-/

namespace DBMesh.Rcu

open DBMesh.Routing Transition

/-! ### The registry alone -/

inductive Op
  | lookup (name : SchemaName)
  | write (w : Write)

inductive Res
  | entry (config : Option SchemaConfig)
  | written

/-- One call on the registry that nothing runs beside. -/
def alone (m : SchemaMap) : Op → SchemaMap × Res
  | .lookup name => (m, .entry (SchemaRegistry.lookup { current := m } name))
  | .write w => (w.apply m, .written)

def Job.op : Job → Op
  | .plan call => .lookup call.schema
  | .write w => .write w

/-! ### What is seen of a run -/

/-- The entry in the place that `lookup` returns. -/
def foundIn (m : SchemaMap) (name : SchemaName) : Option SchemaConfig := (find m name).bind m.lookup

theorem foundIn_eq_lookup (m : SchemaMap) (name : SchemaName) :
    foundIn m name = SchemaRegistry.lookup { current := m } name := by
  rw [foundIn, find, SchemaRegistry.lookup]
  by_cases hname : name ∈ m
  · obtain ⟨config, hconfig⟩ := Option.isSome_iff_exists.mp (AList.lookup_isSome.mpr hname)
    rw [if_pos hname, Option.bind_some, hconfig]
  · rw [if_neg hname, AList.lookup_eq_none.mpr hname]
    by_cases hdefault : defaultSchema ∈ m
    · rw [if_pos hdefault]
      rfl
    · rw [if_neg hdefault]
      exact (AList.lookup_eq_none.mpr hdefault).symm

/-- The return of a call. A `remove` of the default entry returns as it comes in. -/
def Phase.returns (s : State) : Phase → Option Res
  | .lookingUp call x => some (.entry (foundIn (s.maps x) call.schema))
  | .leaving none => some .written
  | _ => none

def State.events (s : State) : Act → List (Atomic.Event ℕ Op Res)
  | .call job =>
    .call s.procs.length job.op ::
      match job.start with
      | .done => [.ret s.procs.length .written]
      | _ => []
  | .step i _ _ => ((s.procs[i]?.bind (Phase.returns s)).map (Atomic.Event.ret i)).toList

/-- The calls and returns of a run. -/
def history (routing : RoutingConfig) (as : List Act) : List (Atomic.Event ℕ Op Res) :=
  trace (State.step routing) State.events {} as

/-! ### Linearization points -/

/-- The step with which a call takes its turn. -/
def Phase.takes (s : State) : Phase → Option (Op × Res)
  | .planning call =>
    some (.lookup call.schema, .entry (foundIn (s.maps s.current) call.schema))
  | .built w _ _ => some (.write w, .written)
  | .loaded (.remove name) cur =>
    if name ∈ s.maps cur then none else some (.write (.change (.remove name)), .written)
  | _ => none

/-- The events of a step with the turns taken. -/
def State.marked (s : State) : Act → List (Atomic.Event ℕ Op Res)
  | .call job =>
    .call s.procs.length job.op ::
      match job.start with
      | .done => [.point s.procs.length job.op .written, .ret s.procs.length .written]
      | _ => []
  | .step i b junk =>
    ((s.procs[i]?.bind (Phase.takes s)).map fun x => .point i x.1 x.2).toList ++
      s.events (.step i b junk)

/-- How far a call has come on the object. -/
def Phase.status (s : State) : Phase → Atomic.Status Op Res
  | .planning call => .called (.lookup call.schema)
  | .lookingUp call x => .taken (.entry (foundIn (s.maps x) call.schema))
  | .reading _ _ _ => .returned
  | .building schemas | .ready schemas _ => .called (.write (.load schemas))
  | .waiting c | .locked c | .loaded c _ => .called (.write (.change c))
  | .copied config _ _ => .called (.write (.change (.upsert config)))
  | .built w _ _ => .called (.write w)
  | .stored _ | .leaving _ => .taken .written
  | .done => .returned

/-- The registry as an object that takes one call at a time. -/
def State.object (s : State) : Atomic.Object SchemaMap ℕ Op Res where
  obj := s.maps s.current
  status := Atomic.statuses (Phase.status s) s.procs

variable {routing : RoutingConfig} {s s' : State} {a : Act} {i : ℕ} {q q' : Phase} {e : Effect}

theorem filter_marked (s : State) (a : Act) :
    (s.marked a).filter Atomic.Event.visible = s.events a := by
  cases a with
  | call job =>
    rw [State.marked, State.events]
    cases job.start <;> rfl
  | step i b junk =>
    rw [State.marked, List.filter_append]
    have hpoint : (((s.procs[i]?.bind (Phase.takes s)).map fun x =>
        (.point i x.1 x.2 : Atomic.Event ℕ Op Res)).toList).filter Atomic.Event.visible = [] := by
      cases s.procs[i]?.bind (Phase.takes s) <;> rfl
    have hret : (s.events (.step i b junk)).filter Atomic.Event.visible =
        s.events (.step i b junk) := by
      rw [State.events]
      cases s.procs[i]?.bind (Phase.returns s) <;> rfl
    rw [hpoint, hret, List.nil_append]

/-! ### Every step is a run of the object -/

/-- A call that does not move stands as it stood. -/
theorem status_apply (I : s.Inv) (hq : q ∈ s.procs) (i : ℕ) (e : Effect) :
    q.status (s.apply i e) = q.status s := by
  cases q with
  | lookingUp call x =>
    have hmaps : (s.apply i e).maps x = s.maps x :=
      maps_apply s i e (I.holds_lt _ hq x (List.mem_singleton_self x))
    rw [Phase.status, hmaps]
    rfl
  | _ => rfl

/-- The object after a move: what the move made of the current map, and of the call that moved. -/
theorem object_move (I : s.Inv) (hq : s.procs[i]? = some q) (e : Effect) :
    State.object { s.apply i e with procs := s.procs.set i q' } =
      ⟨(s.apply i e).maps (s.apply i e).current,
        Function.update s.object.status i (q'.status (s.apply i e))⟩ :=
  congrArg (Atomic.Object.mk _) (Atomic.statuses_set hq fun _ hp => status_apply I hp i e)

theorem status_of (hq : s.procs[i]? = some q) : s.object.status i = q.status s :=
  Atomic.statuses_of hq

theorem object_of_same (I : s.Inv) (hq : s.procs[i]? = some q)
    (hobj : (s.apply i e).maps (s.apply i e).current = s.maps s.current)
    (hstatus : q'.status (s.apply i e) = q.status s) :
    State.object { s.apply i e with procs := s.procs.set i q' } = s.object := by
  rw [object_move I hq, hobj, hstatus, ← status_of hq, Function.update_eq_self]
  rfl

theorem object_call (s : State) (q : Phase) :
    State.object { s with procs := s.procs ++ [q] } =
      { s.object with
        status := Function.update s.object.status s.procs.length (q.status s) } :=
  congrArg (Atomic.Object.mk _) (Atomic.statuses_concat _ s.procs q)

theorem status_length (s : State) : s.object.status s.procs.length = .idle :=
  Atomic.statuses_length _ s.procs

/-- The default entry stays where it is. -/
theorem alone_of_start_done {job : Job} (h : job.start = .done) (m : SchemaMap) :
    alone m job.op = (m, .written) := by
  rcases job with call | (schemas | (config | name))
  · cases h
  · cases h
  · cases h
  · have hname : name = defaultSchema := by
      by_contra hne
      rw [Job.start, if_neg hne] at h
      cases h
    rw [Job.op, alone, Write.apply, SchemaRegistry.remove, if_pos hname]

theorem status_start {job : Job} (h : job.start ≠ .done) :
    job.start.status s = .called job.op := by
  rcases job with call | (schemas | (config | name))
  · rfl
  · rfl
  · rfl
  · have hname : name ≠ defaultSchema := by
      rintro rfl
      exact h (by rw [Job.start, if_pos rfl])
    rw [Job.start, if_neg hname]
    rfl

theorem run_marked_call (s : State) (job : Job) :
    run (Atomic.step alone) s.object (s.marked (.call job)) =
      some (State.object { s with procs := s.procs ++ [job.start] }) := by
  rw [object_call]
  have hcall : Atomic.step alone s.object (.call s.procs.length job.op) =
      some { s.object with
        status := Function.update s.object.status s.procs.length (.called job.op) } :=
    Atomic.step_call.mpr ⟨status_length s, rfl⟩
  rw [State.marked, run_cons, hcall, Option.bind_some]
  by_cases hdone : job.start = .done
  · rw [hdone]
    refine run_cons_eq_some.mpr ⟨_, Atomic.step_point.mpr ⟨⟨Function.update_self .., ?_⟩, rfl⟩, ?_⟩
    · rw [alone_of_start_done hdone]
    · rw [run_singleton, Atomic.step_ret]
      refine ⟨Function.update_self .., ?_⟩
      simp only [alone_of_start_done hdone, Function.update_idem]
      rfl
  · rw [status_start hdone]
    cases hstart : job.start with
    | done => exact absurd hstart hdone
    | _ => rfl

/-- A move that nobody sees and that takes no turn. -/
theorem run_marked_silent {b : Bool} {junk : SchemaConfig} (I : s.Inv)
    (hq : s.procs[i]? = some q) (htakes : q.takes s = none) (hreturns : q.returns s = none)
    (hobj : (s.apply i e).maps (s.apply i e).current = s.maps s.current)
    (hstatus : q'.status (s.apply i e) = q.status s) :
    run (Atomic.step alone) s.object (s.marked (.step i b junk)) =
      some (State.object { s.apply i e with procs := s.procs.set i q' }) := by
  rw [object_of_same I hq hobj hstatus, State.marked, State.events, hq, Option.bind_some,
    Option.bind_some, htakes, hreturns]
  rfl

/-- A move with which a call takes its turn. -/
theorem run_marked_point {b : Bool} {junk : SchemaConfig} {o : Op} {r : Res} (I : s.Inv)
    (hq : s.procs[i]? = some q) (htakes : q.takes s = some (o, r)) (hreturns : q.returns s = none)
    (hcalled : q.status s = .called o)
    (hobj : alone (s.maps s.current) o = ((s.apply i e).maps (s.apply i e).current, r))
    (htaken : q'.status (s.apply i e) = .taken r) :
    run (Atomic.step alone) s.object (s.marked (.step i b junk)) =
      some (State.object { s.apply i e with procs := s.procs.set i q' }) := by
  have hobj' : alone s.object.obj o = ((s.apply i e).maps (s.apply i e).current, r) := hobj
  rw [object_move I hq, htaken, State.marked, State.events, hq, Option.bind_some,
    Option.bind_some, htakes, hreturns]
  refine (run_singleton _ _).trans (Atomic.step_point.mpr ⟨⟨?_, ?_⟩, ?_⟩)
  · rw [status_of hq, hcalled]
  · rw [hobj']
  · rw [hobj']

/-- A move with which a call returns. -/
theorem run_marked_ret {b : Bool} {junk : SchemaConfig} {r : Res} (I : s.Inv)
    (hq : s.procs[i]? = some q) (htakes : q.takes s = none) (hreturns : q.returns s = some r)
    (htaken : q.status s = .taken r)
    (hobj : (s.apply i e).maps (s.apply i e).current = s.maps s.current)
    (hreturned : q'.status (s.apply i e) = .returned) :
    run (Atomic.step alone) s.object (s.marked (.step i b junk)) =
      some (State.object { s.apply i e with procs := s.procs.set i q' }) := by
  rw [object_move I hq, hreturned, hobj, State.marked, State.events, hq, Option.bind_some,
    Option.bind_some, htakes, hreturns]
  refine (run_singleton _ _).trans (Atomic.step_ret.mpr ⟨?_, rfl⟩)
  rw [status_of hq, htaken]

/-- Every move is a run of the object: none or one of its steps. -/
theorem run_marked_move {b : Bool} {junk : SchemaConfig} (I : s.Inv) (S : s.Serial)
    (hq : s.procs[i]? = some q) (h : q.move routing s b junk = some (e, q')) :
    run (Atomic.step alone) s.object (s.marked (.step i b junk)) =
      some (State.object { s.apply i e with procs := s.procs.set i q' }) := by
  have hdate := S.upToDate i q hq
  have hmem := List.mem_of_getElem? hq
  cases Move.of_move h with
  | load call =>
    refine run_marked_point I hq rfl rfl rfl ?_ rfl
    rw [foundIn_eq_lookup]
    rfl
  | hit call x name hname => exact run_marked_ret I hq rfl rfl rfl rfl rfl
  | miss call x hname => exact run_marked_ret I hq rfl rfl rfl rfl rfl
  | read call p f f' => exact run_marked_silent I hq rfl rfl rfl rfl
  | readLast call p f => exact run_marked_silent I hq rfl rfl rfl rfl
  | build schemas =>
    exact run_marked_silent I hq rfl rfl (maps_apply s i (.make _) I.current_lt) rfl
  | lockLoad schemas next hlock => exact run_marked_silent I hq rfl rfl rfl rfl
  | lock c hlock => exact run_marked_silent I hq (by cases c <;> rfl) rfl rfl rfl
  | loadCurrent c => exact run_marked_silent I hq rfl rfl rfl rfl
  | copy config cur =>
    exact run_marked_silent I hq rfl rfl (maps_apply s i (.make _) I.current_lt) rfl
  | erase name cur hname =>
    exact run_marked_silent I hq (if_pos hname) rfl (maps_apply s i (.make _) I.current_lt) rfl
  | absent name cur =>
    obtain ⟨hremovable, rfl⟩ := hdate
    have hname : name ∉ s.maps s.current := by
      intro hname
      rw [Phase.move, if_pos hname] at h
      cases h
    refine run_marked_point I hq (if_neg hname) rfl rfl ?_ rfl
    rw [alone, Write.apply, SchemaRegistry.remove, if_neg hremovable, if_neg hname]
    rfl
  | dropTemporary config cur next => exact run_marked_silent I hq rfl rfl rfl rfl
  | store w cur next =>
    refine run_marked_point I hq rfl rfl rfl ?_ rfl
    exact congrArg (·, Res.written) hdate.symm
  | bump cur => exact run_marked_silent I hq rfl (by cases cur <;> rfl) rfl rfl
  | dropCurrent cur => exact run_marked_silent I hq rfl rfl rfl rfl
  | unlock => exact run_marked_ret I hq rfl rfl rfl rfl rfl

/-- **Every step is a run of the object**: a call comes in, takes its turn, returns, or none of
these. -/
theorem run_marked (I : s.Inv) (S : s.Serial) (h : s.step routing a = some s') :
    run (Atomic.step alone) s.object (s.marked a) = some s'.object := by
  cases a with
  | call job =>
    obtain rfl := Option.some.inj h
    exact run_marked_call s job
  | step i b junk =>
    obtain ⟨q, hq, h⟩ := Option.bind_eq_some_iff.mp h
    obtain ⟨⟨e, q'⟩, hmove, rfl⟩ := Option.map_eq_some_iff.mp h
    exact run_marked_move I S hq hmove

/-- **The schema registry is linearizable.** In every run, whatever lookups, loads and changes come
in and however their steps interleave, some list of the calls, one after the other on the registry
alone, gives the results that they returned and the map that is current: each call that has returned
is in it, once, and a call that had returned when another came in stands before it. -/
theorem registry_linearizable (routing : RoutingConfig) (as : List Act) (s : State)
    (hrun : run (State.step routing) {} as = some s) :
    ∃ lin, Atomic.Linearizes alone ∅ (history routing as) lin (s.maps s.current) := by
  have hkeep : ∀ (s : State) (a : Act) (s' : State), s.Inv ∧ s.Serial →
      s.step routing a = some s' → s'.Inv ∧ s'.Serial :=
    fun _ _ _ h hs => ⟨h.1.step hs, h.2.step h.1 hs⟩
  have hinit : ({} : State).Inv ∧ ({} : State).Serial := ⟨inv_init, serial_init⟩
  have hstart : ({} : State).object = Atomic.start ∅ := rfl
  have htrace := run_trace hkeep (fun _ _ _ h hs => run_marked h.1 h.2 hs) hinit hrun
  rw [hstart] at htrace
  have hlin := Atomic.linearizes_of_run htrace
  have hhist : Atomic.history (trace (State.step routing) State.marked {} as) =
      history routing as := filter_trace filter_marked as {}
  rw [hhist] at hlin
  exact ⟨_, hlin⟩

/-- A plan that has loaded the empty map looks its schema up after a load has stored another one. -/
def lookupBesideLoad : List Act :=
  let config : SchemaConfig := { name := defaultSchema, backendGroup := "prod" }
  [.call (.write (.load [config])), .call (.plan {}), .step 0 true config, .step 0 true config,
    .step 1 true config, .step 0 true config, .step 0 true config, .step 0 true config,
    .step 1 true config]

/-- The load has returned first and comes second. -/
theorem registry_linearizable_beside_load : ∃ s lin,
    run (State.step {}) {} lookupBesideLoad = some s ∧
      Atomic.Linearizes alone ∅ (history {} lookupBesideLoad) lin (s.maps s.current) ∧
      ∃ o, ⟨1, o, .entry none⟩ ∈ lin := by
  obtain ⟨s, hs⟩ : ∃ s, run (State.step {}) {} lookupBesideLoad = some s := ⟨_, rfl⟩
  obtain ⟨lin, hlin⟩ := registry_linearizable {} lookupBesideLoad s hs
  refine ⟨s, lin, hs, hlin, hlin.complete 1 (.entry none) ?_⟩
  have hret : (history {} lookupBesideLoad).getLast? = some (.ret 1 (.entry none)) := rfl
  exact List.mem_of_getLast? hret

end DBMesh.Rcu
