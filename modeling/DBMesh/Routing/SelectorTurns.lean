import DBMesh.Lib.Linearization
import DBMesh.Routing.Selecting

/-!
# Selections beside each other

While nothing writes to the registry, `select` is linearizable: whatever selections run beside each
other, their answers are those of the same selections one after the other, in an order in which none
comes before one that had returned when it came in. A selection takes its turn when it draws from
the counter of its policy, and when it returns if it draws from none. So no draw is lost and none is
given twice, and the loops over the entries compute what `BackendSelector.select` does in one piece.

An update that nothing runs beside is the operation of the registry.

## Main definitions

* `DBMesh.Selecting.State.turn` — one step of a system in which only selections come in
* `DBMesh.Selecting.alone` — a selection that nothing runs beside
* `DBMesh.Selecting.history` — the calls and returns of a run

## Main results

* `DBMesh.Selecting.Phase.Right.move` — what the loops have computed so far
* `DBMesh.Selecting.selections_linearizable` — every run is explained by the calls one by one
-/

namespace DBMesh.Selecting

open DBMesh.Routing Transition

abbrev Answer := Except RoutingError BackendID

inductive Turn
  | select (call : Call)
  | step (i : ℕ)

def Turn.act : Turn → Act
  | select call => .select call
  | step i => .step i

def State.turn (s : State) (t : Turn) : Option State := s.step t.act

def alone (reg : BackendRegistry) (selector : BackendSelector) (call : Call) :
    BackendSelector × Answer :=
  (selector.select reg call.schema call.role call.ctx call.draw).swap

/-! ### Calls and returns -/

def Phase.result : Phase → Option (Call × Answer)
  | selected call result => some (call, result)
  | _ => none

/-- The answer with which the next step of the call `i` ends it. -/
def State.ends (s : State) (i : ℕ) : Option (Call × Answer) :=
  (s.procs[i]?.bind (Phase.move s.toShared)).bind fun y => y.2.result

def State.events (s : State) : Turn → List (Atomic.Event ℕ Call Answer)
  | .select call => [.call s.procs.length call]
  | .step i => (s.ends i).elim [] fun x => [.ret i x.2]

/-- The calls and returns of a run. -/
def history (s : State) (as : List Turn) : List (Atomic.Event ℕ Call Answer) :=
  trace State.turn State.events s as

/-- The events with the turns: each is taken with the last step of its call. -/
def State.marked (s : State) : Turn → List (Atomic.Event ℕ Call Answer)
  | .select call => [.call s.procs.length call]
  | .step i => (s.ends i).elim [] fun x => [.point i x.1 x.2, .ret i x.2]

def Phase.status : Phase → Atomic.Status Call Answer
  | loading call _ | matching call _ _ _ | filtering call _ _ _ | lagging call _ _ _ _
  | choosing call _ | probing call _ _ => .called call
  | selected _ _ | updating _ | writing _ _ | bumping | done => .returned

/-- The selector as an object that takes one call at a time. -/
def State.object (s : State) : Atomic.Object BackendSelector ℕ Call Answer where
  obj := s.selector
  status := Atomic.statuses Phase.status s.procs

theorem filter_marked (s : State) (t : Turn) :
    (s.marked t).filter Atomic.Event.visible = s.events t := by
  cases t with
  | select call => rfl
  | step i =>
    rw [State.marked, State.events]
    cases s.ends i <;> rfl

/-! ### What the loops compute -/

/-- The test of `filter`. -/
def passes (config : RoutingConfig) (reg : BackendRegistry) (role : BackendRole) (r : Ref) : Bool :=
  usableForRole (reg.heap r).state role &&
    !(role = .replica && config.replicationAware &&
      config.maxReplicaLagMs < (reg.heap r).replicationLagMs)

def usableRefs (config : RoutingConfig) (reg : BackendRegistry) (group : String)
    (role : BackendRole) : List Ref :=
  (reg.getGroupByRole group role).filter (passes config reg role)

theorem map_usableRefs (s : BackendSelector) (reg : BackendRegistry) (group : String)
    (role : BackendRole) :
    (usableRefs s.defaults reg group role).map reg.heap = s.usable reg group role := by
  rw [usableRefs, BackendSelector.usable, filter, List.filter_map]
  rfl

/-- The role of a pass: the one that was asked for, or the primary where no replica is usable. -/
def Passing (config : RoutingConfig) (reg : BackendRegistry) (call : Call) (role : BackendRole) :
    Prop :=
  role = call.role ∨ (role = .primary ∧ call.role = .replica ∧
    usableRefs config reg call.schema.backendGroup .replica = [])

/-- The candidates have been found. -/
def Found (s : BackendSelector) (reg : BackendRegistry) (call : Call) (kept : List Ref) : Prop :=
  kept ≠ [] ∧ kept.map reg.heap = s.candidates reg call.schema.backendGroup call.role

/-- A candidate that `FailoverPolicy` takes. -/
def isUp (e : BackendEntry) : Bool := e.state ≠ .failed ∧ e.state ≠ .draining

/-- What the loops of a call have computed so far. -/
def Phase.Right (s : BackendSelector) (reg : BackendRegistry) : Phase → Prop
  | loading call role => Passing s.defaults reg call role
  | matching call role todo found => Passing s.defaults reg call role ∧
      found ++ todo.filter (fun r => (reg.heap r).role = role) =
        reg.getGroupByRole call.schema.backendGroup role
  | filtering call role todo kept => Passing s.defaults reg call role ∧
      kept ++ todo.filter (passes s.defaults reg role) =
        usableRefs s.defaults reg call.schema.backendGroup role
  | lagging call role r todo kept =>
      (role = .replica ∧ s.defaults.replicationAware = true) ∧
      usableForRole (reg.heap r).state role = true ∧ Passing s.defaults reg call role ∧
      kept ++ (r :: todo).filter (passes s.defaults reg role) =
        usableRefs s.defaults reg call.schema.backendGroup role
  | choosing call kept => Found s reg call kept
  | probing call todo kept => s.policyOf call.schema = .failover ∧ Found s reg call kept ∧
      (kept.map reg.heap).find? isUp = (todo.map reg.heap).find? isUp
  | selected _ _ => True
  | updating _ | writing _ _ | bumping | done => False

section

variable {s s' : BackendSelector} {reg : BackendRegistry} {call : Call} {role : BackendRole}
  {kept : List Ref} {q q' : Phase} {x y : Shared}

/-- Only the counters of a selector change. -/
theorem Phase.Right.congr (R : q.Right s reg) (h : s'.defaults = s.defaults) :
    q.Right s' reg := by
  obtain ⟨defaults, counters⟩ := s
  obtain ⟨defaults', counters'⟩ := s'
  obtain rfl : defaults' = defaults := h
  exact R

/-- What a pass has kept at its end are the candidates, unless it falls back. -/
theorem map_kept (P : Passing s.defaults reg call role)
    (hkept : kept = usableRefs s.defaults reg call.schema.backendGroup role)
    (hend : kept ≠ [] ∨ role = .primary) :
    kept.map reg.heap = s.candidates reg call.schema.backendGroup call.role := by
  subst hkept
  rw [map_usableRefs, BackendSelector.candidates]
  obtain rfl | ⟨rfl, hcall, hnone⟩ := P
  · refine (if_neg fun hback => ?_).symm
    obtain ⟨hnone, hrole⟩ := hback
    rw [← map_usableRefs, List.map_eq_nil_iff] at hnone
    rw [hrole] at hend hnone
    exact hend.elim (fun hne => hne hnone) fun h => by cases h
  · refine (if_pos ⟨?_, hcall⟩).symm
    rw [hcall, ← map_usableRefs, hnone]
    rfl

theorem alone_of_nil (h : s.candidates reg call.schema.backendGroup call.role = []) :
    alone reg s call = (s, .error .noBackendAvailable) := by
  rw [alone, BackendSelector.select, if_pos h]
  rfl

theorem alone_of_found (F : Found s reg call kept) {p : RoutingPolicy}
    (hp : s.policyOf call.schema = p) {chosen : BackendID × UInt64}
    (hchosen : createPolicy p (kept.map reg.heap) call.ctx call.draw (s.counters p) = chosen) :
    alone reg s call =
      ({ s with counters := Function.update s.counters p chosen.2 }, answer chosen.1) := by
  obtain ⟨hkept, hmap⟩ := F
  have hne : s.candidates reg call.schema.backendGroup call.role ≠ [] := by
    rw [← hmap]
    simpa using hkept
  subst hp
  rw [alone, BackendSelector.select, if_neg hne]
  dsimp only
  rw [← hmap, hchosen, answer]
  split <;> rfl

/-- `FailoverPolicy` has no counter. -/
theorem alone_of_failover (F : Found s reg call kept)
    (hp : s.policyOf call.schema = .failover) :
    alone reg s call = (s, answer (((kept.map reg.heap).find? isUp).elim
      (idAt (kept.map reg.heap) 0) (·.id))) := by
  have hchosen : createPolicy .failover (kept.map reg.heap) call.ctx call.draw
      (s.counters .failover) = (((kept.map reg.heap).find? isUp).elim
        (idAt (kept.map reg.heap) 0) (·.id), s.counters .failover) := by
    have hne : kept.map reg.heap ≠ [] := by simpa using F.1
    have hup : (fun e : BackendEntry => decide (e.state ≠ .failed ∧ e.state ≠ .draining)) = isUp :=
      rfl
    rw [createPolicy, failoverPolicy, if_neg hne, hup]
    cases (kept.map reg.heap).find? isUp <;> rfl
  rw [alone_of_found F hp hchosen, Function.update_eq_self]

theorem filter_cons_concat {p : Ref → Bool} {r : Ref} (kept todo : List Ref) :
    kept ++ (r :: todo).filter p = (if p r = true then kept ++ [r] else kept) ++ todo.filter p := by
  rw [List.filter_cons]
  split
  · rw [List.append_assoc]
    rfl
  · rfl

/-- With a fit state it is the lag that counts. -/
theorem passes_of_state {config : RoutingConfig} {r : Ref}
    (hstate : usableForRole (reg.heap r).state role = true) :
    passes config reg role r = true ↔ ¬ ((role = .replica ∧ config.replicationAware = true) ∧
      config.maxReplicaLagMs < (reg.heap r).replicationLagMs) := by
  rw [passes, hstate, Bool.true_and, Bool.not_eq_true', Bool.and_eq_false_iff,
    Bool.and_eq_false_iff, decide_eq_false_iff_not, decide_eq_false_iff_not,
    Bool.eq_false_iff, not_and_or, not_and_or]

/-- **One step of a selection.** The loops compute what `select` does, the selector stays as it is,
and the last step is the whole selection. -/
theorem Phase.Right.move (R : q.Right x.selector x.reg) (hmove : Move x q y q') :
    y.reg = x.reg ∧ q'.Right x.selector x.reg ∧
      ((q'.result = none ∧ y.selector = x.selector ∧ q'.status = q.status) ∨
        ∃ call result, q' = .selected call result ∧ q.status = .called call ∧
          alone x.reg x.selector call = (y.selector, result)) := by
  cases hmove with
  | find u r => exact R.elim
  | absent u => exact R.elim
  | write u r => exact R.elim
  | bump => exact R.elim
  | load call role => exact ⟨rfl, ⟨R, rfl⟩, .inl ⟨rfl, rfl, rfl⟩⟩
  | hasRole call role r todo found hrole =>
    refine ⟨rfl, ⟨R.1, ?_⟩, .inl ⟨rfl, rfl, rfl⟩⟩
    rw [← R.2, filter_cons_concat, if_pos (decide_eq_true hrole)]
  | otherRole call role r todo found hrole =>
    refine ⟨rfl, ⟨R.1, ?_⟩, .inl ⟨rfl, rfl, rfl⟩⟩
    rw [← R.2, filter_cons_concat, if_neg (by simpa using hrole)]
  | matched call role found =>
    obtain ⟨P, hfound⟩ := R
    rw [List.filter_nil, List.append_nil] at hfound
    refine ⟨rfl, ⟨P, ?_⟩, .inl ⟨rfl, rfl, rfl⟩⟩
    rw [hfound, List.nil_append, usableRefs]
  | unusable call role r todo kept hstate =>
    refine ⟨rfl, ⟨R.1, ?_⟩, .inl ⟨rfl, rfl, rfl⟩⟩
    have hout : ¬ passes x.selector.defaults x.reg role r = true :=
      fun h => hstate (Bool.and_eq_true_iff.mp h).1
    rw [← R.2, filter_cons_concat, if_neg hout]
  | usable call role r todo kept hstate hlag =>
    refine ⟨rfl, ⟨R.1, ?_⟩, .inl ⟨rfl, rfl, rfl⟩⟩
    have hin := (passes_of_state hstate).mpr fun h => hlag h.1
    rw [← R.2, filter_cons_concat, if_pos hin]
  | upToLag call role r todo kept hstate hlag =>
    exact ⟨rfl, ⟨hlag, hstate, R⟩, .inl ⟨rfl, rfl, rfl⟩⟩
  | behind call role r todo kept hlag =>
    obtain ⟨hcounts, hstate, P, hkept⟩ := R
    refine ⟨rfl, ⟨P, ?_⟩, .inl ⟨rfl, rfl, rfl⟩⟩
    have hout := (passes_of_state hstate).not.mpr (not_not.mpr ⟨hcounts, hlag⟩)
    rw [← hkept, filter_cons_concat, if_neg hout]
  | inTime call role r todo kept hlag =>
    obtain ⟨-, hstate, P, hkept⟩ := R
    refine ⟨rfl, ⟨P, ?_⟩, .inl ⟨rfl, rfl, rfl⟩⟩
    have hin := (passes_of_state hstate).mpr fun h => hlag h.2
    rw [← hkept, filter_cons_concat, if_pos hin]
  | fallBack call =>
    obtain ⟨P, hkept⟩ := R
    refine ⟨rfl, .inr ⟨rfl, ?_, hkept.symm⟩, .inl ⟨rfl, rfl, rfl⟩⟩
    obtain hrole | ⟨hrole, -⟩ := P
    · exact hrole.symm
    · cases hrole
  | refuse call =>
    obtain ⟨P, hkept⟩ := R
    refine ⟨rfl, trivial, .inr ⟨call, _, rfl, rfl, ?_⟩⟩
    exact alone_of_nil (map_kept P hkept (.inr rfl)).symm
  | filtered call role kept hne =>
    obtain ⟨P, hkept⟩ := R
    rw [List.filter_nil, List.append_nil] at hkept
    exact ⟨rfl, ⟨hne, map_kept P hkept (.inl hne)⟩, .inl ⟨rfl, rfl, rfl⟩⟩
  | choose call kept p hp hfailover chosen hchosen =>
    exact ⟨rfl, trivial, .inr ⟨call, _, rfl, rfl, alone_of_found R hp hchosen⟩⟩
  | probe call kept hp => exact ⟨rfl, ⟨hp, R, rfl⟩, .inl ⟨rfl, rfl, rfl⟩⟩
  | up call r todo kept hup =>
    obtain ⟨hp, F, hfind⟩ := R
    refine ⟨rfl, trivial, .inr ⟨call, _, rfl, rfl, ?_⟩⟩
    have hfirst : ((r :: todo).map x.reg.heap).find? isUp = some (x.reg.heap r) :=
      List.find?_cons_of_pos (decide_eq_true hup)
    rw [alone_of_failover F hp, hfind, hfirst]
    rfl
  | down call r todo kept hdown =>
    obtain ⟨hp, F, hfind⟩ := R
    refine ⟨rfl, ⟨hp, F, hfind.trans ?_⟩, .inl ⟨rfl, rfl, rfl⟩⟩
    exact List.find?_cons_of_neg (by simpa [isUp] using hdown)
  | allDown call kept =>
    obtain ⟨hp, F, hfind⟩ := R
    refine ⟨rfl, trivial, .inr ⟨call, _, rfl, rfl, ?_⟩⟩
    rw [alone_of_failover F hp, hfind]
    rfl

end

/-! ### Every step is a run of the object -/

structure Quiet (reg : BackendRegistry) (s : State) : Prop where
  reg : s.reg = reg
  right : ∀ q ∈ s.procs, q.Right s.selector s.reg

variable {reg : BackendRegistry} {s s' : State} {t : Turn}

/-- **Every step is a run of the object**: a call comes in, takes its turn and returns, or none of
these. -/
theorem Quiet.turn (Q : Quiet reg s) (hs : s.turn t = some s') :
    Quiet reg s' ∧ run (Atomic.step (alone reg)) s.object (s.marked t) = some s'.object := by
  obtain ⟨rfl, hright⟩ := Q
  cases t with
  | select call =>
    obtain rfl := Option.some.inj hs
    refine ⟨⟨rfl, fun q hq => ?_⟩, ?_⟩
    · obtain hq | hq := List.mem_append.mp hq
      · exact hright q hq
      · obtain rfl := List.mem_singleton.mp hq
        exact .inl rfl
    · refine (run_singleton _ _).trans (Atomic.step_call.mpr ⟨?_, ?_⟩)
      · exact Atomic.statuses_length _ s.procs
      · exact congrArg (Atomic.Object.mk _) (Atomic.statuses_concat _ s.procs _)
  | step i =>
    obtain ⟨q, hq, hs⟩ := Option.bind_eq_some_iff.mp hs
    obtain ⟨⟨y, q'⟩, hmove, rfl⟩ := Option.map_eq_some_iff.mp hs
    have hends : s.ends i = q'.result := by
      rw [State.ends, hq, Option.bind_some, hmove, Option.bind_some]
    obtain ⟨hreg, hright', hcase⟩ :=
      (hright q (List.mem_of_getElem? hq)).move (Move.of_move hmove)
    have hdefaults := (Move.of_move hmove).defaults
    have hobject : State.object { toShared := y, procs := s.procs.set i q' } =
        ⟨y.selector, Function.update s.object.status i q'.status⟩ :=
      congrArg (Atomic.Object.mk _) (Atomic.statuses_set hq fun _ _ => rfl)
    have hstatus : s.object.status i = q.status := Atomic.statuses_of hq
    refine ⟨⟨hreg, fun p hp => ?_⟩, ?_⟩
    · show p.Right y.selector y.reg
      rw [hreg]
      obtain hp | rfl := List.mem_or_eq_of_mem_set hp
      · exact (hright p hp).congr hdefaults
      · exact hright'.congr hdefaults
    · rw [hobject, State.marked, hends]
      obtain ⟨hsilent, hselector, hsame⟩ | ⟨call, result, rfl, hcalled, halone⟩ := hcase
      · rw [hsilent, hselector, hsame, ← hstatus, Function.update_eq_self]
        rfl
      · have hobj : alone s.reg s.object.obj call = (y.selector, result) := halone
        refine run_cons_eq_some.mpr
          ⟨_, Atomic.step_point.mpr ⟨⟨hstatus.trans hcalled, ?_⟩, rfl⟩, ?_⟩
        · rw [hobj]
        · refine (run_singleton _ _).trans (Atomic.step_ret.mpr ⟨Function.update_self .., ?_⟩)
          simp only [hobj, Function.update_idem]
          rfl

/-- **Selections are linearizable** while nothing writes to the registry. In every run, whatever
selections come in and however their steps interleave, some list of them, one after the other,
gives the answers that they returned and the counters that are left. -/
theorem selections_linearizable (reg : BackendRegistry) (selector : BackendSelector)
    (as : List Turn) (s : State) (hrun : run State.turn (start reg selector) as = some s) :
    ∃ lin, Atomic.Linearizes (alone reg) selector (history (start reg selector) as) lin
      s.selector := by
  have hinit : Quiet reg (start reg selector) := ⟨rfl, fun q hq => absurd hq List.not_mem_nil⟩
  have hstart : (start reg selector).object = Atomic.start selector := rfl
  have htrace := run_trace (fun _ _ _ Q hs => (Quiet.turn Q hs).1)
    (fun _ _ _ Q hs => (Quiet.turn Q hs).2) hinit hrun
  rw [hstart] at htrace
  have hlin := Atomic.linearizes_of_run htrace
  have hhist : Atomic.history (trace State.turn State.marked (start reg selector) as) =
      history (start reg selector) as := filter_trace filter_marked as (start reg selector)
  rw [hhist] at hlin
  exact ⟨_, hlin⟩

def twoPrimaries : BackendRegistry :=
  BackendRegistry.load {} [{ id := "a", group := "g" }, { id := "b", group := "g" }] ["a", "b"]

/-- Two writes go round two primaries; the one that came in first is the last to draw. -/
def overtaken : List Turn :=
  let call : Call := { schema := { name := [], backendGroup := "g" }, role := .primary }
  [.select call, .select call] ++ List.replicate 7 (.step 0) ++ List.replicate 8 (.step 1) ++
    [.step 0]

/-- They are given different backends. -/
theorem selections_linearizable_overtaken : ∃ (s : State)
    (lin : List (Atomic.Done ℕ Call Answer)) (o o' : Call),
    run State.turn (start twoPrimaries {}) overtaken = some s ∧
    Atomic.Linearizes (alone twoPrimaries) {} (history (start twoPrimaries {}) overtaken) lin
      s.selector ∧
    ⟨0, o, .ok "b"⟩ ∈ lin ∧ ⟨1, o', .ok "a"⟩ ∈ lin := by
  have hrun : run State.turn (start twoPrimaries {}) overtaken = some _ := rfl
  obtain ⟨lin, hlin⟩ := selections_linearizable twoPrimaries {} overtaken _ hrun
  have hlast : (history (start twoPrimaries {}) overtaken).drop 2 =
    [.ret 1 (.ok "a"), .ret 0 (.ok "b")] := rfl
  have hmem : ∀ e ∈ [Atomic.Event.ret 1 (.ok "a"), .ret 0 (.ok "b")],
      e ∈ history (start twoPrimaries {}) overtaken :=
    fun e he => List.mem_of_mem_drop (hlast ▸ he)
  obtain ⟨o, ho⟩ := hlin.complete 0 (.ok "b") (hmem _ (by simp))
  obtain ⟨o', ho'⟩ := hlin.complete 1 (.ok "a") (hmem _ (by simp))
  exact ⟨_, lin, o, o', hrun, hlin, ho, ho'⟩

/-! ### Updates -/

/-- The step of the call that came in last. -/
theorem step_last {x y : Shared} {q q' : Phase} (ps : List Phase) (h : q.move x = some (y, q')) :
    State.step { toShared := x, procs := ps ++ [q] } (.step ps.length) =
      some { toShared := y, procs := ps ++ [q'] } := by
  rw [State.step, List.getElem?_concat_length, Option.bind_some, h, Option.map_some,
    List.set_append_right _ _ (Nat.le_refl _), Nat.sub_self]
  rfl

theorem step_op (reg : BackendRegistry) (u : Update) :
    reg.step u.op = some (if u.bumps then (reg.modify u.id fun e => u.write e).bump u.id
      else reg.modify u.id fun e => u.write e) := by
  cases u <;> rfl

/-- **An update that nothing runs beside** is the operation of the registry. -/
theorem update_alone (s : State) (u : Update) : ∃ n s',
    run State.step s (.update u :: List.replicate n (.step s.procs.length)) = some s' ∧
      s.reg.step u.op = some s'.reg ∧ s'.selector = s.selector := by
  rw [step_op]
  cases hget : s.reg.get u.id with
  | none =>
    have hfind : (Phase.updating u).move s.toShared = some (s.toShared, .done) := by
      rw [Phase.move, hget]
    refine ⟨1, _, run_cons_eq_some.mpr ⟨_, rfl, run_cons_eq_some.mpr
      ⟨_, step_last s.procs hfind, rfl⟩⟩, congrArg some ?_, rfl⟩
    have hmodify : (s.reg.modify u.id fun e => u.write e) = s.reg := by
      rw [BackendRegistry.modify, hget]
    rw [hmodify, BackendRegistry.bump, hget]
    exact ite_self _
  | some r =>
    have hfind : (Phase.updating u).move s.toShared = some (s.toShared, .writing u r) := by
      rw [Phase.move, hget]
    have hmodify : (s.reg.modify u.id fun e => u.write e) = (s.toShared.write u r).reg := by
      rw [BackendRegistry.modify, hget]
      rfl
    have hget' : (s.toShared.write u r).reg.get u.id = some r := hget
    cases hbumps : u.bumps with
    | false =>
      have hwrite : (Phase.writing u r).move s.toShared = some (s.toShared.write u r, .done) := by
        rw [Phase.move, hbumps]
        rfl
      refine ⟨2, _, run_cons_eq_some.mpr ⟨_, rfl, run_cons_eq_some.mpr
        ⟨_, step_last s.procs hfind, run_cons_eq_some.mpr
          ⟨_, step_last s.procs hwrite, rfl⟩⟩⟩, congrArg some hmodify, rfl⟩
    | true =>
      have hwrite : (Phase.writing u r).move s.toShared =
          some (s.toShared.write u r, .bumping) := by
        rw [Phase.move, hbumps]
        rfl
      refine ⟨3, _, run_cons_eq_some.mpr ⟨_, rfl, run_cons_eq_some.mpr
        ⟨_, step_last s.procs hfind, run_cons_eq_some.mpr
          ⟨_, step_last s.procs hwrite, run_cons_eq_some.mpr
            ⟨_, step_last s.procs rfl, rfl⟩⟩⟩⟩, congrArg some ?_, rfl⟩
      rw [if_pos rfl, hmodify, BackendRegistry.bump, hget']
      rfl

end DBMesh.Selecting
