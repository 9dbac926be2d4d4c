import DBMesh.Pool.Capacity
import DBMesh.Pool.Invariant

/-!
# Draining the pool

`drain_impl` empties the containers and sets `shutting_down_`, which `acquire_impl` tests at its
entry and `warm_impl` at its loop head. A coroutine that is suspended past its test does not test
again: a connect in flight is tracked when it completes, and a waiter that `release` has handed a
connection returns it when it resumes. Draining is final exactly when there is no such coroutine.

## Main definitions

* `Pool.Quiet` — no connect in flight, no waiter handed a connection
* `Pool.DrainFinal` — what a drain in that state promises about all that comes later

## Main results

* `Pool.drain_final_iff_quiet` — a drain is final if and only if it finds the pool quiet; and along
  runs that drain only a quiet pool, every acquire that returns `Ok` returns a connection that is
  tracked and active at that moment
-/

namespace DBMesh

namespace Pool

open Transition

/-- No coroutine is suspended in `factory_()`, and no waiter that was handed a connection has yet to
resume. -/
def Quiet (s : State) : Prop :=
  s.connects = [] ∧ ∀ k w, s.parked k = some w → w.result = none

/-- After a drain in state `s`, whatever disciplined callers do: the containers stay empty and no
acquire that completes returns `Ok`. -/
def DrainFinal (cfg : PoolConfig) (s : State) : Prop :=
  ∀ bs t, Along (step cfg) Disciplined (drainImpl s) bs → run (step cfg) (drainImpl s) bs = some t →
    t.freeList = [] ∧ t.active = ∅ ∧ t.all = [] ∧
      ∃ rs, t.returned = rs ++ s.returned ∧ ∀ k h, (k, Except.ok h) ∉ rs

/-- Drains happen only when the pool is quiet. -/
def DrainsQuiet (s : State) (a : Action) : Prop := a = .drain → Quiet s

variable {cfg : PoolConfig} {s s' t : State} {a : Action} {k : CoroId} {h : Handle}

/-! ### After a drain of a quiet pool -/

/-- The state of a pool that was quiet when it was drained; `hist` are the acquires completed up to
the drain. -/
structure Drained (hist : List (CoroId × Except PoolError Handle)) (s : State) : Prop where
  down : s.shuttingDown = true
  free : s.freeList = []
  active : s.active = ∅
  all : s.all = []
  quiet : Quiet s
  returned : ∃ rs, s.returned = rs ++ hist ∧ ∀ k h, (k, Except.ok h) ∉ rs

variable {hist : List (CoroId × Except PoolError Handle)}

/-- Waiters that have been handed nothing are handed nothing by failing them. -/
theorem foldl_failWaiter_result_none {ks : List CoroId} {parked : CoroId → Option Waiter}
    (hp : ∀ k w, parked k = some w → w.result = none) {w : Waiter}
    (hw : ks.foldl failWaiter parked k = some w) : w.result = none := by
  cases hres : w.result with
  | none => rfl
  | some h =>
    have hnone := hp k w (result_foldl_failWaiter hres ks parked hw)
    rw [hres] at hnone
    exact absurd hnone (Option.some_ne_none h)

theorem update_result_none {parked : CoroId → Option Waiter} {o : Option Waiter}
    (hp : ∀ k w, parked k = some w → w.result = none) (ho : ∀ w, o = some w → w.result = none)
    (j : CoroId) (w : Waiter) (hw : Function.update parked k o j = some w) : w.result = none := by
  rcases eq_or_ne j k with rfl | hj
  · rw [Function.update_self] at hw
    exact ho w hw
  · rw [Function.update_of_ne hj] at hw
    exact hp j w hw

theorem warmLoop_of_shuttingDown (i : ℕ) (hd : s.shuttingDown = true) :
    warmLoop cfg s k i = s :=
  if_neg (by simp [hd])

theorem Drained.drainImpl (hq : Quiet s) (hr : ∃ rs, s.returned = rs ++ hist ∧
    ∀ k h, (k, Except.ok h) ∉ rs) : Drained hist (drainImpl s) where
  down := rfl
  free := rfl
  active := rfl
  all := rfl
  quiet := ⟨hq.1, fun _ _ hw => foldl_failWaiter_result_none hq.2 hw⟩
  returned := hr

theorem Drained.coReturn_error (D : Drained hist s) (e : PoolError) :
    Drained hist (coReturn s k (.error e)) where
  down := D.down
  free := D.free
  active := D.active
  all := D.all
  quiet := D.quiet
  returned := by
    obtain ⟨rs, hrs, hok⟩ := D.returned
    refine ⟨(k, .error e) :: rs, congrArg _ hrs, fun j h hmem => ?_⟩
    rcases List.mem_cons.mp hmem with hmem | hmem
    · cases hmem
    · exact hok j h hmem

theorem Drained.step (D : Drained hist s) (hs : step cfg s a = some s') : Drained hist s' := by
  cases segment_of_step hs with
  | acquireRefused _ =>
    have Dn : Drained hist s.spawn := ⟨D.down, D.free, D.active, D.all, D.quiet, D.returned⟩
    exact Dn.coReturn_error _
  | acquireReuse hd _ => simp [D.down] at hd
  | acquireOpen hd _ _ => simp [D.down] at hd
  | acquirePark hd _ _ => simp [D.down] at hd
  | acquireConnected hf _ => simp [D.quiet.1] at hf
  | warmConnected hf _ => simp [D.quiet.1] at hf
  | acquireFailed hf => simp [D.quiet.1] at hf
  | warmFailed hf => simp [D.quiet.1] at hf
  | @timerExpire k w hk _ =>
    have hq := update_result_none (k := k) (o := some { w with timer := .expired }) D.quiet.2
      fun w' hw' => Option.some.inj hw' ▸ D.quiet.2 k w hk
    exact ⟨D.down, D.free, D.active, D.all, ⟨D.quiet.1, hq⟩, D.returned⟩
  | @wake k w hk _ =>
    simp only [acquireWoken, D.quiet.2 k w hk]
    have hq := update_result_none (k := k) (o := none) D.quiet.2 (by simp)
    have Dw : Drained hist (syncMetrics
        { s with parked := Function.update s.parked k none, waiters := s.waiters.erase k }) :=
      ⟨D.down, D.free, D.active, D.all, ⟨D.quiet.1, hq⟩, D.returned⟩
    exact Dw.coReturn_error _
  | release k c healthy now =>
    have hc : c ∉ s.active := by simp [D.active]
    rw [release, if_neg hc]
    exact ⟨D.down, D.free, D.active, D.all, D.quiet, D.returned⟩
  | warm =>
    rw [warmLoop_of_shuttingDown 0 (by exact D.down)]
    exact ⟨D.down, D.free, D.active, D.all, D.quiet, D.returned⟩
  | startReaper =>
    rw [if_pos D.down]
    exact D
  | reaperTick _ =>
    rw [idleReaperImpl, if_pos (by simp [D.down])]
    exact ⟨D.down, D.free, D.active, D.all, D.quiet, D.returned⟩
  | drain => exact Drained.drainImpl D.quiet D.returned
  | connLost c =>
    have hall : (s.close c).all = [] := by simp [State.close, State.modify, D.all]
    exact ⟨D.down, D.free, D.active, hall, D.quiet, D.returned⟩

theorem Drained.run {as : List Action} (D : Drained hist s)
    (hr : run (Pool.step cfg) s as = some t) : Drained hist t :=
  preserved_run (fun _ _ _ D hs => D.step hs) D hr

/-! ### After a drain of a pool that is not quiet -/

theorem foldl_failWaiter_of_notMem {ks : List CoroId} (hk : k ∉ ks) :
    ∀ parked : CoroId → Option Waiter, ks.foldl failWaiter parked k = parked k := by
  induction ks with
  | nil => exact fun _ => rfl
  | cons j ks ih =>
    intro parked
    rw [List.mem_cons, not_or] at hk
    rw [List.foldl_cons, ih hk.2, failWaiter, Function.update_of_ne hk.1]

/-- A connect in flight is tracked when it completes. -/
theorem not_drainFinal_of_connect {f : Connect} (hf : f ∈ s.connects) : ¬ DrainFinal cfg s := by
  intro hfinal
  have hnil : (0 : Ptr) ∉ (drainImpl s).addrs := List.not_mem_nil
  obtain ⟨t, ht⟩ := exists_step_connectOk cfg (s := drainImpl s) 0 hf hnil
  have hlen : t.all.length = 0 + 1 := (connectOk_length ht).1
  have hnil := (hfinal [.connectOk f 0 0] t ⟨trivial, fun _ _ => trivial⟩
    ((run_singleton _ _).trans ht)).2.2.1
  simp [hnil] at hlen

/-- A waiter that was handed a connection returns it when it resumes. -/
theorem not_drainFinal_of_result {w : Waiter} (I : Inv s) (hw : s.parked k = some w)
    (hres : w.result = some h) : ¬ DrainFinal cfg s := by
  intro hfinal
  have hk : k ∉ s.waiters := I.not_mem_waiters ⟨w, hw, hres⟩
  have hpark : (drainImpl s).parked k = some w := (foldl_failWaiter_of_notMem hk s.parked).trans hw
  -- the timer may still have to expire before the waiter resumes
  obtain ⟨bs, t, w', hdis, hrun, hpark', harmed, hres', hret⟩ : ∃ bs t w',
      Along (step cfg) Disciplined (drainImpl s) bs ∧ run (step cfg) (drainImpl s) bs = some t ∧
        t.parked k = some w' ∧ w'.timer ≠ .armed ∧ w'.result = some h ∧
        t.returned = s.returned := by
    by_cases harmed : w.timer = .armed
    · let p := Function.update (drainImpl s).parked k (some { w with timer := .expired })
      have hexp :
          step cfg (drainImpl s) (.timerExpire k) = some { drainImpl s with parked := p } := by
        simp only [step, hpark, if_pos harmed, p]
      exact ⟨[.timerExpire k], _, _, ⟨trivial, fun _ _ => trivial⟩,
        (run_singleton _ _).trans hexp, Function.update_self .., by simp, hres, rfl⟩
    · exact ⟨[], _, w, trivial, rfl, hpark, harmed, hres, rfl⟩
  have hstep : step cfg t (.wake k) = some (acquireWoken t k w') := by
    simp only [step, hpark', if_neg harmed]
  have hwake : Along (step cfg) Disciplined t [.wake k] := ⟨trivial, fun _ _ => trivial⟩
  obtain ⟨-, -, -, rs, hrs, hok⟩ := hfinal (bs ++ [.wake k]) (acquireWoken t k w')
    ((along_append hrun).mpr ⟨hdis, hwake⟩)
    (run_append_eq_some.mpr ⟨t, hrun, (run_singleton _ _).trans hstep⟩)
  have hcons : (acquireWoken t k w').returned = [(k, .ok h)] ++ s.returned := by
    simp only [acquireWoken, hres', coReturn, hret, List.singleton_append]
  rw [hcons] at hrs
  exact hok k h (List.append_cancel_right hrs ▸ List.mem_singleton_self _)

/-- A drain is final exactly when it finds the pool quiet. -/
theorem Inv.drainFinal_iff (I : Inv s) : DrainFinal cfg s ↔ Quiet s := by
  constructor
  · intro hfinal
    refine ⟨?_, fun k w hw => ?_⟩
    · cases hc : s.connects with
      | nil => rfl
      | cons f fs => exact absurd hfinal (not_drainFinal_of_connect (hc ▸ List.mem_cons_self ..))
    · cases hres : w.result with
      | none => rfl
      | some h => exact absurd hfinal (not_drainFinal_of_result I hw hres)
  · intro hq bs t _ hr
    have D : Drained s.returned t := (Drained.drainImpl hq ⟨[], rfl, by simp⟩).run hr
    exact ⟨D.free, D.active, D.all, D.returned⟩

/-! ### What an acquire returns -/

theorem shuttingDown_warmLoop {i : ℕ} :
    (warmLoop cfg s k i).shuttingDown = s.shuttingDown := by
  rw [warmLoop_eq]
  split <;> rfl

theorem returned_warmLoop {i : ℕ} : (warmLoop cfg s k i).returned = s.returned := by
  rw [warmLoop_eq]
  split <;> rfl

/-- A release completes no acquire and sets no flag. -/
theorem release_frame {c : Ptr} {healthy : Bool} {now : Int} :
    (release s c healthy now).returned = s.returned ∧
      (release s c healthy now).shuttingDown = s.shuttingDown := by
  obtain ⟨-, h⟩ | ⟨-, -, h⟩ | ⟨-, -, w, rest, -, h⟩ | ⟨-, -, -, h⟩ := release_cases s c healthy now
  all_goals
    rw [h]
    exact ⟨rfl, rfl⟩

/-- Nor does a round of the reaper. -/
theorem idleReaperImpl_frame {ec : Bool} {now : Int} :
    (idleReaperImpl cfg s ec now).returned = s.returned ∧
      (idleReaperImpl cfg s ec now).shuttingDown = s.shuttingDown := by
  obtain h | ⟨conns, -, h⟩ := idleReaperImpl_cases cfg s ec now
  all_goals
    rw [h]
    exact ⟨rfl, rfl⟩

/-- Only a drain sets `shutting_down_`. -/
theorem shuttingDown_step (hs : step cfg s a = some s') (ha : a ≠ .drain) :
    s'.shuttingDown = s.shuttingDown := by
  cases segment_of_step hs with
  | warmConnected _ _ => exact shuttingDown_warmLoop
  | @wake k w _ _ =>
    rw [acquireWoken]
    cases w.result <;> rfl
  | release k c healthy now => exact release_frame.2
  | warm => exact shuttingDown_warmLoop
  | startReaper => split <;> rfl
  | reaperTick _ => exact idleReaperImpl_frame.2
  | drain => exact absurd rfl ha
  | acquireRefused _ | acquireReuse _ _ | acquireOpen _ _ _ | acquirePark _ _ _
  | acquireConnected _ _ | acquireFailed _ | warmFailed _ | timerExpire _ _ | connLost c => rfl

/-- The invariant of runs that drain only a quiet pool. -/
structure QuietInv (s : State) : Prop where
  inv : Inv s
  drained : s.shuttingDown = true → ∃ hist, Drained hist s

theorem QuietInv.step (J : QuietInv s) (hd : Disciplined s a) (hq : DrainsQuiet s a)
    (hs : step cfg s a = some s') : QuietInv s' := by
  refine ⟨J.inv.step hd hs, fun hdown => ?_⟩
  by_cases ha : a = .drain
  · subst ha
    obtain rfl := Option.some.inj hs
    exact ⟨s.returned, Drained.drainImpl (hq rfl) ⟨[], rfl, by simp⟩⟩
  · rw [shuttingDown_step hs ha] at hdown
    obtain ⟨hist, D⟩ := J.drained hdown
    exact ⟨hist, D.step hs⟩

theorem quietInv_run {as : List Action} (J : QuietInv s)
    (hd : Along (Pool.step cfg) (fun s a => Disciplined s a ∧ DrainsQuiet s a) s as)
    (hr : run (Pool.step cfg) s as = some s') : QuietInv s' :=
  invariant_run (fun _ _ _ J hd hs => J.step hd.1 hd.2 hs) J hd hr

theorem checkOut_tracked {c : Ptr} {j : CoroId} {hist' : List (CoroId × Except PoolError Handle)}
    (hc : c ∈ s.addrs) (hret : (checkOut s k c).returned = (j, .ok h) :: hist') :
    h ∈ (checkOut s k c).handles ∧ h.ptr ∈ (checkOut s k c).active := by
  let t : State := { s with active := insert c s.active, totalAcquired := s.totalAcquired + 1 }
  have hh : t.handleOf c = h := Except.ok.inj (Prod.mk.inj (List.cons.inj hret).1).2
  have hmem : t.handleOf c ∈ t.handles := State.handleOf_mem hc
  rw [← hh]
  exact ⟨hmem, Finset.mem_insert_self c _⟩

/-- A connection of the free list is tracked when it is checked out. -/
theorem Inv.mem_addrs_reuse {c : Ptr} {rest : List Ptr} (I : Inv s) (now : Int)
    (hf : s.freeList = c :: rest) :
    c ∈ ({ s.spawn with freeList := rest }.modify c
      fun x => { x with state := .inUse, lastUsed := now }).addrs := by
  rw [← State.map_ptr_handles, State.handles_modify _ c (by exact fun _ => rfl)]
  exact (I.ledger.mem_iff c).mpr (.inl (hf ▸ List.mem_cons_self ..))

/-- A new connection is tracked when it is checked out. -/
theorem mem_addrs_connected (s : State) (addr : Ptr) (now : Int) :
    addr ∈ ((track s addr now).modify addr fun x => { x with state := .inUse }).addrs := by
  rw [← State.map_ptr_handles, State.handles_modify _ addr (by exact fun _ => rfl),
    State.handles_track]
  simp

/-- The connection an acquire returns is tracked and active when it returns. -/
theorem QuietInv.returns_tracked (J : QuietInv s) (hs : Pool.step cfg s a = some s')
    (hret : s'.returned = (k, .ok h) :: s.returned) : h ∈ s'.handles ∧ h.ptr ∈ s'.active := by
  have hself : s.returned ≠ (k, .ok h) :: s.returned := fun hs => List.cons_ne_self _ _ hs.symm
  cases segment_of_step hs with
  | acquireRefused _ => cases (List.cons.inj hret).1
  | @acquireReuse now c rest _ hf => exact checkOut_tracked (J.inv.mem_addrs_reuse now hf) hret
  | @acquireConnected j addr now _ _ =>
    exact checkOut_tracked (mem_addrs_connected (s.resume (.acquire j)) addr now) hret
  | @wake j w hk _ =>
    cases hres : w.result with
    | none =>
      simp only [acquireWoken, hres, coReturn, syncMetrics] at hret
      cases (List.cons.inj hret).1
    | some g =>
      simp only [acquireWoken, hres, coReturn] at hret ⊢
      obtain rfl : g = h := Except.ok.inj (Prod.mk.inj (List.cons.inj hret).1).2
      have hown : s.Owns (.waiter j) g := ⟨w, hk, hres⟩
      cases hdown : s.shuttingDown with
      | true =>
        -- a pool that is down was drained quiet, so no waiter has anything
        obtain ⟨hist, D⟩ := J.drained hdown
        rw [D.quiet.2 j w hk] at hres
        exact absurd hres.symm (Option.some_ne_none g)
      | false =>
        have hmem := J.inv.ledger.owner_tracked hdown hown
        exact ⟨hmem, (J.inv.ledger.owner_active hown hmem rfl).2⟩
  | @warmConnected j i addr now _ _ => exact absurd (returned_warmLoop.symm.trans hret) hself
  | acquireFailed _ => cases (List.cons.inj hret).1
  | release j c healthy now => exact absurd (release_frame.1.symm.trans hret) hself
  | warm => exact absurd (returned_warmLoop.symm.trans hret) hself
  | startReaper => split at hret <;> exact absurd hret hself
  | reaperTick _ => exact absurd (idleReaperImpl_frame.1.symm.trans hret) hself
  | acquireOpen _ _ _ | acquirePark _ _ _ | warmFailed _ | timerExpire _ _ | drain
  | connLost c => exact absurd hret hself

/-- **Drain is final exactly when it finds the pool quiet.** For every disciplined run, a drain in
its last state leaves the containers empty for good, with no later acquire returning `Ok`, if and
only if no coroutine is suspended in `factory_()` and no waiter has been handed a connection there.
And along every run that drains only a quiet pool, an acquire that returns `Ok` returns a connection
that is in `all_` and `active_` at that moment. -/
theorem drain_final_iff_quiet (cfg : PoolConfig) :
    (∀ as s, Along (step cfg) Disciplined initial as → run (step cfg) initial as = some s →
        (DrainFinal cfg s ↔ Quiet s)) ∧
      ∀ as s a s' k h,
        Along (step cfg) (fun s a => Disciplined s a ∧ DrainsQuiet s a) initial as →
        run (step cfg) initial as = some s → step cfg s a = some s' →
        s'.returned = (k, .ok h) :: s.returned → h ∈ s'.handles ∧ h.ptr ∈ s'.active := by
  refine ⟨fun as s hd hr => (inv_run inv_initial hd hr).drainFinal_iff,
    fun as s a s' k h hd hr hs hret => ?_⟩
  have J₀ : QuietInv initial := ⟨inv_initial, nofun⟩
  exact (quietInv_run J₀ hd hr).returns_tracked hs hret

/-- A pool that has been warmed with one connection, and is at rest, is drained for good. -/
theorem drain_final_after_warm : ∃ s,
    run (step { min := 1, max := 2 }) initial [.warm, .connectOk (.warm 0 0) 64 1] = some s ∧
      DrainFinal { min := 1, max := 2 } s :=
  ⟨_, rfl, ((drain_final_iff_quiet { min := 1, max := 2 }).1
    [.warm, .connectOk (.warm 0 0) 64 1] _ (by decide +kernel) rfl).mpr ⟨rfl, nofun⟩⟩

/-- A connect that completes after the drain is tracked and returned, and a waiter that was handed
a connection before the drain returns it although it is gone. -/
theorem drain_not_final :
    (∃ s, run (step { min := 0, max := 1 }) initial
        [.acquire 0, .drain, .connectOk (.acquire 0) 64 1] = some s ∧
      s.all.length = 1 ∧ s.active = {64} ∧ s.returned = [(0, .ok ⟨64, 0⟩)]) ∧
    ∃ s, run (step { min := 0, max := 1 }) initial
        [.acquire 0, .connectOk (.acquire 0) 64 1, .acquire 2, .release 0 64 true 3, .drain,
          .wake 1]
          = some s ∧
      s.all = [] ∧ s.active = ∅ ∧ s.returned = [(1, .ok ⟨64, 0⟩), (0, .ok ⟨64, 0⟩)] :=
  ⟨⟨_, rfl, rfl, rfl, rfl⟩, ⟨_, rfl, rfl, rfl, rfl⟩⟩

end Pool

end DBMesh
