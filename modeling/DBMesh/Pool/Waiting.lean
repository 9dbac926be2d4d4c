import DBMesh.Pool.Capacity
import DBMesh.Pool.Invariant

/-!
# Waiters and capacity

An acquire waits because the pool is full. Of the segments that make room again, only a release that
keeps its connection looks at the queue: a release that closes it, a connect that fails and a warm
connection leave the waiters where they are, until their timers expire.

## Main definitions

* `Pool.NoSpare` — waiters wait only while the pool is full
* `Pool.MindsQueue` — a segment makes no room while there are waiters, or leaves the pool full

## Main results

* `Pool.noSpare_step` — the segments that keep `NoSpare`
* `Pool.noSpare_iff_mindsQueue` — along them it always holds, and any other segment breaks it
-/

namespace DBMesh

namespace Pool

open Transition

/-- No waiter is parked while the pool has capacity. -/
def NoSpare (cfg : PoolConfig) (s : State) : Prop :=
  s.waiters ≠ [] → s.freeList = [] ∧ cfg.max ≤ s.committed

/-- While there are waiters, no warm connection arrives; and a connect fails, or a release closes
its connection, only if the pool is over capacity. -/
def MindsQueue (cfg : PoolConfig) (s : State) : Action → Prop
  | .connectOk (.warm _ _) _ _ => s.waiters = []
  | .connectErr _ _ => s.waiters ≠ [] → cfg.max < s.committed
  | .release _ c healthy _ =>
    s.waiters ≠ [] → c ∈ s.active → s.closes c healthy = true → cfg.max < s.committed
  | _ => True

instance (cfg : PoolConfig) (s : State) : (a : Action) → Decidable (MindsQueue cfg s a)
  | .connectOk (.warm _ _) _ _ => inferInstanceAs (Decidable (_ = _))
  | .connectErr _ _ => inferInstanceAs (Decidable (_ → _))
  | .release _ _ _ _ => inferInstanceAs (Decidable (_ → _ → _ → _))
  | .connectOk (.acquire _) _ _ | .acquire _ | .timerExpire _ | .wake _ | .warm
  | .startReaper | .reaperTick _ _ | .drain | .connLost _ => isTrue trivial

variable {cfg : PoolConfig} {s s' : State} {a : Action} {c : Ptr} {k : CoroId} {now : Int}

/-! ### One segment -/

/-- More connects and fewer waiters are no harm. -/
theorem NoSpare.mono (h : NoSpare cfg s) (hw : s'.waiters ≠ [] → s.waiters ≠ [])
    (hf : s.freeList = [] → s'.freeList = []) (hc : s.committed ≤ s'.committed) :
    NoSpare cfg s' := by
  intro hne
  obtain ⟨hfree, hmax⟩ := h (hw hne)
  exact ⟨hf hfree, hmax.trans hc⟩

theorem noSpare_of_waiters (h : s.waiters = []) : NoSpare cfg s := fun hne => absurd h hne

/-- A segment that makes room takes at most one place. -/
theorem NoSpare.of_lt (h : NoSpare cfg s) (hok : s.waiters ≠ [] → cfg.max < s.committed)
    (hw : s'.waiters = s.waiters) (hf : s'.freeList = s.freeList)
    (hc : s.committed ≤ s'.committed + 1) : NoSpare cfg s' := by
  intro hne
  rw [hw] at hne
  have hlt := hok hne
  exact ⟨hf.trans (h hne).1, by omega⟩

theorem committed_resume {f : Connect} (hf : f ∈ s.connects) :
    (s.resume f).committed + 1 = s.committed := by
  rw [State.committed, State.committed, ← length_connects_resume hf]
  rfl

theorem waiters_warmLoop (i : ℕ) :
    (warmLoop cfg s k i).waiters = s.waiters ∧ (warmLoop cfg s k i).freeList = s.freeList := by
  rw [warmLoop_eq]
  split <;> exact ⟨rfl, rfl⟩

theorem length_untrack_of_mem (hc : c ∈ s.addrs) :
    (untrack s c).all.length + 1 = s.all.length := by
  obtain ⟨x, hx, hxc⟩ := List.mem_map.mp hc
  rw [show (untrack s c).all = s.all.eraseP (·.addr = c) from rfl,
    List.length_eraseP_of_mem hx (decide_eq_true hxc)]
  exact Nat.succ_pred_eq_of_pos (List.length_pos_of_mem hx)

theorem length_untrack (s : State) (c : Ptr) : s.all.length ≤ (untrack s c).all.length + 1 := by
  by_cases hc : c ∈ s.addrs
  · exact (length_untrack_of_mem hc).ge
  · rw [show (untrack s c).all = s.all.eraseP (·.addr = c) from rfl,
      List.eraseP_of_forall_not fun x hx hxc =>
        hc (List.mem_map.mpr ⟨x, hx, of_decide_eq_true hxc⟩)]
    exact Nat.le_succ _

theorem noSpare_release {healthy : Bool} (h : NoSpare cfg s)
    (hok : s.waiters ≠ [] → c ∈ s.active → s.closes c healthy = true → cfg.max < s.committed) :
    NoSpare cfg (release s c healthy now) := by
  obtain ⟨-, heq⟩ | ⟨hc, hclose, heq⟩ | ⟨-, -, w, rest, hq, heq⟩ | ⟨-, -, hq, heq⟩ :=
    release_cases s c healthy now
  · rwa [heq]
  · rw [heq]
    refine h.of_lt (fun hne => hok hne hc hclose) rfl rfl ?_
    have hlen := length_untrack ({ s with active := s.active.erase c }.close c) c
    rw [length_all_close] at hlen
    have hcom := Nat.add_le_add_right hlen s.connects.length
    rw [Nat.add_right_comm] at hcom
    exact hcom
  · rw [heq]
    refine h.mono (fun _ => by rw [hq]; exact List.cons_ne_nil _ _) id ?_
    exact Nat.add_le_add_right (length_all_modify (s := { s with active := _, waiters := _ })
      (fun x => { x with state := .inUse })).ge _
  · rw [heq]
    exact noSpare_of_waiters hq

theorem noSpare_step (h : NoSpare cfg s) (hok : MindsQueue cfg s a)
    (hs : step cfg s a = some s') : NoSpare cfg s' := by
  cases segment_of_step hs with
  | acquireRefused _ => exact h
  | acquireReuse _ hf =>
    have hw : s.waiters = [] := by
      by_contra hne
      rw [(h hne).1] at hf
      exact absurd hf.symm (List.cons_ne_nil _ _)
    exact noSpare_of_waiters hw
  | acquireOpen _ _ _ => exact h.mono id id (Nat.add_le_add_left (by simp) _)
  | acquirePark _ hf hm =>
    exact fun _ => ⟨hf, (Nat.not_lt.mp hm).trans (Nat.le_add_right ..)⟩
  | acquireConnected _ _ =>
    refine h.mono id id ?_
    rw [(connectOk_length hs).2]
    exact Nat.le_add_right ..
  | @warmConnected k i addr now _ _ =>
    have hw : s.waiters = [] := hok
    exact noSpare_of_waiters ((waiters_warmLoop (i + 1)).1.trans hw)
  | acquireFailed hf => exact h.of_lt hok rfl rfl (committed_resume hf).ge
  | warmFailed hf => exact h.of_lt hok rfl rfl (committed_resume hf).ge
  | timerExpire _ _ => exact h
  | @wake k w _ _ =>
    rw [acquireWoken]
    cases w.result with
    | some g => exact h
    | none =>
      refine h.mono (fun hne hnil => hne ?_) id le_rfl
      show s.waiters.erase k = []
      rw [hnil]
      rfl
  | release k c healthy now => exact noSpare_release (s := { s with held := _ }) h hok
  | warm =>
    have hframe : (warmLoop cfg s.spawn s.nextId 0).waiters = s.spawn.waiters ∧
        (warmLoop cfg s.spawn s.nextId 0).freeList = s.spawn.freeList := waiters_warmLoop 0
    obtain ⟨hw, hf⟩ := hframe
    refine h.mono (fun hne => by rwa [hw] at hne) (fun hnil => by rw [hf]; exact hnil) ?_
    rw [committed_warmLoop]
    exact Nat.le_add_right ..
  | startReaper => split <;> exact h
  | @reaperTick ec now _ =>
    by_cases hw : s.waiters = []
    · obtain heq | ⟨conns, -, heq⟩ := idleReaperImpl_cases cfg s ec now
      · rw [heq]
        exact noSpare_of_waiters hw
      · rw [heq]
        exact noSpare_of_waiters hw
    · -- the free list is empty, so the reaper has nothing to look at
      rw [idleReaperImpl, (h hw).1]
      split
      · exact h.mono id (fun _ => rfl) le_rfl
      · exact h.mono id (fun _ => rfl) le_rfl
  | drain => exact noSpare_of_waiters rfl
  | connLost c => exact h.mono id id (Nat.add_le_add_right length_all_close.ge _)

/-! ### Runs -/

theorem noSpare_run {as : List Action} (h : NoSpare cfg s)
    (hok : Along (step cfg) (MindsQueue cfg) s as) (hr : run (step cfg) s as = some s') :
    NoSpare cfg s' :=
  invariant_run (fun _ _ _ h hok hs => noSpare_step h hok hs) h hok hr

/-- A segment that makes room while there are waiters leaves them waiting. -/
theorem not_noSpare_of_not_mindsQueue (I : Inv s) (hs : step cfg s a = some s')
    (hok : ¬ MindsQueue cfg s a) : ¬ NoSpare cfg s' := by
  have hlt : ∀ {t : State}, t.waiters = s.waiters → s.waiters ≠ [] →
      t.committed + 1 ≤ s.committed → ¬ cfg.max < s.committed → ¬ NoSpare cfg t := by
    intro t hw hne hc hmax h
    have := (h (by rwa [hw])).2
    omega
  cases segment_of_step hs with
  | @warmConnected k i addr now _ _ =>
    intro h
    have hne : s.waiters ≠ [] := hok
    have hfree := (h (by rw [warmConnected, (waiters_warmLoop (i + 1)).1]; exact hne)).1
    rw [warmConnected, (waiters_warmLoop (i + 1)).2] at hfree
    exact absurd hfree (List.append_ne_nil_of_right_ne_nil _ (List.cons_ne_nil _ _))
  | acquireFailed hf =>
    obtain ⟨hne, hmax⟩ := Classical.not_imp.mp hok
    exact hlt rfl hne (committed_resume hf).le hmax
  | warmFailed hf =>
    obtain ⟨hne, hmax⟩ := Classical.not_imp.mp hok
    exact hlt rfl hne (committed_resume hf).le hmax
  | release k c healthy now =>
    simp only [MindsQueue, Classical.not_imp] at hok
    obtain ⟨hne, hc, hclose, hmax⟩ := hok
    obtain ⟨hnot, -⟩ | ⟨-, -, heq⟩ | ⟨-, hopen, -⟩ | ⟨-, hopen, -⟩ :=
      release_cases { s with held := Function.update s.held k none } c healthy now
    · exact absurd hc hnot
    · rw [heq]
      refine hlt rfl hne ?_ hmax
      let t : State := { s with held := Function.update s.held k none, active := s.active.erase c }
      have hmem : c ∈ (t.close c).addrs := by
        rw [← State.map_ptr_handles, State.handles_close]
        exact (I.ledger.mem_iff c).mpr (.inr hc)
      have hlen := length_untrack_of_mem hmem
      rw [length_all_close] at hlen
      have hcom := Nat.add_le_add_right hlen.le s.connects.length
      rw [Nat.add_right_comm] at hcom
      exact hcom
    · exact absurd (hclose.symm.trans hopen) (by decide)
    · exact absurd (hclose.symm.trans hopen) (by decide)
  | acquireRefused _ | acquireReuse _ _ | acquireOpen _ _ _ | acquirePark _ _ _
  | acquireConnected _ _ | timerExpire _ _ | wake _ _ | warm | startReaper | reaperTick _ | drain
  | connLost c => exact absurd trivial hok

/-- **No waiter is parked while the pool has capacity**, along every run whose segments mind the
queue; and every segment of a disciplined run that does not mind it leaves a waiter parked while
there is capacity. -/
theorem noSpare_iff_mindsQueue (cfg : PoolConfig) :
    (∀ as s, Along (step cfg) (MindsQueue cfg) initial as → run (step cfg) initial as = some s →
        s.waiters ≠ [] → s.freeList = [] ∧ cfg.max ≤ s.all.length + s.connects.length) ∧
      ∀ as s a s', Along (step cfg) Disciplined initial as → run (step cfg) initial as = some s →
        step cfg s a = some s' → ¬ MindsQueue cfg s a →
        ¬ (s'.waiters ≠ [] → s'.freeList = [] ∧ cfg.max ≤ s'.all.length + s'.connects.length) :=
  ⟨fun _ _ hok hr => noSpare_run (noSpare_of_waiters rfl) hok hr,
    fun _ _ _ _ hd hr hs hok => not_noSpare_of_not_mindsQueue (inv_run inv_initial hd hr) hs hok⟩

/-- A waiter at a pool of one connection that is in use. -/
theorem noSpare_one_waiter : ∃ s,
    run (step { min := 0, max := 1 }) initial
      [.acquire 0, .connectOk (.acquire 0) 64 1, .acquire 2] = some s ∧
      s.waiters = [1] ∧ s.freeList = [] ∧ 1 ≤ s.all.length + s.connects.length :=
  ⟨_, rfl, rfl, (noSpare_iff_mindsQueue { min := 0, max := 1 }).1
    [.acquire 0, .connectOk (.acquire 0) 64 1, .acquire 2] _ (by decide +kernel) rfl (by decide)⟩

/-- The connection is released unhealthy: the pool is empty and the waiter waits on. A warm
connection that arrives goes to the free list, past the waiter. -/
theorem spare_after_close : (∃ s,
    run (step { min := 0, max := 1 }) initial
      [.acquire 0, .connectOk (.acquire 0) 64 1, .acquire 2, .release 0 64 false 3] = some s ∧
      s.shuttingDown = false ∧ s.waiters ≠ [] ∧ ¬ 1 ≤ s.all.length + s.connects.length) ∧
    ∃ s, run (step { min := 1, max := 1 }) initial
      [.warm, .acquire 0, .connectOk (.acquire 1) 64 1, .acquire 2, .connectOk (.warm 0 0) 128 3] =
        some s ∧
      s.shuttingDown = false ∧ s.waiters ≠ [] ∧ s.freeList ≠ [] :=
  ⟨⟨_, rfl, rfl, by decide, by decide⟩, ⟨_, rfl, rfl, by decide, by decide⟩⟩

end Pool

end DBMesh
