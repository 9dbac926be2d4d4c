import Mathlib.Algebra.BigOperators.Group.Finset.Piecewise
import Mathlib.Algebra.Order.BigOperators.Group.Finset
import DBMesh.Lib.Ranking
import DBMesh.Pool.Owners

/-!
# Every call settles

No call of `acquire()` and no `warm()` can be kept from completing but by new ones. A suspended
coroutine waits for the answer of a factory call or for its timer, never for another coroutine, so
each state in which some call is suspended has a step that brings it further. Each such step is paid
for when the call starts: two steps for a parked acquire (its timer completes, it resumes), one for
a connect, one for each iteration of a warm. Releases, the reaper, drains and lost connections never
add to what is left to do.

## Main definitions

* `Pool.State.load` — the steps that are left to the suspended coroutines
* `Pool.completes`, `Pool.opens` — the steps that bring a coroutine further, and what a call adds
* `Pool.State.Settled` — no coroutine is suspended

## Main results

* `Pool.load_step` — what each segment does to the load
* `Pool.sum_frames_run` — the places that calls are in are as many as the calls
* `Pool.settles` — every run settles, and every call is answered once by then
-/

namespace DBMesh

namespace Pool

open Transition

/-! ### The load -/

/-- The steps that a coroutine suspended in `factory_()` needs. -/
def Connect.load (cfg : PoolConfig) : Connect → ℕ
  | .acquire _ => 1
  | .warm _ i => cfg.min - i + 1

/-- The steps that a parked coroutine needs. -/
def Waiter.load (w : Waiter) : ℕ := if w.timer = .armed then 2 else 1

/-- The steps that call `k` needs as far as it is parked. -/
def parkedLoad (parked : CoroId → Option Waiter) (k : CoroId) : ℕ :=
  ((parked k).map Waiter.load).getD 0

/-- The steps that the calls with the first `n` names need as far as they are parked. -/
def parkedSum (parked : CoroId → Option Waiter) (n : ℕ) : ℕ :=
  ∑ k ∈ Finset.range n, parkedLoad parked k

def State.load (cfg : PoolConfig) (s : State) : ℕ :=
  (s.connects.map (Connect.load cfg)).sum + parkedSum s.parked s.nextId

/-- The steps that bring a suspended coroutine further. -/
def completes : Action → ℕ
  | .connectOk _ _ _ | .connectErr _ _ | .timerExpire _ | .wake _ => 1
  | .acquire _ | .release _ _ _ _ | .warm | .startReaper | .reaperTick _ _ | .drain
  | .connLost _ => 0

/-- What a new call adds to the load. -/
def opens (cfg : PoolConfig) : Action → ℕ
  | .acquire _ => 2
  | .warm => cfg.min + 1
  | .connectOk _ _ _ | .connectErr _ _ | .timerExpire _ | .wake _ | .release _ _ _ _
  | .startReaper | .reaperTick _ _ | .drain | .connLost _ => 0

/-- No coroutine is suspended, the reapers apart. -/
def State.Settled (s : State) : Prop := s.connects = [] ∧ ∀ k, s.parked k = none

variable {cfg : PoolConfig} {s s' : State} {a : Action} {k : CoroId}

theorem Waiter.load_cancel_le (w : Waiter) (r : Option Handle) :
    Waiter.load { timer := w.timer.cancel, result := r } ≤ w.load := by
  rw [Waiter.load, Waiter.load]
  cases w.timer <;> simp [Timer.cancel]

theorem Waiter.load_pos (w : Waiter) : 0 < w.load := by
  rw [Waiter.load]
  split_ifs
  · exact Nat.two_pos
  · exact Nat.one_pos

/-- Where no coroutine is suspended in new places, the load does not grow. -/
theorem load_le_of (hc : s'.connects = s.connects) (hn : s'.nextId = s.nextId)
    (hp : ∀ k, parkedLoad s'.parked k ≤ parkedLoad s.parked k) : s'.load cfg ≤ s.load cfg := by
  rw [State.load, State.load, hc, hn]
  exact Nat.add_le_add_left (Finset.sum_le_sum fun k _ => hp k) _

/-- The load after one waiter has changed. -/
theorem parkedSum_update (parked : CoroId → Option Waiter) {n : ℕ} (hk : k < n)
    (o : Option Waiter) :
    parkedSum (Function.update parked k o) n + parkedLoad parked k =
      parkedSum parked n + (o.map Waiter.load).getD 0 := by
  have hmem : k ∈ Finset.range n := Finset.mem_range.mpr hk
  have hrest : ∑ j ∈ (Finset.range n).erase k, parkedLoad (Function.update parked k o) j =
      ∑ j ∈ (Finset.range n).erase k, parkedLoad parked j := by
    refine Finset.sum_congr rfl fun j hj => ?_
    rw [parkedLoad, parkedLoad, Function.update_of_ne (Finset.ne_of_mem_erase hj)]
  have hself : parkedLoad (Function.update parked k o) k = (o.map Waiter.load).getD 0 := by
    rw [parkedLoad, Function.update_self]
  have hbefore : parkedLoad parked k + ∑ j ∈ (Finset.range n).erase k, parkedLoad parked j =
      parkedSum parked n := Finset.add_sum_erase _ _ hmem
  have hafter : (o.map Waiter.load).getD 0 +
      ∑ j ∈ (Finset.range n).erase k, parkedLoad parked j =
        parkedSum (Function.update parked k o) n := by
    rw [← hself, ← hrest]
    exact Finset.add_sum_erase _ _ hmem
  omega

/-- The next name belongs to no waiter yet. -/
theorem parkedSum_succ (J : s.CallsOnce) :
    parkedSum s.parked (s.nextId + 1) = parkedSum s.parked s.nextId := by
  have hzero : parkedLoad s.parked s.nextId = 0 := by
    rw [parkedLoad, J.parked_fresh]
    rfl
  rw [parkedSum, Finset.sum_range_succ, hzero, Nat.add_zero]
  rfl

theorem sum_load_erase (cfg : PoolConfig) {f : Connect} {fs : List Connect} (hf : f ∈ fs) :
    ((fs.erase f).map (Connect.load cfg)).sum + f.load cfg = (fs.map (Connect.load cfg)).sum := by
  rw [Nat.add_comm, ← List.sum_cons, ← List.map_cons]
  exact ((List.perm_cons_erase hf).map _).sum_eq.symm

theorem load_resume (cfg : PoolConfig) {f : Connect} (hf : f ∈ s.connects) :
    (s.resume f).load cfg + f.load cfg = s.load cfg := by
  have hsum := sum_load_erase cfg hf
  simp only [State.load, State.resume]
  omega

theorem load_warmLoop_le (cfg : PoolConfig) (s : State) (k : CoroId) (i : ℕ) :
    (warmLoop cfg s k i).load cfg ≤ s.load cfg + (cfg.min - i + 1) := by
  rw [warmLoop_eq]
  split_ifs
  · simp only [State.load, List.map_append, List.sum_append, List.map_cons, List.map_nil,
      List.sum_cons, List.sum_nil, Connect.load]
    omega
  · exact Nat.le_add_right _ _

theorem load_warmLoop_next_le (s : State) (k : CoroId) (i : ℕ) :
    (warmLoop cfg s k (i + 1)).load cfg ≤ s.load cfg + (cfg.min - i) := by
  by_cases hi : i + 1 < cfg.min
  · exact (load_warmLoop_le cfg s k (i + 1)).trans (by omega)
  · rw [warmLoop_eq, if_neg fun h => hi h.1]
    exact Nat.le_add_right _ _

theorem parkedLoad_failWaiter_le (parked : CoroId → Option Waiter) (j : CoroId) :
    parkedLoad (failWaiter parked j) k ≤ parkedLoad parked k := by
  rw [parkedLoad, parkedLoad, failWaiter]
  rcases eq_or_ne k j with rfl | hk
  · rw [Function.update_self]
    cases parked k with
    | none => exact le_rfl
    | some w => exact w.load_cancel_le none
  · rw [Function.update_of_ne hk]

theorem parkedLoad_foldl_failWaiter_le (ks : List CoroId) (parked : CoroId → Option Waiter) :
    parkedLoad (ks.foldl failWaiter parked) k ≤ parkedLoad parked k := by
  induction ks generalizing parked with
  | nil => exact le_rfl
  | cons j ks ih => exact (ih _).trans (parkedLoad_failWaiter_le parked j)

theorem load_release_le (cfg : PoolConfig) (s : State) (c : Ptr) (healthy : Bool) (now : Int) :
    (release s c healthy now).load cfg ≤ s.load cfg := by
  obtain ⟨-, h⟩ | ⟨-, -, h⟩ | ⟨-, -, w, rest, -, h⟩ | ⟨-, -, -, h⟩ := release_cases s c healthy now
  · rw [h]
  · rw [h]
    exact le_rfl
  · rw [h]
    refine load_le_of rfl rfl fun k => ?_
    rcases eq_or_ne k w with rfl | hk
    · simp only [parkedLoad, handOff, syncMetrics, State.modify, Function.update_self]
      cases s.parked k with
      | none => exact le_rfl
      | some p => exact p.load_cancel_le _
    · simp only [parkedLoad, handOff, syncMetrics, State.modify, Function.update_of_ne hk]
      exact le_rfl
  · rw [h]
    exact le_rfl

/-- A new name changes nothing of the load. -/
theorem load_spawn (cfg : PoolConfig) (J : s.CallsOnce) : s.spawn.load cfg = s.load cfg := by
  rw [State.load, State.load]
  exact congrArg _ (parkedSum_succ J)

theorem lt_nextId_of_parked (J : s.CallsOnce) {w : Waiter} (hw : s.parked k = some w) :
    k < s.nextId := by
  by_contra hle
  have hzero := J.fresh k (Nat.not_lt.mp hle)
  simp only [State.frames, hw, Option.isSome_some, Bool.toNat_true] at hzero
  omega

/-! ### What a segment does to the load -/

/-- **A segment that brings a coroutine further is paid for**, and no segment but a new call adds to
the load. -/
theorem load_step (J : s.CallsOnce) (hs : step cfg s a = some s') :
    completes a + s'.load cfg ≤ s.load cfg + opens cfg a := by
  have hspawn := load_spawn cfg J
  cases segment_of_step hs with
  | acquireRefused _ | acquireReuse _ _ =>
    have hsame : s.spawn.load cfg ≤ s.load cfg + 2 := by omega
    rw [completes, Nat.zero_add]
    exact hsame
  | acquireOpen _ _ _ =>
    have hadd : State.load cfg { s.spawn with connects := s.connects ++ [.acquire s.nextId] } =
        s.spawn.load cfg + 1 := by
      simp only [State.load, State.spawn, List.map_append, List.sum_append, List.map_cons,
        List.map_nil, List.sum_cons, List.sum_nil, Connect.load]
      omega
    rw [hadd, completes, opens]
    omega
  | acquirePark _ _ _ =>
    have hpark := parkedSum_update s.parked (Nat.lt_add_one s.nextId) (some {})
    have htwo : ((some ({} : Waiter)).map Waiter.load).getD 0 = 2 := rfl
    have hadd : (park s.spawn s.nextId).load cfg ≤ s.spawn.load cfg + 2 := by
      simp only [State.load, park, syncMetrics, State.spawn]
      omega
    rw [completes, opens]
    omega
  | @acquireConnected j addr now hf _ =>
    have hresume := load_resume cfg hf
    rw [show Connect.load cfg (.acquire j) = 1 from rfl] at hresume
    have hsame : (acquireConnected (s.resume (.acquire j)) j addr now).load cfg =
        (s.resume (.acquire j)).load cfg := rfl
    rw [hsame, completes, opens]
    omega
  | @warmConnected j i addr now hf _ =>
    have hresume := load_resume cfg hf
    rw [show Connect.load cfg (.warm j i) = cfg.min - i + 1 from rfl] at hresume
    have hnext : (warmConnected cfg (s.resume (.warm j i)) j i addr now).load cfg ≤
        (s.resume (.warm j i)).load cfg + (cfg.min - i) := load_warmLoop_next_le _ j i
    rw [completes, opens]
    omega
  | @acquireFailed j e hf =>
    have hresume := load_resume cfg hf
    rw [show Connect.load cfg (.acquire j) = 1 from rfl] at hresume
    have hsame : (coReturn (s.resume (.acquire j)) j (.error e)).load cfg =
        (s.resume (.acquire j)).load cfg := rfl
    rw [hsame, completes, opens]
    omega
  | @warmFailed j i e hf =>
    have hresume := load_resume cfg hf
    rw [show Connect.load cfg (.warm j i) = cfg.min - i + 1 from rfl] at hresume
    rw [completes, opens]
    omega
  | @timerExpire j w hw ht =>
    have hsum := parkedSum_update s.parked (lt_nextId_of_parked J hw)
      (some { w with timer := .expired })
    have hone : ((some { w with timer := .expired }).map Waiter.load).getD 0 = 1 := rfl
    have htwo : parkedLoad s.parked j = 2 := by
      rw [parkedLoad, hw, Option.map_some, Option.getD_some, Waiter.load, if_pos ht]
    rw [hone, htwo] at hsum
    simp only [State.load, completes, opens]
    omega
  | @wake j w hw _ =>
    have hsum := parkedSum_update s.parked (lt_nextId_of_parked J hw) none
    have hzero : ((none : Option Waiter).map Waiter.load).getD 0 = 0 := rfl
    have hpos : 0 < parkedLoad s.parked j := by
      rw [parkedLoad, hw]
      exact w.load_pos
    have hleave : (acquireWoken s j w).load cfg =
        State.load cfg { s with parked := Function.update s.parked j none } := by
      rw [acquireWoken]
      cases w.result with
      | some h => rfl
      | none => rfl
    rw [hzero] at hsum
    rw [hleave]
    simp only [State.load, completes, opens]
    omega
  | release j c healthy now =>
    have hle := load_release_le cfg { s with held := Function.update s.held j none } c healthy now
    rw [completes, opens, Nat.zero_add]
    exact hle
  | warm =>
    have hloop := load_warmLoop_le cfg s.spawn s.nextId 0
    rw [completes, opens]
    omega
  | startReaper =>
    rw [completes, opens, Nat.zero_add]
    split_ifs
    · exact le_rfl
    · exact le_rfl
  | @reaperTick ec now _ =>
    rw [completes, opens, Nat.zero_add]
    obtain heq | ⟨conns, -, heq⟩ := idleReaperImpl_cases cfg s ec now
    · rw [heq]
      exact le_rfl
    · rw [heq]
      exact le_rfl
  | drain =>
    rw [completes, opens, Nat.zero_add]
    exact load_le_of rfl rfl fun k => parkedLoad_foldl_failWaiter_le s.waiters s.parked
  | connLost c =>
    rw [completes, opens, Nat.zero_add]
    exact le_rfl

/-! ### What is left to do can be done -/

theorem load_eq_zero_iff (J : s.CallsOnce) : s.load cfg = 0 ↔ s.Settled := by
  constructor
  · intro hzero
    rw [State.load, Nat.add_eq_zero_iff, parkedSum, Finset.sum_eq_zero_iff] at hzero
    refine ⟨?_, fun k => ?_⟩
    · cases hc : s.connects with
      | nil => rfl
      | cons f fs =>
        have hpos : 0 < f.load cfg := by
          cases f with
          | acquire k => exact Nat.one_pos
          | warm k i => exact Nat.succ_pos _
        rw [hc, List.map_cons, List.sum_cons] at hzero
        omega
    · cases hk : s.parked k with
      | none => rfl
      | some w =>
        have hload := hzero.2 k (Finset.mem_range.mpr (lt_nextId_of_parked J hk))
        rw [parkedLoad, hk] at hload
        exact absurd hload w.load_pos.ne'
  · rintro ⟨hc, hp⟩
    rw [State.load, hc]
    simp [parkedSum, parkedLoad, hp]

/-- A suspended coroutine can be brought further. -/
theorem exists_completes (cfg : PoolConfig) (hs : ¬ s.Settled) :
    ∃ a s', completes a = 1 ∧ step cfg s a = some s' := by
  by_cases hc : s.connects = []
  · obtain ⟨k, hk⟩ : ∃ k, s.parked k ≠ none := by
      by_contra hnone
      exact hs ⟨hc, fun k => not_not.mp fun hk => hnone ⟨k, hk⟩⟩
    obtain ⟨w, hw⟩ := Option.ne_none_iff_exists'.mp hk
    by_cases ht : w.timer = .armed
    · have hstep : step cfg s (.timerExpire k) = some { s with
          parked := Function.update s.parked k (some { w with timer := .expired }) } := by
        simp only [step, hw, if_pos ht]
      exact ⟨_, _, rfl, hstep⟩
    · have hstep : step cfg s (.wake k) = some (acquireWoken s k w) := by
        simp only [step, hw, if_neg ht]
      exact ⟨_, _, rfl, hstep⟩
  · obtain ⟨f, hf⟩ := List.exists_mem_of_ne_nil _ hc
    cases f with
    | acquire k => exact ⟨.connectErr (.acquire k) .connectFailed, _, rfl, if_pos hf⟩
    | warm k i => exact ⟨.connectErr (.warm k i) .connectFailed, _, rfl, if_pos hf⟩

/-- Where no coroutine is suspended there is nothing to bring further. -/
theorem settled_iff : s.Settled ↔ ∀ a, completes a = 1 → step cfg s a = none := by
  constructor
  · rintro ⟨hc, hp⟩ a ha
    cases a with
    | connectOk f addr now => exact if_neg fun h => by simp [hc] at h
    | connectErr f e => exact if_neg fun h => by simp [hc] at h
    | timerExpire k => simp only [step, hp]
    | wake k => simp only [step, hp]
    | acquire _ | release _ _ _ _ | warm | startReaper | reaperTick _ _ | drain | connLost _ =>
      exact absurd ha (by simp [completes])
  · intro hnone
    by_contra hs
    obtain ⟨a, s', ha, hstep⟩ := exists_completes cfg hs
    rw [hnone a ha] at hstep
    cases hstep

/-! ### The calls and their places -/

/-- The calls of `acquire()` that a list of actions makes. -/
def acquires (as : List Action) : ℕ :=
  as.countP fun a =>
    match a with
    | .acquire _ => true
    | _ => false

/-- A segment puts into the places of calls what it starts. -/
theorem sum_frames_step (J : s.CallsOnce) (hs : step cfg s a = some s') :
    ∑ k ∈ Finset.range s'.nextId, s'.frames k =
      ∑ k ∈ Finset.range s.nextId, s.frames k + acquires [a] := by
  obtain ⟨hle, hacq⟩ := nextId_step hs
  have hframes : ∀ k, s'.frames k = s.frames k + starts s a k :=
    frames_step (J.fresh _ le_rfl) hs
  have hold : ∑ k ∈ Finset.range s'.nextId, s.frames k =
      ∑ k ∈ Finset.range s.nextId, s.frames k := by
    refine (Finset.sum_subset (Finset.range_subset_range.mpr hle) fun k _ hk => ?_).symm
    exact J.fresh k (Nat.not_lt.mp fun hlt => hk (Finset.mem_range.mpr hlt))
  have hnew : ∑ k ∈ Finset.range s'.nextId, starts s a k = acquires [a] := by
    cases a with
    | acquire now =>
      have hmem : s.nextId ∈ Finset.range s'.nextId := by
        rw [hacq ⟨now, rfl⟩]
        exact Finset.mem_range.mpr (Nat.lt_succ_self _)
      rw [show starts s (.acquire now) = fun k => if k = s.nextId then 1 else 0 from rfl,
        Finset.sum_ite_eq' _ _ _, if_pos hmem]
      rfl
    | connectOk _ _ _ | connectErr _ _ | timerExpire _ | wake _ | release _ _ _ _ | warm
    | startReaper | reaperTick _ _ | drain | connLost _ => exact Finset.sum_const_zero
  rw [Finset.sum_congr rfl fun k _ => hframes k, Finset.sum_add_distrib, hold, hnew]

/-- **The places that calls are in are as many as the calls.** -/
theorem sum_frames_run : ∀ {as : List Action} {s s' : State}, s.CallsOnce →
    run (step cfg) s as = some s' →
      ∑ k ∈ Finset.range s'.nextId, s'.frames k =
        ∑ k ∈ Finset.range s.nextId, s.frames k + acquires as
  | [], s, s', _, hr => by
    obtain rfl : s = s' := by simpa using hr
    rfl
  | a :: as, s, s', J, hr => by
    obtain ⟨t, ht, hr⟩ := run_cons_eq_some.mp hr
    have hsplit : acquires (a :: as) = acquires [a] + acquires as := by
      rw [acquires, ← List.singleton_append, List.countP_append]
      rfl
    rw [sum_frames_run (J.step ht) hr, sum_frames_step J ht, hsplit, Nat.add_assoc]

/-- Keys below a bound are counted key by key. -/
theorem sum_countP_fst {β : Type*} {l : List (ℕ × β)} {n : ℕ} (h : ∀ x ∈ l, x.1 < n) :
    ∑ k ∈ Finset.range n, l.countP (fun x => x.1 == k) = l.length := by
  induction l with
  | nil => simp
  | cons x l ih =>
    obtain ⟨hx, hl⟩ := List.forall_mem_cons.mp h
    simp only [List.countP_cons, beq_iff_eq, Finset.sum_add_distrib, ih hl, List.length_cons]
    rw [Finset.sum_ite_eq, if_pos (Finset.mem_range.mpr hx)]

/-- Where no call is suspended, each one is answered. -/
theorem State.Settled.length_returned (h : s.Settled) (J : s.CallsOnce) :
    s.returned.length = ∑ k ∈ Finset.range s.nextId, s.frames k := by
  have hframes : ∀ k, s.frames k = s.returned.countP fun x => x.1 == k := by
    intro k
    rw [State.frames, h.1, h.2 k]
    simp
  rw [Finset.sum_congr rfl fun k _ => hframes k]
  refine (sum_countP_fst fun x hx => ?_).symm
  by_contra hle
  have hzero := J.fresh x.1 (Nat.not_lt.mp hle)
  rw [hframes, List.countP_eq_zero] at hzero
  exact hzero x hx (beq_self_eq_true _)

/-- No call is answered twice. -/
theorem nodup_returned (J : s.CallsOnce) : (s.returned.map Prod.fst).Nodup := by
  refine List.nodup_iff_count_le_one.mpr fun k => ?_
  have hone := J.one k
  rw [State.frames] at hone
  rw [List.count_eq_countP, List.countP_map]
  exact (Nat.le_add_left _ _).trans hone

/-- **Every call settles.** In every run of the pool the steps that bring a suspended coroutine
further are bounded by the calls made: two for each `acquire()` and one more than the iterations for
each `warm()`, less what is left to do. What is left can be done: some run of such steps alone, no
longer than that, ends with no coroutine suspended, and one that cannot be continued ends so. By
then each `acquire()` has been answered, once. -/
theorem settles (cfg : PoolConfig) (as : List Action) (s : State)
    (hr : run (step cfg) initial as = some s) :
    (as.map completes).sum + s.load cfg ≤ (as.map (opens cfg)).sum ∧
      (∃ bs s', (∀ b ∈ bs, completes b = 1) ∧ bs.length ≤ s.load cfg ∧
        run (step cfg) s bs = some s' ∧ s'.Settled) ∧
      (s.Settled ↔ ∀ a, completes a = 1 → step cfg s a = none) ∧
      (s.Settled → s.returned.length = acquires as ∧ (s.returned.map Prod.fst).Nodup) := by
  have J := callsOnce_run callsOnce_initial hr
  have hkeep : ∀ (s : State) (a : Action) (s' : State),
      s.CallsOnce → step cfg s a = some s' → s'.CallsOnce := fun _ _ _ J hs => J.step hs
  have hdec : ∀ s : State, s.CallsOnce → 0 < s.load cfg →
      ∃ a s', completes a = 1 ∧ step cfg s a = some s' ∧ s'.load cfg < s.load cfg := by
    intro s J hpos
    have hnot : ¬ s.Settled := fun h => hpos.ne' ((load_eq_zero_iff J).mpr h)
    obtain ⟨a, s', ha, hs⟩ := exists_completes cfg hnot
    have hstep := load_step J hs
    have hopens : opens cfg a = 0 := by
      cases a with
      | connectOk _ _ _ | connectErr _ _ | timerExpire _ | wake _ => rfl
      | acquire _ | release _ _ _ _ | warm | startReaper | reaperTick _ _ | drain
      | connLost _ => simp [completes] at ha
    exact ⟨a, s', ha, hs, by omega⟩
  refine ⟨?_, ?_, settled_iff, fun h => ⟨?_, nodup_returned J⟩⟩
  · have hzero : initial.load cfg = 0 := rfl
    have hpaid := account_run hkeep (fun _ _ _ J hs => load_step J hs) callsOnce_initial hr
    rw [hzero, Nat.zero_add] at hpaid
    exact hpaid
  · obtain ⟨bs, s', hbs, hlen, hrun, hend⟩ := exists_run_zero hkeep hdec J
    exact ⟨bs, s', hbs, hlen, hrun, (load_eq_zero_iff (callsOnce_run J hrun)).mp hend⟩
  · rw [h.length_returned J, sum_frames_run callsOnce_initial hr]
    exact Nat.zero_add _

/-- A pool of one connection, with one call that has it and one that waits for it. -/
theorem settles_one_waiter : ∃ s : State,
    run (step { min := 1, max := 1 }) initial
        [.acquire 0, .connectOk (.acquire 0) 5 0, .acquire 1] = some s ∧
      ∃ bs s', bs.length ≤ 2 ∧ run (step { min := 1, max := 1 }) s bs = some s' ∧ s'.Settled := by
  obtain ⟨s, hs⟩ : ∃ s, run (step { min := 1, max := 1 }) initial
      [.acquire 0, .connectOk (.acquire 0) 5 0, .acquire 1] = some s := ⟨_, rfl⟩
  obtain ⟨hpaid, ⟨bs, s', -, hlen, hrun, hend⟩, -⟩ := settles { min := 1, max := 1 } _ s hs
  have hload : s.load { min := 1, max := 1 } ≤ 2 := by
    rw [← Option.some.inj hs]
    decide
  exact ⟨s, hs, bs, s', hlen.trans hload, hrun, hend⟩

end Pool

end DBMesh
