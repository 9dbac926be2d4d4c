import DBMesh.Pool.ConnectionPool
import Mathlib.Data.Set.Finite.Lemmas

/-!
# The capacity of the pool

`acquire_impl` and `warm_impl` test `all_.size() < max` *before* they suspend in `factory_()` and
insert the connection *after*, so the test does not see the connects in flight. What bounds the
tracked connections is the number `committed` of tracked connections and connects in flight
together: no segment raises it except by starting a connect.

## Main results

* `Pool.committed_step` — one segment raises `committed` by one if it starts a connect, else not
* `Pool.capacity_iff_committed` — the pool stays within `max` along every run that starts connects
  only below it, and a single connect started otherwise can be continued to a run that exceeds it
-/

namespace DBMesh

namespace Pool

open Transition

/-- Tracked connections and connects in flight. -/
def State.committed (s : State) : ℕ := s.all.length + s.connects.length

/-- The segments that suspend in a new `factory_()` call: the open path of `acquire_impl`, and an
iteration of `warm_impl`, the first or the next after a success. -/
def StartsConnect (cfg : PoolConfig) (s : State) : Action → Prop
  | .acquire _ => s.shuttingDown = false ∧ s.freeList = [] ∧ s.all.length < cfg.max
  | .warm => 0 < cfg.min ∧ s.shuttingDown = false ∧ s.all.length < cfg.max
  | .connectOk (.warm _ i) _ _ =>
    i + 1 < cfg.min ∧ s.shuttingDown = false ∧ s.all.length + 1 < cfg.max
  | _ => False

/-- A connect is started only while tracked connections and connects in flight are below `max`. -/
def WithinCapacity (cfg : PoolConfig) (s : State) (a : Action) : Prop :=
  StartsConnect cfg s a → s.committed < cfg.max

instance (cfg : PoolConfig) (s : State) : (a : Action) → Decidable (StartsConnect cfg s a)
  | .acquire _ => inferInstanceAs (Decidable (_ ∧ _ ∧ _))
  | .warm => inferInstanceAs (Decidable (_ ∧ _ ∧ _))
  | .connectOk (.warm _ _) _ _ => inferInstanceAs (Decidable (_ ∧ _ ∧ _))
  | .connectOk (.acquire _) _ _ | .connectErr _ _ | .timerExpire _ | .wake _ | .release _ _ _ _
  | .startReaper | .reaperTick _ _ | .drain | .connLost _ => isFalse id

instance (cfg : PoolConfig) (s : State) (a : Action) : Decidable (WithinCapacity cfg s a) :=
  inferInstanceAs (Decidable (_ → _))

variable {cfg : PoolConfig} {s s' : State} {a : Action} {c addr : Ptr} {k : CoroId} {now : Int}

/-! ### One segment -/

@[simp] theorem length_all_modify (f : PooledConnection → PooledConnection) :
    (s.modify c f).all.length = s.all.length := by
  simp [State.modify]

@[simp] theorem length_all_close : (s.close c).all.length = s.all.length := length_all_modify _

theorem length_all_untrack_le : (untrack s c).all.length ≤ s.all.length :=
  List.eraseP_sublist.length_le

theorem all_warmLoop (i : ℕ) : (warmLoop cfg s k i).all = s.all := by
  rw [warmLoop_eq]
  split <;> rfl

theorem committed_warmLoop (i : ℕ) :
    (warmLoop cfg s k i).committed = s.committed +
      if i < cfg.min ∧ s.shuttingDown = false ∧ s.all.length < cfg.max then 1 else 0 := by
  rw [warmLoop_eq]
  split
  · simp only [State.committed, List.length_append, List.length_singleton]
    omega
  · rfl

theorem committed_release_le (healthy : Bool) :
    (release s c healthy now).committed ≤ s.committed := by
  obtain ⟨-, h⟩ | ⟨-, -, h⟩ | ⟨-, -, w, rest, -, h⟩ | ⟨-, -, -, h⟩ := release_cases s c healthy now
  · rw [h]
  · rw [h]
    refine Nat.add_le_add_right (length_all_untrack_le.trans ?_) _
    exact (length_all_close (s := { s with active := s.active.erase c })).le
  · rw [h]
    exact Nat.add_le_add_right (length_all_modify (s := { s with active := _, waiters := _ })
      (fun x => { x with state := .inUse })).le _
  · rw [h]
    exact Nat.add_le_add_right (length_all_modify (s := { s with active := _ })
      (fun x => { x with state := .idle, lastUsed := now })).le _

theorem reapLoop_committed_le :
    ∀ (cs : List Ptr) (s : State) (keep : List Ptr),
      (reapLoop cfg now cs s keep).1.committed ≤ s.committed
  | [], _, _ => le_rfl
  | c :: cs, s, keep => by
    rw [reapLoop]
    split
    · refine (reapLoop_committed_le cs _ keep).trans (Nat.add_le_add_right ?_ _)
      exact length_all_untrack_le.trans length_all_close.le
    · exact reapLoop_committed_le cs s _

theorem length_track_modify (f : PooledConnection → PooledConnection) :
    ((track s addr now).modify addr f).all.length = s.all.length + 1 := by
  rw [length_all_modify]
  simp [track]

theorem length_connects_resume {f : Connect} (hf : f ∈ s.connects) :
    (s.resume f).connects.length + 1 = s.connects.length := by
  rw [show (s.resume f).connects = s.connects.erase f from rfl, List.length_erase_of_mem hf]
  exact Nat.succ_pred_eq_of_pos (List.length_pos_of_mem hf)

/-- A connect that succeeds turns into a tracked connection. -/
theorem connectOk_length {f : Connect} (hs : step cfg s (.connectOk f addr now) = some s') :
    s'.all.length = s.all.length + 1 ∧
      s'.committed = s.committed +
        if StartsConnect cfg s (.connectOk f addr now) then 1 else 0 := by
  cases segment_of_step hs with
  | @acquireConnected k _ _ hf _ =>
    have hall : (acquireConnected (s.resume (.acquire k)) k addr now).all.length
        = s.all.length + 1 := length_track_modify _
    refine ⟨hall, ?_⟩
    rw [State.committed, hall, State.committed, ← length_connects_resume hf,
      show (acquireConnected (s.resume (.acquire k)) k addr now).connects
        = (s.resume (.acquire k)).connects from rfl]
    simp only [StartsConnect, ↓reduceIte]
    omega
  | @warmConnected k i _ _ hf _ =>
    -- the state at the next loop head
    let t : State := (track (s.resume (.warm k i)) addr now).modify addr
      fun x => { x with state := .idle }
    let u : State := syncMetrics { t with freeList := t.freeList ++ [addr] }
    have hall : u.all.length = s.all.length + 1 := length_track_modify _
    have hcom : u.committed = s.committed := by
      rw [State.committed, hall, State.committed, ← length_connects_resume hf,
        show u.connects = (s.resume (.warm k i)).connects from rfl]
      omega
    rw [show warmConnected cfg (s.resume (.warm k i)) k i addr now = warmLoop cfg u k (i + 1)
      from rfl, all_warmLoop, committed_warmLoop, hall, hcom]
    exact ⟨rfl, rfl⟩

/-- **What one segment does to the capacity.** Only starting a connect raises it, and that by
exactly one. -/
theorem committed_step (hs : step cfg s a = some s') :
    if StartsConnect cfg s a then s'.committed = s.committed + 1
    else s'.committed ≤ s.committed := by
  cases segment_of_step hs with
  | acquireRefused hd =>
    rw [if_neg fun h => by simp [StartsConnect, hd] at h]
    exact le_rfl
  | acquireReuse _ hf =>
    rw [if_neg fun h => by simp [StartsConnect, hf] at h]
    exact Nat.add_le_add_right (length_all_modify (s := { s.spawn with freeList := _ }) _).le _
  | acquireOpen hd hf hm =>
    rw [if_pos ⟨hd, hf, hm⟩]
    simp only [State.committed, State.spawn, List.length_append, List.length_singleton]
    omega
  | acquirePark _ _ hm =>
    rw [if_neg fun h => hm h.2.2]
    exact le_rfl
  | acquireConnected _ _ =>
    rw [(connectOk_length hs).2]
    split <;> simp
  | warmConnected _ _ =>
    rw [(connectOk_length hs).2]
    split <;> simp
  | acquireFailed hf => exact Nat.add_le_add_left (Nat.le.intro (length_connects_resume hf)) _
  | warmFailed hf => exact Nat.add_le_add_left (Nat.le.intro (length_connects_resume hf)) _
  | timerExpire _ _ => exact le_rfl
  | @wake k w _ _ =>
    rw [acquireWoken]
    cases w.result <;> exact le_rfl
  | release k c healthy now => exact committed_release_le healthy
  | warm =>
    have hw : (warmLoop cfg s.spawn s.nextId 0).committed
        = s.committed + if StartsConnect cfg s .warm then 1 else 0 := committed_warmLoop 0
    rw [hw]
    split <;> simp
  | startReaper =>
    simp only [StartsConnect, ↓reduceIte]
    split <;> exact le_rfl
  | reaperTick _ =>
    simp only [StartsConnect, ↓reduceIte]
    rw [idleReaperImpl]
    split
    · exact le_rfl
    · exact reapLoop_committed_le s.freeList s []
  | drain => exact Nat.add_le_add_right (Nat.zero_le _) _
  | connLost c => exact Nat.add_le_add_right length_all_close.le _

/-! ### Runs -/

theorem committed_le_run {as : List Action} (h : s.committed ≤ cfg.max)
    (hok : Along (step cfg) (WithinCapacity cfg) s as) (hr : run (step cfg) s as = some s') :
    s'.committed ≤ cfg.max := by
  refine invariant_run (I := fun t => t.committed ≤ cfg.max) (fun t a t' ht hok hs => ?_) h hok hr
  have hstep := committed_step hs
  split at hstep
  · rename_i hstart
    have := hok hstart
    omega
  · exact hstep.trans ht

/-- Connects in flight can all succeed, so a pool that is committed beyond `max` can come to track
more than `max` connections. The induction is on how many are still missing. -/
theorem exists_run_exceeds (h : cfg.max < s.committed) :
    ∃ as s', run (step cfg) s as = some s' ∧ cfg.max < s'.all.length := by
  induction hn : cfg.max + 1 - s.all.length generalizing s with
  | zero => exact ⟨[], s, rfl, by omega⟩
  | succ n ih =>
    obtain ⟨f, fs, hf⟩ : ∃ f fs, s.connects = f :: fs := by
      refine List.exists_cons_of_ne_nil fun hnil => ?_
      simp only [State.committed, hnil, List.length_nil] at h
      omega
    obtain ⟨addr, haddr⟩ := Infinite.exists_notMem_finset s.addrs.toFinset
    obtain ⟨t, ht⟩ := exists_step_connectOk cfg 0 (hf ▸ List.mem_cons_self ..)
      (by simpa using haddr)
    obtain ⟨hlen, hcom⟩ := connectOk_length ht
    obtain ⟨as, s', hr, hgt⟩ := ih (s := t) (by omega) (by omega)
    exact ⟨_ :: as, s', run_cons_eq_some.mpr ⟨t, ht, hr⟩, hgt⟩

/-- **Capacity.** Along every run that starts connects only while tracked connections and connects
in flight are below `max`, the pool never tracks more than `max` connections. The condition is
exact: once a connect is started at or above `max`, some continuation exceeds the bound. -/
theorem capacity_iff_committed (cfg : PoolConfig) :
    (∀ as s, Along (step cfg) (WithinCapacity cfg) initial as →
        run (step cfg) initial as = some s → s.all.length ≤ cfg.max) ∧
      ∀ s a s', step cfg s a = some s' → ¬ WithinCapacity cfg s a →
        ∃ bs t, run (step cfg) s' bs = some t ∧ cfg.max < t.all.length := by
  refine ⟨fun as s hok hr => ?_, fun s a s' hs hover => ?_⟩
  · have h := committed_le_run (Nat.zero_le _) hok hr
    exact (Nat.le_add_right _ _).trans h
  · obtain ⟨hstart, hmax⟩ := Classical.not_imp.mp hover
    have hstep := committed_step hs
    rw [if_pos hstart] at hstep
    exact exists_run_exceeds (by omega)

/-- Two acquires that overlap in `factory_()`: both saw an empty pool. -/
theorem capacity_exceeded : ∃ s,
    run (step { min := 0, max := 1 }) initial
      [.acquire 0, .acquire 0, .connectOk (.acquire 0) 64 1, .connectOk (.acquire 1) 128 1]
        = some s ∧ ¬ s.all.length ≤ 1 :=
  ⟨_, rfl, by decide⟩

/-- One after the other, they stay within capacity. -/
theorem capacity_sequential : ∃ s,
    run (step { min := 0, max := 1 }) initial
      [.acquire 0, .connectOk (.acquire 0) 64 1, .acquire 2] = some s ∧ s.all.length ≤ 1 :=
  ⟨_, rfl, (capacity_iff_committed { min := 0, max := 1 }).1
    [.acquire 0, .connectOk (.acquire 0) 64 1, .acquire 2] _ (by decide +kernel) rfl⟩

end Pool

end DBMesh
