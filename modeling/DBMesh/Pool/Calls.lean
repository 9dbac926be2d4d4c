import DBMesh.Pool.Drain

/-!
# Calls of acquire

What a caller of `acquire()` can rely on across the segments of others. A call is in one place at a
time: suspended in `factory_()`, parked on its waiter, or completed; so it completes at most once,
and what it returned stays its checkout until it is released. A connection that somebody owns leaves
`all_` in two ways only, by a drain and by a release of its address.

## Main definitions

* `Pool.State.frames` — the places a call is in
* `Pool.State.answer` — what a call has returned

## Main results

* `Pool.frames_step` — a segment moves a call from one place to another, or starts one
* `Pool.answer_step` — what a segment does to the answer and the checkout of a call
* `Pool.tracked_step`, `Pool.owns_step` — connections that are owned stay tracked, and are tracked
  when they get an owner
-/

namespace DBMesh

namespace Pool

open Transition

/-- The number of places a call of `acquire()` is in. -/
def State.frames (s : State) (k : CoroId) : ℕ :=
  s.connects.count (.acquire k) + (s.parked k).isSome.toNat + s.returned.countP (·.1 == k)

/-- What a call of `acquire()` has returned. -/
def State.answer (s : State) (k : CoroId) : Option (Except PoolError Handle) := s.returned.lookup k

variable {cfg : PoolConfig} {s s' : State} {a : Action} {c : Ptr} {k j : CoroId} {h : Handle}
  {now : Int} {b : Borrower}

/-! ### The places of a call -/

theorem frames_congr (hc : s'.connects = s.connects)
    (hp : (s'.parked k).isSome = (s.parked k).isSome) (hr : s'.returned = s.returned) :
    s'.frames k = s.frames k := by
  rw [State.frames, State.frames, hc, hp, hr]

theorem frames_coReturn (r : Except PoolError Handle) :
    (coReturn s j r).frames k = s.frames k + if k = j then 1 else 0 := by
  simp only [State.frames, coReturn, List.countP_cons, beq_iff_eq, eq_comm (a := j)]
  omega

/-- A resumed connect has left `connects`. -/
theorem frames_resume_acquire (hf : .acquire j ∈ s.connects) :
    (s.resume (.acquire j)).frames k + (if k = j then 1 else 0) = s.frames k := by
  simp only [State.frames, State.resume]
  rcases eq_or_ne k j with rfl | hk
  · have hpos : 0 < s.connects.count (.acquire k) := List.count_pos_iff.mpr hf
    rw [List.count_erase_self, if_pos rfl]
    omega
  · rw [List.count_erase_of_ne (fun h => hk (Connect.acquire.inj h)), if_neg hk, Nat.add_zero]

theorem frames_resume_warm (i : ℕ) : (s.resume (.warm j i)).frames k = s.frames k := by
  simp only [State.frames, State.resume]
  rw [List.count_erase_of_ne (by simp)]

theorem frames_warmLoop (i : ℕ) : (warmLoop cfg s j i).frames k = s.frames k := by
  rw [warmLoop_eq]
  split
  · simp [State.frames, List.count_append]
  · rfl

theorem isSome_foldl_failWaiter (ks : List CoroId) (parked : CoroId → Option Waiter) :
    (ks.foldl failWaiter parked k).isSome = (parked k).isSome := by
  induction ks generalizing parked with
  | nil => rfl
  | cons j ks ih =>
    rw [List.foldl_cons, ih, failWaiter]
    rcases eq_or_ne k j with rfl | hk
    · rw [Function.update_self, Option.isSome_map]
    · rw [Function.update_of_ne hk]

/-- Handing a connection over wakes a waiter; it stays parked. -/
theorem frames_release {healthy : Bool} : (release s c healthy now).frames k = s.frames k := by
  obtain ⟨-, h⟩ | ⟨-, -, h⟩ | ⟨-, -, w, rest, -, h⟩ | ⟨-, -, -, h⟩ := release_cases s c healthy now
  · rw [h]
  · rw [h]
    rfl
  · rw [h]
    refine frames_congr rfl ?_ rfl
    rcases eq_or_ne k w with rfl | hk
    · simp [handOff, syncMetrics, State.modify]
    · simp [handOff, syncMetrics, State.modify, hk]
  · rw [h]
    rfl

theorem frames_acquireWoken {w : Waiter} (hw : s.parked j = some w) :
    (acquireWoken s j w).frames k = s.frames k := by
  have hleave : ∀ t : State, t.connects = s.connects → t.returned = s.returned →
      t.parked = Function.update s.parked j none →
      t.frames k + (if k = j then 1 else 0) = s.frames k := by
    intro t hc hr hp
    simp only [State.frames, hc, hr, hp]
    rcases eq_or_ne k j with rfl | hk
    · simp [hw]
      omega
    · simp [hk]
  rw [acquireWoken]
  cases w.result with
  | some h =>
    rw [frames_coReturn]
    exact hleave _ rfl rfl rfl
  | none =>
    rw [frames_coReturn]
    exact hleave _ rfl rfl rfl

/-- The call a segment starts. -/
def starts (s : State) (a : Action) (k : CoroId) : ℕ :=
  match a with
  | .acquire _ => if k = s.nextId then 1 else 0
  | _ => 0

/-- **A segment moves a call from one place to another, or starts one** under a new name. -/
theorem frames_step (hnew : s.frames s.nextId = 0) (hs : step cfg s a = some s') (k : CoroId) :
    s'.frames k = s.frames k + starts s a k := by
  cases segment_of_step hs with
  | acquireRefused _ => exact frames_coReturn _
  | acquireReuse _ _ => exact frames_coReturn _
  | acquireOpen _ _ _ =>
    simp only [State.frames, State.spawn, starts, List.count_append, List.count_singleton,
      beq_iff_eq, Connect.acquire.injEq, eq_comm (a := s.nextId)]
    omega
  | acquirePark _ _ _ =>
    have hpark : (s.parked s.nextId).isSome.toNat = 0 := by
      simp only [State.frames] at hnew
      omega
    simp only [State.frames, park, syncMetrics, State.spawn, starts]
    rcases eq_or_ne k s.nextId with rfl | hk
    · rw [Function.update_self, if_pos rfl, hpark, Option.isSome_some, Bool.toNat_true]
      omega
    · rw [Function.update_of_ne hk, if_neg hk, Nat.add_zero]
  | acquireConnected hf _ =>
    rw [show starts s _ k = 0 from rfl, Nat.add_zero, ← frames_resume_acquire hf]
    exact frames_coReturn _
  | @warmConnected j i addr now _ _ =>
    exact (frames_warmLoop (i + 1)).trans (frames_resume_warm (s := s) i)
  | acquireFailed hf =>
    rw [show starts s _ k = 0 from rfl, Nat.add_zero, ← frames_resume_acquire hf]
    exact frames_coReturn _
  | warmFailed _ => exact frames_resume_warm _
  | @timerExpire j w hw _ =>
    refine frames_congr rfl ?_ rfl
    rcases eq_or_ne k j with rfl | hk
    · simp [hw]
    · simp [hk]
  | wake hw _ => exact frames_acquireWoken hw
  | release j c healthy now => exact frames_release (s := { s with held := _ })
  | warm => exact frames_warmLoop (s := s.spawn) 0
  | startReaper => split <;> rfl
  | @reaperTick ec now _ =>
    obtain h | ⟨conns, -, h⟩ := idleReaperImpl_cases cfg s ec now
    · rw [h]
      rfl
    · rw [h]
      rfl
  | drain => exact frames_congr rfl (isSome_foldl_failWaiter _ _) rfl
  | connLost c => rfl

/-- The handler of `release` neither starts a call nor ends a checkout: its caller has given the
checkout up. -/
theorem release_keeps {healthy : Bool} :
    (release s c healthy now).held = s.held ∧ (release s c healthy now).nextId = s.nextId := by
  obtain ⟨-, h⟩ | ⟨-, -, h⟩ | ⟨-, -, w, rest, -, h⟩ | ⟨-, -, -, h⟩ := release_cases s c healthy now
  all_goals
    rw [h]
    exact ⟨rfl, rfl⟩

/-- Calls of `acquire()` and `warm()` take a name, in order. -/
theorem nextId_step (hs : step cfg s a = some s') :
    s.nextId ≤ s'.nextId ∧ ((∃ now, a = .acquire now) → s'.nextId = s.nextId + 1) := by
  have hloop : ∀ {t : State} {j : CoroId} {i : ℕ}, (warmLoop cfg t j i).nextId = t.nextId := by
    intro t j i
    rw [warmLoop_eq]
    split <;> rfl
  have hkeep : s'.nextId = s.nextId → (∀ now, a ≠ .acquire now) →
      s.nextId ≤ s'.nextId ∧ ((∃ now, a = .acquire now) → s'.nextId = s.nextId + 1) := by
    intro h hne
    refine ⟨h.ge, ?_⟩
    rintro ⟨now, ha⟩
    exact absurd ha (hne now)
  cases segment_of_step hs with
  | acquireRefused _ | acquireReuse _ _ | acquireOpen _ _ _ | acquirePark _ _ _ =>
    exact ⟨Nat.le_succ _, fun _ => rfl⟩
  | warm => exact ⟨hloop (t := s.spawn) ▸ Nat.le_succ _, by simp⟩
  | warmConnected _ _ => exact hkeep hloop (by simp)
  | @wake j w _ _ =>
    refine hkeep ?_ (by simp)
    rw [acquireWoken]
    cases w.result <;> rfl
  | release j c healthy now => exact hkeep (release_keeps (s := { s with held := _ })).2 (by simp)
  | startReaper =>
    refine hkeep ?_ (by simp)
    split <;> rfl
  | @reaperTick ec now _ =>
    refine hkeep ?_ (by simp)
    obtain h | ⟨conns, -, h⟩ := idleReaperImpl_cases cfg s ec now
    · rw [h]
    · rw [h]
      rfl
  | acquireConnected _ _ | acquireFailed _ | warmFailed _ | timerExpire _ _ | drain
  | connLost c => exact hkeep rfl (by simp)

/-! ### Answers -/

theorem lookup_eq_none_of_countP {l : List (CoroId × Except PoolError Handle)}
    (hl : l.countP (·.1 == k) = 0) : l.lookup k = none := by
  rw [List.lookup_eq_none_iff]
  intro p hp
  have hne := List.countP_eq_zero.mp hl p hp
  rw [beq_iff_eq] at hne
  exact bne_iff_ne.mpr (Ne.symm hne)

theorem frames_pos_of_answer {r : Except PoolError Handle} (h : s.answer k = some r) :
    0 < s.frames k := by
  by_contra hzero
  have hcount : s.returned.countP (·.1 == k) = 0 := by
    simp only [State.frames] at hzero
    omega
  exact absurd ((lookup_eq_none_of_countP hcount).symm.trans h) nofun

theorem held_warmLoop {i : ℕ} : (warmLoop cfg s k i).held = s.held := by
  rw [warmLoop_eq]
  split <;> rfl

/-- A segment that is no release completes a call, or leaves answers and checkouts as they are. -/
theorem history_step (hs : step cfg s a = some s') (ha : ∀ j c g n, a ≠ .release j c g n) :
    (s'.returned = s.returned ∧ s'.held = s.held) ∨
      ∃ j r, s'.returned = (coReturn s j r).returned ∧ s'.held = (coReturn s j r).held := by
  cases segment_of_step hs with
  | acquireRefused _ => exact .inr ⟨s.nextId, _, rfl, rfl⟩
  | acquireReuse _ _ => exact .inr ⟨s.nextId, _, rfl, rfl⟩
  | @acquireConnected j _ _ _ _ => exact .inr ⟨j, _, rfl, rfl⟩
  | @acquireFailed j e _ => exact .inr ⟨j, .error e, rfl, rfl⟩
  | @wake j w _ _ =>
    rw [acquireWoken]
    cases w.result with
    | some h => exact .inr ⟨j, .ok h, rfl, rfl⟩
    | none => exact .inr ⟨j, .error .timedOut, rfl, rfl⟩
  | warmConnected _ _ => exact .inl ⟨returned_warmLoop, held_warmLoop⟩
  | warm => exact .inl ⟨returned_warmLoop, held_warmLoop⟩
  | startReaper => split <;> exact .inl ⟨rfl, rfl⟩
  | @reaperTick ec now _ =>
    obtain h | ⟨conns, -, h⟩ := idleReaperImpl_cases cfg s ec now
    all_goals
      rw [h]
      exact .inl ⟨rfl, rfl⟩
  | release j c healthy now => exact absurd rfl (ha j c healthy now)
  | acquireOpen _ _ _ | acquirePark _ _ _ | warmFailed _ | timerExpire _ _ | drain
  | connLost c => exact .inl ⟨rfl, rfl⟩

/-- **What a segment does to one call**: nothing, or it completes it, for the first time. -/
theorem answer_step (hs : step cfg s a = some s') (ha : ∀ j c g n, a ≠ .release j c g n)
    (hone : s'.frames k ≤ 1) :
    (s'.answer k = s.answer k ∧ s'.held k = s.held k) ∨
      ∃ r, s.answer k = none ∧ s'.answer k = some r ∧ s'.held k = (coReturn s k r).held k := by
  obtain ⟨hr, hh⟩ | ⟨j, r, hr, hh⟩ := history_step hs ha
  · exact .inl ⟨congrArg _ hr, congrFun hh k⟩
  · rcases eq_or_ne k j with rfl | hk
    · refine .inr ⟨r, lookup_eq_none_of_countP ?_, ?_, congrFun hh k⟩
      · simp only [State.frames, hr, coReturn, List.countP_cons, beq_self_eq_true, if_true] at hone
        omega
      · rw [State.answer, hr]
        exact List.lookup_cons_self
    · refine .inl ⟨?_, ?_⟩
      · simp only [State.answer, hr, coReturn, List.lookup_cons, beq_false_of_ne hk]
      · rw [hh]
        cases r with
        | ok h => exact Function.update_of_ne hk ..
        | error e => rfl

/-- The handler of `release` completes no call, and the checkout ends. -/
theorem release_step {healthy : Bool} (hs : step cfg s (.release j c healthy now) = some s') :
    s'.returned = s.returned ∧ s'.held = Function.update s.held j none := by
  obtain rfl := Option.some.inj hs
  exact ⟨release_frame.1, release_keeps.1⟩

/-! ### Connections that are owned -/

theorem handles_warmLoop (i : ℕ) : (warmLoop cfg s j i).handles = s.handles :=
  congrArg (List.map _) (all_warmLoop i)

theorem mem_handles_modify (hm : h ∈ s.handles) {f : PooledConnection → PooledConnection}
    (hf : ∀ x, (f x).handle = x.handle) : h ∈ (s.modify c f).handles := by
  rwa [State.handles_modify s c hf]

/-- The reaper closes connections of the free list only. -/
theorem mem_handles_reapLoop :
    ∀ (cs : List Ptr) (s : State) (keep : List Ptr), h ∈ s.handles → h.ptr ∉ cs →
      h ∈ (reapLoop cfg now cs s keep).1.handles
  | [], _, _, hm, _ => hm
  | c :: cs, s, keep, hm, hcs => by
    rw [List.mem_cons, not_or] at hcs
    rw [reapLoop]
    split
    · refine mem_handles_reapLoop cs _ keep ?_ hcs.2
      rw [State.handles_untrack, State.handles_close]
      exact (List.mem_eraseP_of_neg (by simpa using hcs.1)).mpr hm
    · exact mem_handles_reapLoop cs s _ hm hcs.2

theorem mem_handles_release {healthy : Bool} (hm : h ∈ s.handles) (hc : h.ptr ≠ c) :
    h ∈ (release s c healthy now).handles := by
  obtain ⟨-, heq⟩ | ⟨-, -, heq⟩ | ⟨-, -, w, rest, -, heq⟩ | ⟨-, -, -, heq⟩ :=
    release_cases s c healthy now
  · rwa [heq]
  · rw [heq]
    show h ∈ (untrack (State.close { s with active := s.active.erase c } c) c).handles
    rw [State.handles_untrack, State.handles_close]
    exact (List.mem_eraseP_of_neg (by simpa using hc)).mpr hm
  · rw [heq]
    exact mem_handles_modify (s := { s with active := _, waiters := rest }) hm
      (f := fun x => { x with state := .inUse }) fun _ => rfl
  · rw [heq]
    exact mem_handles_modify (s := { s with active := _ }) hm
      (f := fun x => { x with state := .idle, lastUsed := now }) fun _ => rfl

/-- **A connection in use stays tracked**, unless the pool is drained or its address released. -/
theorem tracked_step (I : Inv s) (hs : step cfg s a = some s') (hm : h ∈ s.handles)
    (hact : h.ptr ∈ s.active) (hd : a ≠ .drain) (hr : ∀ j g n, a ≠ .release j h.ptr g n) :
    h ∈ s'.handles := by
  cases segment_of_step hs with
  | @acquireReuse now c rest _ _ =>
    exact mem_handles_modify (s := { s.spawn with freeList := rest }) hm
      (f := fun x => { x with state := .inUse, lastUsed := now }) fun _ => rfl
  | @acquireConnected j addr now _ _ =>
    refine mem_handles_modify (s := track (s.resume (.acquire j)) addr now) ?_
      (f := fun x => { x with state := .inUse }) fun _ => rfl
    rw [State.handles_track]
    exact List.mem_append_left _ hm
  | @warmConnected j i addr now _ _ =>
    rw [warmConnected, handles_warmLoop]
    refine mem_handles_modify (s := track (s.resume (.warm j i)) addr now) ?_
      (f := fun x => { x with state := .idle }) fun _ => rfl
    rw [State.handles_track]
    exact List.mem_append_left _ hm
  | @wake j w _ _ =>
    rw [acquireWoken]
    cases w.result <;> exact hm
  | release j c healthy now =>
    refine mem_handles_release (s := { s with held := _ }) hm fun hc => ?_
    exact hr j healthy now (by rw [hc])
  | warm =>
    rw [handles_warmLoop]
    exact hm
  | startReaper => split <;> exact hm
  | @reaperTick ec now _ =>
    have hfree : h.ptr ∉ s.freeList := fun hmem => I.ledger.free_not_active _ hmem hact
    obtain heq | ⟨conns, hconns, heq⟩ := idleReaperImpl_cases cfg s ec now
    · rw [heq]
      exact hm
    · have hmem : h ∈ (reapLoop cfg now s.freeList s []).1.handles :=
        mem_handles_reapLoop s.freeList s [] hm hfree
      rw [hconns] at hmem
      rw [heq]
      exact hmem
  | drain => exact absurd rfl hd
  | connLost c => rwa [State.handles_close]
  | acquireRefused _ | acquireOpen _ _ _ | acquirePark _ _ _ | acquireFailed _ | warmFailed _
  | timerExpire _ _ => exact hm

/-! ### New owners -/

theorem owns_checkOut (hc : c ∈ s.addrs) (ho : (checkOut s k c).Owns b h) :
    s.Owns b h ∨ h ∈ (checkOut s k c).handles := by
  obtain ho | ⟨-, rfl⟩ := owns_coReturn_ok ho
  · exact .inl ho
  · exact .inr (State.handleOf_mem (s := { s with active := _, totalAcquired := _ }) hc)

/-- A waiter that is not given a result owns nothing new. -/
theorem owns_update_parked {o : Option Waiter} {held : CoroId → Option Handle}
    {parked : CoroId → Option Waiter}
    (ho : ∀ w, o = some w → w.result = none ∨ ∃ w₀, parked j = some w₀ ∧ w₀.result = w.result)
    (hb : Owns held (Function.update parked j o) b h) : Owns held parked b h := by
  rcases b with i | i
  · exact hb
  · obtain ⟨w, hw, hres⟩ := hb
    rcases eq_or_ne i j with rfl | hi
    · rw [Function.update_self] at hw
      obtain hnone | ⟨w₀, hw₀, heq⟩ := ho w hw
      · exact absurd (hnone.symm.trans hres) nofun
      · exact ⟨w₀, hw₀, heq.trans hres⟩
    · rw [Function.update_of_ne hi] at hw
      exact ⟨w, hw, hres⟩

/-- A waiter is handed a connection that is tracked. -/
theorem owns_handOff {w : CoroId} {rest : List CoroId} (hc : c ∈ s.addrs)
    (ho : (handOff s c w rest).Owns b h) : s.Owns b h ∨ h ∈ (handOff s c w rest).handles := by
  let t : State :=
    { { s with waiters := rest }.modify c fun x => { x with state := .inUse } with
      active := insert c s.active }
  rcases b with i | i
  · exact .inl ho
  · obtain ⟨w', hw', hres⟩ := ho
    rcases eq_or_ne i w with rfl | hi
    · have hpark : (handOff s c i rest).parked i =
          (s.parked i).map fun p => ⟨p.timer.cancel, some (t.handleOf c)⟩ := Function.update_self ..
      rw [hpark] at hw'
      obtain ⟨p, -, rfl⟩ := Option.map_eq_some_iff.mp hw'
      obtain rfl := Option.some.inj hres
      have hmem : t.handleOf c ∈ t.handles := by
        refine State.handleOf_mem ?_
        rw [← State.map_ptr_handles,
          show t.handles = s.handles from State.handles_modify _ c (by exact fun _ => rfl),
          State.map_ptr_handles]
        exact hc
      exact .inr hmem
    · have hpark : (handOff s c w rest).parked i = s.parked i := Function.update_of_ne hi ..
      exact .inl ⟨w', hpark ▸ hw', hres⟩

theorem owns_release {healthy : Bool} (hact : ∀ c ∈ s.active, c ∈ s.addrs)
    (ho : (release s c healthy now).Owns b h) :
    s.Owns b h ∨ h ∈ (release s c healthy now).handles := by
  obtain ⟨-, heq⟩ | ⟨-, -, heq⟩ | ⟨hc, -, w, rest, -, heq⟩ | ⟨-, -, -, heq⟩ :=
    release_cases s c healthy now
  · rw [heq] at ho
    exact .inl ho
  · rw [heq] at ho
    exact .inl ho
  · rw [heq] at ho ⊢
    exact owns_handOff (s := { s with active := s.active.erase c }) (hact c hc) ho
  · rw [heq] at ho
    exact .inl ho

theorem owns_warmLoop (i : ℕ) : (warmLoop cfg s j i).Owns b h ↔ s.Owns b h := by
  rw [warmLoop_eq]
  split <;> rfl

/-- **A connection that gets an owner is tracked**; or a waiter that had it becomes its caller. -/
theorem owns_step (I : Inv s) (hs : step cfg s a = some s') (ho : s'.Owns b h) :
    s.Owns b h ∨ (∃ j, b = .caller j ∧ s.Owns (.waiter j) h) ∨ h ∈ s'.handles := by
  cases segment_of_step hs with
  | @acquireReuse now c rest _ hf =>
    exact (owns_checkOut (I.mem_addrs_reuse now hf) ho).imp_right .inr
  | @acquireConnected j addr now _ _ =>
    have hc := mem_addrs_connected (s.resume (.acquire j)) addr now
    exact (owns_checkOut hc ho).imp_right .inr
  | acquirePark _ _ _ =>
    refine .inl (owns_update_parked (fun w hw => .inl ?_) ho)
    exact Option.some.inj hw ▸ rfl
  | @timerExpire j w hk _ =>
    refine .inl (owns_update_parked (fun w' hw' => .inr ⟨w, hk, ?_⟩) ho)
    exact Option.some.inj hw' ▸ rfl
  | @wake j w hk _ =>
    rw [acquireWoken] at ho
    cases hres : w.result with
    | some g =>
      rw [hres] at ho
      obtain ho | ⟨rfl, rfl⟩ := owns_coReturn_ok ho
      · exact .inl (owns_update_parked (o := none) (by simp) ho)
      · exact .inr (.inl ⟨j, rfl, w, hk, hres⟩)
    | none =>
      rw [hres] at ho
      exact .inl (owns_update_parked (o := none) (by simp) ho)
  | release j c healthy now =>
    have hact : ∀ d ∈ s.active, d ∈ s.addrs := fun d hd =>
      s.map_ptr_handles ▸ (I.ledger.mem_iff d).mpr (.inr hd)
    obtain ho | hm := owns_release (s := { s with held := Function.update s.held j none }) hact ho
    · refine .inl ?_
      rcases b with i | i
      · rcases eq_or_ne i j with rfl | hi
        · simp [Owns] at ho
        · simpa [Owns, hi] using ho
      · exact ho
    · exact .inr (.inr hm)
  | warmConnected _ _ =>
    rw [warmConnected, owns_warmLoop] at ho
    exact .inl ho
  | warm =>
    rw [owns_warmLoop] at ho
    exact .inl ho
  | startReaper => split at ho <;> exact .inl ho
  | @reaperTick ec now _ =>
    obtain heq | ⟨conns, -, heq⟩ := idleReaperImpl_cases cfg s ec now
    · rw [heq] at ho
      exact .inl ho
    · rw [heq] at ho
      exact .inl ho
  | drain =>
    rcases b with i | i
    · exact .inl ho
    · obtain ⟨w, hw, hres⟩ := ho
      exact .inl ⟨w, result_foldl_failWaiter hres s.waiters s.parked hw, hres⟩
  | acquireRefused _ | acquireOpen _ _ _ | acquireFailed _ | warmFailed _ | connLost c =>
    exact .inl ho

end Pool

end DBMesh
