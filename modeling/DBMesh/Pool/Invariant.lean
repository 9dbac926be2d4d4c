import DBMesh.Pool.Ledger

/-!
# The representation invariant of the pool

`Inv` holds of the constructed pool and is preserved by every strand segment, as long as callers
release only what they have checked out. Its core is the checkout ledger over the pool's own
containers, with two kinds of borrowers: a caller whose acquire returned `Ok`, and a waiter that
`release` has handed a connection and that has not resumed yet. A waiter that resumes turns into a
caller, so the two must be told apart for the handle to keep a single owner in between.

## Main results

* `Pool.Inv.step` — every segment preserves the invariant
* `Pool.inv_run` — it holds after every disciplined run from the constructed pool
* `Pool.representation_invariant` — what it says about the containers, the counters and checkouts
-/

namespace DBMesh

namespace Pool

open Transition

/-! ### Handles of a state -/

theorem State.map_ptr_handles (s : State) : s.handles.map Handle.ptr = s.addrs := by
  simp [State.handles, State.addrs, PooledConnection.handle, Function.comp_def]

theorem State.length_handles (s : State) : s.handles.length = s.all.length := by
  simp [State.handles]

/-- Writing members other than the identity does not change which connections are tracked. -/
theorem State.handles_modify (s : State) (c : Ptr) {f : PooledConnection → PooledConnection}
    (hf : ∀ x, (f x).handle = x.handle) : (s.modify c f).handles = s.handles := by
  simp only [State.handles, State.modify, List.map_map]
  refine List.map_congr_left fun x _ => ?_
  simp only [Function.comp_apply]
  split
  · exact hf x
  · rfl

@[simp] theorem State.handles_close (s : State) (c : Ptr) : (s.close c).handles = s.handles :=
  s.handles_modify c fun _ => rfl

@[simp] theorem State.handles_track (s : State) (addr : Ptr) (now : Int) :
    (track s addr now).handles = s.handles ++ [⟨addr, s.nextObj⟩] := by
  simp [State.handles, track, PooledConnection.handle]

@[simp] theorem State.handles_untrack (s : State) (c : Ptr) :
    (untrack s c).handles = s.handles.eraseP (·.ptr = c) := by
  simp only [State.handles, untrack, List.eraseP_map]
  rfl

/-- A pointer into `all_` is handed out with the object it points to. -/
theorem State.handleOf_mem {s : State} {c : Ptr} (hc : c ∈ s.addrs) : s.handleOf c ∈ s.handles := by
  obtain ⟨x, hx, rfl⟩ := List.mem_map.mp hc
  obtain ⟨y, hy⟩ : ∃ y, s.deref x.addr = some y := by
    refine Option.isSome_iff_exists.mp (List.find?_isSome.mpr ⟨x, hx, by simp⟩)
  have haddr : y.addr = x.addr := by simpa using List.find?_some hy
  refine List.mem_map.mpr ⟨y, List.mem_of_find?_eq_some hy, ?_⟩
  simp [State.handleOf, hy, PooledConnection.handle, haddr]

/-! ### Borrowers -/

/-- Who can have a handle: the caller of an acquire, or a waiter that was handed one. -/
inductive Borrower
  | caller (k : CoroId)
  | waiter (k : CoroId)

/-- The handle a borrower has. -/
def Owns (held : CoroId → Option Handle) (parked : CoroId → Option Waiter) :
    Borrower → Handle → Prop
  | .caller k, h => held k = some h
  | .waiter k, h => ∃ w, parked k = some w ∧ w.result = some h

abbrev State.Owns (s : State) : Borrower → Handle → Prop := Pool.Owns s.held s.parked

/-- The pool's containers and borrowers as a checkout ledger. -/
abbrev State.Ledger (s : State) : Prop :=
  Pool.Ledger s.handles s.freeList s.active s.nextObj s.Owns s.shuttingDown

/-- The published counters are the container sizes. -/
def State.Synced (s : State) : Prop :=
  s.freeCount = s.freeList.length ∧ s.activeCount = s.active.card ∧
    s.waiterCount = s.waiters.length ∧ s.totalCount = s.all.length

theorem synced_syncMetrics (s : State) : (syncMetrics s).Synced := ⟨rfl, rfl, rfl, rfl⟩

/-- The queue of waiters: distinct calls of `acquire`, none of which has been handed anything. -/
structure Queue (waiters : List CoroId) (nextId : CoroId) (parked : CoroId → Option Waiter) :
    Prop where
  nodup : waiters.Nodup
  lt : ∀ k ∈ waiters, k < nextId
  result_none : ∀ k ∈ waiters, ∃ w, parked k = some w ∧ w.result = none

abbrev State.Queue (s : State) : Prop := Pool.Queue s.waiters s.nextId s.parked

/-- **The invariant.** -/
structure Inv (s : State) : Prop where
  ledger : s.Ledger
  queue : s.Queue
  synced : s.Synced

theorem not_owns_initial : ∀ b h, ¬ initial.Owns b h := by
  rintro (k | k) h ho
  · exact Option.some_ne_none h ho.symm
  · obtain ⟨w, hw, -⟩ := ho
    exact Option.some_ne_none w hw.symm

theorem inv_initial : Inv initial where
  ledger :=
    { ptr_nodup := List.nodup_nil
      obj_nodup := List.nodup_nil
      obj_lt := by simp [initial, State.handles]
      free_nodup := List.nodup_nil
      free_not_active := by simp [initial]
      mem_iff := by simp [initial, State.handles]
      owner_lt := fun ho => absurd ho (not_owns_initial _ _)
      exclusive := fun ho => absurd ho (not_owns_initial _ _)
      owner_active := fun ho => absurd ho (not_owns_initial _ _)
      owner_tracked := fun _ _ _ ho => absurd ho (not_owns_initial _ _) }
  queue := ⟨List.nodup_nil, by simp [initial], by simp [initial]⟩
  synced := ⟨rfl, rfl, rfl, rfl⟩

/-! ### Completing an acquire -/

variable {s : State} {k : CoroId} {c : Ptr} {h : Handle} {now : Int}

theorem owns_coReturn_ok {b : Borrower} {h' : Handle} (ho : (coReturn s k (.ok h)).Owns b h') :
    s.Owns b h' ∨ b = .caller k ∧ h' = h := by
  rcases b with j | j
  · rcases eq_or_ne j k with rfl | hj
    · have hh : some h = some h' := by simpa [Owns, coReturn] using ho
      exact Or.inr ⟨rfl, (Option.some.inj hh).symm⟩
    · exact Or.inl (by simpa [Owns, coReturn, hj] using ho)
  · exact Or.inl ho

/-- Completing with an error changes nothing but the history. -/
theorem Inv.coReturn_error (I : Inv s) (e : PoolError) : Inv (coReturn s k (.error e)) where
  ledger := I.ledger
  queue := I.queue
  synced := I.synced

/-- Completing with an active connection nobody owns checks it out. -/
theorem Inv.coReturn_ok (I : Inv s) (ht : h ∈ s.handles) (hact : h.ptr ∈ s.active)
    (hnew : ∀ {b h'}, s.Owns b h' → h.obj ≠ h'.obj) : Inv (coReturn s k (.ok h)) where
  ledger := I.ledger.lend ht hact hnew owns_coReturn_ok
  queue := I.queue
  synced := I.synced

/-- A new coroutine gets a name. -/
theorem Inv.spawn (I : Inv s) : Inv s.spawn where
  ledger := I.ledger
  queue := ⟨I.queue.nodup, fun j hj => Nat.lt_succ_of_lt (I.queue.lt j hj), I.queue.result_none⟩
  synced := I.synced

/-- A frame in `factory_()` is no part of the containers. -/
theorem Inv.connects (I : Inv s) (fs : List Connect) : Inv { s with connects := fs } where
  ledger := I.ledger
  queue := I.queue
  synced := I.synced

/-! ### The segments of acquire -/

/-- Checking out a tracked connection nobody owns, once the containers list it as active. -/
theorem Inv.checkOut
    (L : Ledger s.handles s.freeList (insert c s.active) s.nextObj s.Owns s.shuttingDown)
    (Q : s.Queue) (hnew : ∀ t ∈ s.handles, t.ptr = c → ∀ {b h'}, s.Owns b h' → t.obj ≠ h'.obj) :
    Inv (checkOut s k c) := by
  let t : State := { s with active := insert c s.active, totalAcquired := s.totalAcquired + 1 }
  have It : Inv (syncMetrics t) :=
    ⟨L, Q, synced_syncMetrics t⟩
  have hmem : t.handleOf c ∈ t.handles := by
    refine State.handleOf_mem ?_
    rw [← t.map_ptr_handles]
    exact (L.mem_iff c).mpr (Or.inr (Finset.mem_insert_self c _))
  refine It.coReturn_ok hmem (Finset.mem_insert_self c _) fun {b h'} ho => ?_
  exact hnew _ hmem rfl ho

theorem Inv.reuse {rest : List Ptr} (I : Inv s) (hfree : s.freeList = c :: rest) :
    Inv (reuse s k c rest now) := by
  have L : Ledger s.handles (c :: rest) s.active s.nextObj s.Owns s.shuttingDown :=
    hfree ▸ I.ledger
  have hh := State.handles_modify { s with freeList := rest } c
    (f := fun x => { x with state := .inUse, lastUsed := now }) fun _ => rfl
  refine Inv.checkOut ?_ I.queue fun t ht hptr b h' ho => ?_
  · rw [hh]
    exact L.activate
  · rw [hh] at ht
    exact L.not_owned_of_free ht (hptr ▸ List.mem_cons_self ..)
      ho

theorem Inv.park (I : Inv s) (hk : k < s.nextId) (hq : k ∉ s.waiters) : Inv (park s k) where
  ledger := I.ledger.mono fun {b h} ho => by
    rcases b with j | j
    · exact ho
    · rcases eq_or_ne j k with rfl | hj
      · simp [Owns, Pool.park, syncMetrics] at ho
      · simpa [Owns, Pool.park, syncMetrics, hj] using ho
  queue := by
    refine ⟨?_, fun j hj => ?_, fun j hj => ?_⟩
    · have hnd : (s.waiters ++ [k]).Nodup := by
        simpa [List.nodup_append, hq] using ⟨I.queue.nodup, fun j hj hjk => hq (hjk ▸ hj)⟩
      exact hnd
    · rcases List.mem_append.mp hj with hj | hj
      · exact I.queue.lt j hj
      · rwa [List.mem_singleton.mp hj]
    · rcases eq_or_ne j k with rfl | hjk
      · exact ⟨{}, Function.update_self .., rfl⟩
      · have hj : j ∈ s.waiters := by
          rcases List.mem_append.mp hj with hj | hj
          · exact hj
          · exact absurd (List.mem_singleton.mp hj) hjk
        simpa [Pool.park, syncMetrics, hjk] using I.queue.result_none j hj
  synced := synced_syncMetrics _

theorem Inv.acquireConnected {addr : Ptr} (I : Inv s) (ha : addr ∉ s.addrs) :
    Inv (acquireConnected s k addr now) := by
  have hh : ((track s addr now).modify addr fun x => { x with state := .inUse }).handles
      = s.handles ++ [⟨addr, s.nextObj⟩] := by
    rw [State.handles_modify _ addr (by exact fun _ => rfl), State.handles_track]
  have L := I.ledger.admitActive addr (by rwa [s.map_ptr_handles])
  refine Inv.checkOut ?_ I.queue fun t ht hptr b h' ho => ?_
  · rw [hh]
    exact L
  · rw [hh] at ht
    rw [L.eq_of_ptr_eq ht (List.mem_append_right _ (List.mem_singleton_self _)) hptr]
    exact (I.ledger.owner_lt ho).ne'

/-- Queued waiters have been handed nothing. -/
theorem Inv.not_mem_waiters (I : Inv s) (ho : s.Owns (.waiter k) h) : k ∉ s.waiters := by
  intro hk
  obtain ⟨w, hw, hres⟩ := ho
  obtain ⟨w', hw', hnone⟩ := I.queue.result_none k hk
  rw [Option.some.inj (hw.symm.trans hw'), hnone] at hres
  exact absurd hres nofun

/-- A resuming waiter that was handed a connection becomes its caller; one that was not leaves the
queue. -/
theorem Inv.acquireWoken {w : Waiter} (I : Inv s) (hw : s.parked k = some w) :
    Inv (acquireWoken s k w) := by
  rw [Pool.acquireWoken]
  cases hres : w.result with
  | some h =>
    have hown : s.Owns (.waiter k) h := ⟨w, hw, hres⟩
    have hkq : k ∉ s.waiters := I.not_mem_waiters hown
    refine ⟨I.ledger.passOn (k := .caller k) hown fun {b h'} ho => ?_,
      ⟨I.queue.nodup, I.queue.lt, fun j hj => ?_⟩, I.synced⟩
    · rcases owns_coReturn_ok ho with ho | ho
      · rcases b with j | j
        · exact Or.inl ⟨Borrower.noConfusion, ho⟩
        · obtain ⟨w', hw', hres'⟩ := ho
          have hj : j ≠ k := by
            rintro rfl
            simp at hw'
          exact Or.inl ⟨fun hb => hj (Borrower.waiter.inj hb), w', by simpa [hj] using hw', hres'⟩
      · exact Or.inr ho
    · have hjk : j ≠ k := fun hjk => hkq (hjk ▸ hj)
      simpa [coReturn, hjk] using I.queue.result_none j hj
  | none =>
    let t : State :=
      { s with parked := Function.update s.parked k none, waiters := s.waiters.erase k }
    have It : Inv (syncMetrics t) := by
      refine ⟨I.ledger.mono fun {b h'} ho => ?_, ⟨I.queue.nodup.erase k, fun j hj => ?_,
        fun j hj => ?_⟩, synced_syncMetrics t⟩
      · rcases b with j | j
        · exact ho
        · obtain ⟨w', hw', hres'⟩ := ho
          have hj : j ≠ k := by
            rintro rfl
            simp [t, syncMetrics] at hw'
          exact ⟨w', by simpa [t, syncMetrics, hj] using hw', hres'⟩
      · exact I.queue.lt j (List.mem_of_mem_erase hj)
      · have hjk : j ≠ k := fun hjk => I.queue.nodup.not_mem_erase (hjk ▸ hj)
        simpa [t, syncMetrics, hjk] using I.queue.result_none j (List.mem_of_mem_erase hj)
    exact It.coReturn_error _

/-! ### The handler of release -/

/-- A tracked pointer that no borrower has belongs to an object that no borrower has. -/
theorem State.Ledger.obj_ne (L : s.Ledger) {t : Handle} (ht : t ∈ s.handles) {b : Borrower}
    (ho : s.Owns b h) (hne : h.ptr ≠ t.ptr) : t.obj ≠ h.obj := by
  intro heq
  obtain ⟨rfl, -⟩ := L.owner_active ho ht heq
  exact hne rfl

/-- The connection leaves `active_` and enters it again, now lent to the waiter. -/
theorem Inv.handOff {w : CoroId} {rest : List CoroId} (I : Inv s) (hc : c ∈ s.active)
    (hnew : ∀ {b h}, s.Owns b h → h.ptr ≠ c) (hq : s.waiters = w :: rest) :
    Inv (handOff { s with active := s.active.erase c } c w rest) := by
  have hnd : w ∉ rest ∧ rest.Nodup := List.nodup_cons.mp (hq ▸ I.queue.nodup)
  have hrest : ∀ j ∈ rest, j ∈ s.waiters := fun j hj => hq ▸ List.mem_cons_of_mem _ hj
  obtain ⟨p, hp, -⟩ := I.queue.result_none w (hq ▸ List.mem_cons_self ..)
  let u : State :=
    { { s with active := s.active.erase c, waiters := rest }.modify c
        fun x => { x with state := .inUse } with
      active := insert c (s.active.erase c) }
  have hh : u.handles = s.handles := State.handles_modify
    { s with active := s.active.erase c, waiters := rest } c (by exact fun _ => rfl)
  have hmem : u.handleOf c ∈ s.handles := by
    rw [← hh]
    refine State.handleOf_mem ?_
    rw [← u.map_ptr_handles, hh]
    exact (I.ledger.mem_iff c).mpr (Or.inr hc)
  have hact : insert c (s.active.erase c) = s.active := Finset.insert_erase hc
  have L : Ledger u.handles s.freeList (insert c (s.active.erase c)) s.nextObj
      (Owns s.held (Function.update s.parked w
        ((s.parked w).map fun p => ⟨p.timer.cancel, some (u.handleOf c)⟩))) s.shuttingDown := by
    rw [hh, hact]
    refine I.ledger.lend (k := .waiter w) hmem hc (fun {b h'} ho => I.ledger.obj_ne hmem ho
      (hnew ho)) fun {b h'} ho => ?_
    rcases b with j | j
    · exact Or.inl ho
    · rcases eq_or_ne j w with rfl | hj
      · obtain ⟨p', hp', hres⟩ := ho
        rw [Function.update_self, hp, Option.map_some] at hp'
        rw [← Option.some.inj hp'] at hres
        exact Or.inr ⟨rfl, (Option.some.inj hres).symm⟩
      · obtain ⟨p', hp', hres⟩ := ho
        rw [Function.update_of_ne hj] at hp'
        exact Or.inl ⟨p', hp', hres⟩
  refine ⟨L, ⟨hnd.2, fun j hj => I.queue.lt j (hrest j hj), fun j hj => ?_⟩, synced_syncMetrics _⟩
  have hjw : j ≠ w := fun hjw => hnd.1 (hjw ▸ hj)
  obtain ⟨p', hp', hres⟩ := I.queue.result_none j (hrest j hj)
  exact ⟨p', (Function.update_of_ne hjw ..).trans hp', hres⟩

/-- **Release.** A pointer nobody else has leaves the active set for the free list, for the waiter
at the front of the queue, or for good. -/
theorem Inv.release {healthy : Bool} (I : Inv s)
    (hnew : s.shuttingDown = false → ∀ {b h}, s.Owns b h → h.ptr ≠ c) :
    Inv (release s c healthy now) := by
  obtain ⟨-, h⟩ | ⟨hc, -, h⟩ | ⟨hc, hopen, w, rest, hq, h⟩ | ⟨hc, hopen, -, h⟩ :=
    release_cases s c healthy now
  · rwa [h]
  · rw [h]
    refine ⟨?_, I.queue, synced_syncMetrics _⟩
    have L := I.ledger.retireActive hc hnew
    rw [← State.handles_close s c, ← State.handles_untrack] at L
    exact L
  · rw [h]
    exact I.handOff hc (hnew (State.shuttingDown_of_not_closes hopen)) hq
  · rw [h]
    refine ⟨?_, I.queue, synced_syncMetrics _⟩
    have L := I.ledger.giveBack hc (hnew (State.shuttingDown_of_not_closes hopen))
    rw [← State.handles_modify s c
      (f := fun x => { x with state := .idle, lastUsed := now }) fun _ => rfl] at L
    exact L

/-- The caller that releases its checkout is the only one that had the pointer. -/
theorem Inv.release_held {healthy : Bool} (I : Inv s) (hheld : s.held k = some h) :
    Inv (Pool.release { s with held := Function.update s.held k none } h.ptr healthy now) := by
  have hsub : ∀ {b h'}, Owns (Function.update s.held k none) s.parked b h' →
      b ≠ .caller k ∧ s.Owns b h' := by
    rintro (j | j) h' ho
    · rcases eq_or_ne j k with rfl | hj
      · simp [Owns] at ho
      · exact ⟨fun hb => hj (Borrower.caller.inj hb), by simpa [Owns, hj] using ho⟩
    · exact ⟨Borrower.noConfusion, ho⟩
  have I' : Inv { s with held := Function.update s.held k none } :=
    ⟨I.ledger.mono fun ho => (hsub ho).2, I.queue, I.synced⟩
  refine I'.release fun hup b h' ho hptr => ?_
  have hmem : h ∈ s.handles := I.ledger.owner_tracked hup (k := .caller k) hheld
  have hmem' : h' ∈ s.handles := I.ledger.owner_tracked hup (hsub ho).2
  have heq : h' = h := I.ledger.eq_of_ptr_eq hmem' hmem hptr
  have hown : s.Owns (.caller k) h := hheld
  exact (hsub ho).1 (I.ledger.exclusive (hsub ho).2 hown (heq ▸ rfl))

/-! ### Warming, draining, reaping -/

theorem Inv.warmLoop (I : Inv s) (cfg : PoolConfig) (i : ℕ) : Inv (warmLoop cfg s k i) := by
  rw [warmLoop_eq]
  split
  · exact I.connects _
  · exact I

theorem Inv.warmConnected {addr : Ptr} (I : Inv s) (cfg : PoolConfig) (i : ℕ)
    (ha : addr ∉ s.addrs) : Inv (warmConnected cfg s k i addr now) := by
  have L := I.ledger.admitFree addr (by rwa [s.map_ptr_handles])
  rw [← State.handles_track s addr now, ← State.handles_modify _ addr
    (f := fun x => { x with state := .idle }) (by exact fun _ => rfl)] at L
  refine Inv.warmLoop ?_ cfg (i + 1)
  exact ⟨L, I.queue, synced_syncMetrics _⟩

/-- Failing waiters takes handles away from them at most. -/
theorem result_foldl_failWaiter {j : CoroId} {w : Waiter} (hres : w.result = some h) :
    ∀ (ks : List CoroId) (parked : CoroId → Option Waiter),
      ks.foldl failWaiter parked j = some w → parked j = some w
  | [], _, hw => hw
  | k :: ks, parked, hw => by
    have hw := result_foldl_failWaiter hres ks _ hw
    rcases eq_or_ne j k with rfl | hj
    · rw [failWaiter, Function.update_self] at hw
      obtain ⟨p, -, rfl⟩ := Option.map_eq_some_iff.mp hw
      exact absurd hres (Option.some_ne_none h).symm
    · rwa [failWaiter, Function.update_of_ne hj] at hw

theorem Inv.drainImpl (I : Inv s) : Inv (drainImpl s) where
  ledger := I.ledger.clear.mono fun {b h} ho => by
    rcases b with j | j
    · exact ho
    · obtain ⟨w, hw, hres⟩ := ho
      exact ⟨w, result_foldl_failWaiter hres s.waiters s.parked hw, hres⟩
  queue := ⟨List.nodup_nil, by simp [Pool.drainImpl, syncMetrics],
    by simp [Pool.drainImpl, syncMetrics]⟩
  synced := synced_syncMetrics _

/-- The loop invariant of the reaper: the connections kept so far and those not yet looked at
together are the free list of a ledger. -/
theorem ledger_reapLoop {owns : Borrower → Handle → Prop} {active : Finset Ptr} {fresh : ℕ}
    {down : Bool} (cfg : PoolConfig) (now : Int) :
    ∀ (cs : List Ptr) (s : State) (keep : List Ptr),
      Ledger s.handles (keep ++ cs) active fresh owns down →
        Ledger (reapLoop cfg now cs s keep).1.handles (reapLoop cfg now cs s keep).2 active fresh
          owns down
  | [], s, keep, L => by simpa [reapLoop] using L
  | c :: cs, s, keep, L => by
    rw [reapLoop]
    split
    · refine ledger_reapLoop cfg now cs _ keep ?_
      rw [State.handles_untrack, State.handles_close]
      exact L.retireFree
    · refine ledger_reapLoop cfg now cs s (keep ++ [c]) ?_
      rwa [List.append_assoc, List.singleton_append]

theorem Inv.idleReaperImpl {ec : Bool} (I : Inv s) (cfg : PoolConfig) :
    Inv (idleReaperImpl cfg s ec now) := by
  obtain h | ⟨conns, hconns, h⟩ := idleReaperImpl_cases cfg s ec now
  · rw [h]
    exact ⟨I.ledger, I.queue, I.synced⟩
  · rw [h]
    have L := ledger_reapLoop cfg now s.freeList s [] I.ledger
    rw [hconns] at L
    exact ⟨L, I.queue, synced_syncMetrics _⟩

/-! ### Every segment -/

/-- The timer of a waiter is no part of what it owns. -/
theorem Inv.timerExpire {w : Waiter} (I : Inv s) (hk : s.parked k = some w) :
    Inv { s with parked := Function.update s.parked k (some { w with timer := .expired }) } := by
  have hres : ∀ j w', Function.update s.parked k (some { w with timer := .expired }) j = some w' →
      ∃ w₀, s.parked j = some w₀ ∧ w₀.result = w'.result := by
    intro j w' hw'
    rcases eq_or_ne j k with rfl | hj
    · rw [Function.update_self] at hw'
      exact ⟨w, hk, (Option.some.inj hw') ▸ rfl⟩
    · rw [Function.update_of_ne hj] at hw'
      exact ⟨w', hw', rfl⟩
  refine ⟨I.ledger.mono fun {b h} ho => ?_, ⟨I.queue.nodup, I.queue.lt, fun j hj => ?_⟩, I.synced⟩
  · rcases b with j | j
    · exact ho
    · obtain ⟨w', hw', hr⟩ := ho
      obtain ⟨w₀, hw₀, hr₀⟩ := hres j w' hw'
      exact ⟨w₀, hw₀, hr₀.trans hr⟩
  · obtain ⟨w₀, hw₀, hnone⟩ := I.queue.result_none j hj
    rcases eq_or_ne j k with rfl | hjk
    · refine ⟨_, Function.update_self .., ?_⟩
      rw [Option.some.inj (hk.symm.trans hw₀)]
      exact hnone
    · exact ⟨w₀, (Function.update_of_ne hjk ..).trans hw₀, hnone⟩

theorem Inv.close (I : Inv s) : Inv (s.close c) := by
  have L : Ledger (s.close c).handles s.freeList s.active s.nextObj s.Owns s.shuttingDown :=
    (s.handles_close c).symm ▸ I.ledger
  have hlen : (s.close c).all.length = s.all.length := by simp [State.close, State.modify]
  obtain ⟨hf, ha, hw, ht⟩ := I.synced
  exact ⟨L, I.queue, hf, ha, hw, ht.trans hlen.symm⟩

/-- **Every strand segment preserves the invariant**, if callers release only what they have. -/
theorem Inv.step {cfg : PoolConfig} {a : Action} {s' : State} (I : Inv s) (hd : Disciplined s a)
    (hs : step cfg s a = some s') : Inv s' := by
  cases segment_of_step hs with
  | acquireRefused _ => exact I.spawn.coReturn_error _
  | acquireReuse _ hf => exact I.spawn.reuse hf
  | acquireOpen _ _ _ => exact I.spawn.connects _
  | acquirePark _ _ _ =>
    exact I.spawn.park (Nat.lt_succ_self _) fun hmem => lt_irrefl _ (I.queue.lt _ hmem)
  | acquireConnected _ ha => exact (I.connects _).acquireConnected ha
  | warmConnected _ ha => exact (I.connects _).warmConnected cfg _ ha
  | acquireFailed _ => exact (I.connects _).coReturn_error _
  | warmFailed _ => exact I.connects _
  | timerExpire hk _ => exact I.timerExpire hk
  | wake hk _ => exact I.acquireWoken hk
  | release k c healthy now =>
    obtain ⟨h, hheld, rfl⟩ := hd
    exact I.release_held hheld
  | warm => exact I.spawn.warmLoop cfg 0
  | startReaper =>
    split
    · exact I
    · exact ⟨I.ledger, I.queue, I.synced⟩
  | reaperTick _ => exact I.idleReaperImpl cfg
  | drain => exact I.drainImpl
  | connLost c => exact I.close

/-- **The invariant holds after every disciplined run.** -/
theorem inv_run {cfg : PoolConfig} {as : List Action} {s s' : State} (I : Inv s)
    (hd : Along (step cfg) Disciplined s as) (hr : run (step cfg) s as = some s') : Inv s' :=
  invariant_run (fun _ _ _ I hd hs => I.step hd hs) I hd hr

/-- **Representation invariant and exclusive checkout.** After every run of strand segments from
the constructed pool in which callers release only what they have checked out, the containers
partition the tracked connections, queued waiters have been handed nothing, different checkouts are
different connections, and the published counters are the container sizes.

Checkouts differ as objects always, and as pointers until the pool is drained: `drain` destroys
connections that are checked out, and the allocator may then use their addresses again. -/
theorem representation_invariant (cfg : PoolConfig) (as : List Action) (s : State)
    (hd : Along (step cfg) Disciplined initial as) (hr : run (step cfg) initial as = some s) :
    s.addrs.Nodup ∧ s.freeList.Nodup ∧ (∀ c ∈ s.freeList, c ∉ s.active) ∧
      (∀ c, c ∈ s.addrs ↔ c ∈ s.freeList ∨ c ∈ s.active) ∧
      (∀ k ∈ s.waiters, ∃ w, s.parked k = some w ∧ w.result = none) ∧
      (∀ k k' h h', s.held k = some h → s.held k' = some h' → h.obj = h'.obj → k = k') ∧
      (s.shuttingDown = false →
        ∀ k k' h h', s.held k = some h → s.held k' = some h' → h.ptr = h'.ptr → k = k') ∧
      s.freeCount = s.freeList.length ∧ s.activeCount = s.active.card ∧
      s.waiterCount = s.waiters.length ∧ s.totalCount = s.all.length ∧
      s.freeCount + s.activeCount = s.totalCount := by
  have I : Inv s := inv_run inv_initial hd hr
  obtain ⟨hf, ha, hw, ht⟩ := I.synced
  have hexcl : ∀ k k' h h', s.held k = some h → s.held k' = some h' → h.obj = h'.obj → k = k' :=
    fun k k' h h' hk hk' heq => by
      have ho : s.Owns (.caller k) h := hk
      have ho' : s.Owns (.caller k') h' := hk'
      exact Borrower.caller.inj (I.ledger.exclusive ho ho' heq)
  refine ⟨s.map_ptr_handles ▸ I.ledger.ptr_nodup, I.ledger.free_nodup, I.ledger.free_not_active,
    fun c => s.map_ptr_handles ▸ I.ledger.mem_iff c, I.queue.result_none, hexcl, ?_, hf, ha, hw, ht,
    ?_⟩
  · intro hup k k' h h' hk hk' hptr
    have hmem := I.ledger.owner_tracked hup (k := .caller k) hk
    have hmem' := I.ledger.owner_tracked hup (k := .caller k') hk'
    exact hexcl k k' h h' hk hk' (congrArg Handle.obj (I.ledger.eq_of_ptr_eq hmem hmem' hptr))
  · rw [hf, ha, ht, ← s.length_handles]
    exact I.ledger.length_tracked

/-- A pool of one connection serves a second caller by handing the connection over. -/
def handOffRun : List Action :=
  [.acquire 0, .connectOk (.acquire 0) 64 1, .acquire 2, .release 0 64 true 3, .wake 1]

theorem representation_invariant_handOff : ∃ s,
    run (step { min := 0, max := 1 }) initial handOffRun = some s ∧
      s.held 1 = some ⟨64, 0⟩ ∧ s.freeCount + s.activeCount = s.totalCount :=
  ⟨_, rfl, rfl, (representation_invariant { min := 0, max := 1 } handOffRun _
    (by decide +kernel) rfl).2.2.2.2.2.2.2.2.2.2.2⟩

end Pool

end DBMesh
