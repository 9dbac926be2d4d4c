import DBMesh.Pool.Calls

/-!
# Where a connection comes from

A segment of the strand can put a connection into the free list, give it to a caller or hand it to a
waiter. Wherever a connection is after a segment, it was there before, or it is new, or it has come
there the one way that the segment has for it. So what holds of new connections, and of those that
are released as healthy, holds of all that are free and of all that are lent.

## Main definitions

* `Pool.State.Has` — the free list or a borrower has a connection
* `Pool.Source` — where it was before a segment

## Main results

* `Pool.source_step` — every segment of a disciplined run
* `Pool.nextObj_cases` — new connections are none of the earlier ones, and are kept
-/

namespace DBMesh

namespace Pool

variable {cfg : PoolConfig} {s s' : State} {a : Action} {c : Ptr} {k : CoroId} {h : Handle}
  {b : Borrower} {x : Option Borrower} {now : Int}

/-- The connection is free, or it is lent to the borrower. -/
def State.Has (s : State) : Option Borrower → Handle → Prop
  | none, h => h ∈ s.handles ∧ h.ptr ∈ s.freeList
  | some b, h => s.Owns b h

/-- Where the connection was before the segment, after which the free list or a borrower has it. -/
inductive Source (s : State) : Action → Option Borrower → Handle → Prop
  | same {a : Action} {x : Option Borrower} {h : Handle} (hx : s.Has x h) : Source s a x h
  | opened {k : CoroId} {addr : Ptr} {now : Int} {h : Handle} (hobj : h.obj = s.nextObj) :
      Source s (.connectOk (.acquire k) addr now) (some (.caller k)) h
  | warmed {k : CoroId} {i : ℕ} {addr : Ptr} {now : Int} {h : Handle} (hobj : h.obj = s.nextObj) :
      Source s (.connectOk (.warm k i) addr now) none h
  | reused {now : Int} {h : Handle} (hx : s.Has none h) :
      Source s (.acquire now) (some (.caller s.nextId)) h
  | woken {k : CoroId} {h : Handle} (hx : s.Has (some (.waiter k)) h) :
      Source s (.wake k) (some (.caller k)) h
  | freed {k : CoroId} {now : Int} {h : Handle} (hx : s.Has (some (.caller k)) h)
      (hq : s.waiters = []) : Source s (.release k h.ptr true now) none h
  | handed {k w : CoroId} {rest : List CoroId} {now : Int} {h : Handle}
      (hx : s.Has (some (.caller k)) h) (hq : s.waiters = w :: rest) :
      Source s (.release k h.ptr true now) (some (.waiter w)) h

/-! ### Borrowers -/

theorem source_checkOut (ho : (checkOut s k c).Owns b h) :
    s.Owns b h ∨ b = .caller k ∧ h = s.handleOf c :=
  owns_coReturn_ok ho

theorem source_handOff {w : CoroId} {rest : List CoroId} (hc : c ∈ s.addrs)
    (ho : (handOff s c w rest).Owns b h) :
    s.Owns b h ∨ b = .waiter w ∧ h ∈ s.handles ∧ h.ptr = c := by
  let t : State :=
    { { s with waiters := rest }.modify c fun x => { x with state := .inUse } with
      active := insert c s.active }
  have hhandles : t.handles = s.handles :=
    State.handles_modify { s with waiters := rest } c (f := fun x => { x with state := .inUse })
      fun _ => rfl
  rcases b with i | i
  · exact .inl ho
  · obtain ⟨w', hw', hres⟩ := ho
    rcases eq_or_ne i w with rfl | hi
    · have hpark : (handOff s c i rest).parked i =
          (s.parked i).map fun p => ⟨p.timer.cancel, some (t.handleOf c)⟩ := Function.update_self ..
      rw [hpark] at hw'
      obtain ⟨p, -, rfl⟩ := Option.map_eq_some_iff.mp hw'
      obtain rfl := Option.some.inj hres
      refine .inr ⟨rfl, hhandles ▸ State.handleOf_mem ?_, rfl⟩
      rwa [← State.map_ptr_handles, hhandles, State.map_ptr_handles]
    · have hpark : (handOff s c w rest).parked i = s.parked i := Function.update_of_ne hi ..
      exact .inl ⟨w', hpark ▸ hw', hres⟩

/-- The caller that releases a connection while the pool is up has the one that is tracked. -/
theorem Inv.eq_of_held (I : Inv s) {g : Handle} (hup : s.shuttingDown = false)
    (hheld : s.held k = some g) (hm : h ∈ s.handles) (hptr : h.ptr = g.ptr) :
    s.held k = some h := by
  have hown : s.Owns (.caller k) g := hheld
  rw [I.ledger.eq_of_ptr_eq hm (I.ledger.owner_tracked hup hown) hptr]
  exact hheld

theorem source_release {healthy : Bool} (I : Inv s) (hd : Disciplined s (.release k c healthy now))
    (hx : (release { s with held := Function.update s.held k none } c healthy now).Has x h) :
    Source s (.release k c healthy now) x h := by
  obtain ⟨g, hheld, rfl⟩ := hd
  -- a borrower after the handler was one before, for the caller has given its handle up
  have hold : ∀ b, Owns (Function.update s.held k none) s.parked b h → s.Owns b h := by
    rintro (i | i) ho
    · rcases eq_or_ne i k with rfl | hi
      · simp [Owns] at ho
      · simpa [Owns, hi] using ho
    · exact ho
  have hreturned : s.closes g.ptr healthy = false → h ∈ s.handles → h.ptr = g.ptr →
      healthy = true ∧ s.Has (some (.caller k)) h := by
    intro hopen hm hptr
    refine ⟨?_, I.eq_of_held (State.shuttingDown_of_not_closes hopen) hheld hm hptr⟩
    cases healthy with
    | true => rfl
    | false => simp [State.closes] at hopen
  obtain ⟨-, heq⟩ | ⟨-, -, heq⟩ | ⟨hc, hopen, w, rest, hq, heq⟩ | ⟨-, hopen, hq, heq⟩ :=
    release_cases { s with held := Function.update s.held k none } g.ptr healthy now
  · rw [heq] at hx
    cases x with
    | none => exact .same hx
    | some b => exact .same (hold b hx)
  · rw [heq] at hx
    cases x with
    | none =>
      obtain ⟨hm, hfree⟩ := hx
      have hm : h ∈ (untrack (State.close { s with
        held := Function.update s.held k none, active := s.active.erase g.ptr } g.ptr)
          g.ptr).handles := hm
      rw [State.handles_untrack, State.handles_close] at hm
      exact .same ⟨List.mem_of_mem_eraseP hm, hfree⟩
    | some b => exact .same (hold b hx)
  · rw [heq] at hx
    cases x with
    | none =>
      obtain ⟨hm, hfree⟩ := hx
      have hm : h ∈ (State.modify { s with
        held := Function.update s.held k none, active := s.active.erase g.ptr, waiters := rest }
          g.ptr fun x => { x with state := .inUse }).handles := hm
      rw [State.handles_modify _ _ (by exact fun _ => rfl)] at hm
      exact .same ⟨hm, hfree⟩
    | some b =>
      have haddr : g.ptr ∈ s.addrs :=
        s.map_ptr_handles ▸ (I.ledger.mem_iff g.ptr).mpr (.inr hc)
      obtain ho | ⟨rfl, hm, hptr⟩ := source_handOff (s := { s with
        held := Function.update s.held k none, active := s.active.erase g.ptr }) haddr hx
      · exact .same (hold b ho)
      · obtain ⟨rfl, hcaller⟩ := hreturned hopen hm hptr
        exact hptr ▸ .handed hcaller hq
  · rw [heq] at hx
    cases x with
    | none =>
      obtain ⟨hm, hfree⟩ := hx
      have hm : h ∈ (State.modify { s with
        held := Function.update s.held k none, active := s.active.erase g.ptr } g.ptr
          fun x => { x with state := .idle, lastUsed := now }).handles := hm
      rw [State.handles_modify _ _ (by exact fun _ => rfl)] at hm
      rcases List.mem_append.mp hfree with hfree | hfree
      · exact .same ⟨hm, hfree⟩
      · have hptr : h.ptr = g.ptr := List.mem_singleton.mp hfree
        obtain ⟨rfl, hcaller⟩ := hreturned hopen hm hptr
        exact hptr ▸ .freed hcaller hq
    | some b => exact .same (hold b hx)

/-! ### Every segment -/

/-- A segment that leaves the tracked connections, the free list and the borrowers alone. -/
theorem source_of_eq (hx : s'.Has x h) (hh : s'.handles = s.handles)
    (hf : s'.freeList = s.freeList) (ho : ∀ b, s'.Owns b h → s.Owns b h) : Source s a x h := by
  cases x with
  | none => exact .same ⟨hh ▸ hx.1, hf ▸ hx.2⟩
  | some b => exact .same (ho b hx)

theorem of_mem_reapLoop : ∀ (cs : List Ptr) (s : State) (keep : List Ptr),
    (h ∈ (reapLoop cfg now cs s keep).1.handles → h ∈ s.handles) ∧
      ∀ c ∈ (reapLoop cfg now cs s keep).2, c ∈ keep ∨ c ∈ cs
  | [], _, _ => ⟨fun hm => hm, fun _ hc => .inl hc⟩
  | c :: cs, s, keep => by
    rw [reapLoop]
    split
    · obtain ⟨hhandles, hkept⟩ := of_mem_reapLoop cs (untrack (s.close c) c) keep
      rw [State.handles_untrack, State.handles_close] at hhandles
      exact ⟨fun hm => List.mem_of_mem_eraseP (hhandles hm),
        fun d hd => (hkept d hd).imp_right (List.mem_cons_of_mem c)⟩
    · obtain ⟨hhandles, hkept⟩ := of_mem_reapLoop cs s (keep ++ [c])
      refine ⟨hhandles, fun d hd => ?_⟩
      rcases hkept d hd with hd | hd
      · refine (List.mem_append.mp hd).imp_right fun hd => ?_
        rw [List.mem_singleton.mp hd]
        exact List.mem_cons_self ..
      · exact .inr (List.mem_cons_of_mem c hd)

/-- What the reaper leaves free was free. -/
theorem source_reaped {ec : Bool} (hx : (idleReaperImpl cfg s ec now).Has x h) :
    Source s a x h := by
  obtain heq | ⟨conns, hconns, heq⟩ := idleReaperImpl_cases cfg s ec now
  · rw [heq] at hx
    cases x <;> exact .same hx
  · rw [heq] at hx
    cases x with
    | none =>
      obtain ⟨hm, hfree⟩ := hx
      obtain ⟨hhandles, hkept⟩ :
          (h ∈ (reapLoop cfg now s.freeList s []).1.handles → h ∈ s.handles) ∧
            ∀ c ∈ (reapLoop cfg now s.freeList s []).2, c ∈ [] ∨ c ∈ s.freeList :=
        of_mem_reapLoop s.freeList s []
      rw [hconns] at hhandles
      exact .same ⟨hhandles hm, (hkept _ hfree).resolve_left List.not_mem_nil⟩
    | some b => exact .same hx

theorem has_warmLoop {i : ℕ} : (warmLoop cfg s k i).Has x h ↔ s.Has x h := by
  rw [warmLoop_eq]
  split
  · cases x <;> exact Iff.rfl
  · exact Iff.rfl

/-- A new connection has an object of its own. -/
theorem source_tracked {addr : Ptr} (hm : h ∈ (track s addr now).handles) :
    h ∈ s.handles ∨ h = ⟨addr, s.nextObj⟩ := by
  rw [State.handles_track] at hm
  exact (List.mem_append.mp hm).imp_right List.mem_singleton.mp

/-- **Where a connection comes from**, after every segment. -/
theorem source_step (I : Inv s) (hd : Disciplined s a) (hs : step cfg s a = some s')
    (hx : s'.Has x h) : Source s a x h := by
  cases segment_of_step hs with
  | @acquireReuse now c rest _ hf =>
    let t : State := State.modify { s.spawn with freeList := rest } c fun x =>
      { x with state := .inUse, lastUsed := now }
    have ht : t.handles = s.handles := State.handles_modify _ c (by exact fun _ => rfl)
    have hc : c ∈ s.addrs := s.map_ptr_handles ▸ (I.ledger.mem_iff c).mpr
      (.inl (hf ▸ List.mem_cons_self ..))
    cases x with
    | none => exact .same ⟨ht ▸ hx.1, hf ▸ List.mem_cons_of_mem c hx.2⟩
    | some b =>
      obtain ho | ⟨rfl, rfl⟩ := source_checkOut (s := t) hx
      · exact .same ho
      · refine .reused ⟨ht ▸ State.handleOf_mem ?_, hf ▸ List.mem_cons_self ..⟩
        rwa [← State.map_ptr_handles, ht, State.map_ptr_handles]
  | @acquireConnected k addr now _ ha =>
    let t : State := (track (s.resume (.acquire k)) addr now).modify addr fun x =>
      { x with state := .inUse }
    have ht : t.handles = (track (s.resume (.acquire k)) addr now).handles :=
      State.handles_modify _ addr (by exact fun _ => rfl)
    cases x with
    | none =>
      obtain hm | rfl := source_tracked (ht ▸ hx.1 : h ∈ (track _ addr now).handles)
      · exact .same ⟨hm, hx.2⟩
      · exact absurd (s.map_ptr_handles ▸ (I.ledger.mem_iff addr).mpr (.inl hx.2)) ha
    | some b =>
      obtain ho | ⟨rfl, rfl⟩ := source_checkOut (s := t) hx
      · exact .same ho
      · have hm := State.handleOf_mem (mem_addrs_connected (s.resume (.acquire k)) addr now)
        obtain hold | hnew := source_tracked (ht ▸ hm)
        · exact absurd (s.map_ptr_handles ▸ Ledger.ptr_mem hold) ha
        · exact .opened (congrArg Handle.obj hnew)
  | @warmConnected k i addr now _ ha =>
    rw [warmConnected] at hx
    have hx := has_warmLoop.mp hx
    cases x with
    | none =>
      obtain ⟨hm, hfree⟩ := hx
      have hm : h ∈ ((track (s.resume (.warm k i)) addr now).modify addr fun x =>
        { x with state := .idle }).handles := hm
      rw [State.handles_modify _ addr (by exact fun _ => rfl)] at hm
      obtain hold | hnew := source_tracked hm
      · rcases List.mem_append.mp hfree with hfree | hfree
        · exact .same ⟨hold, hfree⟩
        · have hptr : h.ptr ∈ s.addrs := s.map_ptr_handles ▸ Ledger.ptr_mem hold
          exact absurd (List.mem_singleton.mp hfree ▸ hptr) ha
      · exact .warmed (congrArg Handle.obj hnew)
    | some b => exact .same hx
  | acquirePark _ _ _ =>
    refine source_of_eq hx rfl rfl fun b ho => owns_update_parked (fun w hw => .inl ?_) ho
    exact Option.some.inj hw ▸ rfl
  | @timerExpire k w hk _ =>
    refine source_of_eq hx rfl rfl fun b ho =>
      owns_update_parked (fun w' hw' => .inr ⟨w, hk, ?_⟩) ho
    exact Option.some.inj hw' ▸ rfl
  | @wake k w hk _ =>
    rw [acquireWoken] at hx
    cases hres : w.result with
    | some g =>
      rw [hres] at hx
      cases x with
      | none => exact .same hx
      | some b =>
        obtain ho | ⟨rfl, rfl⟩ := owns_coReturn_ok hx
        · exact .same (owns_update_parked (o := none) (by simp) ho)
        · exact .woken ⟨w, hk, hres⟩
    | none =>
      rw [hres] at hx
      cases x with
      | none => exact .same hx
      | some b => exact .same (owns_update_parked (o := none) (by simp) hx)
  | release k c healthy now => exact source_release I hd hx
  | warm =>
    have hx := has_warmLoop.mp hx
    cases x <;> exact .same hx
  | startReaper =>
    split at hx
    · exact .same hx
    · cases x <;> exact .same hx
  | reaperTick _ => exact source_reaped hx
  | drain =>
    rcases x with _ | (i | i)
    · exact absurd hx.2 List.not_mem_nil
    · exact .same hx
    · obtain ⟨w, hw, hres⟩ := hx
      exact .same ⟨w, result_foldl_failWaiter hres s.waiters s.parked hw, hres⟩
  | connLost c => exact source_of_eq hx (State.handles_close s c) rfl fun _ ho => ho
  | acquireRefused _ | acquireOpen _ _ _ | acquireFailed _ | warmFailed _ =>
    exact source_of_eq hx rfl rfl fun _ ho => ho

/-! ### Serial numbers -/

/-- Serial numbers are given one after the other, and what has got one is in the pool. -/
theorem nextObj_cases (hs : step cfg s a = some s') : s'.nextObj = s.nextObj ∨
    s'.nextObj = s.nextObj + 1 ∧
      ∃ (x : Option Borrower) (h : Handle), h.obj = s.nextObj ∧ s'.Has x h := by
  cases segment_of_step hs with
  | @acquireConnected k addr now _ ha =>
    let t : State := (track (s.resume (.acquire k)) addr now).modify addr fun x =>
      { x with state := .inUse }
    have ht : t.handles = (track (s.resume (.acquire k)) addr now).handles :=
      State.handles_modify _ addr (by exact fun _ => rfl)
    have hm := State.handleOf_mem (mem_addrs_connected (s.resume (.acquire k)) addr now)
    refine .inr ⟨rfl, some (.caller k), t.handleOf addr, ?_, Function.update_self ..⟩
    obtain hold | hnew := source_tracked (ht ▸ hm)
    · exact absurd (s.map_ptr_handles ▸ Ledger.ptr_mem hold) ha
    · exact congrArg Handle.obj hnew
  | @warmConnected k i addr now _ _ =>
    rw [warmConnected]
    refine .inr ⟨?_, none, ⟨addr, s.nextObj⟩, rfl, has_warmLoop.mpr ⟨?_, ?_⟩⟩
    · rw [warmLoop_eq]
      split <;> rfl
    · refine mem_handles_modify (s := track (s.resume (.warm k i)) addr now) ?_
        (f := fun x => { x with state := .idle }) fun _ => rfl
      rw [State.handles_track]
      exact List.mem_append_right _ (List.mem_singleton_self _)
    · exact List.mem_append_right _ (List.mem_singleton_self _)
  | warm =>
    rw [warmLoop_eq]
    split <;> exact .inl rfl
  | @wake k w _ _ =>
    rw [acquireWoken]
    cases w.result <;> exact .inl rfl
  | release k c healthy now =>
    obtain ⟨-, heq⟩ | ⟨-, -, heq⟩ | ⟨-, -, w, rest, -, heq⟩ | ⟨-, -, -, heq⟩ :=
      release_cases { s with held := Function.update s.held k none } c healthy now
    all_goals
      rw [heq]
      exact .inl rfl
  | startReaper => split <;> exact .inl rfl
  | @reaperTick ec now _ =>
    obtain heq | ⟨conns, -, heq⟩ := idleReaperImpl_cases cfg s ec now
    all_goals
      rw [heq]
      exact .inl rfl
  | acquireRefused _ | acquireReuse _ _ | acquireOpen _ _ _ | acquirePark _ _ _
  | acquireFailed _ | warmFailed _ | timerExpire _ _ | drain | connLost c => exact .inl rfl

/-- The serial numbers of connections are never given twice. -/
theorem nextObj_step (hs : step cfg s a = some s') : s.nextObj ≤ s'.nextObj := by
  obtain heq | ⟨heq, -⟩ := nextObj_cases hs
  · exact heq.ge
  · exact heq.ge.trans' (Nat.le_succ _)

end Pool

end DBMesh
