import DBMesh.Pool.Waiting

/-!
# The idle reaper

A tick of `idle_reaper_impl` walks over the free list and closes the connections that have been idle
for too long, as long as the pool tracks more than `config_.min`. The guard reads `all_.size()`,
which counts the connections in use and shrinks while the loop runs.

What a tick does is stated for every state the pool can reach, also when callers release more often
than they check out: the containers themselves stay a partition of `all_`, only the meaning of a
checkout is lost. The times at which connections were last used are arbitrary.

## Main definitions

* `Pool.State.Containers` — the ledger without its borrowers
* `Pool.PooledConnection.OverAge` — `(now - c->last_used) > max_idle`
* `Pool.Reaped` — what the loop over the free list leaves

## Main results

* `Pool.containers_run` — the containers fit together after every run
* `Pool.reaped_reapLoop` — the loop removes old free connections only, down to the minimum
* `Pool.idle_reaping_bounded` — a tick of the reaper
-/

namespace DBMesh

namespace Pool

open Transition

/-! ### The containers, whoever has the connections -/

/-- The containers as a ledger in which nobody has borrowed anything. -/
abbrev State.Containers (s : State) : Prop :=
  Pool.Ledger s.handles s.freeList s.active s.nextObj (fun (_ : Borrower) _ => False) s.shuttingDown

variable {cfg : PoolConfig} {s s' : State} {a : Action} {c : Ptr} {k : CoroId} {now : Int}

theorem containers_initial : initial.Containers :=
  inv_initial.ledger.mono fun {_ _} (h : False) => h.elim

theorem containers_warmLoop (C : s.Containers) (i : ℕ) : (warmLoop cfg s k i).Containers := by
  rw [warmLoop_eq]
  split <;> exact C

/-- A pointer that is not active is ignored; an active one leaves for the free list, for a waiter or
for good, whoever has it. -/
theorem containers_release {healthy : Bool} (C : s.Containers) :
    (release s c healthy now).Containers := by
  obtain ⟨-, h⟩ | ⟨hc, -, h⟩ | ⟨hc, -, w, rest, -, h⟩ | ⟨hc, -, -, h⟩ :=
    release_cases s c healthy now
  · rwa [h]
  · rw [h]
    have L := C.retireActive hc fun _ {_ _} ho => ho.elim
    rw [← State.handles_close s c, ← State.handles_untrack] at L
    exact L
  · rw [h]
    have L : s.Containers := C
    rw [State.Containers, ← Finset.insert_erase hc, ← State.handles_modify s c
      (f := fun x => { x with state := .inUse }) fun _ => rfl] at L
    exact L
  · rw [h]
    have L := C.giveBack hc fun {_ _} ho => ho.elim
    rw [← State.handles_modify s c
      (f := fun x => { x with state := .idle, lastUsed := now }) fun _ => rfl] at L
    exact L

theorem containers_idleReaperImpl {ec : Bool} (C : s.Containers) :
    (idleReaperImpl cfg s ec now).Containers := by
  obtain h | ⟨conns, hconns, h⟩ := idleReaperImpl_cases cfg s ec now
  · rw [h]
    exact C
  · rw [h]
    have L := ledger_reapLoop cfg now s.freeList s [] C
    rw [hconns] at L
    exact L

/-- **Every strand segment keeps the containers together.** -/
theorem containers_step (C : s.Containers) (hs : step cfg s a = some s') : s'.Containers := by
  cases segment_of_step hs with
  | @acquireReuse now c rest _ hf =>
    have L : Ledger s.handles (c :: rest) s.active s.nextObj (fun (_ : Borrower) _ => False)
        s.shuttingDown := hf ▸ C
    have L := L.activate
    rw [← State.handles_modify s c
      (f := fun x => { x with state := .inUse, lastUsed := now }) fun _ => rfl] at L
    exact L
  | @acquireConnected k addr now _ ha =>
    have L := C.admitActive addr (by rwa [s.map_ptr_handles])
    rw [← State.handles_track s addr now, ← State.handles_modify _ addr
      (f := fun x => { x with state := .inUse }) (by exact fun _ => rfl)] at L
    exact L
  | @warmConnected k i addr now _ ha =>
    have L := C.admitFree addr (by rwa [s.map_ptr_handles])
    rw [← State.handles_track s addr now, ← State.handles_modify _ addr
      (f := fun x => { x with state := .idle }) (by exact fun _ => rfl)] at L
    refine containers_warmLoop ?_ (i + 1)
    exact L
  | @wake k w _ _ =>
    rw [acquireWoken]
    cases w.result <;> exact C
  | release k c healthy now => exact containers_release (s := { s with held := _ }) C
  | warm => exact containers_warmLoop (s := s.spawn) C 0
  | startReaper => split <;> exact C
  | reaperTick _ => exact containers_idleReaperImpl C
  | drain => exact C.clear
  | connLost c =>
    rw [State.Containers, State.handles_close]
    exact C
  | acquireRefused _ | acquireOpen _ _ _ | acquirePark _ _ _ | acquireFailed _ | warmFailed _
  | timerExpire _ _ => exact C

/-- **The containers fit together after every run**, however often callers release. -/
theorem containers_run {as : List Action} (hr : run (step cfg) initial as = some s) :
    s.Containers :=
  preserved_run (fun _ _ _ C hs => containers_step C hs) containers_initial hr

/-! ### One connection -/

/-- `(now - c->last_used) > max_idle`. -/
def PooledConnection.OverAge (cfg : PoolConfig) (now : Int) (x : PooledConnection) : Prop :=
  now - x.lastUsed > cfg.idleTimeoutSec * 10 ^ 9

theorem State.deref_eq {x : PooledConnection} (hnd : s.addrs.Nodup) (hx : x ∈ s.all) :
    s.deref x.addr = some x := by
  obtain ⟨y, hy⟩ : ∃ y, s.deref x.addr = some y :=
    Option.isSome_iff_exists.mp (List.find?_isSome.mpr ⟨x, hx, by simp⟩)
  have haddr : y.addr = x.addr := by simpa using List.find?_some hy
  rw [hy, List.inj_on_of_nodup_map hnd (List.mem_of_find?_eq_some hy) hx haddr]

theorem tooOld_iff {x : PooledConnection} (hnd : s.addrs.Nodup) (hx : x ∈ s.all) :
    tooOld cfg s now x.addr = true ↔ x.OverAge cfg now := by
  rw [tooOld, State.deref_eq hnd hx]
  exact decide_eq_true_iff

/-- The entry that `untrack` erases is the one that was closed; the others are not touched. -/
theorem eraseP_map_close : ∀ {l : List PooledConnection}, (l.map PooledConnection.addr).Nodup →
    (l.map fun x => if x.addr = c then { x with isOpen := false } else x).eraseP (·.addr = c) =
      l.eraseP (·.addr = c)
  | [], _ => rfl
  | x :: l, hnd => by
    rw [List.map_cons, List.nodup_cons] at hnd
    rcases eq_or_ne x.addr c with rfl | hx
    · have hrest : ∀ y ∈ l, (if y.addr = x.addr then { y with isOpen := false } else y) = y :=
        fun y hy => if_neg fun hyx : y.addr = x.addr => hnd.1 (hyx ▸ List.mem_map_of_mem hy)
      rw [List.map_cons, if_pos rfl, List.eraseP_cons_of_pos (by simp),
        List.eraseP_cons_of_pos (by simp), List.map_congr_left hrest, List.map_id']
    · rw [List.map_cons, if_neg hx, List.eraseP_cons_of_neg (by simpa using hx),
        List.eraseP_cons_of_neg (by simpa using hx), eraseP_map_close hnd.2]

theorem all_reap (hnd : s.addrs.Nodup) :
    (untrack (s.close c) c).all = s.all.eraseP (·.addr = c) := eraseP_map_close hnd

/-! ### The loop -/

/-- What the loop over the free list `cs` leaves of it (`kept`) and of the tracked connections, from
state `s` to state `t`. -/
structure Reaped (cfg : PoolConfig) (now : Int) (cs : List Ptr) (s t : State) (kept : List Ptr) :
    Prop where
  kept_sublist : kept.Sublist cs
  all_sublist : t.all.Sublist s.all
  removed : ∀ x ∈ s.all, x ∉ t.all → x.addr ∈ cs ∧ x.addr ∉ kept ∧ x.OverAge cfg now
  bounded : min s.all.length cfg.min ≤ t.all.length
  complete : (∀ x ∈ t.all, x.addr ∈ kept → ¬ x.OverAge cfg now) ∨ t.all.length ≤ cfg.min

theorem Reaped.nil : Reaped cfg now [] s s [] where
  kept_sublist := List.Sublist.refl _
  all_sublist := List.Sublist.refl _
  removed _ hx hnot := absurd hx hnot
  bounded := min_le_left _ _
  complete := .inl fun _ _ hmem => absurd hmem List.not_mem_nil

/-- The head of the free list is closed. -/
theorem Reaped.reap {cs kept : List Ptr} {t : State} (hnd : s.addrs.Nodup) (hc : c ∈ s.addrs)
    (hcs : c ∉ cs) (hold : tooOld cfg s now c = true) (hmin : cfg.min < s.all.length)
    (R : Reaped cfg now cs (untrack (s.close c) c) t kept) :
    Reaped cfg now (c :: cs) s t kept where
  kept_sublist := R.kept_sublist.cons c
  all_sublist := (all_reap hnd ▸ R.all_sublist).trans List.eraseP_sublist
  removed x hx hnot := by
    rcases eq_or_ne x.addr c with rfl | hxc
    · exact ⟨List.mem_cons_self .., fun hmem => hcs (R.kept_sublist.subset hmem),
        (tooOld_iff hnd hx).mp hold⟩
    · have hx' : x ∈ (untrack (s.close c) c).all := by
        rw [all_reap hnd]
        exact (List.mem_eraseP_of_neg (by simpa using hxc)).mpr hx
      obtain ⟨hmem, hrest⟩ := R.removed x hx' hnot
      exact ⟨List.mem_cons_of_mem _ hmem, hrest⟩
  bounded := by
    have hlen : (untrack (s.close c) c).all.length + 1 = s.all.length := by
      rw [all_reap hnd]
      exact length_untrack_of_mem hc
    have := R.bounded
    omega
  complete := R.complete

/-- The head of the free list stays. -/
theorem Reaped.keep {cs kept : List Ptr} {t : State} (hnd : s.addrs.Nodup) (hcs : c ∉ cs)
    (hstay : ¬ (tooOld cfg s now c = true ∧ cfg.min < s.all.length))
    (R : Reaped cfg now cs s t kept) : Reaped cfg now (c :: cs) s t (c :: kept) where
  kept_sublist := R.kept_sublist.cons_cons c
  all_sublist := R.all_sublist
  removed x hx hnot := by
    obtain ⟨hmem, hkept, hold⟩ := R.removed x hx hnot
    have hne : x.addr ≠ c := fun hxc => hcs (hxc ▸ hmem)
    exact ⟨List.mem_cons_of_mem _ hmem, by simp [hne, hkept], hold⟩
  bounded := R.bounded
  complete := by
    by_cases hmin : t.all.length ≤ cfg.min
    · exact .inr hmin
    · -- the pool was above its minimum when the loop looked at `c`, too
      have hlt : cfg.min < s.all.length := (Nat.not_le.mp hmin).trans_le R.all_sublist.length_le
      refine .inl fun x hx hmem hage => ?_
      rcases List.mem_cons.mp hmem with rfl | hmem
      · exact hstay ⟨(tooOld_iff hnd (R.all_sublist.subset hx)).mpr hage, hlt⟩
      · exact R.complete.elim (fun h => h x hx hmem hage) hmin

/-- **The loop of the reaper.** The induction is on the part of the free list that is left; `keep`
holds what the part before it has kept. -/
theorem reaped_reapLoop : ∀ (cs : List Ptr) (s : State) (keep : List Ptr), s.addrs.Nodup →
    cs.Nodup → (∀ c ∈ cs, c ∈ s.addrs) → ∃ kept, (reapLoop cfg now cs s keep).2 = keep ++ kept ∧
      Reaped cfg now cs s (reapLoop cfg now cs s keep).1 kept
  | [], s, keep, _, _, _ => ⟨[], (List.append_nil keep).symm, Reaped.nil⟩
  | c :: cs, s, keep, hnd, hcs, hsub => by
    obtain ⟨hc, hcs⟩ := List.nodup_cons.mp hcs
    rw [reapLoop]
    split
    case isTrue hreap =>
      obtain ⟨hold, hmin⟩ := Bool.and_eq_true_iff.mp hreap
      have hall := all_reap (c := c) hnd
      have hnd' : (untrack (s.close c) c).addrs.Nodup := by
        rw [State.addrs, hall]
        exact hnd.sublist (List.eraseP_sublist.map _)
      have hsub' : ∀ d ∈ cs, d ∈ (untrack (s.close c) c).addrs := by
        intro d hd
        obtain ⟨x, hx, rfl⟩ := List.mem_map.mp (hsub d (List.mem_cons_of_mem _ hd))
        have hne : x.addr ≠ c := fun hxc => hc (hxc ▸ hd)
        rw [State.addrs, hall]
        exact List.mem_map_of_mem ((List.mem_eraseP_of_neg (by simpa using hne)).mpr hx)
      obtain ⟨kept, hkept, R⟩ := reaped_reapLoop cs _ keep hnd' hcs hsub'
      exact ⟨kept, hkept, R.reap hnd (hsub c (List.mem_cons_self ..)) hc hold
        (of_decide_eq_true hmin)⟩
    case isFalse hstay =>
      obtain ⟨kept, hkept, R⟩ := reaped_reapLoop cs s (keep ++ [c]) hnd hcs
        fun d hd => hsub d (List.mem_cons_of_mem _ hd)
      refine ⟨c :: kept, by rw [hkept, List.append_assoc, List.singleton_append], R.keep hnd hc ?_⟩
      simpa using hstay

/-! ### A tick of the reaper -/

/-- The pool with other times of last use, an arbitrary one for each connection. -/
def State.retime (s : State) (lastUsed : Ptr → Int) : State :=
  { s with all := s.all.map fun x => { x with lastUsed := lastUsed x.addr } }

theorem State.handles_retime (lastUsed : Ptr → Int) : (s.retime lastUsed).handles = s.handles := by
  simp only [State.handles, State.retime, List.map_map]
  rfl

theorem containers_retime (C : s.Containers) (lastUsed : Ptr → Int) :
    (s.retime lastUsed).Containers := by
  rw [State.Containers, State.handles_retime]
  exact C

/-- A tick reaps the free list, or ends the reaper. -/
theorem reaped_idleReaperImpl (C : s.Containers) (ec : Bool) :
    Reaped cfg now s.freeList s (idleReaperImpl cfg s ec now)
        (idleReaperImpl cfg s ec now).freeList ∨
      (ec = true ∨ s.shuttingDown = true) ∧
        idleReaperImpl cfg s ec now = { s with reapers := s.reapers - 1 } := by
  have hnd : s.addrs.Nodup := s.map_ptr_handles ▸ C.ptr_nodup
  have hfree : ∀ c ∈ s.freeList, c ∈ s.addrs := fun c hc =>
    s.map_ptr_handles ▸ (C.mem_iff c).mpr (.inl hc)
  rw [idleReaperImpl]
  split
  case isTrue hend => exact .inr ⟨by simpa using hend, rfl⟩
  case isFalse =>
    obtain ⟨kept, hkept, R⟩ := reaped_reapLoop s.freeList s [] hnd C.free_nodup hfree
    rw [List.nil_append] at hkept
    rw [← hkept] at R
    exact .inl ⟨R.kept_sublist, R.all_sublist, R.removed, R.bounded, R.complete⟩

/-- **Idle reaping is bounded and complete.** A tick at any time, in any state the pool can reach
and with any times of last use, removes over-age connections of the free list only, from `all_` and
`free_list_` alike; it keeps the order of the others, the active ones and the minimum; and unless
the reaper ends, every pointer left in the free list is one of a tracked connection that is not
over age, or the pool is at its minimum. -/
theorem idle_reaping_bounded (cfg : PoolConfig) (as : List Action) (s : State)
    (lastUsed : Ptr → Int) (ec : Bool) (now : Int) (hr : run (step cfg) initial as = some s) :
    let t := s.retime lastUsed
    let t' := idleReaperImpl cfg t ec now
    (∀ x ∈ t.all, x ∉ t'.all → x.addr ∈ t.freeList ∧ x.addr ∉ t'.freeList ∧
        x.OverAge cfg now) ∧
      (∀ c ∈ t.freeList, c ∉ t'.freeList → c ∉ t'.addrs ∧ ∃ x ∈ t.all, x.addr = c ∧
        x.OverAge cfg now) ∧
      t'.active = t.active ∧ t'.freeList.Sublist t.freeList ∧ t'.all.Sublist t.all ∧
      min t.all.length cfg.min ≤ t'.all.length ∧
      (ec = false → s.shuttingDown = false →
        (∀ c ∈ t'.freeList, ∃ x ∈ t.all, x ∈ t'.all ∧ x.addr = c ∧ ¬ x.OverAge cfg now) ∨
          t'.all.length ≤ cfg.min) := by
  intro t t'
  have C : t.Containers := containers_retime (containers_run hr) lastUsed
  have C' : t'.Containers := containers_idleReaperImpl C
  have hact : t'.active = t.active := by
    obtain h | ⟨conns, -, h⟩ := idleReaperImpl_cases cfg t ec now
    · rw [show t' = _ from h]
    · rw [show t' = _ from h]
      rfl
  obtain R | ⟨hend, heq⟩ := reaped_idleReaperImpl (s := t) C ec
  · refine ⟨R.removed, fun c hc hnot => ?_, hact, R.kept_sublist, R.all_sublist, R.bounded,
      fun _ _ => R.complete.imp_left fun hstay c hc => ?_⟩
    · -- outside `free_list_` and `active_` a connection is not tracked
      have hgone : c ∉ t'.addrs := by
        rw [← t'.map_ptr_handles, C'.mem_iff, hact, not_or]
        exact ⟨hnot, C.free_not_active c hc⟩
      obtain ⟨x, hx, rfl⟩ : ∃ x ∈ t.all, x.addr = c := by
        refine List.mem_map.mp ?_
        show c ∈ t.addrs
        rw [← t.map_ptr_handles]
        exact (C.mem_iff c).mpr (.inl hc)
      have hx' : x ∉ t'.all := fun hmem => hgone (List.mem_map_of_mem hmem)
      exact ⟨hgone, x, hx, rfl, (R.removed x hx hx').2.2⟩
    · -- what is still free is still tracked
      obtain ⟨x, hx, rfl⟩ : ∃ x ∈ t'.all, x.addr = c := by
        refine List.mem_map.mp ?_
        show c ∈ t'.addrs
        rw [← t'.map_ptr_handles]
        exact (C'.mem_iff c).mpr (.inl hc)
      exact ⟨x, R.all_sublist.subset hx, hx, rfl, hstay x hx hc⟩
  · have hall : t'.all = t.all := by rw [show t' = _ from heq]
    have hfree : t'.freeList = t.freeList := by rw [show t' = _ from heq]
    rw [hall, hfree]
    refine ⟨fun x hx hnot => absurd hx hnot, fun c hc hnot => absurd hc hnot, hact,
      List.Sublist.refl _, List.Sublist.refl _, min_le_left _ _, fun hec hup => ?_⟩
    rcases hend with hec' | hdown
    · exact absurd (hec.symm.trans hec') (by decide)
    · exact absurd (hup.symm.trans hdown) (by decide)

/-- Two connections, idle for a minute and a half and for a second, at a minimum of one. -/
theorem idle_reaping_two : ∃ s,
    run (step { min := 1, max := 2 }) initial
      [.acquire 0, .connectOk (.acquire 0) 64 1, .acquire 2, .connectOk (.acquire 1) 128 3,
        .release 0 64 true 4, .release 1 128 true 5] = some s ∧ s.freeList = [64, 128] ∧
      let t' := idleReaperImpl { min := 1, max := 2 }
        (s.retime fun c => if c = 64 then 0 else 89 * 10 ^ 9) false (90 * 10 ^ 9)
      t'.freeList = [128] ∧ t'.freeList.Sublist [64, 128] ∧ 1 ≤ t'.all.length := by
  refine ⟨_, rfl, rfl, rfl, ?_⟩
  obtain ⟨-, -, -, hfree, -, hmin, -⟩ := idle_reaping_bounded { min := 1, max := 2 }
    [.acquire 0, .connectOk (.acquire 0) 64 1, .acquire 2, .connectOk (.acquire 1) 128 3,
      .release 0 64 true 4, .release 1 128 true 5] _
    (fun c => if c = 64 then 0 else 89 * 10 ^ 9) false (90 * 10 ^ 9) rfl
  exact ⟨hfree, hmin⟩

end Pool

end DBMesh
