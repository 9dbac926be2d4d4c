import DBMesh.Pool.Calls

/-!
# Owners of connections

Whoever has a connection keeps it until it is released: a caller keeps what its acquire returned,
and a waiter that was handed a connection keeps it until it resumes and is the caller then. So
between two drains a connection is active exactly as long as somebody has it, provided that callers
release only what they have.

`release` itself recognises a checkout by its pointer being in `active_`. That refuses a second
release of a checkout as long as nobody else has got the pointer in between, and only then.

## Main definitions

* `Pool.Parked` — what a segment can do to one waiter
* `Pool.State.CallsOnce` — every call is in one place, and completes once
* `Pool.State.Lent` — every active connection has an owner

## Main results

* `Pool.owns_kept` — an owner loses its connection by a release only
* `Pool.lent_run` — active connections have owners
* `Pool.second_release_noop_iff` — when a second release changes nothing
-/

namespace DBMesh

namespace Pool

open Transition

variable {cfg : PoolConfig} {s s' : State} {a : Action} {c : Ptr} {k : CoroId} {h : Handle}
  {b : Borrower} {now : Int}

/-! ### What a segment does to a waiter -/

/-- What `a` can make of the waiter of call `k`: leave it, enqueue it, let its timer expire, resume
it, hand it a connection from the front of the queue, or fail it. -/
inductive Parked (s : State) (a : Action) (k : CoroId) : Option Waiter → Prop
  | same : Parked s a k (s.parked k)
  | park (ha : ∃ now, a = .acquire now) (hk : k = s.nextId) : Parked s a k (some {})
  | expire {w : Waiter} (ha : a = .timerExpire k) (hw : s.parked k = some w) :
      Parked s a k (some { w with timer := .expired })
  | resume (ha : a = .wake k) : Parked s a k none
  | handOff {j : CoroId} {c : Ptr} {healthy : Bool} {now : Int} {rest : List CoroId} {h : Handle}
      (ha : a = .release j c healthy now) (hq : s.waiters = k :: rest) (hh : h.ptr = c) :
      Parked s a k ((s.parked k).map fun p => { timer := p.timer.cancel, result := some h })
  | fail {o : Option Waiter} (ha : a = .drain) (hk : k ∈ s.waiters)
      (ho : ∀ w, o = some w → w.result = none) : Parked s a k o

theorem parked_update {o : Option Waiter} {j : CoroId} (ho : Parked s a j o) :
    Parked s a k (Function.update s.parked j o k) := by
  rcases eq_or_ne k j with rfl | hk
  · rw [Function.update_self]
    exact ho
  · rw [Function.update_of_ne hk]
    exact .same

/-- A waiter that is failed has no result, whatever the queue lists besides it. -/
theorem result_none_of_failed {w : Waiter} {ks : List CoroId} (hk : k ∈ ks) :
    ∀ parked : CoroId → Option Waiter, ks.foldl failWaiter parked k = some w →
      w.result = none := by
  induction ks with
  | nil => exact absurd hk List.not_mem_nil
  | cons j ks ih =>
    intro parked hw
    by_cases hks : k ∈ ks
    · exact ih hks _ hw
    · obtain rfl : k = j := (List.mem_cons.mp hk).resolve_right hks
      rw [List.foldl_cons, foldl_failWaiter_of_notMem hks, failWaiter, Function.update_self] at hw
      obtain ⟨p, -, rfl⟩ := Option.map_eq_some_iff.mp hw
      rfl

theorem parked_warmLoop {j : CoroId} (i : ℕ) : (warmLoop cfg s j i).parked = s.parked := by
  rw [warmLoop_eq]
  split <;> rfl

theorem parked_of_step (hs : step cfg s a = some s') (k : CoroId) :
    Parked s a k (s'.parked k) := by
  cases segment_of_step hs with
  | acquirePark _ _ _ => exact parked_update (.park ⟨_, rfl⟩ rfl)
  | timerExpire hw _ => exact parked_update (.expire rfl hw)
  | @wake j w _ _ =>
    rw [acquireWoken]
    cases w.result <;> exact parked_update (.resume rfl)
  | release j c healthy now =>
    obtain ⟨-, heq⟩ | ⟨-, -, heq⟩ | ⟨-, -, w, rest, hq, heq⟩ | ⟨-, -, -, heq⟩ :=
      release_cases { s with held := Function.update s.held j none } c healthy now
    · rw [heq]
      exact .same
    · rw [heq]
      exact .same
    · rw [heq]
      exact parked_update (.handOff rfl hq rfl)
    · rw [heq]
      exact .same
  | warmConnected _ _ =>
    rw [warmConnected, parked_warmLoop]
    exact .same
  | warm =>
    rw [parked_warmLoop]
    exact .same
  | startReaper => split <;> exact .same
  | @reaperTick ec now _ =>
    obtain heq | ⟨conns, -, heq⟩ := idleReaperImpl_cases cfg s ec now
    all_goals
      rw [heq]
      exact .same
  | drain =>
    by_cases hk : k ∈ s.waiters
    · exact .fail rfl hk fun w hw => result_none_of_failed hk _ hw
    · rw [show (drainImpl s).parked k = s.parked k from foldl_failWaiter_of_notMem hk _]
      exact .same
  | acquireRefused _ | acquireReuse _ _ | acquireOpen _ _ _ | acquireConnected _ _
  | acquireFailed _ | warmFailed _ | connLost c => exact .same

/-- A waiter with a connection had it before, or is handed it now from the front of the queue. -/
theorem handed_cases {w : Waiter} (hs : step cfg s a = some s') (hw : s'.parked k = some w)
    (hres : w.result = some h) :
    s.parked k = some w ∨
      (w.timer = .expired ∧ ∃ p : Waiter, s.parked k = some p ∧ p.result = some h) ∨
      ((∃ p : Waiter, w.timer = p.timer.cancel) ∧ s.waiters.head? = some k ∧
        ∃ j healthy now, a = .release j h.ptr healthy now) := by
  have hP := parked_of_step hs k
  rw [hw] at hP
  generalize ho : some w = o at hP
  cases hP with
  | same => exact .inl rfl
  | park _ _ =>
    obtain rfl := Option.some.inj ho
    exact absurd hres nofun
  | @expire p _ hp =>
    obtain rfl := Option.some.inj ho
    exact .inr (.inl ⟨rfl, p, hp, hres⟩)
  | resume _ => exact absurd ho nofun
  | @handOff j c healthy now rest g ha hq hg =>
    obtain ⟨p, -, rfl⟩ := Option.map_eq_some_iff.mp ho.symm
    obtain rfl : g = h := Option.some.inj hres
    refine .inr (.inr ⟨⟨p, rfl⟩, ?_, j, healthy, now, hg ▸ ha⟩)
    rw [hq]
    rfl
  | fail _ _ hnone => exact absurd ((hnone w ho.symm).symm.trans hres) nofun

/-! ### Calls complete once -/

/-- Every call of `acquire()` is in one place at most, the names not given yet in none; what is
checked out was returned; and a waiter that was handed a connection can resume. -/
structure State.CallsOnce (s : State) : Prop where
  one : ∀ k, s.frames k ≤ 1
  fresh : ∀ k, s.nextId ≤ k → s.frames k = 0
  held : ∀ k h, s.held k = some h → s.answer k = some (.ok h)
  woken : ∀ k w h, s.parked k = some w → w.result = some h → w.timer ≠ .armed

theorem callsOnce_initial : initial.CallsOnce where
  one _ := Nat.zero_le _
  fresh _ _ := rfl
  held _ _ := nofun
  woken _ _ _ := nofun

namespace State.CallsOnce

theorem answer_of_parked (J : s.CallsOnce) {w : Waiter} (hw : s.parked k = some w) :
    s.answer k = none := by
  refine lookup_eq_none_of_countP ?_
  have hone := J.one k
  simp only [State.frames, hw, Option.isSome_some, Bool.toNat_true] at hone
  omega

theorem parked_fresh (J : s.CallsOnce) : s.parked s.nextId = none := by
  have hzero := J.fresh s.nextId le_rfl
  cases hp : s.parked s.nextId with
  | none => rfl
  | some w =>
    simp only [State.frames, hp, Option.isSome_some, Bool.toNat_true] at hzero
    omega

theorem timer_cancel_ne (t : Timer) : t.cancel ≠ .armed := by
  cases t <;> exact nofun

/-- A call that has completed is not completed again, and what it gave back stays given back. -/
theorem answered (J : ∀ k, s'.frames k ≤ 1) (hs : Pool.step cfg s a = some s')
    {r : Except PoolError Handle} (hr : s.answer k = some r) :
    s'.answer k = some r ∧ (s'.held k = s.held k ∨ s'.held k = none) := by
  by_cases ha : ∃ j c g n, a = .release j c g n
  · obtain ⟨j, c, g, n, rfl⟩ := ha
    obtain ⟨hret, hheld⟩ := release_step hs
    refine ⟨(congrArg (List.lookup k) hret).trans hr, ?_⟩
    rw [hheld]
    rcases eq_or_ne k j with rfl | hk
    · exact .inr (Function.update_self ..)
    · exact .inl (Function.update_of_ne hk ..)
  · have ha : ∀ j c g n, a ≠ .release j c g n := fun j c g n h => ha ⟨j, c, g, n, h⟩
    obtain ⟨hans, hheld⟩ | ⟨r', hnone, -, -⟩ := answer_step hs ha (J k)
    · exact ⟨hans.trans hr, .inl hheld⟩
    · exact absurd (hnone.symm.trans hr) nofun

theorem starts_of_ne (hk : k ≠ s.nextId) : starts s a k = 0 := by
  unfold starts
  split
  · exact if_neg hk
  · rfl

theorem frames_le_one (J : s.CallsOnce) (hs : Pool.step cfg s a = some s') (k : CoroId) :
    s'.frames k ≤ 1 := by
  rw [frames_step (J.fresh _ le_rfl) hs k]
  rcases eq_or_ne k s.nextId with rfl | hk
  · rw [J.fresh _ le_rfl, Nat.zero_add]
    unfold starts
    split
    · exact (if_pos rfl).le
    · exact Nat.zero_le _
  · rw [starts_of_ne hk]
    exact J.one k

theorem step (J : s.CallsOnce) (hs : Pool.step cfg s a = some s') : s'.CallsOnce where
  one := J.frames_le_one hs
  fresh k hk := by
    obtain ⟨hle, hacq⟩ := nextId_step hs
    rw [frames_step (J.fresh _ le_rfl) hs k, J.fresh k (hle.trans hk), Nat.zero_add]
    unfold starts
    split
    · -- the name of the new call is given now
      have hnext : s'.nextId = s.nextId + 1 := hacq ⟨_, rfl⟩
      have hne : k ≠ s.nextId := by
        rintro rfl
        exact absurd (hnext ▸ hk) (Nat.not_succ_le_self _)
      exact if_neg hne
    · rfl
  held k h hk := by
    by_cases ha : ∃ j c g n, a = .release j c g n
    · obtain ⟨j, c, g, n, rfl⟩ := ha
      obtain ⟨hret, hheld⟩ := release_step hs
      rw [State.answer, hret]
      refine J.held k h ?_
      rw [hheld] at hk
      rcases eq_or_ne k j with rfl | hkj
      · rw [Function.update_self] at hk
        cases hk
      · rwa [Function.update_of_ne hkj] at hk
    · have ha : ∀ j c g n, a ≠ .release j c g n := fun j c g n h => ha ⟨j, c, g, n, h⟩
      obtain ⟨hans, hheld⟩ | ⟨r, hnone, hans, hheld⟩ := answer_step hs ha (J.frames_le_one hs k)
      · exact hans.trans (J.held k h (hheld ▸ hk))
      · rw [hheld] at hk
        cases r with
        | ok g =>
          rw [show (coReturn s k (.ok g)).held k = some g from Function.update_self ..] at hk
          rw [hans, Option.some.inj hk]
        | error e => cases hnone.symm.trans (J.held k h hk)
  woken k w h hw hres := by
    obtain hsame | ⟨htimer, -⟩ | ⟨⟨p, htimer⟩, -⟩ := handed_cases hs hw hres
    · exact J.woken k w h hsame hres
    · rw [htimer]
      simp
    · rw [htimer]
      exact timer_cancel_ne p.timer

end State.CallsOnce

/-- **Every call completes at most once**, in every run. -/
theorem callsOnce_run {as : List Action} (J : s.CallsOnce) (hr : run (step cfg) s as = some s') :
    s'.CallsOnce :=
  preserved_run (fun _ _ _ J hs => J.step hs) J hr

/-- What a call has returned stays its answer, and what it has given back it does not get again. -/
theorem answered_run {as : List Action} {r : Except PoolError Handle} (J : s.CallsOnce)
    (hans : s.answer k = some r) (hr : run (step cfg) s as = some s') :
    s'.answer k = some r ∧ (s.held k = none → s'.held k = none) := by
  have hstep : ∀ (t : State) (a : Action) (t' : State),
      (t.CallsOnce ∧ t.answer k = some r ∧ (s.held k = none → t.held k = none)) →
        step cfg t a = some t' →
          t'.CallsOnce ∧ t'.answer k = some r ∧ (s.held k = none → t'.held k = none) := by
    rintro t a t' ⟨J, hans, hheld⟩ hs
    have J' := J.step hs
    obtain ⟨hans', hheld'⟩ := State.CallsOnce.answered J'.one hs hans
    exact ⟨J', hans', fun hnone => hheld'.elim (·.trans (hheld hnone)) id⟩
  exact (preserved_run hstep ⟨J, hans, id⟩ hr).2

/-! ### Owners keep what they have -/

/-- A waiter that was handed a connection keeps it until it resumes, and has it as a caller then. -/
theorem owns_waiter_kept (I : Inv s) (J : s.CallsOnce) (hs : step cfg s a = some s')
    (ho : s.Owns (.waiter k) h) :
    s'.Owns (.waiter k) h ∨ a = .wake k ∧ s'.Owns (.caller k) h ∧ s'.answer k = some (.ok h) := by
  have hq := I.not_mem_waiters ho
  obtain ⟨w, hw, hres⟩ := ho
  have hP := parked_of_step hs k
  generalize ho' : s'.parked k = o at hP
  cases hP with
  | same => exact .inl ⟨w, ho'.trans hw, hres⟩
  | park _ hk =>
    rw [hk, J.parked_fresh] at hw
    exact absurd hw nofun
  | expire _ hw' =>
    refine .inl ⟨_, ho', ?_⟩
    rw [Option.some.inj (hw'.symm.trans hw)]
    exact hres
  | resume ha =>
    subst ha
    refine .inr ⟨rfl, ?_⟩
    cases segment_of_step hs with
    | wake hw' _ =>
      obtain rfl := Option.some.inj (hw'.symm.trans hw)
      rw [acquireWoken, hres]
      exact ⟨Function.update_self .., List.lookup_cons_self⟩
  | handOff _ hwait _ => exact absurd (hwait ▸ List.mem_cons_self ..) hq
  | fail _ hk _ => exact absurd hk hq

/-- **An owner keeps its connection** until its caller releases it; a waiter becomes the caller. -/
theorem owns_kept (I : Inv s) (J : s.CallsOnce) (hs : step cfg s a = some s') (ho : s.Owns b h)
    (hr : ∀ j c g n, a = .release j c g n → b ≠ .caller j) :
    s'.Owns b h ∨ ∃ j, b = .waiter j ∧ s'.Owns (.caller j) h := by
  rcases b with k | k
  · refine .inl ?_
    show s'.held k = some h
    have hheld : s.held k = some h := ho
    by_cases ha : ∃ j c g n, a = .release j c g n
    · obtain ⟨j, c, g, n, rfl⟩ := ha
      have hk : k ≠ j := fun hk => hr j c g n rfl (congrArg Borrower.caller hk)
      rw [(release_step hs).2, Function.update_of_ne hk, hheld]
    · have ha : ∀ j c g n, a ≠ .release j c g n := fun j c g n h => ha ⟨j, c, g, n, h⟩
      obtain ⟨-, heq⟩ | ⟨r, hnone, -, -⟩ := answer_step hs ha (J.frames_le_one hs k)
      · exact heq.trans hheld
      · exact absurd (hnone.symm.trans (J.held k h hheld)) nofun
  · exact (owns_waiter_kept I J hs ho).imp_right fun ⟨_, hcaller, _⟩ => ⟨k, rfl, hcaller⟩

/-! ### Active connections have owners -/

/-- Every active connection is checked out, or handed to a waiter. -/
def State.Lent (s : State) : Prop := ∀ c ∈ s.active, ∃ b h, s.Owns b h ∧ h.ptr = c

theorem lent_initial : initial.Lent := by simp [State.Lent, initial]

/-- An active connection that nobody releases in this segment keeps an owner. -/
theorem Lent.kept (I : Inv s) (J : s.CallsOnce) (hl : s.Lent) (hd : Disciplined s a)
    (hs : step cfg s a = some s') (hc : c ∈ s.active) (hr : ∀ j g n, a ≠ .release j c g n) :
    ∃ b h, s'.Owns b h ∧ h.ptr = c := by
  obtain ⟨b, h, ho, rfl⟩ := hl c hc
  have hkept := owns_kept I J hs ho fun j d g n ha hb => by
    -- the caller that releases would have another connection checked out
    subst ha hb
    obtain ⟨g', hg', rfl⟩ := hd
    obtain rfl := Option.some.inj ((show s.held j = some h from ho).symm.trans hg')
    exact hr j g n rfl
  obtain ho | ⟨j, -, ho⟩ := hkept
  · exact ⟨b, h, ho, rfl⟩
  · exact ⟨_, h, ho, rfl⟩

theorem owns_checkOut_self (s : State) (k : CoroId) (c : Ptr) :
    ∃ h, (checkOut s k c).Owns (.caller k) h ∧ h.ptr = c :=
  ⟨_, Function.update_self .., rfl⟩

theorem owns_handOff_self {w : CoroId} {rest : List CoroId} {p : Waiter}
    (hp : s.parked w = some p) : ∃ h, (handOff s c w rest).Owns (.waiter w) h ∧ h.ptr = c := by
  let t : State :=
    { { s with waiters := rest }.modify c fun x => { x with state := .inUse } with
      active := insert c s.active }
  refine ⟨t.handleOf c, ⟨⟨p.timer.cancel, some (t.handleOf c)⟩, ?_, rfl⟩, rfl⟩
  show Function.update s.parked w ((s.parked w).map _) w = _
  rw [Function.update_self, hp]
  rfl

/-- A pointer other than the released one is active after the release only if it was before; the
released one is active again only if the first waiter has it. -/
theorem active_release {healthy : Bool} {d : Ptr} (hq : s.Queue)
    (hc : c ∈ (release s d healthy now).active) :
    c ∈ s.active ∧ c ≠ d ∨ ∃ b h, (release s d healthy now).Owns b h ∧ h.ptr = c := by
  obtain ⟨hd, heq⟩ | ⟨-, -, heq⟩ | ⟨-, -, w, rest, hwait, heq⟩ | ⟨-, -, -, heq⟩ :=
    release_cases s d healthy now
  · rw [heq] at hc
    exact .inl ⟨hc, fun hcd => hd (hcd ▸ hc)⟩
  · rw [heq] at hc
    exact .inl (Finset.mem_erase.mp hc).symm
  · rw [heq] at hc ⊢
    rcases Finset.mem_insert.mp hc with rfl | hc
    · obtain ⟨p, hp, -⟩ := hq.result_none w (hwait ▸ List.mem_cons_self ..)
      exact .inr ⟨_, owns_handOff_self (s := { s with active := s.active.erase c }) hp⟩
    · exact .inl (Finset.mem_erase.mp hc).symm
  · rw [heq] at hc
    exact .inl (Finset.mem_erase.mp hc).symm

theorem active_warmLoop (i : ℕ) : (warmLoop cfg s k i).active = s.active := by
  rw [warmLoop_eq]
  split <;> rfl

/-- Only checking a connection out or handing it over makes it active. -/
theorem active_step (I : Inv s) (hs : step cfg s a = some s') (hc : c ∈ s'.active) :
    c ∈ s.active ∧ (∀ j g n, a ≠ .release j c g n) ∨ ∃ b h, s'.Owns b h ∧ h.ptr = c := by
  cases segment_of_step hs with
  | @acquireReuse now d rest _ _ =>
    rcases Finset.mem_insert.mp hc with rfl | hc
    · exact .inr ⟨_, owns_checkOut_self _ _ _⟩
    · exact .inl ⟨hc, by simp⟩
  | @acquireConnected j addr now _ _ =>
    rcases Finset.mem_insert.mp hc with rfl | hc
    · exact .inr ⟨_, owns_checkOut_self _ _ _⟩
    · exact .inl ⟨hc, by simp⟩
  | @wake j w _ _ =>
    rw [acquireWoken] at hc
    refine .inl ⟨?_, by simp⟩
    revert hc
    cases w.result <;> exact id
  | release j d healthy now =>
    let t : State := { s with held := Function.update s.held j none }
    have hq : t.Queue := I.queue
    obtain ⟨hc, hcd⟩ | howner := active_release hq hc
    · refine .inl ⟨hc, fun _ _ _ ha => hcd ?_⟩
      cases ha
      rfl
    · exact .inr howner
  | warmConnected _ _ =>
    rw [warmConnected, active_warmLoop] at hc
    exact .inl ⟨hc, by simp⟩
  | warm =>
    rw [active_warmLoop] at hc
    exact .inl ⟨hc, by simp⟩
  | startReaper => split at hc <;> exact .inl ⟨hc, by simp⟩
  | @reaperTick ec now _ =>
    obtain heq | ⟨conns, -, heq⟩ := idleReaperImpl_cases cfg s ec now
    all_goals
      rw [heq] at hc
      exact .inl ⟨hc, by simp⟩
  | drain => exact absurd hc (Finset.notMem_empty c)
  | acquireRefused _ | acquireOpen _ _ _ | acquirePark _ _ _ | acquireFailed _ | warmFailed _
  | timerExpire _ _ | connLost d => exact .inl ⟨hc, by simp⟩

/-- The invariant of disciplined runs that tells who has the active connections. -/
structure Accounted (s : State) : Prop where
  inv : Inv s
  once : s.CallsOnce
  lent : s.Lent

theorem accounted_initial : Accounted initial := ⟨inv_initial, callsOnce_initial, lent_initial⟩

theorem Accounted.step (A : Accounted s) (hd : Disciplined s a) (hs : step cfg s a = some s') :
    Accounted s' where
  inv := A.inv.step hd hs
  once := A.once.step hs
  lent c hc := by
    obtain ⟨hc, hr⟩ | howner := active_step A.inv hs hc
    · exact Lent.kept A.inv A.once A.lent hd hs hc hr
    · exact howner

/-- **Active connections have owners**, after every disciplined run. -/
theorem accounted_run {as : List Action} (A : Accounted s)
    (hd : Along (step cfg) Disciplined s as) (hr : run (step cfg) s as = some s') :
    Accounted s' :=
  invariant_run (fun _ _ _ A hd hs => A.step hd hs) A hd hr

/-- Before a drain, the pointers that somebody has are the active ones. -/
theorem Accounted.mem_active_iff (A : Accounted s) (hup : s.shuttingDown = false) :
    c ∈ s.active ↔ ∃ b h, s.Owns b h ∧ h.ptr = c := by
  refine ⟨A.lent c, ?_⟩
  rintro ⟨b, h, ho, rfl⟩
  exact (A.inv.ledger.owner_active ho (A.inv.ledger.owner_tracked hup ho) rfl).2

/-! ### Releasing a checkout again -/

/-- A release that finds its pointer changes the pool. -/
theorem release_eq_self_iff {healthy : Bool} : release s c healthy now = s ↔ c ∉ s.active := by
  refine ⟨fun heq hc => ?_, fun hc => ?_⟩
  · obtain ⟨hn, -⟩ | ⟨-, -, h⟩ | ⟨-, -, w, rest, hq, h⟩ | ⟨-, -, -, h⟩ :=
      release_cases s c healthy now
    · exact hn hc
    · have hact : s.active.erase c = s.active := congrArg State.active (h.symm.trans heq)
      exact Finset.notMem_erase c s.active (hact.symm ▸ hc)
    · have hrest : rest = s.waiters := congrArg State.waiters (h.symm.trans heq)
      exact List.cons_ne_self w rest (hq.symm.trans hrest.symm)
    · have hact : s.active.erase c = s.active := congrArg State.active (h.symm.trans heq)
      exact Finset.notMem_erase c s.active (hact.symm ▸ hc)
  · rw [release, if_neg hc]

/-- **A second release of a checkout is a no-op exactly when its pointer is not active.** Between
the two calls anything may run. If callers are disciplined otherwise, then before a drain the
pointer is active exactly when a later holder or a served waiter has it. -/
theorem second_release_noop_iff (cfg : PoolConfig) (as bs : List Action) (s₀ s₁ s : State)
    (k : CoroId) (h : Handle) (healthy healthy' : Bool) (now now' : Int)
    (hr₀ : run (step cfg) initial as = some s₀) (hheld : s₀.held k = some h)
    (hrel : step cfg s₀ (.release k h.ptr healthy now) = some s₁)
    (hr : run (step cfg) s₁ bs = some s) :
    (step cfg s (.release k h.ptr healthy' now') = some s ↔ h.ptr ∉ s.active) ∧
      (Along (step cfg) Disciplined initial as → Along (step cfg) Disciplined s₁ bs →
        s.shuttingDown = false →
          (h.ptr ∈ s.active ↔ ∃ b g, s.Owns b g ∧ g.ptr = h.ptr)) := by
  have J₀ : s₀.CallsOnce := callsOnce_run callsOnce_initial hr₀
  have J₁ : s₁.CallsOnce := J₀.step hrel
  have hnone : s.held k = none := by
    have hans := (State.CallsOnce.answered J₁.one hrel (J₀.held k h hheld)).1
    refine (answered_run J₁ hans hr).2 ?_
    rw [(release_step hrel).2, Function.update_self]
  have hsame : { s with held := Function.update s.held k none } = s := by
    rw [← hnone, Function.update_eq_self]
  refine ⟨?_, fun hd hd' hup => ?_⟩
  · show some (release { s with held := Function.update s.held k none } _ _ _) = some s ↔ _
    rw [hsame, Option.some.injEq]
    exact release_eq_self_iff
  · have A₀ : Accounted s₀ := accounted_run accounted_initial hd hr₀
    have hdis : Disciplined s₀ (.release k h.ptr healthy now) := ⟨h, hheld, rfl⟩
    have A₁ : Accounted s₁ := A₀.step hdis hrel
    exact (accounted_run A₁ hd' hr).mem_active_iff hup

/-- Nobody else wants the connection: the second release finds it in the free list. -/
theorem second_release_noop_idle : ∃ s₀ s₁,
    run (step { min := 0, max := 1 }) initial [.acquire 0, .connectOk (.acquire 0) 64 1] = some s₀ ∧
      step { min := 0, max := 1 } s₀ (.release 0 64 true 2) = some s₁ ∧
      step { min := 0, max := 1 } s₁ (.release 0 64 true 3) = some s₁ :=
  ⟨_, _, rfl, rfl, (second_release_noop_iff { min := 0, max := 1 }
    [.acquire 0, .connectOk (.acquire 0) 64 1] [] _ _ _ 0 ⟨64, 0⟩ true true 2 3 rfl rfl rfl
    rfl).1.mpr (by decide)⟩

/-- The connection was handed to a waiter in between: the second release of the first caller puts it
in the free list under the new holder, and an unhealthy one closes it. -/
theorem second_release_takes_away :
    (∃ s s', run (step { min := 0, max := 1 }) initial handOffRun = some s ∧
      s.held 1 = some ⟨64, 0⟩ ∧ 64 ∈ s.active ∧
      step { min := 0, max := 1 } s (.release 0 64 true 4) = some s' ∧
      s'.held 1 = some ⟨64, 0⟩ ∧ 64 ∉ s'.active ∧ s'.freeList = [64]) ∧
    ∃ s s', run (step { min := 0, max := 1 }) initial handOffRun = some s ∧
      step { min := 0, max := 1 } s (.release 0 64 false 4) = some s' ∧
      s'.held 1 = some ⟨64, 0⟩ ∧ s'.all = [] :=
  ⟨⟨_, _, rfl, rfl, by decide, rfl, rfl, by decide, rfl⟩, ⟨_, _, rfl, rfl, rfl, rfl⟩⟩

end Pool

end DBMesh
