import DBMesh.Pool.Owners

/-!
# Handing a connection to a waiter

`release` gives a connection to the waiter at the front of the queue by setting its result and
cancelling its timer; the waiter's coroutine runs later. Three things race on the waiter: the expiry
of its timer, the hand-off, and the segment in which it resumes. Whichever order they come in, the
result decides: a waiter that was handed a connection returns it and nobody else has it before it is
released, and a waiter that returns `TIMED_OUT` has left the queue without ever having been handed
one.

## Main results

* `Pool.handed_of_step` — who is handed a connection, and by what
* `Pool.Delivery.step` — a connection that was handed over arrives
* `Pool.handOff_loses_nothing` — every interleaving before a drain
-/

namespace DBMesh

namespace Pool

open Transition

variable {cfg : PoolConfig} {s s' : State} {a : Action} {k : CoroId} {h : Handle}

/-- Only `release` hands a connection to a waiter: its own, to the front of the queue. -/
theorem handed_of_step (hs : step cfg s a = some s') (hnot : ¬ s.Owns (.waiter k) h)
    (ho : s'.Owns (.waiter k) h) :
    s.waiters.head? = some k ∧ ∃ j healthy now, a = .release j h.ptr healthy now := by
  obtain ⟨w, hw, hres⟩ := ho
  obtain hsame | ⟨-, p, hp, hp'⟩ | ⟨-, hhead, hrelease⟩ := handed_cases hs hw hres
  · exact absurd ⟨w, hsame, hres⟩ hnot
  · exact absurd ⟨p, hp, hp'⟩ hnot
  · exact ⟨hhead, hrelease⟩

/-- The segments of disciplined callers before a drain. -/
def BeforeDrain (s : State) (a : Action) : Prop := Disciplined s a ∧ a ≠ .drain

theorem along_ne_drain {as : List Action} (hn : .drain ∉ as) :
    Along (step cfg) (fun _ a => a ≠ .drain) s as := by
  refine Along.of_forall_mem fun a ha _ => ?_
  rintro rfl
  exact hn ha

theorem along_beforeDrain {as : List Action} (hd : Along (step cfg) Disciplined s as)
    (hn : .drain ∉ as) : Along (step cfg) BeforeDrain s as := hd.and (along_ne_drain hn)

theorem up_run {as : List Action} (hup : s.shuttingDown = false) (hn : .drain ∉ as)
    (hr : run (step cfg) s as = some s') : s'.shuttingDown = false :=
  invariant_run (fun _ _ _ hup ha hs => (shuttingDown_step hs ha).trans hup) hup
    (along_ne_drain hn) hr

/-- The pool is up and `h` was handed to call `k`, which has returned it or is about to. -/
structure Delivery (k : CoroId) (h : Handle) (s : State) : Prop where
  accounted : Accounted s
  up : s.shuttingDown = false
  handed : s.Owns (.waiter k) h ∨ s.answer k = some (.ok h)

/-- **A connection that was handed over arrives**: every segment leaves it with the waiter, or is
the one in which the waiter returns it. -/
theorem Delivery.step (D : Delivery k h s) (hok : BeforeDrain s a)
    (hs : step cfg s a = some s') : Delivery k h s' where
  accounted := D.accounted.step hok.1 hs
  up := (shuttingDown_step hs hok.2).trans D.up
  handed := by
    obtain ho | hans := D.handed
    · obtain ho | ⟨-, -, hans⟩ := owns_waiter_kept D.accounted.inv D.accounted.once hs ho
      · exact .inl ho
      · exact .inr hans
    · exact .inr (State.CallsOnce.answered (D.accounted.once.step hs).one hs hans).1

theorem Delivery.run {as : List Action} (D : Delivery k h s)
    (hok : Along (Pool.step cfg) BeforeDrain s as) (hr : run (Pool.step cfg) s as = some s') :
    Delivery k h s' :=
  invariant_run (fun _ _ _ D hok hs => D.step hok hs) D hok hr

/-- A waiter that was handed a connection can resume, whatever became of its timer, and returns
it. -/
theorem State.CallsOnce.wake_ok (J : s.CallsOnce) (ho : s.Owns (.waiter k) h) :
    ∃ s', Pool.step cfg s (.wake k) = some s' ∧ s'.answer k = some (.ok h) := by
  obtain ⟨w, hw, hres⟩ := ho
  refine ⟨acquireWoken s k w, ?_, ?_⟩
  · simp only [Pool.step, hw, if_neg (J.woken k w h hw hres)]
  · rw [acquireWoken, hres]
    exact List.lookup_cons_self

/-! ### Until it is released -/

/-- The pool is up and call `k`, as a waiter or as a caller, has `h`. -/
structure Possession (k : CoroId) (h : Handle) (s : State) : Prop where
  accounted : Accounted s
  up : s.shuttingDown = false
  owner : s.Owns (.waiter k) h ∨ s.Owns (.caller k) h

/-- Only the caller's own release takes the connection away. -/
theorem Possession.step (P : Possession k h s) (hok : BeforeDrain s a)
    (hrel : ∀ g n, a ≠ .release k h.ptr g n) (hs : step cfg s a = some s') :
    Possession k h s' where
  accounted := P.accounted.step hok.1 hs
  up := (shuttingDown_step hs hok.2).trans P.up
  owner := by
    obtain ho | ho := P.owner
    · exact (owns_waiter_kept P.accounted.inv P.accounted.once hs ho).imp_right fun hw => hw.2.1
    · refine .inr ?_
      have hkept := owns_kept P.accounted.inv P.accounted.once hs ho fun j d g n ha hb => by
        obtain rfl := Borrower.caller.inj hb
        subst ha
        obtain ⟨h', hh', rfl⟩ := hok.1
        obtain rfl := Option.some.inj ((show s.held k = some h from ho).symm.trans hh')
        exact hrel g n rfl
      obtain ho | ⟨j, hb, -⟩ := hkept
      · exact ho
      · exact absurd hb nofun

theorem Possession.run {as : List Action} (P : Possession k h s)
    (hok : Along (Pool.step cfg) BeforeDrain s as) (hrel : ∀ g n, .release k h.ptr g n ∉ as)
    (hr : run (Pool.step cfg) s as = some s') : Possession k h s' := by
  have hmine : Along (Pool.step cfg) (fun _ a => ∀ g n, a ≠ .release k h.ptr g n) s as := by
    refine Along.of_forall_mem fun a ha _ g n heq => ?_
    exact hrel g n (heq ▸ ha)
  exact invariant_run (fun _ _ _ P hok hs => P.step hok.1 hok.2 hs) P (hok.and hmine) hr

/-- While call `k` has the connection it is active, and nobody else has its pointer. -/
theorem Possession.exclusive (P : Possession k h s) : h.ptr ∈ s.active ∧
    ∀ b g, s.Owns b g → g.ptr = h.ptr → b = .waiter k ∨ b = .caller k := by
  have L := P.accounted.inv.ledger
  obtain ⟨b₀, hb₀, ho₀⟩ : ∃ b₀, (b₀ = .waiter k ∨ b₀ = .caller k) ∧ s.Owns b₀ h :=
    P.owner.elim (fun ho => ⟨_, .inl rfl, ho⟩) fun ho => ⟨_, .inr rfl, ho⟩
  have hmem := L.owner_tracked P.up ho₀
  refine ⟨(L.owner_active ho₀ hmem rfl).2, fun b g ho hptr => ?_⟩
  obtain rfl : g = h := L.eq_of_ptr_eq (L.owner_tracked P.up ho) hmem hptr
  exact L.exclusive ho ho₀ rfl ▸ hb₀

/-! ### Waiters that time out -/

/-- A call that has completed is no waiter. -/
theorem State.CallsOnce.parked_of_answer (J : s.CallsOnce) {r : Except PoolError Handle}
    (hans : s.answer k = some r) : s.parked k = none := by
  cases hp : s.parked k with
  | none => rfl
  | some w => exact absurd ((J.answer_of_parked hp).symm.trans hans) nofun

/-- **Hand-off loses nothing.** In every interleaving before a drain, with callers that release each
checkout at most once:

* a waiter that is handed a connection by a release is the oldest one; from then on it has returned
  the connection or can resume and return it, also if its timer has expired; and until its caller
  releases it, the connection is active and nobody else has its pointer;
* a call that has returned `TIMED_OUT` was not handed a connection in any earlier state, and is in
  no later state in the queue or handed one. -/
theorem handOff_loses_nothing (cfg : PoolConfig) (as : List Action) (s : State)
    (hd : Along (step cfg) Disciplined initial as) (hn : .drain ∉ as)
    (hr : run (step cfg) initial as = some s) :
    (∀ j c healthy now s' k h, Disciplined s (.release j c healthy now) →
      step cfg s (.release j c healthy now) = some s' → ¬ s.Owns (.waiter k) h →
      s'.Owns (.waiter k) h → s.waiters.head? = some k ∧ h.ptr = c ∧
        ∀ bs t, Along (step cfg) Disciplined s' bs → .drain ∉ bs → run (step cfg) s' bs = some t →
          (t.answer k = some (.ok h) ∨ t.Owns (.waiter k) h ∧
            ∃ t', step cfg t (.wake k) = some t' ∧ t'.answer k = some (.ok h)) ∧
          ((∀ g n, .release k c g n ∉ bs) → c ∈ t.active ∧
            ∀ b g, t.Owns b g → g.ptr = c → b = .waiter k ∨ b = .caller k)) ∧
    ∀ k, s.answer k = some (.error .timedOut) →
      (∀ as₁ as₂ s₁ h, as = as₁ ++ as₂ → run (step cfg) initial as₁ = some s₁ →
        ¬ s₁.Owns (.waiter k) h) ∧
      ∀ bs t, Along (step cfg) Disciplined s bs → run (step cfg) s bs = some t →
        t.answer k = some (.error .timedOut) ∧ k ∉ t.waiters ∧ ∀ h, ¬ t.Owns (.waiter k) h := by
  have A : Accounted s := accounted_run accounted_initial hd hr
  have hup : s.shuttingDown = false := up_run rfl hn hr
  refine ⟨fun j c healthy now s' k h hdis hs hnot ho => ?_, fun k hans => ⟨?_, ?_⟩⟩
  · obtain ⟨hhead, j', g', n', ha⟩ := handed_of_step hs hnot ho
    obtain rfl : h.ptr = c := by
      cases ha
      rfl
    have A' : Accounted s' := A.step hdis hs
    have hup' : s'.shuttingDown = false := (shuttingDown_step hs nofun).trans hup
    refine ⟨hhead, rfl, fun bs t hd' hn' hr' => ?_⟩
    have hok := along_beforeDrain hd' hn'
    refine ⟨?_, fun hrel => ?_⟩
    · have D : Delivery k h t := Delivery.run ⟨A', hup', .inl ho⟩ hok hr'
      obtain ho | hans := D.handed
      · exact .inr ⟨ho, D.accounted.once.wake_ok ho⟩
      · exact .inl hans
    · exact (Possession.run ⟨A', hup', .inl ho⟩ hok hrel hr').exclusive
  · rintro as₁ as₂ s₁ h rfl hr₁ ho
    obtain ⟨u, hu, hr₂⟩ := run_append_eq_some.mp hr
    obtain rfl : u = s₁ := Option.some.inj (hu.symm.trans hr₁)
    obtain ⟨hd₁, hd₂⟩ := (along_append hu).mp hd
    rw [List.mem_append, not_or] at hn
    have A₁ : Accounted u := accounted_run accounted_initial hd₁ hu
    have D : Delivery k h s := Delivery.run ⟨A₁, up_run rfl hn.1 hu, .inl ho⟩
      (along_beforeDrain hd₂ hn.2) hr₂
    -- a waiter that was handed something returns it, and nothing else
    obtain ho | hok := D.handed
    · obtain ⟨w, hw, -⟩ := ho
      exact absurd ((A.once.answer_of_parked hw).symm.trans hans) nofun
    · exact absurd (hok.symm.trans hans) nofun
  · intro bs t hd' hr'
    have A' : Accounted t := accounted_run A hd' hr'
    have hans' := (answered_run A.once hans hr').1
    have hpark := A'.once.parked_of_answer hans'
    refine ⟨hans', fun hmem => ?_, ?_⟩
    · obtain ⟨w, hw, -⟩ := A'.inv.queue.result_none k hmem
      exact absurd (hpark.symm.trans hw) nofun
    · rintro h ⟨w, hw, -⟩
      exact absurd (hpark.symm.trans hw) nofun

/-- The timer of the waiter expires before the release, and it is handed the connection. -/
def lateHandOff : List Action :=
  [.acquire 0, .connectOk (.acquire 0) 64 1, .acquire 2, .timerExpire 1]

theorem handOff_after_expiry : ∃ s s',
    run (step { min := 0, max := 1 }) initial lateHandOff = some s ∧
      step { min := 0, max := 1 } s (.release 0 64 true 3) = some s' ∧
      s.parked 1 = some { timer := .expired } ∧ s.waiters.head? = some 1 ∧
      ∃ t', step { min := 0, max := 1 } s' (.wake 1) = some t' ∧
        t'.answer 1 = some (.ok ⟨64, 0⟩) := by
  refine ⟨_, _, rfl, rfl, rfl, ?_⟩
  obtain ⟨hhand, -⟩ := handOff_loses_nothing { min := 0, max := 1 } lateHandOff _
    (by decide +kernel) (by decide) rfl
  obtain ⟨hhead, -, hlater⟩ := hhand 0 64 true 3 _ 1 ⟨64, 0⟩ (by decide +kernel) rfl
    (by rintro ⟨w, hw, hres⟩; cases hw; cases hres) ⟨_, rfl, rfl⟩
  obtain ⟨hans | ⟨-, hwake⟩, -⟩ := hlater [] _ trivial (by decide) rfl
  · exact absurd hans nofun
  · exact ⟨hhead, hwake⟩

end Pool

end DBMesh
