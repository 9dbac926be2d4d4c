import DBMesh.Protocol.RouteAndForward

/-!
# Using a pooled connection while owning it

What holds between the calls of `route_and_forward` and the pool, and when a call owns the
connection it accesses.

## What decides the matter

The increment comes after `release`. Once the handler has run, the connection is free, or another
call's, or destroyed. The other way to lose a connection in use is a drain, which destroys it; and
a handler that is still pending then may find another connection at its address later.

## Main definitions

* `Checkout.Timely` — handlers run after the increment, drains when no connection is in use
* `Checkout.Inv` — each call is in one place in the pool, which agrees with its phase
* `Checkout.ReleasesOnce` — what a call does with `release`
* `Checkout.Safe` — what is in use is tracked

## Main results

* `Checkout.Inv.step`, `Checkout.Safe.step` — every step, and every timely step, keeps its invariant
* `Checkout.release_once_and_owned` — every connection is released once, and used only while owned
  along timely runs
-/

namespace DBMesh.Checkout

open Transition
open Pool (CoroId Ptr Handle Borrower)
open Protocol (Proxied)

variable {cfg : Pool.PoolConfig} {s s' : State} {a : Action} {k j : CoroId} {h : Handle}

/-! ### Timely steps -/

/-- The call has made its last access. -/
def State.finished (s : State) (k : CoroId) : Bool :=
  match s.calls k with
  | some (.finished _ _) => true
  | _ => false

/-- The call has a connection, or its waiter has been handed one, and it is not through with it. -/
def State.inUse (s : State) (k : CoroId) : Bool :=
  !s.finished k &&
    ((s.pool.held k).isSome || ((s.pool.parked k).bind (·.result)).isSome)

/-- The handler of a release runs after the increment, and never on another connection that has come
to its address; the pool is drained only while no connection is in use. -/
def Timely (s : State) : Action → Prop
  | .handler k _ =>
    match s.calls k with
    | some (.finished h _) => h.ptr ∈ s.pool.active → h ∈ s.pool.handles
    | _ => False
  | .strand .drain => ∀ k < s.pool.nextId, s.inUse k = false
  | _ => True

instance (s : State) : (a : Action) → Decidable (Timely s a)
  | .handler k _ =>
    match hk : s.calls k with
    | some (.finished h _) =>
      decidable_of_iff (h.ptr ∈ s.pool.active → h ∈ s.pool.handles) (by simp [Timely, hk])
    | some .acquiring | some .refused | some (.holding _ _) | some (.released _ _) | none =>
      isFalse (by simp [Timely, hk])
  | .strand a =>
    if ha : a = .drain then
      decidable_of_iff (∀ k < s.pool.nextId, s.inUse k = false) (by simp [Timely, ha])
    else isTrue (by cases a <;> first | exact absurd rfl ha | trivial)
  | .call _ | .acquired _ | .forward _ _ | .release _ | .count _ => isTrue trivial

/-! ### Calls and pool agree -/

/-- What an answered call has been given. -/
def granted : Option (Except Pool.PoolError Handle) → Option Handle
  | some (.ok h) => some h
  | _ => none

/-- What the pool and the handlers know about a call, in each of its phases. -/
def Agrees (s : State) (k : CoroId) : Prop :=
  match s.calls k with
  | none =>
    s.pool.answer k = none ∧ s.pool.held k = none ∧ s.pending k = none ∧ s.releases k = []
  | some .acquiring =>
    s.pool.held k = granted (s.pool.answer k) ∧ s.pending k = none ∧ s.releases k = []
  | some .refused =>
    (∃ e, s.pool.answer k = some (.error e)) ∧ s.pool.held k = none ∧ s.pending k = none ∧
      s.releases k = []
  | some (.holding h p) =>
    s.pool.answer k = some (.ok h) ∧ s.pool.held k = some h ∧ s.pending k = none ∧
      s.releases k = [] ∧ (p = .settled true → s.proxied k = some (.returned true))
  | some (.released h ok) | some (.finished h ok) =>
    s.pool.answer k = some (.ok h) ∧ s.releases k = [(h.ptr, ok)] ∧
      (ok = true → s.proxied k = some (.returned true)) ∧
      (s.pending k = some (h.ptr, ok) ∧ s.pool.held k = some h ∨
        s.pending k = none ∧ s.pool.held k = none)

/-- **The invariant of every run.** A call is in one place in the pool, if it has been made. -/
structure Inv (s : State) : Prop where
  pool : Pool.Inv s.pool
  frames : ∀ k, s.pool.frames k = (s.calls k).isSome.toNat
  fresh : ∀ k, s.pool.nextId ≤ k → s.calls k = none
  agrees : ∀ k, Agrees s k

theorem inv_initial : Inv initial where
  pool := Pool.inv_initial
  frames _ := rfl
  fresh _ _ := rfl
  agrees _ := ⟨rfl, rfl, rfl, rfl⟩

/-- Steps of others leave a call alone. -/
theorem Agrees.congr (A : Agrees s k) (hc : s'.calls k = s.calls k)
    (ha : s'.pool.answer k = s.pool.answer k) (hh : s'.pool.held k = s.pool.held k)
    (hq : s'.pending k = s.pending k) (hr : s'.releases k = s.releases k)
    (hp : s'.proxied k = s.proxied k) : Agrees s' k := by
  rw [Agrees, hc, ha, hh, hq, hr, hp]
  exact A

/-- A segment that answers a call answers one that waits. -/
theorem Agrees.poolStep {b : Pool.Action} {p : Pool.State} (A : Agrees s k)
    (hp : Pool.step cfg s.pool b = some p) (hb : ∀ i c g n, b ≠ .release i c g n)
    (hf : p.frames k = (s.calls k).isSome.toNat) : Agrees { s with pool := p } k := by
  have hone : p.frames k ≤ 1 := hf ▸ Bool.toNat_le _
  obtain ⟨ha, hh⟩ | ⟨r, hnone, hr, hh⟩ := Pool.answer_step hp hb hone
  · exact A.congr rfl ha hh rfl rfl rfl
  · have hpos := Pool.frames_pos_of_answer hr
    have hheld : s.pool.held k = none → p.held k = granted (some r) := by
      intro hn
      rw [hh]
      cases r with
      | ok h => exact Function.update_self ..
      | error e => exact hn
    cases hk : s.calls k with
    | none =>
      rw [hf, hk] at hpos
      exact absurd hpos (lt_irrefl 0)
    | some phase =>
      simp only [Agrees, hk, hnone] at A ⊢
      cases phase with
      | acquiring => exact ⟨hr ▸ hheld A.1, A.2⟩
      | refused => exact absurd A.1 (by simp)
      | holding h p => exact absurd A.1 nofun
      | released h ok => exact absurd A.1 nofun
      | finished h ok => exact absurd A.1 nofun

/-- A call that goes on keeps the invariant if the pool still agrees with it. -/
theorem Inv.of_goTo {phase₀ phase : Phase} (I : Inv s) (hk : s.calls k = some phase₀)
    (hp : s'.pool = s.pool) (hc : s'.calls = Function.update s.calls k (some phase))
    (hj : ∀ j, j ≠ k → s'.pending j = s.pending j ∧ s'.releases j = s.releases j ∧
      s'.proxied j = s.proxied j) (A : Agrees s' k) : Inv s' where
  pool := hp ▸ I.pool
  frames j := by
    rw [hp, I.frames j, hc]
    rcases eq_or_ne j k with rfl | hjk
    · rw [Function.update_self, hk]
      rfl
    · rw [Function.update_of_ne hjk]
  fresh j hlt := by
    rw [hp] at hlt
    have hnone := I.fresh j hlt
    have hjk : j ≠ k := by
      rintro rfl
      exact absurd (hk.symm.trans hnone) nofun
    rw [hc, Function.update_of_ne hjk]
    exact hnone
  agrees j := by
    rcases eq_or_ne j k with rfl | hjk
    · exact A
    · obtain ⟨hq, hr, hx⟩ := hj j hjk
      exact (I.agrees j).congr (by rw [hc, Function.update_of_ne hjk]) (by rw [hp]) (by rw [hp])
        hq hr hx

theorem Inv.frames_nextId (I : Inv s) : s.pool.frames s.pool.nextId = 0 := by
  rw [I.frames, I.fresh _ le_rfl]
  rfl

/-- A new call. -/
theorem Inv.call {now : Int} {p : Pool.State} (I : Inv s)
    (hp : Pool.step cfg s.pool (.acquire now) = some p) :
    Inv { s.goTo s.pool.nextId .acquiring with pool := p } := by
  have hframes := Pool.frames_step I.frames_nextId hp
  have hpool : Pool.Inv p := Pool.Inv.step (a := .acquire now) I.pool trivial hp
  have hnot : ∀ j c g n, Pool.Action.acquire now ≠ .release j c g n := by simp
  refine ⟨hpool, fun j => ?_, fun j hlt => ?_, fun j => ?_⟩
  · show p.frames j = (Function.update s.calls s.pool.nextId (some .acquiring) j).isSome.toNat
    rw [hframes, Pool.starts]
    rcases eq_or_ne j s.pool.nextId with rfl | hj
    · rw [I.frames_nextId, Function.update_self, if_pos rfl]
      rfl
    · rw [I.frames, Function.update_of_ne hj, if_neg hj, Nat.add_zero]
  · have hlt : s.pool.nextId + 1 ≤ j := (Pool.nextId_step hp).2 ⟨now, rfl⟩ ▸ hlt
    have hj : j ≠ s.pool.nextId := (Nat.lt_of_succ_le hlt).ne'
    exact (Function.update_of_ne hj ..).trans (I.fresh j (Nat.le_of_succ_le hlt))
  · rcases eq_or_ne j s.pool.nextId with rfl | hj
    · have A := I.agrees s.pool.nextId
      simp only [Agrees, I.fresh _ le_rfl] at A
      obtain ⟨hnone, hheld, hrest⟩ := A
      have hone : p.frames s.pool.nextId ≤ 1 := by
        rw [hframes, I.frames_nextId, Pool.starts, if_pos rfl]
      simp only [Agrees, State.goTo, Function.update_self]
      refine ⟨?_, hrest⟩
      obtain ⟨ha, hh⟩ | ⟨r, -, hr, hh⟩ := Pool.answer_step hp hnot hone
      · rw [ha, hh, hnone, hheld]
        rfl
      · rw [hr, hh]
        cases r with
        | ok h => exact Function.update_self ..
        | error e => exact hheld
    · have hf : p.frames j = (s.calls j).isSome.toNat := by
        rw [hframes, I.frames, Pool.starts, if_neg hj, Nat.add_zero]
      refine ((I.agrees j).poolStep hp hnot hf).congr ?_ rfl rfl rfl rfl rfl
      exact Function.update_of_ne hj ..

/-- A handler that has not run has a checkout to end. -/
theorem Inv.held_of_pending {c : Ptr} {healthy : Bool} (I : Inv s)
    (hq : s.pending k = some (c, healthy)) :
    ∃ h, s.pool.held k = some h ∧ h.ptr = c ∧
      (s.calls k = some (.released h healthy) ∨ s.calls k = some (.finished h healthy)) := by
  have A := I.agrees k
  cases hk : s.calls k with
  | none => simp [Agrees, hk, hq] at A
  | some phase =>
    simp only [Agrees, hk] at A
    cases phase with
    | acquiring => simp [hq] at A
    | refused => simp [hq] at A
    | holding h p => simp [hq] at A
    | released h ok | finished h ok =>
      obtain ⟨-, -, -, ⟨hpend, hheld⟩ | ⟨hpend, -⟩⟩ := A
      · obtain ⟨rfl, rfl⟩ := Prod.mk.inj (Option.some.inj (hq.symm.trans hpend))
        exact ⟨h, hheld, rfl, by simp⟩
      · exact absurd (hq.symm.trans hpend) nofun

theorem Inv.handler {now : Int} {c : Ptr} {healthy : Bool} {p : Pool.State} (I : Inv s)
    (hq : s.pending k = some (c, healthy))
    (hp : Pool.step cfg s.pool (.release k c healthy now) = some p) :
    Inv { s with pool := p, pending := Function.update s.pending k none } := by
  obtain ⟨h, hheld, rfl, hphase⟩ := I.held_of_pending hq
  obtain ⟨hret, hh⟩ := Pool.release_step hp
  have hans : ∀ j, p.answer j = s.pool.answer j := fun j => congrArg (List.lookup j) hret
  have hdis : Pool.Disciplined s.pool (.release k h.ptr healthy now) := ⟨h, hheld, rfl⟩
  refine ⟨I.pool.step hdis hp, fun j => ?_, fun j hlt => ?_, fun j => ?_⟩
  · exact (Pool.frames_step I.frames_nextId hp j).trans (I.frames j)
  · exact I.fresh j ((Pool.nextId_step hp).1.trans hlt)
  · rcases eq_or_ne j k with rfl | hj
    · have A := I.agrees j
      have hnone : p.held j = none := by rw [hh, Function.update_self]
      rcases hphase with hk | hk
      all_goals
        simp only [Agrees, hk, hans, Function.update_self] at A ⊢
        exact ⟨A.1, A.2.1, A.2.2.1, .inr ⟨trivial, hnone⟩⟩
    · refine (I.agrees j).congr rfl (hans j) ?_ (Function.update_of_ne hj ..) rfl rfl
      rw [show _ = p.held j from rfl, hh, Function.update_of_ne hj]

/-- `ok` is true behind the `try` block only if `proxy_result` has returned `true`. -/
theorem forward_settled {p : Point} {e : Event} {r : Point × Option Proxied}
    (hr : forward p e = some r) (hok : r.1 = .settled true) : r.2 = some (.returned true) := by
  rw [forward.eq_def] at hr
  split at hr
  case h_7 stage payload =>
    split at hr
    · obtain rfl := Option.some.inj hr
      exact absurd hok nofun
    · obtain rfl := Option.some.inj hr
      rfl
  case h_9 => exact absurd hr nofun
  all_goals
    obtain rfl := Option.some.inj hr
    exact absurd hok (by simp)

theorem advance_settled {e : Event} {q₀ q : Point × Option Proxied} (hq : advance q₀ e = some q)
    (hok : q.1 = .settled true) : q.2 = some (.returned true) := by
  obtain ⟨r, hr, rfl⟩ := Option.map_eq_some_iff.mp hq
  show (r.2 <|> q₀.2) = some (.returned true)
  rw [forward_settled hr hok]
  rfl

/-- **Every step keeps the invariant.** -/
theorem Inv.step (I : Inv s) (hs : step cfg s a = some s') : Inv s' := by
  cases move_of_step hs with
  | call hp => exact I.call hp
  | @granted k h hk ha =>
    refine I.of_goTo hk rfl rfl (fun _ _ => ⟨rfl, rfl, rfl⟩) ?_
    have A := I.agrees k
    simp only [Agrees, State.goTo, hk, ha, Function.update_self] at A ⊢
    exact ⟨trivial, A.1, A.2.1, A.2.2, nofun⟩
  | @refused k e hk ha =>
    refine I.of_goTo hk rfl rfl (fun _ _ => ⟨rfl, rfl, rfl⟩) ?_
    have A := I.agrees k
    simp only [Agrees, State.goTo, hk, ha, Function.update_self] at A ⊢
    exact ⟨⟨e, rfl⟩, A⟩
  | @forward k e h p q hk hq =>
    refine I.of_goTo hk rfl rfl
      (fun _ hj => ⟨rfl, rfl, Function.update_of_ne hj ..⟩) ?_
    have A := I.agrees k
    simp only [Agrees, State.goTo, hk, Function.update_self] at A ⊢
    exact ⟨A.1, A.2.1, A.2.2.1, A.2.2.2.1, fun hok => advance_settled hq hok⟩
  | @release k h ok hk =>
    refine I.of_goTo hk rfl rfl
      (fun _ hj => ⟨Function.update_of_ne hj .., Function.update_of_ne hj .., rfl⟩) ?_
    have A := I.agrees k
    simp only [Agrees, State.goTo, hk, Function.update_self] at A ⊢
    obtain ⟨ha, hh, -, hr, hx⟩ := A
    exact ⟨ha, by rw [hr]; rfl, fun hok => hx (by rw [hok]), .inl ⟨trivial, hh⟩⟩
  | handler hq hp => exact I.handler hq hp
  | @count k h ok hk =>
    refine I.of_goTo hk rfl rfl (fun _ _ => ⟨rfl, rfl, rfl⟩) ?_
    have A := I.agrees k
    simp only [Agrees, State.goTo, hk, Function.update_self] at A ⊢
    exact A
  | @strand b p hb hp =>
    have hrel : ∀ i c g n, b ≠ .release i c g n := by
      rintro i c g n rfl
      exact absurd hb (by simp [ofCaller])
    have hframes : ∀ j, p.frames j = (s.calls j).isSome.toNat := by
      intro j
      rw [Pool.frames_step I.frames_nextId hp, I.frames]
      cases b with
      | acquire now => exact absurd hb (by simp [ofCaller])
      | _ => rfl
    have hdis : Pool.Disciplined s.pool b := by
      cases b with
      | release i c g n => exact absurd rfl (hrel i c g n)
      | _ => trivial
    exact ⟨I.pool.step hdis hp, hframes, fun j hlt => I.fresh j ((Pool.nextId_step hp).1.trans hlt),
      fun j => (I.agrees j).poolStep hp hrel (hframes j)⟩

theorem inv_run {as : List Action} (hr : run (Checkout.step cfg) initial as = some s) : Inv s :=
  preserved_run (fun _ _ _ I hs => I.step hs) inv_initial hr

/-! ### Released once -/

/-- What holds of the release of a connection `h` that call `k` was given. -/
structure ReleasesOnce (cfg : Pool.PoolConfig) (s : State) (k : CoroId) (h : Handle) : Prop where
  /-- It is released at most once. -/
  atMostOnce : s.releases k = [] ∨ ∃ ok, s.releases k = [(h.ptr, ok)]
  /-- It is released as healthy only if `proxy_result` returned `true`. -/
  healthy : ∀ c, (c, true) ∈ s.releases k → s.proxied k = some (.returned true)
  /-- A call that is through has released it. -/
  finished : ∀ g ok, s.calls k = some (.finished g ok) → s.releases k = [(h.ptr, ok)]
  /-- A call that is not through can go on. -/
  goesOn : s.finished k = false → ∃ a t, a.caller = some k ∧ step cfg s a = some t

/-- No suspension point of the `try` block is a dead end. -/
theorem exists_advance {p : Point} (x : Option Proxied) (hp : ∀ ok, p ≠ .settled ok) :
    ∃ e q, advance (p, x) e = some q := by
  cases p with
  | writing => exact ⟨.wrote false, _, rfl⟩
  | reading stage => exact ⟨.read none, _, rfl⟩
  | sending stage payload => exact ⟨.sent false, _, rfl⟩
  | settled ok => exact absurd rfl (hp ok)

theorem ok_of_mem_release {c d : Ptr} {ok : Bool} (hc : (c, true) ∈ [(d, ok)]) : ok = true := by
  obtain ⟨-, rfl⟩ := Prod.mk.inj (List.mem_singleton.mp hc)
  rfl

theorem Inv.releasesOnce (I : Inv s) (ha : s.pool.answer k = some (.ok h)) :
    ReleasesOnce cfg s k h := by
  have A := I.agrees k
  cases hk : s.calls k with
  | none => simp [Agrees, hk, ha] at A
  | some phase =>
    simp only [Agrees, hk, ha] at A
    cases phase with
    | acquiring =>
      refine ⟨.inl A.2.2, by simp [A.2.2], by simp [hk], fun _ => ?_⟩
      exact ⟨.acquired k, s.goTo k (.holding h .writing), rfl, by simp only [Checkout.step, hk, ha]⟩
    | refused => simp at A
    | holding g p =>
      obtain ⟨-, -, -, hr, -⟩ := A
      refine ⟨.inl hr, by simp [hr], by simp [hk], fun _ => ?_⟩
      by_cases hp : ∃ ok, p = .settled ok
      · obtain ⟨ok, rfl⟩ := hp
        exact ⟨.release k, _, rfl, by simp only [Checkout.step, hk]; rfl⟩
      · obtain ⟨e, q, hq⟩ := exists_advance (s.proxied k) fun ok hok => hp ⟨ok, hok⟩
        exact ⟨.forward k e, _, rfl, by simp only [Checkout.step, hk, hq]; rfl⟩
    | released g ok =>
      obtain ⟨hg, hr, hx, -⟩ := A
      obtain rfl : h = g := by simpa using hg
      refine ⟨.inr ⟨ok, hr⟩, fun c hc => hx (ok_of_mem_release (hr ▸ hc)), by simp [hk],
        fun _ => ?_⟩
      exact ⟨.count k, _, rfl, by simp only [Checkout.step, hk]; rfl⟩
    | finished g ok =>
      obtain ⟨hg, hr, hx, -⟩ := A
      obtain rfl : h = g := by simpa using hg
      refine ⟨.inr ⟨ok, hr⟩, fun c hc => hx (ok_of_mem_release (hr ▸ hc)), fun g' ok' hk' => ?_,
        fun hf => ?_⟩
      · obtain ⟨-, rfl⟩ := Phase.finished.inj (Option.some.inj (hk.symm.trans hk'))
        exact hr
      · simp [State.finished, hk] at hf

/-! ### Used while owned -/

/-- The call a borrower is of. -/
def callOf : Borrower → CoroId
  | .caller k | .waiter k => k

/-- **The invariant of timely runs.** Between its release and its increment a call still has its
checkout, and every connection in use is tracked. -/
structure Safe (s : State) : Prop where
  inv : Inv s
  waits : ∀ k h ok, s.calls k = some (.released h ok) → s.pending k ≠ none
  tracked : ∀ b h, s.pool.Owns b h → s.finished (callOf b) = false → h ∈ s.pool.handles

theorem Safe.owned (S : Safe s) (hheld : s.pool.held k = some h) (hf : s.finished k = false) :
    Owned s.pool k h := by
  have hown : s.pool.Owns (.caller k) h := hheld
  have hm := S.tracked _ h hown hf
  exact ⟨hm, (S.inv.pool.ledger.owner_active hown hm rfl).2, hheld⟩

/-- Every access finds its connection owned. -/
theorem Safe.usesOwned (S : Safe s) (a : Action) : UsesOwned s a := by
  cases ht : touched s a with
  | none => simp [UsesOwned, ht]
  | some t =>
    obtain ⟨k, h⟩ := t
    simp only [UsesOwned, ht]
    have A := S.inv.agrees k
    cases a with
    | acquired j =>
      simp only [touched] at ht
      split at ht
      case h_1 g hk ha =>
        obtain ⟨rfl, rfl⟩ := Prod.mk.inj (Option.some.inj ht)
        simp only [Agrees, hk, ha] at A
        exact S.owned A.1 (by simp [State.finished, hk])
      case h_2 => exact absurd ht nofun
    | forward j e =>
      simp only [touched] at ht
      split at ht
      case h_1 g p hk =>
        obtain ⟨-, ht⟩ := Option.ite_none_right_eq_some.mp ht
        obtain ⟨rfl, rfl⟩ := Prod.mk.inj (Option.some.inj ht)
        simp only [Agrees, hk] at A
        exact S.owned A.2.1 (by simp [State.finished, hk])
      case h_2 => exact absurd ht nofun
    | count j =>
      simp only [touched] at ht
      split at ht
      case h_1 g ok hk =>
        obtain ⟨rfl, rfl⟩ := Prod.mk.inj (Option.some.inj ht)
        simp only [Agrees, hk] at A
        obtain ⟨-, -, -, ⟨-, hheld⟩ | ⟨hnone, -⟩⟩ := A
        · exact S.owned hheld (by simp [State.finished, hk])
        · exact absurd hnone (S.waits _ _ _ hk)
      case h_2 => exact absurd ht nofun
    | call now => exact absurd ht nofun
    | release j => exact absurd ht nofun
    | handler j now => exact absurd ht nofun
    | strand b => exact absurd ht nofun

/-- A segment that neither drains nor releases a connection in use leaves what is in use tracked. -/
theorem Safe.tracked_step {b : Pool.Action} {p : Pool.State} (S : Safe s)
    (hp : Pool.step cfg s.pool b = some p) (hd : b ≠ .drain)
    (hr : ∀ o g, s.pool.Owns o g → s.finished (callOf o) = false →
      ∀ i x n, b ≠ .release i g.ptr x n)
    {o : Borrower} (ho : p.Owns o h) (hf : s.finished (callOf o) = false) : h ∈ p.handles := by
  have hkeep : ∀ o', s.pool.Owns o' h → s.finished (callOf o') = false → h ∈ p.handles := by
    intro o' ho' hf'
    have hm := S.tracked o' h ho' hf'
    have hact := (S.inv.pool.ledger.owner_active ho' hm rfl).2
    exact Pool.tracked_step S.inv.pool hp hm hact hd (hr o' h ho' hf')
  obtain ho' | ⟨i, rfl, ho'⟩ | hm := Pool.owns_step S.inv.pool hp ho
  · exact hkeep o ho' hf
  · exact hkeep (.waiter i) ho' hf
  · exact hm

theorem inUse_of_owns {o : Borrower} (ho : s.pool.Owns o h) (hf : s.finished (callOf o) = false) :
    s.inUse (callOf o) = true := by
  cases o with
  | caller k =>
    have hk : s.pool.held k = some h := ho
    have hf : s.finished k = false := hf
    simp [State.inUse, callOf, hf, hk]
  | waiter k =>
    obtain ⟨w, hw, hres⟩ := ho
    have hf : s.finished k = false := hf
    simp [State.inUse, callOf, hf, hw, hres]

/-- Only calls that have been made use a connection. -/
theorem Inv.lt_of_inUse (I : Inv s) (hu : s.inUse k = true) : k < s.pool.nextId := by
  by_contra hge
  have hnone := I.fresh k (Nat.not_lt.mp hge)
  have A := I.agrees k
  have hf := I.frames k
  rw [hnone] at hf
  simp only [Agrees, hnone] at A
  have hpark : s.pool.parked k = none := by
    cases hw : s.pool.parked k with
    | none => rfl
    | some w => simp [Pool.State.frames, hw] at hf
  simp [State.inUse, A.2.1, hpark] at hu

/-- Nothing is in use when the pool is drained. -/
theorem Safe.tracked_drain {p : Pool.State} (S : Safe s)
    (hp : Pool.step cfg s.pool .drain = some p) (ht : Timely s (.strand .drain))
    {o : Borrower} (ho : p.Owns o h) (hf : s.finished (callOf o) = false) : h ∈ p.handles := by
  have hunused : ∀ o', s.pool.Owns o' h → s.finished (callOf o') = false → False := by
    intro o' ho' hf'
    have hu := inUse_of_owns ho' hf'
    have hnot := ht _ (S.inv.lt_of_inUse hu)
    exact absurd (hu.symm.trans hnot) nofun
  obtain ho' | ⟨i, rfl, ho'⟩ | hm := Pool.owns_step S.inv.pool hp ho
  · exact (hunused o ho' hf).elim
  · exact (hunused (.waiter i) ho' hf).elim
  · exact hm

/-- The handler of a call that is through finds nothing at its address, or its own connection. -/
theorem Safe.tracked_handler {now : Int} {c : Ptr} {healthy : Bool} {p : Pool.State} (S : Safe s)
    (hq : s.pending k = some (c, healthy))
    (hp : Pool.step cfg s.pool (.release k c healthy now) = some p)
    (ht : Timely s (.handler k now)) {o : Borrower} (ho : p.Owns o h)
    (hf : s.finished (callOf o) = false) : h ∈ p.handles := by
  obtain ⟨g, hheld, rfl, hphase⟩ := S.inv.held_of_pending hq
  obtain ⟨ok, hk⟩ : ∃ ok, s.calls k = some (.finished g ok) := by
    rcases hphase with hk | hk
    · simp [Timely, hk] at ht
    · exact ⟨_, hk⟩
  simp only [Timely, hk] at ht
  refine S.tracked_step hp nofun (fun o' g' ho' hf' i x n heq => ?_) ho hf
  obtain ⟨-, hptr, -⟩ := Pool.Action.release.inj heq
  have hm' := S.tracked o' g' ho' hf'
  have hm := ht (hptr ▸ (S.inv.pool.ledger.owner_active ho' hm' rfl).2)
  obtain rfl := S.inv.pool.ledger.eq_of_ptr_eq hm hm' hptr
  -- the connection has one owner, and that one is through
  have hown : s.pool.Owns (.caller k) g := hheld
  obtain rfl := S.inv.pool.ledger.exclusive ho' hown rfl
  simp [State.finished, callOf, hk] at hf'

/-- A call that goes on, and has its connection if it is about to increment, keeps what is in use
tracked. -/
theorem Safe.of_goTo {phase₀ phase : Phase} (S : Safe s) (I' : Inv s')
    (hk : s.calls k = some phase₀) (hp : s'.pool = s.pool)
    (hc : s'.calls = Function.update s.calls k (some phase))
    (hq : ∀ j, j ≠ k → s'.pending j = s.pending j) (hphase₀ : s.finished k = false)
    (hphase : ∀ g ok, phase = .released g ok → s'.pending k ≠ none) : Safe s' := by
  refine ⟨I', fun j g ok hj => ?_, fun o g ho hf => ?_⟩
  · rw [hc] at hj
    rcases eq_or_ne j k with rfl | hjk
    · rw [Function.update_self] at hj
      exact hphase g ok (Option.some.inj hj)
    · rw [Function.update_of_ne hjk] at hj
      rw [hq j hjk]
      exact S.waits j g ok hj
  · rw [hp] at ho ⊢
    refine S.tracked o g ho ?_
    rcases eq_or_ne (callOf o) k with hok | hok
    · rw [hok]
      exact hphase₀
    · rw [State.finished, hc, Function.update_of_ne hok] at hf
      exact hf

/-- **Every timely step keeps what is in use tracked.** -/
theorem Safe.step (S : Safe s) (ht : Timely s a) (hs : step cfg s a = some s') : Safe s' := by
  have I' := S.inv.step hs
  cases move_of_step hs with
  | @call now p hp =>
    refine ⟨I', fun j g ok hj => ?_, fun o g ho hf => ?_⟩
    · rcases eq_or_ne j s.pool.nextId with rfl | hjk
      · simp [State.goTo] at hj
      · exact S.waits j g ok ((Function.update_of_ne hjk ..).symm.trans hj)
    · refine S.tracked_step hp nofun (fun _ _ _ _ _ _ _ => nofun) ho ?_
      rcases eq_or_ne (callOf o) s.pool.nextId with hok | hok
      · rw [hok, State.finished, S.inv.fresh _ le_rfl]
      · simp only [State.finished, State.goTo, Function.update_of_ne hok] at hf
        exact hf
  | granted hk ha =>
    exact S.of_goTo I' hk rfl rfl (fun _ _ => rfl) (by simp [State.finished, hk]) nofun
  | refused hk ha =>
    exact S.of_goTo I' hk rfl rfl (fun _ _ => rfl) (by simp [State.finished, hk]) nofun
  | forward hk hq =>
    exact S.of_goTo I' hk rfl rfl (fun _ _ => rfl) (by simp [State.finished, hk]) nofun
  | @release k h ok hk =>
    have hpend : Function.update s.pending k (some (h.ptr, ok)) k ≠ none := by
      rw [Function.update_self]
      exact Option.some_ne_none _
    exact S.of_goTo I' hk rfl rfl (fun _ hj => Function.update_of_ne hj ..)
      (by simp [State.finished, hk]) fun _ _ _ => hpend
  | @handler k now c healthy p hq hp =>
    refine ⟨I', fun j g ok hj => ?_, fun o g ho hf => S.tracked_handler hq hp ht ho hf⟩
    have hcall : s.calls j = some (.released g ok) := hj
    have hjk : j ≠ k := by
      rintro rfl
      simp [Timely, hcall] at ht
    have hpend : Function.update s.pending k none j = s.pending j := Function.update_of_ne hjk ..
    exact hpend.trans_ne (S.waits j g ok hcall)
  | count hk =>
    exact S.of_goTo I' hk rfl rfl (fun _ _ => rfl) (by simp [State.finished, hk]) nofun
  | @strand b p hb hp =>
    refine ⟨I', S.waits, fun o g ho hf => ?_⟩
    by_cases hd : b = .drain
    · subst hd
      exact S.tracked_drain hp ht ho hf
    · refine S.tracked_step hp hd ?_ ho hf
      rintro o' g' - - i x n rfl
      exact absurd hb (by simp [ofCaller])

theorem safe_initial : Safe initial :=
  ⟨inv_initial, nofun, fun b h ho => absurd ho (Pool.not_owns_initial b h)⟩

/-- The increment finds its connection owned exactly if the handler has not run, and the pool has
not been drained. -/
theorem Inv.owned_released_iff {ok : Bool} (I : Inv s) (hk : s.calls k = some (.released h ok)) :
    Owned s.pool k h ↔ s.pending k ≠ none ∧ h ∈ s.pool.handles := by
  have A := I.agrees k
  simp only [Agrees, hk] at A
  obtain ⟨-, -, -, ⟨hpend, hheld⟩ | ⟨hpend, hheld⟩⟩ := A
  · refine ⟨fun ho => ⟨by simp [hpend], ho.1⟩, fun ⟨_, hm⟩ => ⟨hm, ?_, hheld⟩⟩
    have hown : s.pool.Owns (.caller k) h := hheld
    exact (I.pool.ledger.owner_active hown hm rfl).2
  · refine ⟨fun ho => ?_, fun ⟨hne, _⟩ => absurd hpend hne⟩
    exact absurd (hheld.symm.trans ho.2.2) nofun

/-- **Released once, and used while owned.** In every run, a call that was given a connection
releases it once, as healthy only if `proxy_result` returned `true`, and cannot end otherwise. Along
every run in which handlers run after the increment of their call and nothing in use is drained,
every access a call makes to its connection is at a moment when the connection is in `active_`,
checked out to it. An increment whose handler has run first is not. -/
theorem release_once_and_owned (cfg : Pool.PoolConfig) :
    (∀ as s, run (step cfg) initial as = some s → ∀ k h, s.pool.answer k = some (.ok h) →
        ReleasesOnce cfg s k h) ∧
      (∀ as, Along (step cfg) Timely initial as → Along (step cfg) UsesOwned initial as) ∧
      ∀ as s k h ok, run (step cfg) initial as = some s → s.calls k = some (.released h ok) →
        (Owned s.pool k h ↔ s.pending k ≠ none ∧ h ∈ s.pool.handles) := by
  refine ⟨fun as s hr k h ha => (inv_run hr).releasesOnce ha, fun as ht => ?_,
    fun as s k h ok hr hk => (inv_run hr).owned_released_iff hk⟩
  exact Along.of_invariant (fun _ _ _ S ht hs => S.step ht hs) (fun _ a S => S.usesOwned a)
    safe_initial ht

/-- A query that is answered with an OK packet, up to the call of `release`. -/
def servedRun : List Action :=
  [.call 0, .strand (.connectOk (.acquire 0) 64 1), .acquired 0, .forward 0 (.wrote true),
    .forward 0 (.read (some [0])), .forward 0 (.sent true), .release 0]

/-- The increment is made before the handler runs. -/
theorem release_once_and_owned_served : ∃ s,
    run (step { min := 0, max := 1 }) initial (servedRun ++ [.count 0, .handler 0 2]) = some s ∧
      s.releases 0 = [(64, true)] ∧ s.pool.freeList = [64] ∧
      ReleasesOnce { min := 0, max := 1 } s 0 ⟨64, 0⟩ ∧
      Along (step { min := 0, max := 1 }) UsesOwned initial
        (servedRun ++ [.count 0, .handler 0 2]) :=
  ⟨_, rfl, rfl, rfl, (release_once_and_owned { min := 0, max := 1 }).1
      (servedRun ++ [.count 0, .handler 0 2]) _ rfl 0 ⟨64, 0⟩ rfl,
    (release_once_and_owned { min := 0, max := 1 }).2.1 (servedRun ++ [.count 0, .handler 0 2])
      (by decide +kernel)⟩

/-- The handler hands the connection to the second call, or closes and destroys it, before the first
call increments its counter; or a drain destroys it while a call waits for an answer. -/
theorem increment_after_release :
    (∃ s, run (step { min := 0, max := 1 }) initial
        (servedRun ++ [.call 2, .handler 0 3, .strand (.wake 1), .acquired 1]) = some s ∧
      touched s (.count 0) = some (0, ⟨64, 0⟩) ∧ s.pool.held 1 = some ⟨64, 0⟩ ∧
      ¬ UsesOwned s (.count 0)) ∧
    (∃ s, run (step { min := 0, max := 1 }) initial
        [.call 0, .strand (.connectOk (.acquire 0) 64 1), .acquired 0, .forward 0 (.wrote false),
          .release 0, .handler 0 2] = some s ∧
      touched s (.count 0) = some (0, ⟨64, 0⟩) ∧ s.pool.all = [] ∧ ¬ UsesOwned s (.count 0)) ∧
    ∃ s, run (step { min := 0, max := 1 }) initial
        [.call 0, .strand (.connectOk (.acquire 0) 64 1), .acquired 0, .forward 0 (.wrote true),
          .strand .drain] = some s ∧
      touched s (.forward 0 (.read none)) = some (0, ⟨64, 0⟩) ∧ s.pool.all = [] ∧
      ¬ UsesOwned s (.forward 0 (.read none)) :=
  ⟨⟨_, rfl, rfl, rfl, by decide +kernel⟩, ⟨_, rfl, rfl, rfl, by decide +kernel⟩,
    ⟨_, rfl, rfl, rfl, by decide +kernel⟩⟩

end DBMesh.Checkout
