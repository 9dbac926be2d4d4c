import DBMesh.Lib.Trace
import DBMesh.Pool.HandOver
import DBMesh.Pool.Waiting

/-!
# Waiters are served in the order of their calls

A parked acquire gets a connection from `release` only, and `release` takes the waiter at the front
of the queue. The queue is in the order of the calls: a call is named when it starts and enqueued in
the same segment, and waiters leave from anywhere but join at the back. So over a whole run the
calls that are handed a connection are handed it in the order in which they were made, whatever
times out, is closed, reaped or drained in between.

## Main definitions

* `Pool.hands`, `Pool.handed` — the waiter that a segment hands a connection, and those of a run

## Main results

* `Pool.hands_eq_some_iff` — the segments that hand a connection over, by what they do
* `Pool.waiters_step` — what a segment does to the queue
* `Pool.handed_in_order` — the order over a whole run
-/

namespace DBMesh

namespace Pool

open Transition

variable {cfg : PoolConfig} {s s' : State} {a : Action} {k : CoroId}

/-- The waiter that a segment hands a connection: the front of the queue, when a release keeps its
connection. -/
def hands (s : State) : Action → Option CoroId
  | .release _ c healthy _ =>
    if c ∈ s.active ∧ s.closes c healthy = false then s.waiters.head? else none
  | .acquire _ | .connectOk _ _ _ | .connectErr _ _ | .timerExpire _ | .wake _ | .warm
  | .startReaper | .reaperTick _ _ | .drain | .connLost _ => none

/-! ### The queue -/

/-- What a segment does to the queue: nothing, it enqueues a new call, a waiter leaves, the front is
handed a connection, or it fails all of them. -/
inductive Queued (s s' : State) (a : Action) : Prop
  | same (hq : s'.waiters = s.waiters) (hh : hands s a = none)
  | join (hq : s'.waiters = s.waiters ++ [s.nextId]) (hn : s'.nextId = s.nextId + 1)
    (hh : hands s a = none)
  | leave (k : CoroId) (hq : s'.waiters = s.waiters.erase k) (hh : hands s a = none)
  | front (k : CoroId) (hq : s.waiters = k :: s'.waiters) (hh : hands s a = some k)
  | fail (hq : s'.waiters = []) (hh : hands s a = none)

theorem waiters_step (hs : step cfg s a = some s') : Queued s s' a := by
  cases segment_of_step hs with
  | acquirePark _ _ _ => exact .join rfl rfl rfl
  | warmConnected _ _ =>
    refine .same ?_ rfl
    rw [warmConnected, (waiters_warmLoop _).1]
    rfl
  | warm => exact .same (waiters_warmLoop 0).1 rfl
  | @wake j w _ _ =>
    rw [acquireWoken]
    cases w.result with
    | some h => exact .same rfl rfl
    | none => exact .leave j rfl rfl
  | release j c healthy now =>
    obtain ⟨hc, heq⟩ | ⟨hc, hclose, heq⟩ | ⟨hc, hopen, w, rest, hq, heq⟩ | ⟨hc, hopen, hq, heq⟩ :=
      release_cases { s with held := Function.update s.held j none } c healthy now
    · rw [heq]
      exact .same rfl (if_neg fun h => hc h.1)
    · rw [heq]
      refine .same rfl (if_neg fun h => ?_)
      exact Bool.false_ne_true (h.2.symm.trans hclose)
    · rw [heq]
      refine .front w hq ?_
      rw [hands, if_pos ⟨hc, hopen⟩, show s.waiters = w :: rest from hq]
      rfl
    · rw [heq]
      refine .same rfl ?_
      rw [hands, if_pos ⟨hc, hopen⟩, show s.waiters = [] from hq]
      rfl
  | startReaper =>
    refine .same ?_ rfl
    split_ifs
    · rfl
    · rfl
  | @reaperTick ec now _ =>
    refine .same ?_ rfl
    obtain heq | ⟨conns, -, heq⟩ := idleReaperImpl_cases cfg s ec now
    · rw [heq]
    · rw [heq]
      rfl
  | drain => exact .fail rfl rfl
  | acquireRefused _ | acquireReuse _ _ | acquireOpen _ _ _ | acquireConnected _ _
  | acquireFailed _ | warmFailed _ | timerExpire _ _ | connLost _ => exact .same rfl rfl

/-- **The segments that hand a connection over**: after them the waiter has a connection that it had
not before. -/
theorem hands_eq_some_iff (I : Inv s) (hs : step cfg s a = some s') :
    hands s a = some k ↔ ∃ h, ¬ s.Owns (.waiter k) h ∧ s'.Owns (.waiter k) h := by
  constructor
  · intro hh
    cases segment_of_step hs with
    | release j c healthy now =>
      obtain ⟨hcond, hhead⟩ := Option.ite_none_right_eq_some.mp hh
      obtain ⟨rest, hq⟩ : ∃ rest, s.waiters = k :: rest := List.head?_eq_some_iff.mp hhead
      obtain ⟨w, hw, hnone⟩ := I.queue.result_none k (by rw [hq]; exact List.mem_cons_self ..)
      obtain ⟨hc, -⟩ | ⟨-, hclose, -⟩ | ⟨-, -, j', rest', hq', heq⟩ | ⟨-, -, hq', -⟩ :=
        release_cases { s with held := Function.update s.held j none } c healthy now
      · exact absurd hcond.1 hc
      · exact absurd (hcond.2.symm.trans hclose) Bool.false_ne_true
      · obtain ⟨rfl, rfl⟩ := List.cons.inj (hq.symm.trans hq')
        rw [heq]
        have hparked : State.parked { { s with held := Function.update s.held j none } with
            active := s.active.erase c } k = some w := hw
        obtain ⟨h, hown, -⟩ : ∃ h, (handOff { { s with held := Function.update s.held j none } with
            active := s.active.erase c } c k rest).Owns (.waiter k) h ∧ h.ptr = c :=
          owns_handOff_self hparked
        refine ⟨h, ?_, hown⟩
        rintro ⟨w', hw', hres⟩
        obtain rfl := Option.some.inj (hw.symm.trans hw')
        exact absurd (hnone.symm.trans hres) (Option.some_ne_none _).symm
      · exact absurd (hq.symm.trans hq') (List.cons_ne_nil _ _)
    | acquireRefused _ | acquireReuse _ _ | acquireOpen _ _ _ | acquirePark _ _ _
    | acquireConnected _ _ | warmConnected _ _ | acquireFailed _ | warmFailed _ | timerExpire _ _
    | wake _ _ | warm | startReaper | reaperTick _ | drain | connLost _ => cases hh
  · rintro ⟨h, hnot, ho⟩
    obtain ⟨hhead, j, healthy, now, rfl⟩ := handed_of_step hs hnot ho
    have hcond : h.ptr ∈ s.active ∧ s.closes h.ptr healthy = false := by
      by_contra hcond
      -- otherwise the release leaves the waiters alone
      refine hnot ?_
      obtain rfl := Option.some.inj hs
      obtain ⟨-, heq⟩ | ⟨-, -, heq⟩ | ⟨hc, hopen, -⟩ | ⟨hc, hopen, -⟩ :=
        release_cases { s with held := Function.update s.held j none } h.ptr healthy now
      · rw [heq] at ho
        exact ho
      · rw [heq] at ho
        exact ho
      · exact absurd ⟨hc, hopen⟩ hcond
      · exact absurd ⟨hc, hopen⟩ hcond
    rw [hands, if_pos hcond]
    exact hhead

/-! ### The order -/

/-- The queue is in the order of the calls. -/
structure Ordered (s : State) : Prop where
  pairwise : s.waiters.Pairwise (· < ·)
  lt : ∀ k ∈ s.waiters, k < s.nextId

/-- The calls that wait or may still be made. -/
def May (s : State) (k : CoroId) : Prop := k ∈ s.waiters ∨ s.nextId ≤ k

theorem ordered_initial : Ordered initial := ⟨.nil, List.forall_mem_nil _⟩

theorem Ordered.step (O : Ordered s) (hs : Pool.step cfg s a = some s') : Ordered s' := by
  have hle := (nextId_step hs).1
  cases waiters_step hs with
  | same hq _ =>
    exact ⟨hq ▸ O.pairwise, fun k hk => (O.lt k (hq ▸ hk)).trans_le hle⟩
  | join hq hn _ =>
    refine ⟨?_, fun k hk => ?_⟩
    · rw [hq]
      refine List.pairwise_append.mpr ⟨O.pairwise, List.pairwise_singleton _ _, ?_⟩
      intro k hk j hj
      rw [List.mem_singleton.mp hj]
      exact O.lt k hk
    · rw [hq, List.mem_append, List.mem_singleton] at hk
      rw [hn]
      rcases hk with hk | rfl
      · exact (O.lt k hk).trans (Nat.lt_succ_self _)
      · exact Nat.lt_succ_self _
  | leave j hq _ =>
    have hsub : s'.waiters.Sublist s.waiters := hq ▸ List.erase_sublist
    exact ⟨O.pairwise.sublist hsub, fun k hk => (O.lt k (hsub.subset hk)).trans_le hle⟩
  | front j hq _ =>
    have hsub : s'.waiters.Sublist s.waiters := hq ▸ List.sublist_cons_self _ _
    exact ⟨O.pairwise.sublist hsub, fun k hk => (O.lt k (hsub.subset hk)).trans_le hle⟩
  | fail hq _ =>
    refine ⟨?_, ?_⟩
    · rw [hq]
      exact .nil
    · rw [hq]
      exact List.forall_mem_nil _

/-- Who is handed a connection was called before all that wait then or are called later. -/
theorem Ordered.lt_of_hands (O : Ordered s) (hs : Pool.step cfg s a = some s')
    (hh : hands s a = some k) : May s k ∧ ∀ j, May s' j → k < j := by
  have hnext := (nextId_step hs).1
  have hne : hands s a ≠ none := by
    rw [hh]
    exact Option.some_ne_none k
  cases waiters_step hs with
  | front j hq hj =>
    obtain rfl : k = j := Option.some.inj (hh.symm.trans hj)
    have hmem : k ∈ s.waiters := by
      rw [hq]
      exact List.mem_cons_self ..
    have hpair := O.pairwise
    rw [hq] at hpair
    refine ⟨.inl hmem, fun j hj => hj.elim ((List.pairwise_cons.mp hpair).1 j) fun hle => ?_⟩
    exact (O.lt k hmem).trans_le (hnext.trans hle)
  | same _ hnone | join _ _ hnone | leave _ _ hnone | fail _ hnone => exact absurd hnone hne

/-- Nobody comes to wait who was called before. -/
theorem Ordered.may_of_step (hs : Pool.step cfg s a = some s') (hm : May s' k) : May s k := by
  have hnext := (nextId_step hs).1
  refine hm.elim (fun hk => ?_) fun hle => .inr (hnext.trans hle)
  cases waiters_step hs with
  | same hq _ => exact .inl (hq ▸ hk)
  | join hq _ _ =>
    rw [hq, List.mem_append, List.mem_singleton] at hk
    exact hk.imp_right fun h => h.ge
  | leave j hq _ =>
    rw [hq] at hk
    exact .inl (List.mem_of_mem_erase hk)
  | front j hq _ =>
    rw [May, hq]
    exact .inl (List.mem_cons_of_mem j hk)
  | fail hq _ =>
    rw [hq] at hk
    exact absurd hk List.not_mem_nil

/-- The calls that are handed a connection in a run, in the order in which it happens. -/
def handed (cfg : PoolConfig) (as : List Action) : List CoroId :=
  trace (step cfg) (fun s a => (hands s a).toList) initial as

/-- **Waiters are served in the order of their calls.** In every run of the pool, whatever its
callers release, the calls that are handed a connection are handed it in the order in which they
were made, each at most once; and whoever still waits was called after all of them. -/
theorem handed_in_order (cfg : PoolConfig) (as : List Action) (s : State)
    (hr : run (step cfg) initial as = some s) :
    (handed cfg as).Pairwise (· < ·) ∧ ∀ k ∈ handed cfg as, ∀ j ∈ s.waiters, k < j := by
  have hshow : ∀ (s : State) (a : Action) (s' : State), Ordered s → step cfg s a = some s' →
      (hands s a).toList.Pairwise (· < ·) ∧
        ∀ k ∈ (hands s a).toList, May s k ∧ ∀ j, May s' j → k < j := by
    intro s a s' O hs
    refine ⟨?_, fun k hk => O.lt_of_hands hs (Option.mem_toList.mp hk)⟩
    cases hands s a with
    | none => exact .nil
    | some k => exact List.pairwise_singleton _ k
  obtain ⟨-, hpair, hall⟩ := pairwise_trace (fun _ _ _ O hs => O.step hs) hshow
    (fun _ _ _ _ _ hs hm => Ordered.may_of_step hs hm) ordered_initial hr
  exact ⟨hpair, fun k hk j hj => (hall k hk).2 j (.inl hj)⟩

/-- A pool of one connection, released to the first of two waiters. -/
def firstServed : List Action :=
  [.acquire 0, .connectOk (.acquire 0) 64 1, .acquire 2, .acquire 3, .release 0 64 true 4]

theorem handed_in_order_first : ∃ s,
    run (step { min := 0, max := 1 }) initial firstServed = some s ∧
    handed { min := 0, max := 1 } firstServed = [1] ∧ s.waiters = [2] ∧
      ∀ k ∈ handed { min := 0, max := 1 } firstServed, ∀ j ∈ s.waiters, k < j :=
  ⟨_, rfl, by decide +kernel, rfl, (handed_in_order { min := 0, max := 1 } firstServed _ rfl).2⟩

end Pool

end DBMesh
