import DBMesh.Pool.Owners
import DBMesh.Pool.Sources

/-!
# The life of a connection

What the pool is for, said of one connection object: it is made, it is lent to one call after the
other and is free in between, and at last it is gone. This is an allocator, in terms of its own: the
places a connection can be at, and the ways from one place to another. It knows no list, no set and
no counter of the pool.

The pool is one: at every moment each object is at one place, and every segment of the strand takes
it along one of the ways, or leaves it where it is unless the segment is there to move it.

## Main definitions

* `Pool.Place`, `Pool.Move` — the places, and the ways between them
* `Pool.State.At` — the place of an object in a state of the pool

## Main results

* `Pool.At.unique`, `Pool.exists_at` — an object is at one place
* `Pool.move_step` — what a segment does to an object
* `Pool.lives` — all of a disciplined run
-/

namespace DBMesh

namespace Pool

open Transition

/-! ### Places and ways -/

/-- A connection that is there is in the free list, `none`, or with a borrower. -/
inductive Place
  | unborn
  | kept (x : Option Borrower)
  | gone

abbrev Place.free : Place := .kept none

abbrev Place.lent (b : Borrower) : Place := .kept (some b)

/-- The segments that leave nothing at a place: the call of a release gives its connection up, a
waiter that resumes is a waiter no more, and a drain empties the free list. -/
def Vacates : Action → Place → Prop
  | .release k _ _ _, p => p = .lent (.caller k)
  | .wake k, p => p = .lent (.waiter k)
  | .drain, p => p = .free
  | _, _ => False

/-- **The ways of a connection.** `waiters` is the queue of the pool and `nextId` the name of the
next call. -/
inductive Move (waiters : List CoroId) (nextId : CoroId) : Action → Place → Place → Prop
  | stay {a : Action} {p : Place} (hp : ¬ Vacates a p) : Move waiters nextId a p p
  | opened {k : CoroId} {addr : Ptr} {now : Int} :
      Move waiters nextId (.connectOk (.acquire k) addr now) .unborn (.lent (.caller k))
  | warmed {k : CoroId} {i : ℕ} {addr : Ptr} {now : Int} :
      Move waiters nextId (.connectOk (.warm k i) addr now) .unborn .free
  | reused {now : Int} : Move waiters nextId (.acquire now) .free (.lent (.caller nextId))
  | woken {k : CoroId} : Move waiters nextId (.wake k) (.lent (.waiter k)) (.lent (.caller k))
  | freed {k : CoroId} {c : Ptr} {now : Int} (hq : waiters = []) :
      Move waiters nextId (.release k c true now) (.lent (.caller k)) .free
  | handed {k w : CoroId} {rest : List CoroId} {c : Ptr} {now : Int} (hq : waiters = w :: rest) :
      Move waiters nextId (.release k c true now) (.lent (.caller k)) (.lent (.waiter w))
  | closed {k : CoroId} {c : Ptr} {healthy : Bool} {now : Int} :
      Move waiters nextId (.release k c healthy now) (.lent (.caller k)) .gone
  | reaped {ec : Bool} {now : Int} : Move waiters nextId (.reaperTick ec now) .free .gone
  | drained : Move waiters nextId .drain .free .gone

/-- No way leads back from the end. -/
theorem Move.of_gone {waiters : List CoroId} {nextId : CoroId} {a : Action} {q : Place}
    (h : Move waiters nextId a .gone q) : q = .gone := by
  cases h
  rfl

variable {cfg : PoolConfig} {s s' : State} {a : Action} {c : Ptr} {h g : Handle} {i : ℕ}
  {p q : Place} {x y : Option Borrower} {now : Int}

/-! ### Objects of the pool -/

/-- The place of the object with a serial number. -/
def State.At (s : State) (i : ℕ) : Place → Prop
  | .unborn => s.nextObj ≤ i
  | .kept x => ∃ h : Handle, h.obj = i ∧ s.Has x h
  | .gone => i < s.nextObj ∧ ∀ (x : Option Borrower) (h : Handle), h.obj = i → ¬ s.Has x h

theorem Inv.lt_of_has (I : Inv s) (hx : s.Has x h) : h.obj < s.nextObj := by
  cases x with
  | none => exact I.ledger.obj_lt h hx.1
  | some b =>
    have hown : s.Owns b h := hx
    exact I.ledger.owner_lt hown

/-- Nobody has what is free, or what another one has. -/
theorem Inv.has_unique (I : Inv s) (hx : s.Has x h) (hy : s.Has y g) (hobj : h.obj = g.obj) :
    x = y := by
  have L := I.ledger
  cases x with
  | none =>
    cases y with
    | none => rfl
    | some b =>
      have hown : s.Owns b g := hy
      exact absurd hobj (L.not_owned_of_free hx.1 hx.2 hown)
  | some b =>
    have hown : s.Owns b h := hx
    cases y with
    | none => exact absurd hobj.symm (L.not_owned_of_free hy.1 hy.2 hown)
    | some b' => exact congrArg some (L.exclusive hx hy hobj)

/-- **An object is at one place.** -/
theorem At.unique (I : Inv s) (hp : s.At i p) (hq : s.At i q) : p = q := by
  cases p with
  | unborn =>
    cases q with
    | unborn => rfl
    | kept y =>
      obtain ⟨g, rfl, hy⟩ := hq
      exact absurd (I.lt_of_has hy) (Nat.not_lt.mpr hp)
    | gone => exact absurd hq.1 (Nat.not_lt.mpr hp)
  | kept x =>
    obtain ⟨h, rfl, hx⟩ := hp
    cases q with
    | unborn => exact absurd (I.lt_of_has hx) (Nat.not_lt.mpr hq)
    | kept y =>
      obtain ⟨g, hobj, hy⟩ := hq
      rw [I.has_unique hx hy hobj.symm]
    | gone => exact absurd hx (hq.2 x h rfl)
  | gone =>
    cases q with
    | unborn => exact absurd hp.1 (Nat.not_lt.mpr hq)
    | kept y =>
      obtain ⟨g, hobj, hy⟩ := hq
      exact absurd hy (hp.2 y g hobj)
    | gone => rfl

theorem exists_at (s : State) (i : ℕ) : ∃ p, s.At i p := by
  by_cases hi : s.nextObj ≤ i
  · exact ⟨.unborn, hi⟩
  · by_cases hx : ∃ (x : Option Borrower) (h : Handle), h.obj = i ∧ s.Has x h
    · obtain ⟨x, h, hobj, hx⟩ := hx
      exact ⟨.kept x, h, hobj, hx⟩
    · exact ⟨.gone, Nat.not_le.mp hi, fun x h hobj hx' => hx ⟨x, h, hobj, hx'⟩⟩

/-! ### Where a connection goes -/

theorem handleOf_eq (I : Inv s) {t : State} (ht : t.handles = s.handles) (hm : h ∈ s.handles)
    (hptr : h.ptr = c) : t.handleOf c = h := by
  subst hptr
  have hc : h.ptr ∈ t.addrs := by
    rw [← State.map_ptr_handles, ht]
    exact Ledger.ptr_mem hm
  exact I.ledger.eq_of_ptr_eq (ht ▸ State.handleOf_mem hc) hm rfl

/-- A free connection is kept, or it is given to a new call; but for the reaper and a drain. -/
theorem free_kept (I : Inv s) (hs : step cfg s a = some s') (hx : s.Has none h)
    (hr : ∀ ec now, a ≠ .reaperTick ec now) (hd : a ≠ .drain) : ∃ x, s'.Has x h := by
  obtain ⟨hm, hfree⟩ := hx
  cases segment_of_step hs with
  | @acquireReuse now c rest _ hf =>
    let t : State := State.modify { s.spawn with freeList := rest } c fun x =>
      { x with state := .inUse, lastUsed := now }
    have ht : t.handles = s.handles := State.handles_modify _ c (by exact fun _ => rfl)
    rcases List.mem_cons.mp (hf ▸ hfree) with hptr | hrest
    · refine ⟨some (.caller s.nextId), ?_⟩
      have hheld : (reuse s.spawn s.nextId c rest now).held s.nextId = some (t.handleOf c) :=
        Function.update_self ..
      rwa [handleOf_eq I ht hm hptr] at hheld
    · exact ⟨none, ht ▸ hm, hrest⟩
  | @acquireConnected j addr now _ _ =>
    refine ⟨none, ?_, hfree⟩
    refine mem_handles_modify (s := track (s.resume (.acquire j)) addr now) ?_
      (f := fun x => { x with state := .inUse }) fun _ => rfl
    rw [State.handles_track]
    exact List.mem_append_left _ hm
  | @warmConnected j i addr now _ _ =>
    rw [warmConnected]
    refine ⟨none, has_warmLoop.mpr ⟨?_, List.mem_append_left _ hfree⟩⟩
    refine mem_handles_modify (s := track (s.resume (.warm j i)) addr now) ?_
      (f := fun x => { x with state := .idle }) fun _ => rfl
    rw [State.handles_track]
    exact List.mem_append_left _ hm
  | @wake j w _ _ =>
    refine ⟨none, ?_⟩
    rw [acquireWoken]
    cases w.result <;> exact ⟨hm, hfree⟩
  | release j c healthy now =>
    let t : State := { s with held := Function.update s.held j none }
    by_cases hc : c ∈ s.active
    · have hne : h.ptr ≠ c := fun heq => I.ledger.free_not_active _ hfree (heq ▸ hc)
      refine ⟨none, mem_handles_release (s := t) hm hne, ?_⟩
      obtain ⟨-, heq⟩ | ⟨-, -, heq⟩ | ⟨-, -, w, rest, -, heq⟩ | ⟨-, -, -, heq⟩ :=
        release_cases t c healthy now
      · rwa [heq]
      · rw [heq]
        exact hfree
      · rw [heq]
        exact hfree
      · rw [heq]
        exact List.mem_append_left _ hfree
    · refine ⟨none, ?_⟩
      rw [show release t c healthy now = t from if_neg hc]
      exact ⟨hm, hfree⟩
  | warm => exact ⟨none, has_warmLoop.mpr ⟨hm, hfree⟩⟩
  | startReaper => exact ⟨none, by split <;> exact ⟨hm, hfree⟩⟩
  | @reaperTick ec now _ => exact absurd rfl (hr ec now)
  | drain => exact absurd rfl hd
  | connLost c => exact ⟨none, by rwa [State.handles_close], hfree⟩
  | acquireRefused _ | acquireOpen _ _ _ | acquirePark _ _ _ | acquireFailed _ | warmFailed _
  | timerExpire _ _ => exact ⟨none, hm, hfree⟩

/-- Nothing stays where the segment is there to move it. -/
theorem not_vacates (hs : step cfg s a = some s') (hp : s'.At i p) : ¬ Vacates a p := by
  intro hv
  cases segment_of_step hs with
  | @wake k w _ _ =>
    obtain rfl : p = .lent (.waiter k) := hv
    obtain ⟨h, -, w', hw', -⟩ := hp
    have hnone : (acquireWoken s k w).parked k = none := by
      rw [acquireWoken]
      cases w.result <;> exact Function.update_self ..
    exact absurd (hw'.symm.trans hnone) (Option.some_ne_none _)
  | release k c healthy now =>
    obtain rfl : p = .lent (.caller k) := hv
    obtain ⟨h, -, hheld⟩ := hp
    have hnone := congrFun (release_step hs).2 k
    rw [Function.update_self] at hnone
    exact absurd (Eq.trans (Eq.symm hheld) hnone) (Option.some_ne_none _)
  | drain =>
    obtain rfl : p = .free := hv
    obtain ⟨h, -, -, hfree⟩ := hp
    exact absurd hfree List.not_mem_nil
  | acquireRefused _ | acquireReuse _ _ | acquireOpen _ _ _ | acquirePark _ _ _
  | acquireConnected _ _ | warmConnected _ _ | acquireFailed _ | warmFailed _ | timerExpire _ _
  | warm | startReaper | reaperTick _ | connLost c => exact hv

/-- **Every segment takes every object along a way**, or leaves it. -/
theorem move_step (A : Accounted s) (hd : Disciplined s a) (hs : step cfg s a = some s')
    (hp : s.At i p) (hq : s'.At i q) : Move s.waiters s.nextId a p q := by
  have I := A.inv
  have hstay : p = q → Move s.waiters s.nextId a p q := by
    rintro rfl
    exact .stay (not_vacates hs hq)
  cases q with
  | unborn =>
    have hle : s.nextObj ≤ i := (nextObj_step hs).trans hq
    exact hstay (At.unique I hp hle)
  | kept y =>
    obtain ⟨h, rfl, hy⟩ := hq
    -- the way is the one by which the connection has come
    have hfrom : ∀ {x}, s.Has x h → p = .kept x := fun hx => At.unique I hp ⟨h, rfl, hx⟩
    have hnew : h.obj = s.nextObj → p = .unborn := fun hobj => At.unique I hp hobj.ge
    cases source_step I hd hs hy with
    | same hx => exact hstay (hfrom hx)
    | opened hobj =>
      rw [hnew hobj]
      exact .opened
    | warmed hobj =>
      rw [hnew hobj]
      exact .warmed
    | reused hx =>
      rw [hfrom hx]
      exact .reused
    | woken hx =>
      rw [hfrom hx]
      exact .woken
    | freed hx hnil =>
      rw [hfrom hx]
      exact .freed hnil
    | handed hx hcons =>
      rw [hfrom hx]
      exact .handed hcons
  | gone =>
    cases p with
    | unborn =>
      have hle : s.nextObj ≤ i := hp
      have hlt : i < s'.nextObj := hq.1
      obtain heq | ⟨heq, x, h, hobj, hx⟩ := nextObj_cases hs
      · omega
      · exact absurd hx (hq.2 x h (by omega))
    | kept x =>
      obtain ⟨h, rfl, hx⟩ := hp
      have hlost : ∀ y, ¬ s'.Has y h := fun y => hq.2 y h rfl
      cases x with
      | none =>
        by_cases hr : ∃ ec now, a = .reaperTick ec now
        · obtain ⟨ec, now, rfl⟩ := hr
          exact .reaped
        · by_cases hdrain : a = .drain
          · subst hdrain
            exact .drained
          · obtain ⟨y, hy⟩ :=
              free_kept I hs hx (fun ec now ha => hr ⟨ec, now, ha⟩) hdrain
            exact absurd hy (hlost y)
      | some b =>
        by_cases hr : ∃ j c g n, a = .release j c g n ∧ b = .caller j
        · obtain ⟨j, c, g, n, rfl, rfl⟩ := hr
          exact .closed
        · obtain ho | ⟨j, -, ho⟩ := owns_kept I A.once hs hx fun j c g n ha hb =>
            hr ⟨j, c, g, n, ha, hb⟩
          · exact absurd ho (hlost (some b))
          · exact absurd ho (hlost (some (.caller j)))
    | gone => exact hstay rfl

/-- What is gone stays away. -/
theorem gone_run {as : List Action} (A : Accounted s) (hd : Along (step cfg) Disciplined s as)
    (hr : run (step cfg) s as = some s') (hp : s.At i .gone) : s'.At i .gone := by
  have hboth : Accounted s' ∧ s'.At i .gone := by
    refine invariant_run (I := fun s => Accounted s ∧ s.At i .gone) ?_ ⟨A, hp⟩ hd hr
    rintro s a s' ⟨A, hp⟩ hd hs
    obtain ⟨q, hq⟩ := exists_at s' i
    obtain rfl := (move_step A hd hs hp hq).of_gone
    exact ⟨A.step hd hs, hq⟩
  exact hboth.2

/-- **The lives of the connections.** After every run in which callers release only what they have,
every connection object, numbered in the order in which the pool makes them, is at one place: not
made yet, free, lent to one borrower, or gone. Every further segment takes each object along one of
the ways that the segment has, or leaves it if it is not at the place that the segment empties; and
an object that is gone is gone at the end of every further run. -/
theorem lives (cfg : PoolConfig) (as : List Action) (s : State)
    (hd : Along (step cfg) Disciplined initial as)
    (hr : run (step cfg) initial as = some s) (i : ℕ) :
    (∃! p, s.At i p) ∧
      (∀ a s' p q, Disciplined s a → step cfg s a = some s' → s.At i p → s'.At i q →
        Move s.waiters s.nextId a p q) ∧
      ∀ bs t, Along (step cfg) Disciplined s bs → run (step cfg) s bs = some t →
        s.At i .gone → t.At i .gone := by
  have A : Accounted s := accounted_run accounted_initial hd hr
  refine ⟨?_, fun a s' p q hd hs hp hq => move_step A hd hs hp hq, fun bs t => gone_run A⟩
  obtain ⟨p, hp⟩ := exists_at s i
  exact ⟨p, hp, fun q hq => At.unique A.inv hq hp⟩

/-- A call takes its place in the queue, and gets the connection that the first one releases. -/
theorem lives_handed : ∃ s t,
    run (step { min := 0, max := 1 }) initial
        [.acquire 0, .connectOk (.acquire 0) 64 1, .acquire 2] = some s ∧
      step { min := 0, max := 1 } s (.release 0 64 true 3) = some t ∧
      Move s.waiters s.nextId (.release 0 64 true 3) (.lent (.caller 0)) (.lent (.waiter 1)) :=
  ⟨_, _, rfl, rfl, (lives { min := 0, max := 1 }
    [.acquire 0, .connectOk (.acquire 0) 64 1, .acquire 2] _ (by decide) rfl 0).2.1
    (.release 0 64 true 3) _ _ _ ⟨⟨64, 0⟩, rfl, rfl⟩ rfl ⟨⟨64, 0⟩, rfl, rfl⟩
    ⟨⟨64, 0⟩, rfl, _, rfl, rfl⟩⟩

end Pool

end DBMesh
