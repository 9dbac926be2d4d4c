import DBMesh.Routing.RcuRegistry

/-!
# What `plan` reads

`lookup` returns a pointer into a snapshot to which it holds a reference no longer, and `plan` and
`select` read three fields through it. The snapshot is alive at each of these reads as long as
somebody else keeps it so: the exact condition is that no step gives up the last reference to a
snapshot while a plan has a pointer into it. A swap by a writer breaks it, and so does the return of
`lookup` itself, after a swap that came between its load and its return.

All reads of one plan are from one snapshot in any case.

## Main definitions

* `DBMesh.Rcu.State.timely` — the step leaves no plan with a pointer to nothing
* `DBMesh.Rcu.ReadsLive`, `DBMesh.Rcu.OneSnapshot` — what was read

## Main results

* `DBMesh.Rcu.deref_run` — what a live read finds is what the registry has in that snapshot
* `DBMesh.Rcu.plan_reads_live_iff` — all reads are from live snapshots as long as the steps are
  timely, and no longer
-/

namespace DBMesh.Rcu

open DBMesh.Routing

/-- The snapshot to which the next step of a call gives up a reference. -/
def Phase.drops (s : State) : Phase → Option Snap
  | .lookingUp _ x => some x
  | .copied _ cur _ => some cur
  | .built _ _ _ => some s.current
  | .leaving cur => cur
  | _ => none

/-- The call is about to return from `lookup` with a pointer. -/
def Phase.finds (s : State) : Phase → Bool
  | .lookingUp call x => (find (s.maps x) call.schema).isSome
  | _ => false

/-- The action does not give up the last reference to a snapshot into which a plan has a pointer, or
gets one by this very action. -/
def State.timely (s : State) : Act → Bool
  | .call _ => true
  | .step i _ _ =>
    match s.procs[i]? with
    | none => true
    | some q =>
      match q.drops s with
      | none => true
      | some x =>
        s.refs x ≠ 1 || ((s.procs.all fun p => p.pointsTo ≠ some x) && !q.finds s)

/-- Every read was from a snapshot that was not retired then. -/
def ReadsLive (s : State) : Prop := ∀ r ∈ s.reads, r.live = true

/-- The reads of one plan were from one snapshot. -/
def OneSnapshot (s : State) : Prop :=
  ∀ r ∈ s.reads, ∀ r' ∈ s.reads, r.proc = r'.proc → r.snap = r'.snap

variable {routing : RoutingConfig} {s s' : State} {a : Act} {i j : ℕ} {q q' : Phase} {e : Effect}
  {x : Snap}

theorem timely_step_iff {found : Bool} {junk : SchemaConfig} (hq : s.procs[i]? = some q) :
    s.timely (.step i found junk) = true ↔
      ∀ x, q.drops s = some x → s.refs x = 1 →
        (∀ p ∈ s.procs, p.pointsTo ≠ some x) ∧ q.finds s = false := by
  simp only [State.timely, hq]
  cases hdrops : q.drops s with
  | none => simp
  | some x => simp [Classical.or_iff_not_imp_left]

/-! ### Moves and pointers -/

/-- The move of a plan that has a pointer is a read. -/
theorem Move.read_of_pointsTo (h : Move s q e q') (hx : q.pointsTo = some x) :
    (∃ f, e = .read x f) ∧ (q'.pointsTo = some x ∨ q' = .done) := by
  cases h with
  | read call p f f' =>
    obtain rfl := Option.some.inj hx
    exact ⟨⟨f, rfl⟩, .inl rfl⟩
  | readLast call p f =>
    obtain rfl := Option.some.inj hx
    exact ⟨⟨f, rfl⟩, .inr rfl⟩
  | _ => exact absurd hx nofun

/-- What is read is pointed to; all other moves leave the reads as they are. -/
theorem Move.reads_cases (h : Move s q e q') (i : ℕ) :
    (∃ x f, e = .read x f ∧ q.pointsTo = some x) ∨ (s.apply i e).reads = s.reads := by
  cases h with
  | read call p f f' => exact .inl ⟨p.snap, f, rfl, rfl⟩
  | readLast call p f => exact .inl ⟨p.snap, f, rfl, rfl⟩
  | _ => exact .inr rfl

/-- A move gives up a reference to one snapshot, or lowers no count. -/
theorem Move.refs_cases (h : Move s q e q') (i : ℕ) :
    (∃ y, q.drops s = some y ∧ (s.apply i e).refs = RefCount.dec s.refs y) ∨
      (q.drops s = none ∧ ∀ x, s.refs x ≤ (s.apply i e).refs x) := by
  have hinc : ∀ y x, s.refs x ≤ RefCount.inc s.refs y x := fun y x => by
    rw [RefCount.inc_apply]
    exact Nat.le_add_right ..
  cases h with
  | load call => exact .inr ⟨rfl, hinc s.current⟩
  | hit call x name h => exact .inl ⟨x, rfl, rfl⟩
  | miss call x h => exact .inl ⟨x, rfl, rfl⟩
  | build schemas => exact .inr ⟨rfl, hinc s.next⟩
  | loadCurrent c => exact .inr ⟨rfl, hinc s.current⟩
  | copy config cur => exact .inr ⟨rfl, hinc s.next⟩
  | erase name cur h => exact .inr ⟨rfl, hinc s.next⟩
  | dropTemporary config cur next => exact .inl ⟨cur, rfl, rfl⟩
  | store w cur next => exact .inl ⟨s.current, rfl, rfl⟩
  | dropCurrent cur => exact .inl ⟨cur, rfl, rfl⟩
  | _ => exact .inr ⟨rfl, fun _ => le_rfl⟩

/-- A plan that has a pointer gives up no reference. -/
theorem drops_of_pointsTo (h : q.pointsTo = some x) : q.drops s = none := by
  cases q with
  | reading call p f => rfl
  | _ => exact absurd h nofun

theorem finds_of_lookingUp {call : Call} {name : SchemaName}
    (h : find (s.maps x) call.schema = some name) : (Phase.lookingUp call x).finds s = true := by
  rw [Phase.finds, h]
  rfl

/-- A retired snapshot stays retired. -/
theorem State.Inv.refs_apply_eq_zero (I : s.Inv) (hzero : s.refs x = 0) (hx : x < s.next) (i : ℕ)
    (e : Effect) : (s.apply i e).refs x = 0 := by
  cases e with
  | load =>
    refine RefCount.inc_eq_zero hzero fun hcurrent => ?_
    rw [hcurrent] at hzero
    exact I.accounted.root_pos.ne' hzero
  | make m => exact RefCount.inc_eq_zero hzero hx.ne
  | release y => exact RefCount.dec_eq_zero hzero
  | store y => exact RefCount.dec_eq_zero hzero
  | _ => exact hzero

/-! ### Timely steps -/

/-- Every pointer that a plan has is into a snapshot that is alive. -/
def PointersLive (s : State) : Prop := ∀ q ∈ s.procs, ∀ x, q.pointsTo = some x → 0 < s.refs x

/-- The reads of a step from a state in which all pointers are live. -/
theorem PointersLive.readsLive_step (L : PointersLive s) (R : ReadsLive s)
    (h : s.step routing a = some s') : ReadsLive s' := by
  obtain ⟨job, -, rfl⟩ | ⟨i, found, junk, q, e, q', -, hq, hmove, rfl⟩ := step_cases h
  · exact R
  · intro r hr
    obtain ⟨x, f, rfl, hx⟩ | hreads := hmove.reads_cases i
    · obtain rfl | hr := List.mem_cons.mp hr
      · exact decide_eq_true (L q (List.mem_of_getElem? hq) x hx)
      · exact R r hr
    · exact R r (hreads ▸ hr)

/-- The snapshot into which a call has a pointer after a timely move. -/
theorem PointersLive.apply (I : s.Inv) (L : PointersLive s) (hq : s.procs[i]? = some q)
    (hmove : Move s q e q')
    (htimely : ∀ x, q.drops s = some x → s.refs x = 1 →
      (∀ p ∈ s.procs, p.pointsTo ≠ some x) ∧ q.finds s = false)
    {p : Phase} (hp : p ∈ s.procs.set i q') (hx : p.pointsTo = some x) :
    0 < (s.apply i e).refs x := by
  have hmem := List.mem_of_getElem? hq
  -- the pointer is old and its snapshot alive, or `lookup` returns it now
  have hold : (∃ p ∈ s.procs, p.pointsTo = some x) ∧ 0 < s.refs x ∨
      q.finds s = true ∧ 0 < s.refs x := by
    obtain hp | rfl := List.mem_or_eq_of_mem_set hp
    · exact .inl ⟨⟨p, hp, hx⟩, L p hp x hx⟩
    · obtain hold | ⟨call, name, rfl, -, hname⟩ := hmove.pointsTo hx
      · exact .inl ⟨⟨q, hmem, hold⟩, L q hmem x hold⟩
      · exact .inr ⟨finds_of_lookingUp hname, I.accounted.pos hmem (List.mem_singleton_self x)⟩
  have hpos : 0 < s.refs x := hold.elim (·.2) (·.2)
  obtain ⟨y, hdrops, hrefs⟩ | ⟨-, hle⟩ := hmove.refs_cases i
  · rw [hrefs, RefCount.dec_apply]
    split
    · next hxy =>
      subst hxy
      have hne : s.refs x ≠ 1 := by
        intro hone
        obtain ⟨hnone, hfinds⟩ := htimely x hdrops hone
        obtain ⟨⟨p, hp, hx⟩, -⟩ | ⟨hfinds', -⟩ := hold
        · exact hnone p hp hx
        · exact absurd (hfinds.symm.trans hfinds') Bool.false_ne_true
      omega
    · exact hpos
  · exact lt_of_lt_of_le hpos (hle x)

theorem PointersLive.step (I : s.Inv) (L : PointersLive s) (ha : s.timely a = true)
    (h : s.step routing a = some s') : PointersLive s' := by
  obtain ⟨job, -, rfl⟩ | ⟨i, found, junk, q, e, q', rfl, hq, hmove, rfl⟩ := step_cases h
  · refine List.forall_mem_append.mpr ⟨L, List.forall_mem_singleton.mpr fun x hx => ?_⟩
    rw [pointsTo_start] at hx
    exact absurd hx nofun
  · exact fun p hp x hx => L.apply I hq hmove ((timely_step_iff hq).mp ha) hp hx

/-! ### Untimely steps -/

/-- A plan has a pointer into a snapshot that is gone. -/
def Dangling (s : State) : Prop :=
  ∃ (j : ℕ) (p : Phase) (x : Snap), s.procs[j]? = some p ∧ p.pointsTo = some x ∧ s.refs x = 0

/-- A call that does not move is where it was. -/
theorem getElem?_set_of_ne (hq : s.procs[j]? = some q) (hne : j ≠ i) :
    (s.procs.set i q')[j]? = some q := by
  rw [List.getElem?_set_ne (Ne.symm hne), hq]

/-- **An untimely step leaves a pointer dangling.** -/
theorem dangling_of_not_timely (ha : ¬ s.timely a = true) (h : s.step routing a = some s') :
    Dangling s' := by
  obtain ⟨job, rfl, -⟩ | ⟨i, found, junk, q, e, q', rfl, hq, hmove, rfl⟩ := step_cases h
  · exact absurd rfl ha
  · rw [timely_step_iff hq] at ha
    push Not at ha
    obtain ⟨x, hdrops, hone, hleft⟩ := ha
    have hzero : (s.apply i e).refs x = 0 := by
      obtain ⟨y, hdrops', hrefs⟩ | ⟨hnone, -⟩ := hmove.refs_cases i
      · obtain rfl : x = y := Option.some.inj (hdrops.symm.trans hdrops')
        rw [hrefs, RefCount.dec_apply, if_pos rfl, hone]
      · exact absurd (hnone.symm.trans hdrops) nofun
    by_cases hptr : ∀ p ∈ s.procs, p.pointsTo ≠ some x
    · -- the pointer is the one that `lookup` returns in this step
      have hfinds : q.finds s = true := eq_true_of_ne_false (hleft hptr)
      cases hmove with
      | hit call y name hname =>
        obtain rfl : y = x := Option.some.inj hdrops
        refine ⟨i, .reading call ⟨y, name⟩ .readWriteSplit, y, ?_, rfl, hzero⟩
        exact List.getElem?_set_self (List.getElem?_eq_some_iff.mp hq).1
      | miss call y hname =>
        rw [Phase.finds, hname] at hfinds
        exact absurd hfinds nofun
      | _ => exact absurd hfinds nofun
    · push Not at hptr
      obtain ⟨p, hp, hx⟩ := hptr
      obtain ⟨j, hj⟩ := List.getElem?_of_mem hp
      refine ⟨j, p, x, getElem?_set_of_ne hj ?_, hx, hzero⟩
      rintro rfl
      obtain rfl : p = q := Option.some.inj (hj.symm.trans hq)
      exact absurd ((drops_of_pointsTo hx).symm.trans hdrops) nofun

theorem reads_subset_step (h : s.step routing a = some s') : s.reads ⊆ s'.reads := by
  obtain ⟨job, -, rfl⟩ | ⟨i, found, junk, q, e, q', -, hq, hmove, rfl⟩ := step_cases h
  · exact List.Subset.refl _
  · obtain ⟨x, f, rfl, -⟩ | hreads := hmove.reads_cases i
    · exact List.subset_cons_self ..
    · exact hreads ▸ List.Subset.refl _

/-- A dangling pointer stays, until it is read. -/
theorem Dangling.step (I : s.Inv) (D : Dangling s) (h : s.step routing a = some s') :
    Dangling s' ∨ ¬ ReadsLive s' := by
  obtain ⟨j, p, x, hp, hx, hzero⟩ := D
  obtain ⟨job, -, rfl⟩ | ⟨i, found, junk, q, e, q', -, hq, hmove, rfl⟩ := step_cases h
  · exact .inl ⟨j, p, x, (List.getElem?_append_left (List.getElem?_eq_some_iff.mp hp).1).trans hp,
      hx, hzero⟩
  · by_cases hji : j = i
    · subst hji
      obtain rfl : p = q := Option.some.inj (hp.symm.trans hq)
      obtain ⟨⟨f, rfl⟩, -⟩ := hmove.read_of_pointsTo hx
      refine .inr fun R => ?_
      have hlive := R _ (List.mem_cons_self ..)
      exact absurd (of_decide_eq_true hlive) (by rw [hzero]; exact lt_irrefl 0)
    · have hlt := I.pointsTo_lt p (List.mem_of_getElem? hp) x hx
      exact .inl ⟨j, p, x, getElem?_set_of_ne hp hji, hx, I.refs_apply_eq_zero hzero hlt i e⟩

/-- A plan with a pointer can make its next read. -/
theorem exists_step_of_pointsTo (routing : RoutingConfig) (hq : s.procs[i]? = some q)
    (hx : q.pointsTo = some x) : ∃ a s', s.step routing a = some s' ∧
      ∃ r ∈ s'.reads, r.live = decide (0 < s.refs x) := by
  cases q with
  | reading call p f =>
    obtain rfl : p.snap = x := Option.some.inj hx
    cases hafter : call.after routing (s.deref p { name := [], backendGroup := "" }) true f with
    | none =>
      refine ⟨.step i true { name := [], backendGroup := "" },
        { s.apply i (.read p.snap f) with procs := s.procs.set i .done }, ?_, _,
        List.mem_cons_self .., rfl⟩
      rw [State.step, hq, Option.bind_some, Phase.move, hafter]
      rfl
    | some f' =>
      refine ⟨.step i true { name := [], backendGroup := "" },
        { s.apply i (.read p.snap f) with procs := s.procs.set i (.reading call p f') }, ?_, _,
        List.mem_cons_self .., rfl⟩
      rw [State.step, hq, Option.bind_some, Phase.move, hafter]
      rfl
  | _ => simp [Phase.pointsTo] at hx

theorem Dangling.exists_step (D : Dangling s) :
    ∃ a s', s.step routing a = some s' ∧ ¬ ReadsLive s' := by
  obtain ⟨j, p, x, hp, hx, hzero⟩ := D
  obtain ⟨a, s', h, r, hr, hlive⟩ := exists_step_of_pointsTo routing hp hx
  refine ⟨a, s', h, fun R => ?_⟩
  have hr := hlive.symm.trans (R r hr)
  exact absurd (of_decide_eq_true hr) (by rw [hzero]; exact lt_irrefl 0)

/-- From an untimely step on, a pointer dangles or has been read. -/
theorem dangling_run {as : List Act} : ∀ {s t : State}, s.Inv →
    Transition.run (State.step routing) s as = some t →
    (Dangling s ∨ ¬ ReadsLive s ∨ ¬ Transition.Along (State.step routing) (·.timely ·) s as) →
    Dangling t ∨ ¬ ReadsLive t := by
  induction as with
  | nil =>
    intro s t _ hrun h
    obtain rfl : s = t := by simpa using hrun
    simpa using h
  | cons a as ih =>
    intro s t I hrun h
    obtain ⟨u, hu, hrun⟩ := Transition.run_cons_eq_some.mp hrun
    refine ih (I.step hu) hrun ?_
    obtain D | R | hnot := h
    · exact (D.step I hu).imp_right .inl
    · exact .inr (.inl fun R' => R fun r hr => R' r (reads_subset_step hu hr))
    · rw [Transition.along_cons, not_and_or] at hnot
      obtain ha | has := hnot
      · exact .inl (dangling_of_not_timely ha hu)
      · push Not at has
        obtain ⟨u', hu', has⟩ := has
        obtain rfl : u = u' := Option.some.inj (hu.symm.trans hu')
        exact .inr (.inr has)

/-! ### One snapshot for one plan -/

/-- A plan that has read something still points there, or is done. -/
structure Traced (s : State) : Prop where
  proc_lt : ∀ r ∈ s.reads, r.proc < s.procs.length
  place : ∀ r ∈ s.reads, ∀ q : Phase, s.procs[r.proc]? = some q →
    q.pointsTo = some r.snap ∨ q = .done
  one : OneSnapshot s

theorem Move.ne_done (h : Move s q e q') : q ≠ .done := by
  rintro rfl
  cases h

theorem Traced.place_move (T : Traced s) (hq : s.procs[i]? = some q) (hmove : Move s q e q')
    {r : Read} (hr : r ∈ s.reads) (hi : r.proc = i) : q.pointsTo = some r.snap :=
  (T.place r hr q (hi ▸ hq)).resolve_right hmove.ne_done

/-- What is known of the reads before a move is known of them after it. -/
theorem Traced.place_apply (T : Traced s) (hq : s.procs[i]? = some q) (hmove : Move s q e q')
    {r : Read} (hr : r ∈ s.reads) {p : Phase} (hp : (s.procs.set i q')[r.proc]? = some p) :
    p.pointsTo = some r.snap ∨ p = .done := by
  obtain ⟨hi, rfl⟩ | ⟨-, hp⟩ := getElem?_set_cases hp
  · exact (hmove.read_of_pointsTo (T.place_move hq hmove hr hi)).2
  · exact T.place r hr p hp

theorem Traced.step (T : Traced s) (h : s.step routing a = some s') : Traced s' := by
  obtain ⟨job, -, rfl⟩ | ⟨i, found, junk, q, e, q', -, hq, hmove, rfl⟩ := step_cases h
  · refine ⟨fun r hr => ?_, fun r hr p hp => ?_, T.one⟩
    · have := T.proc_lt r hr
      rw [List.length_append]
      omega
    · obtain hp | ⟨hlen, -⟩ := getElem?_concat_cases hp
      · exact T.place r hr p hp
      · exact absurd hlen (T.proc_lt r hr).ne
  · have hlt : i < (s.procs.set i q').length := by
      rw [List.length_set]
      exact (List.getElem?_eq_some_iff.mp hq).1
    have hproc : ∀ r ∈ s.reads, r.proc < (s.procs.set i q').length := fun r hr => by
      rw [List.length_set]
      exact T.proc_lt r hr
    obtain ⟨x, f, rfl, hx⟩ | hreads := hmove.reads_cases i
    · have hsame : ∀ r ∈ s.reads, r.proc = i → r.snap = x := fun r hr hi =>
        Option.some.inj ((T.place_move hq hmove hr hi).symm.trans hx)
      refine ⟨fun r hr => ?_, fun r hr p hp => ?_, fun r hr r' hr' hproc => ?_⟩
      · obtain rfl | hr := List.mem_cons.mp hr
        · exact hlt
        · exact hproc r hr
      · obtain rfl | hr := List.mem_cons.mp hr
        · obtain ⟨-, rfl⟩ | ⟨hne, -⟩ := getElem?_set_cases hp
          · exact (hmove.read_of_pointsTo hx).2
          · exact absurd rfl hne
        · exact T.place_apply hq hmove hr hp
      · obtain rfl | hr := List.mem_cons.mp hr <;> obtain rfl | hr' := List.mem_cons.mp hr'
        · rfl
        · exact (hsame r' hr' hproc.symm).symm
        · exact hsame r hr hproc
        · exact T.one r hr r' hr' hproc
    · refine ⟨fun r hr => hproc r (hreads ▸ hr), fun r hr p hp => ?_, fun r hr r' hr' => ?_⟩
      · exact T.place_apply hq hmove (hreads ▸ hr) hp
      · exact T.one r (hreads ▸ hr) r' (hreads ▸ hr')

theorem traced_init : Traced {} where
  proc_lt := fun _ hr => absurd hr List.not_mem_nil
  place := fun _ hr => absurd hr List.not_mem_nil
  one := fun _ hr => absurd hr List.not_mem_nil

theorem oneSnapshot_run {as : List Act}
    (h : Transition.run (State.step routing) {} as = some s) : OneSnapshot s :=
  (Transition.preserved_run (fun _ _ _ T h => Traced.step T h) traced_init h).one

/-! ### What a live read gives -/

/-- The pointer of a plan is to the entry that `lookup` finds for its schema. -/
def Phase.Placed (s : State) : Phase → Prop
  | .reading call p _ => find (s.maps p.snap) call.schema = some p.name
  | _ => True

theorem placed_start (job : Job) : job.start.Placed s := by
  obtain ⟨call, h⟩ | ⟨schemas, h⟩ | ⟨c, -, h⟩ | h := start_cases job <;> rw [h] <;> trivial

theorem Phase.Placed.apply (I : s.Inv) (hq : q ∈ s.procs) (h : q.Placed s) (i : ℕ) (e : Effect) :
    q.Placed (s.apply i e) := by
  cases q with
  | reading call p f =>
    show find ((s.apply i e).maps p.snap) call.schema = some p.name
    rw [maps_apply s i e (I.pointsTo_lt _ hq p.snap rfl)]
    exact h
  | _ => trivial

theorem Move.placed (I : s.Inv) (hq : q ∈ s.procs) (hmove : Move s q e q') (h : q.Placed s)
    (i : ℕ) : q'.Placed (s.apply i e) := by
  cases hmove with
  | hit call x name hname => exact hname
  | read call p f f' => exact Phase.Placed.apply I hq h i _
  | _ => trivial

theorem placed_step (I : s.Inv) (P : ∀ q ∈ s.procs, q.Placed s) (h : s.step routing a = some s') :
    ∀ q ∈ s'.procs, q.Placed s' := by
  obtain ⟨job, -, rfl⟩ | ⟨i, found, junk, q, e, q', -, hq, hmove, rfl⟩ := step_cases h
  · exact List.forall_mem_append.mpr ⟨P, List.forall_mem_singleton.mpr (placed_start job)⟩
  · intro p hp
    obtain hp | rfl := List.mem_or_eq_of_mem_set hp
    · exact Phase.Placed.apply I hp (P p hp) i e
    · have hmem := List.mem_of_getElem? hq
      exact hmove.placed I hmem (P q hmem) i

/-- `find` gives the place of what the registry looks up. -/
theorem lookup_eq_of_find {m : SchemaMap} {name place : SchemaName}
    (h : find m name = some place) (junk : SchemaConfig) :
    SchemaRegistry.lookup { current := m } name = some ((m.lookup place).getD junk) := by
  have hsome : ∀ n ∈ m, m.lookup n = some ((m.lookup n).getD junk) := fun n hn => by
    obtain ⟨config, hconfig⟩ := Option.isSome_iff_exists.mp (AList.lookup_isSome.mpr hn)
    rw [hconfig]
    rfl
  rw [find] at h
  rw [SchemaRegistry.lookup]
  split_ifs at h with hname hdefault
  · obtain rfl := Option.some.inj h
    rw [hsome name hname]
    rfl
  · obtain rfl := Option.some.inj h
    rw [AList.lookup_eq_none.mpr hname]
    exact hsome defaultSchema hdefault

/-- **A live read is right**: in every reachable state, what a plan with a pointer into a live
snapshot finds there is the entry that the registry has for its schema in that snapshot. -/
theorem deref_run {as : List Act} (h : Transition.run (State.step routing) {} as = some s)
    {call : Call} {p : Ptr} {f : Field} (hq : .reading call p f ∈ s.procs)
    (hlive : 0 < s.refs p.snap) (junk : SchemaConfig) :
    SchemaRegistry.lookup { current := s.maps p.snap } call.schema = some (s.deref p junk) := by
  have hplaced := (Transition.preserved_run (I := fun s => s.Inv ∧ ∀ q ∈ s.procs, q.Placed s)
    (fun _ _ _ ⟨I, P⟩ h => ⟨I.step h, placed_step I P h⟩)
    ⟨inv_init, fun _ hq => absurd hq List.not_mem_nil⟩ h).2 _ hq
  rw [State.deref, if_neg hlive.ne']
  exact lookup_eq_of_find hplaced junk

/-- Along timely steps every pointer stays live, and every read was from a live snapshot. -/
theorem readsLive_run {as : List Act} (h : Transition.run (State.step routing) {} as = some s)
    (has : Transition.Along (State.step routing) (·.timely ·) {} as) :
    PointersLive s ∧ ReadsLive s := by
  have hinit : State.Inv {} ∧ PointersLive {} ∧ ReadsLive {} :=
    ⟨inv_init, fun _ hq => absurd hq List.not_mem_nil, fun _ hr => absurd hr List.not_mem_nil⟩
  exact (Transition.invariant_run (I := fun s => s.Inv ∧ PointersLive s ∧ ReadsLive s)
    (fun _ _ _ ⟨I, L, R⟩ ha h => ⟨I.step h, L.step I ha h, L.readsLive_step R h⟩) hinit has h).2

/-- **What `plan` reads is alive as long as the steps are timely, and no longer.** In every state
that a run reaches, a snapshot has no references just when it is retired, and the reads of one plan
were from one snapshot. All reads so far and all reads of a next step are from snapshots that are
not retired if and only if no step has given up the last reference to a snapshot into which a plan
had, or got by that step, a pointer. -/
theorem plan_reads_live_iff (routing : RoutingConfig) (as : List Act) (s : State)
    (hrun : Transition.run (State.step routing) {} as = some s) :
    (∀ x, s.refs x = 0 ↔ Retired s x) ∧ OneSnapshot s ∧
      (Transition.Along (State.step routing) (·.timely ·) {} as ↔
        ReadsLive s ∧ ∀ a s', s.step routing a = some s' → ReadsLive s') := by
  refine ⟨fun x => refs_eq_zero_iff hrun, oneSnapshot_run hrun, ?_, ?_⟩
  · intro has
    obtain ⟨L, R⟩ := readsLive_run hrun has
    exact ⟨R, fun a s' h => L.readsLive_step R h⟩
  · rintro ⟨R, hnext⟩
    by_contra hnot
    obtain D | hreads := dangling_run inv_init hrun (.inr (.inr hnot))
    · obtain ⟨a, s', h, hreads⟩ := D.exists_step
      exact hreads (hnext a s' h)
    · exact hreads R

/-- The steps of one call, `n` of them in a row, with candidates in every group. -/
def Act.steps (i n : ℕ) : List Act :=
  List.replicate n (.step i true { name := [], backendGroup := "" })

/-- A registry with a default entry, a plan and an `upsert`. -/
def Act.calls : List Act :=
  [.call (.write (.load [{ name := defaultSchema, backendGroup := "prod" }])), .call (.plan {}),
    .call (.write (.change (.upsert { name := defaultSchema, backendGroup := "prod" })))]

/-- A plan that makes its reads before the swap reads three fields of one snapshot, all of them
while it is alive. -/
theorem plan_reads_live_before_swap : ∃ s,
    Transition.run (State.step {}) {}
      (Act.calls ++ Act.steps 0 5 ++ Act.steps 1 5 ++ Act.steps 2 7) = some s ∧
    s.reads.length = 3 ∧ ReadsLive s ∧ OneSnapshot s := by
  obtain ⟨s, hs, hlen⟩ : ∃ s, Transition.run (State.step {}) {}
      (Act.calls ++ Act.steps 0 5 ++ Act.steps 1 5 ++ Act.steps 2 7) = some s ∧
      s.reads.length = 3 := by
    have h : (Transition.run (State.step {}) {}
        (Act.calls ++ Act.steps 0 5 ++ Act.steps 1 5 ++ Act.steps 2 7)).map (·.reads.length) =
        some 3 := by decide +kernel
    exact Option.map_eq_some_iff.mp h
  obtain ⟨-, hone, hiff⟩ := plan_reads_live_iff {} _ s hs
  exact ⟨s, hs, hlen, (hiff.mp (by decide +kernel)).1, hone⟩

/-- A swap between the return of `lookup` and the first read: the plan reads a snapshot that is
retired. -/
theorem plan_reads_retired : ∃ s,
    Transition.run (State.step {}) {}
      (Act.calls ++ Act.steps 0 5 ++ Act.steps 1 2 ++ Act.steps 2 5 ++ Act.steps 1 1) = some s ∧
    ¬ ReadsLive s := by
  have h : (Transition.run (State.step {}) {}
      (Act.calls ++ Act.steps 0 5 ++ Act.steps 1 2 ++ Act.steps 2 5 ++ Act.steps 1 1)).map
        (·.reads) =
      some [⟨1, 1, .readWriteSplit, false⟩] := by decide +kernel
  obtain ⟨s, hs, hreads⟩ := Option.map_eq_some_iff.mp h
  refine ⟨s, hs, fun R => ?_⟩
  have hlive := R _ (hreads ▸ List.mem_singleton_self _)
  exact absurd hlive Bool.false_ne_true

end DBMesh.Rcu
