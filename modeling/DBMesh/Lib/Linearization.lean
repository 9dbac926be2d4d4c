import DBMesh.Lib.Trace
import Mathlib.Logic.Function.Basic
import Mathlib.Data.List.Nodup

/-!
# Linearization

What calls of several threads on one object must look like. A history is the calls and returns in
the order in which they happen. It is linearized by a list of operations, one after the other, if
the object on its own gives these results, if every call that has returned is among them with the
result that it returned, and if a call that has returned before another comes in stands before it.

The proof method is the one with linearization points: the object takes each operation at one moment
between its call and its return. `Atomic.step` is the object that does just this, and a system of
which every step is a run of it is linearized by its points.

## Main definitions

* `Atomic.Event`, `Atomic.history`, `Atomic.points` — what happens, what of it is seen, and when the
  object takes an operation
* `Atomic.Linearizes` — a list of operations explains a history
* `Atomic.step` — the object that takes each operation at one moment

## Main results

* `Atomic.linearizes_of_run` — its runs are linearized by their points
-/

namespace Atomic

open Transition

variable {τ ι op res : Type*}

/-- What happens to the call named `i`. -/
inductive Event (ι op res : Type*)
  | call (i : ι) (o : op)
  | point (i : ι) (o : op) (r : res)
  | ret (i : ι) (r : res)

/-- An operation in the order of a linearization. -/
structure Done (ι op res : Type*) where
  id : ι
  op : op
  res : res

def Event.visible : Event ι op res → Bool
  | .call _ _ | .ret _ _ => true
  | .point _ _ _ => false

def Event.done : Event ι op res → Option (Done ι op res)
  | .point i o r => some ⟨i, o, r⟩
  | .call _ _ | .ret _ _ => none

/-- The calls and returns. -/
def history (es : List (Event ι op res)) : List (Event ι op res) := es.filter Event.visible

def points (es : List (Event ι op res)) : List (Done ι op res) := es.filterMap Event.done

/-- The operations on the object alone, with their results. -/
def seq (next : τ → op → τ × res) : τ → List op → τ × List res
  | t, [] => (t, [])
  | t, o :: os =>
    ((seq next (next t o).1 os).1, (next t o).2 :: (seq next (next t o).1 os).2)

theorem seq_concat (next : τ → op → τ × res) : ∀ (t : τ) (os : List op) (o : op),
    seq next t (os ++ [o]) =
      ((next (seq next t os).1 o).1, (seq next t os).2 ++ [(next (seq next t os).1 o).2])
  | _, [], _ => rfl
  | t, o' :: os, o => by
    rw [List.cons_append, seq, seq_concat next (next t o').1 os o]
    rfl

/-- `lin` explains the history `hist` of an object that was `t₀` and is `t` now. -/
structure Linearizes (next : τ → op → τ × res) (t₀ : τ) (hist : List (Event ι op res))
    (lin : List (Done ι op res)) (t : τ) : Prop where
  legal : seq next t₀ (lin.map Done.op) = (t, lin.map Done.res)
  once : (lin.map Done.id).Nodup
  called : ∀ d ∈ lin, .call d.id d.op ∈ hist
  complete : ∀ i r, .ret i r ∈ hist → ∃ o, ⟨i, o, r⟩ ∈ lin
  order : ∀ i r j o, [.ret i r, .call j o].Sublist hist → j ∈ lin.map Done.id →
    [i, j].Sublist (lin.map Done.id)

variable {i : ι} {o : op} {r : res} {es : List (Event ι op res)}

theorem history_concat (es : List (Event ι op res)) (e : Event ι op res) :
    history (es ++ [e]) = history es ++ if e.visible then [e] else [] := by
  rw [history, List.filter_append]
  cases e <;> rfl

theorem points_concat (es : List (Event ι op res)) (e : Event ι op res) :
    points (es ++ [e]) = points es ++ e.done.toList := by
  rw [points, List.filterMap_append]
  cases e <;> rfl

/-- A pair in order at the end of a list. -/
theorem pair_sublist_concat {α : Type*} {l : List α} {a b c : α} :
    [a, b].Sublist (l ++ [c]) ↔ [a, b].Sublist l ∨ (a ∈ l ∧ b = c) := by
  constructor
  · intro h
    obtain ⟨l₁, l₂, hsplit, h₁, h₂⟩ := List.sublist_append_iff.mp h
    rcases List.sublist_singleton.mp h₂ with rfl | rfl
    · rw [List.append_nil] at hsplit
      exact .inl (hsplit ▸ h₁)
    · have hl : [a] ++ [b] = l₁ ++ [c] := hsplit
      obtain ⟨rfl, hb⟩ := List.append_inj' hl rfl
      exact .inr ⟨List.singleton_sublist.mp h₁, List.singleton_inj.mp hb⟩
  · rintro (h | ⟨ha, rfl⟩)
    · exact h.trans (List.sublist_append_left ..)
    · exact (List.singleton_sublist.mpr ha).append (List.Sublist.refl [b])

/-! ### The object -/

/-- How far a call has come. -/
inductive Status (op res : Type*)
  | idle
  | called (o : op)
  | taken (r : res)
  | returned

structure Object (τ ι op res : Type*) where
  obj : τ
  status : ι → Status op res

def start (t : τ) : Object τ ι op res := ⟨t, fun _ => .idle⟩

open Classical in
/-- Each call takes its turn once, between its start and its return, and returns what it got. -/
noncomputable def step [DecidableEq ι] (next : τ → op → τ × res) (s : Object τ ι op res) :
    Event ι op res → Option (Object τ ι op res)
  | .call i o =>
    if s.status i = .idle then
      some { s with status := Function.update s.status i (.called o) }
    else none
  | .point i o r =>
    if s.status i = .called o ∧ (next s.obj o).2 = r then
      some ⟨(next s.obj o).1, Function.update s.status i (.taken r)⟩
    else none
  | .ret i r =>
    if s.status i = .taken r then
      some { s with status := Function.update s.status i .returned }
    else none

/-- The statuses of calls that are named by their places in a list, as `f` reads them off. -/
def statuses {π : Type*} (f : π → Status op res) (ps : List π) (i : ℕ) : Status op res :=
  (ps[i]?).elim .idle f

section

variable {π : Type*} {f f' : π → Status op res} {ps : List π} {p p' : π}

theorem statuses_of {n : ℕ} (h : ps[n]? = some p) : statuses f ps n = f p := by
  rw [statuses, h]
  rfl

theorem statuses_length (f : π → Status op res) (ps : List π) :
    statuses f ps ps.length = .idle := by
  rw [statuses, List.getElem?_eq_none (Nat.le_refl _)]
  rfl

/-- Only the call that moves changes its status. -/
theorem statuses_set {n : ℕ} (h : ps[n]? = some p) (hf : ∀ x ∈ ps, f' x = f x) :
    statuses f' (ps.set n p') = Function.update (statuses f ps) n (f' p') := by
  have hlt : n < ps.length := (List.getElem?_eq_some_iff.mp h).1
  funext j
  rcases eq_or_ne j n with rfl | hne
  · rw [Function.update_self, statuses, List.getElem?_set_self hlt]
    rfl
  · rw [Function.update_of_ne hne, statuses, statuses, List.getElem?_set_ne hne.symm]
    cases hj : ps[j]? with
    | none => rfl
    | some x => exact hf x (List.mem_of_getElem? hj)

theorem statuses_concat (f : π → Status op res) (ps : List π) (p : π) :
    statuses f (ps ++ [p]) = Function.update (statuses f ps) ps.length (f p) := by
  funext j
  rcases Nat.lt_trichotomy j ps.length with hlt | rfl | hgt
  · rw [Function.update_of_ne (Nat.ne_of_lt hlt), statuses, statuses, List.getElem?_append_left hlt]
  · rw [Function.update_self, statuses, List.getElem?_concat_length]
    rfl
  · have hlen : (ps ++ [p]).length ≤ j := by
      rw [List.length_append]
      exact hgt
    rw [Function.update_of_ne (Nat.ne_of_gt hgt), statuses, statuses, List.getElem?_eq_none hlen,
      List.getElem?_eq_none (Nat.le_of_lt hgt)]

end

variable {next : τ → op → τ × res} {s s' : Object τ ι op res} {t₀ : τ}

theorem step_call [DecidableEq ι] : step next s (.call i o) = some s' ↔
    s.status i = .idle ∧ s' = { s with status := Function.update s.status i (.called o) } := by
  rw [step, Option.ite_none_right_eq_some, Option.some.injEq, eq_comm (a := s')]

theorem step_point [DecidableEq ι] : step next s (.point i o r) = some s' ↔
    (s.status i = .called o ∧ (next s.obj o).2 = r) ∧
      s' = ⟨(next s.obj o).1, Function.update s.status i (.taken r)⟩ := by
  rw [step, Option.ite_none_right_eq_some, Option.some.injEq, eq_comm (a := s')]

theorem step_ret [DecidableEq ι] : step next s (.ret i r) = some s' ↔
    s.status i = .taken r ∧ s' = { s with status := Function.update s.status i .returned } := by
  rw [step, Option.ite_none_right_eq_some, Option.some.injEq, eq_comm (a := s')]

/-! ### Its runs are linearized -/

/-- What the status of call `i` says of the events so far. -/
def Status.Fits (es : List (Event ι op res)) (i : ι) : Status op res → Prop
  | .idle => i ∉ (points es).map Done.id
  | .called o => .call i o ∈ es ∧ i ∉ (points es).map Done.id
  | .taken r => ∃ o, ⟨i, o, r⟩ ∈ points es
  | .returned => True

/-- An event of another call changes nothing. -/
theorem Status.Fits.concat {x : Status op res} (h : x.Fits es i) {e : Event ι op res}
    (he : ∀ d, e.done = some d → d.id ≠ i) : x.Fits (es ++ [e]) i := by
  have hnew : i ∉ (points es).map Done.id → i ∉ (points (es ++ [e])).map Done.id := by
    intro hold hmem
    rw [points_concat, List.map_append, List.mem_append] at hmem
    obtain ⟨d, hd, hid⟩ := List.mem_map.mp (hmem.resolve_left hold)
    exact he d (Option.mem_toList.mp hd) hid
  cases x with
  | idle => exact hnew h
  | called o => exact ⟨List.mem_append_left _ h.1, hnew h.2⟩
  | taken r =>
    obtain ⟨o, ho⟩ := h
    rw [Fits, points_concat]
    exact ⟨o, List.mem_append_left _ ho⟩
  | returned => trivial

/-- What is known of the object after the events `es`. -/
structure Explained (next : τ → op → τ × res) (t₀ : τ) (es : List (Event ι op res))
    (s : Object τ ι op res) : Prop where
  lin : Linearizes next t₀ (history es) (points es) s.obj
  fits : ∀ i, (s.status i).Fits es i

theorem explained_start (next : τ → op → τ × res) (t₀ : τ) :
    Explained next t₀ ([] : List (Event ι op res)) (start t₀) where
  lin := ⟨rfl, .nil, fun _ h => absurd h List.not_mem_nil,
    fun _ _ h => absurd h List.not_mem_nil, fun _ _ _ _ h => by cases h⟩
  fits := fun _ => List.not_mem_nil

namespace Explained

variable [DecidableEq ι] (E : Explained next t₀ es s)

include E

/-- Only the call that an event is about changes its status. -/
theorem fits_update {e : Event ι op res} {x : Status op res} (hx : x.Fits (es ++ [e]) i)
    (he : ∀ d, e.done = some d → d.id = i) (j : ι) :
    (Function.update s.status i x j).Fits (es ++ [e]) j := by
  rcases eq_or_ne j i with rfl | hne
  · rwa [Function.update_self]
  · rw [Function.update_of_ne hne]
    exact (E.fits j).concat fun d hd hid => hne (hid.symm.trans (he d hd))

theorem call (h : s.status i = .idle) :
    Explained next t₀ (es ++ [.call i o])
      { s with status := Function.update s.status i (.called o) } := by
  have hpoints : points (es ++ [.call i o]) = points es :=
    (points_concat es _).trans (List.append_nil _)
  have hhist : history (es ++ [.call i o]) = history es ++ [.call i o] := history_concat es _
  have hnew : i ∉ (points es).map Done.id := by
    have hfits := E.fits i
    rwa [h] at hfits
  have hmem : .call i o ∈ es ++ [.call i o] :=
    List.mem_append_right _ (List.mem_singleton_self _)
  refine ⟨?_, E.fits_update ⟨hmem, ?_⟩ fun d hd => ?_⟩
  · rw [hpoints, hhist]
    refine ⟨E.lin.legal, E.lin.once, fun d hd => ?_, fun j r' hj => ?_,
      fun j r' k o' hsub hk => ?_⟩
    · exact List.mem_append_left _ (E.lin.called d hd)
    · refine E.lin.complete j r' ((List.mem_append.mp hj).resolve_right fun hj => ?_)
      cases List.mem_singleton.mp hj
    · -- the call that has just come in has not taken its turn
      obtain hsub | ⟨-, heq⟩ := pair_sublist_concat.mp hsub
      · exact E.lin.order j r' k o' hsub hk
      · obtain ⟨rfl, -⟩ := Event.call.inj heq
        exact absurd hk hnew
  · rwa [hpoints]
  · cases hd

theorem point (h : s.status i = .called o) (hr : (next s.obj o).2 = r) :
    Explained next t₀ (es ++ [.point i o r])
      ⟨(next s.obj o).1, Function.update s.status i (.taken r)⟩ := by
  have hpoints : points (es ++ [.point i o r]) = points es ++ [⟨i, o, r⟩] := points_concat es _
  have hhist : history (es ++ [.point i o r]) = history es :=
    (history_concat es _).trans (List.append_nil _)
  obtain ⟨hcalled, hnew⟩ : .call i o ∈ es ∧ i ∉ (points es).map Done.id := by
    have hfits := E.fits i
    rwa [h] at hfits
  refine ⟨?_, E.fits_update ⟨o, ?_⟩ fun d hd => ?_⟩
  · rw [hpoints, hhist]
    refine ⟨?_, ?_, fun d hd => ?_, fun j r' hj => ?_, fun j r' k o' hsub hk => ?_⟩
    · rw [List.map_append, List.map_append]
      refine (seq_concat next t₀ _ o).trans ?_
      rw [E.lin.legal, hr]
      rfl
    · rw [List.map_append]
      refine List.nodup_append.mpr ⟨E.lin.once, List.nodup_singleton _, fun j hj k hk heq => ?_⟩
      obtain rfl := List.mem_singleton.mp hk
      exact hnew (heq ▸ hj)
    · rcases List.mem_append.mp hd with hd | hd
      · exact E.lin.called d hd
      · obtain rfl := List.mem_singleton.mp hd
        exact List.mem_filter.mpr ⟨hcalled, rfl⟩
    · obtain ⟨o', ho'⟩ := E.lin.complete j r' hj
      exact ⟨o', List.mem_append_left _ ho'⟩
    · -- a call that has returned stands before every operation that comes now
      rw [List.map_append] at hk ⊢
      refine pair_sublist_concat.mpr ?_
      rcases List.mem_append.mp hk with hk | hk
      · exact .inl (E.lin.order j r' k o' hsub hk)
      · obtain ⟨o'', ho''⟩ := E.lin.complete j r' (hsub.subset (List.mem_cons_self ..))
        exact .inr ⟨List.mem_map_of_mem (f := Done.id) ho'', List.mem_singleton.mp hk⟩
  · rw [hpoints]
    exact List.mem_append_right _ (List.mem_singleton_self _)
  · obtain rfl := Option.some.inj hd
    rfl

theorem ret (h : s.status i = .taken r) :
    Explained next t₀ (es ++ [.ret i r])
      { s with status := Function.update s.status i .returned } := by
  have hpoints : points (es ++ [.ret i r]) = points es :=
    (points_concat es _).trans (List.append_nil _)
  have hhist : history (es ++ [.ret i r]) = history es ++ [.ret i r] := history_concat es _
  refine ⟨?_, E.fits_update trivial fun d hd => by cases hd⟩
  rw [hpoints, hhist]
  refine ⟨E.lin.legal, E.lin.once, fun d hd => ?_, fun j r' hj => ?_,
    fun j r' k o' hsub hk => ?_⟩
  · exact List.mem_append_left _ (E.lin.called d hd)
  · rcases List.mem_append.mp hj with hj | hj
    · exact E.lin.complete j r' hj
    · obtain ⟨rfl, rfl⟩ := Event.ret.inj (List.mem_singleton.mp hj)
      have hfits := E.fits j
      rwa [h] at hfits
  · obtain hsub | ⟨-, heq⟩ := pair_sublist_concat.mp hsub
    · exact E.lin.order j r' k o' hsub hk
    · cases heq

theorem step {e : Event ι op res} (h : Atomic.step next s e = some s') :
    Explained next t₀ (es ++ [e]) s' := by
  cases e with
  | call i o =>
    obtain ⟨hidle, rfl⟩ := step_call.mp h
    exact E.call hidle
  | point i o r =>
    obtain ⟨⟨hcalled, hr⟩, rfl⟩ := step_point.mp h
    exact E.point hcalled hr
  | ret i r =>
    obtain ⟨htaken, rfl⟩ := step_ret.mp h
    exact E.ret htaken

end Explained

theorem explained_run [DecidableEq ι] : ∀ {es' es : List (Event ι op res)}
    {s s' : Object τ ι op res}, Explained next t₀ es s → run (step next) s es' = some s' →
      Explained next t₀ (es ++ es') s'
  | [], es, s, s', E, hr => by
    obtain rfl : s = s' := by simpa using hr
    rwa [List.append_nil]
  | e :: es', es, s, s', E, hr => by
    obtain ⟨u, hu, hr⟩ := run_cons_eq_some.mp hr
    rw [List.append_cons]
    exact explained_run (E.step hu) hr

/-- **Linearization points.** Every run of the object is linearized by its points. -/
theorem linearizes_of_run [DecidableEq ι] (hr : run (step next) (start t₀) es = some s) :
    Linearizes next t₀ (history es) (points es) s.obj :=
  (explained_run (explained_start next t₀) hr).lin

end Atomic
