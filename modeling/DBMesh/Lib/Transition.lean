import Mathlib.Data.List.Basic

/-!
# Runs of an executable transition system

A transition system is a partial step function `step : σ → α → Option σ`: from a state, an action
either is not enabled (`none`) or leads to exactly one next state. Everything that is left to the
environment (which party moves, what an outside call answers) is part of the action, so a list of
actions determines a run and the runs of a concrete system can be evaluated.

## Main definitions

* `Transition.run` — the state after a list of actions, if each of them was enabled
* `Transition.Along` — every step of a run satisfies a condition on its pre-state and action

## Main results

* `Transition.invariant_run` — an invariant of each step that satisfies a condition is an
  invariant of every run along that condition
* `Transition.preserved_run` — an invariant of each step is one of every run
* `Transition.Along.of_invariant` — what the invariant gives holds at each step of such a run
* `Transition.map_run` — a function that takes steps to steps takes runs to runs
* `Transition.sim_run` — so does one that takes a step to several steps of another system
* `Transition.run_append`, `along_append` — runs compose
-/

namespace Transition

variable {σ α : Type*} {step : σ → α → Option σ}

/-- The state after performing a list of actions, or `none` if one of them was not enabled. -/
def run (step : σ → α → Option σ) : σ → List α → Option σ
  | s, [] => some s
  | s, a :: as => (step s a).bind fun s' => run step s' as

@[simp] theorem run_nil (s : σ) : run step s [] = some s := rfl

theorem run_cons (s : σ) (a : α) (as : List α) :
    run step s (a :: as) = (step s a).bind fun s' => run step s' as := rfl

/-- Inversion of a nonempty run: its first step, and the run from there. -/
theorem run_cons_eq_some {s s' : σ} {a : α} {as : List α} :
    run step s (a :: as) = some s' ↔ ∃ t, step s a = some t ∧ run step t as = some s' := by
  rw [run_cons, Option.bind_eq_some_iff]

theorem run_singleton (s : σ) (a : α) : run step s [a] = step s a := by
  rw [run_cons]
  cases step s a <;> rfl

theorem run_append (s : σ) (as bs : List α) :
    run step s (as ++ bs) = (run step s as).bind fun t => run step t bs := by
  induction as generalizing s with
  | nil => rfl
  | cons a as ih =>
    rw [List.cons_append, run_cons, run_cons, Option.bind_assoc]
    exact congrArg _ (funext fun t => ih t)

theorem run_append_eq_some {s s' : σ} {as bs : List α} :
    run step s (as ++ bs) = some s' ↔ ∃ t, run step s as = some t ∧ run step t bs = some s' := by
  rw [run_append, Option.bind_eq_some_iff]

/-- Every step of the run of `as` from `s` satisfies `ok`, a condition on the state before the
step and the action taken. -/
def Along (step : σ → α → Option σ) (ok : σ → α → Prop) : σ → List α → Prop
  | _, [] => True
  | s, a :: as => ok s a ∧ ∀ s', step s a = some s' → Along step ok s' as

variable {ok ok' : σ → α → Prop}

@[simp] theorem along_nil (s : σ) : Along step ok s [] := trivial

theorem along_cons {s : σ} {a : α} {as : List α} :
    Along step ok s (a :: as) ↔ ok s a ∧ ∀ s', step s a = some s' → Along step ok s' as := Iff.rfl

/-- On a given list of actions, `Along` is evaluated by performing them. -/
instance decidableAlong [∀ s a, Decidable (ok s a)] :
    ∀ (s : σ) (as : List α), Decidable (Along step ok s as)
  | _, [] => isTrue trivial
  | s, a :: as =>
    match hs : step s a with
    | none => decidable_of_iff (ok s a) (by simp [along_cons, hs])
    | some t =>
      have := decidableAlong t as
      decidable_of_iff (ok s a ∧ Along step ok t as) (by simp [along_cons, hs])

theorem Along.of_forall_mem : ∀ {as : List α} {s : σ}, (∀ a ∈ as, ∀ s, ok s a) → Along step ok s as
  | [], _, _ => trivial
  | _ :: _, _, h =>
    ⟨h _ (List.mem_cons_self ..) _,
      fun _ _ => Along.of_forall_mem fun a ha => h a (List.mem_cons_of_mem _ ha)⟩

theorem Along.mono (h : ∀ s a, ok s a → ok' s a) :
    ∀ {as : List α} {s : σ}, Along step ok s as → Along step ok' s as
  | [], _, _ => trivial
  | _ :: _, _, ⟨ha, has⟩ => ⟨h _ _ ha, fun s' hs' => (has s' hs').mono h⟩

theorem Along.and : ∀ {as : List α} {s : σ}, Along step ok s as → Along step ok' s as →
    Along step (fun s a => ok s a ∧ ok' s a) s as
  | [], _, _, _ => trivial
  | _ :: _, _, ⟨ha, has⟩, ⟨ha', has'⟩ => ⟨⟨ha, ha'⟩, fun s' hs' => (has s' hs').and (has' s' hs')⟩

theorem along_append {s t : σ} {as bs : List α} (hr : run step s as = some t) :
    Along step ok s (as ++ bs) ↔ Along step ok s as ∧ Along step ok t bs := by
  induction as generalizing s with
  | nil =>
    obtain rfl : s = t := by simpa using hr
    simp
  | cons a as ih =>
    obtain ⟨u, hu, hr⟩ := run_cons_eq_some.mp hr
    rw [List.cons_append, along_cons, along_cons, and_assoc]
    refine and_congr_right fun _ => ⟨fun h => ?_, fun h s' hs' => ?_⟩
    · obtain ⟨has, hbs⟩ := (ih hr).mp (h u hu)
      refine ⟨fun s' hs' => ?_, hbs⟩
      obtain rfl : u = s' := Option.some.inj (hu.symm.trans hs')
      exact has
    · obtain rfl : u = s' := Option.some.inj (hu.symm.trans hs')
      exact (ih hr).mpr ⟨h.1 u hu, h.2⟩

/-- **The invariant rule.** What each step along `ok` preserves, every run along `ok` preserves. -/
theorem invariant_run {I : σ → Prop}
    (hstep : ∀ s a s', I s → ok s a → step s a = some s' → I s') :
    ∀ {as : List α} {s s' : σ}, I s → Along step ok s as → run step s as = some s' → I s'
  | [], s, s', hI, _, hr => by
    obtain rfl : s = s' := by simpa using hr
    exact hI
  | a :: as, s, s', hI, hok, hr => by
    obtain ⟨t, ht, hr⟩ := run_cons_eq_some.mp hr
    exact invariant_run hstep (hstep s a t hI hok.1 ht) (hok.2 t ht) hr

/-- **The invariant rule, without a condition.** What each step preserves, every run preserves. -/
theorem preserved_run {I : σ → Prop} (hstep : ∀ s a s', I s → step s a = some s' → I s')
    {as : List α} {s s' : σ} (hI : I s) (hr : run step s as = some s') : I s' := by
  have hany : Along step (fun _ _ => True) s as := Along.of_forall_mem fun _ _ _ => trivial
  exact invariant_run (fun s a s' hI _ hs => hstep s a s' hI hs) hI hany hr

/-- What follows from an invariant of the steps along `ok` holds along every run along `ok`. -/
theorem Along.of_invariant {I : σ → Prop}
    (hstep : ∀ s a s', I s → ok s a → step s a = some s' → I s') (hok' : ∀ s a, I s → ok' s a) :
    ∀ {as : List α} {s : σ}, I s → Along step ok s as → Along step ok' s as
  | [], _, _, _ => trivial
  | a :: _, s, hI, hok =>
    ⟨hok' s a hI, fun t ht => Along.of_invariant hstep hok' (hstep s a t hI hok.1 ht) (hok.2 t ht)⟩

/-- **Simulation by a function.** If `f` takes each step along `ok` to a step of `next`, it takes
every run along `ok` to the run of `next`. -/
theorem map_run {τ : Type*} {f : σ → τ} {next : τ → α → τ}
    (hstep : ∀ s a s', ok s a → step s a = some s' → f s' = next (f s) a) :
    ∀ {as : List α} {s s' : σ}, Along step ok s as → run step s as = some s' →
      f s' = as.foldl next (f s)
  | [], s, s', _, hr => by
    obtain rfl : s = s' := by simpa using hr
    rfl
  | a :: as, s, s', hok, hr => by
    obtain ⟨t, ht, hr⟩ := run_cons_eq_some.mp hr
    rw [map_run hstep (hok.2 t ht) hr, hstep s a t hok.1 ht]
    rfl

/-- **Simulation by another system.** If `f` takes each step to a run of the actions `g` gives, it
takes every run to the run of all of them. -/
theorem sim_run {τ β : Type*} {step' : τ → β → Option τ} {f : σ → τ} {g : α → List β}
    (hstep : ∀ s a s', step s a = some s' → run step' (f s) (g a) = some (f s')) :
    ∀ {as : List α} {s s' : σ}, run step s as = some s' →
      run step' (f s) (as.flatMap g) = some (f s')
  | [], s, s', hr => by
    obtain rfl : s = s' := by simpa using hr
    rfl
  | a :: as, s, s', hr => by
    obtain ⟨t, ht, hr⟩ := run_cons_eq_some.mp hr
    rw [List.flatMap_cons]
    exact run_append_eq_some.mpr ⟨f t, hstep s a t ht, sim_run hstep hr⟩

end Transition
