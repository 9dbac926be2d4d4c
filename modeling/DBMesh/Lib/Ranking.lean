import DBMesh.Lib.Transition
import Mathlib.Algebra.GroupWithZero.Nat

/-!
# Measures of runs

A measure gives every state a natural number. Where each step does its work out of the measure and
out of what it pays in, the work of a run is bounded by what the run pays in. Where a state of
positive measure always has a step to a smaller one, there is a run to a state of measure zero.

## Main results

* `Transition.account_run` — the work of a run is paid for
* `Transition.exists_run_zero` — a run to measure zero, no longer than the measure
-/

namespace Transition

variable {σ α : Type*} {step : σ → α → Option σ} {I : σ → Prop} {μ : σ → ℕ}

/-- **The account of a run.** What each step keeps, every run keeps: the work that has been done and
the measure that is left are paid for by the measure at the start and by what was paid in. -/
theorem account_run {work paid : α → ℕ} (hI : ∀ s a s', I s → step s a = some s' → I s')
    (hstep : ∀ s a s', I s → step s a = some s' → work a + μ s' ≤ μ s + paid a) :
    ∀ {as : List α} {s s' : σ}, I s → run step s as = some s' →
      (as.map work).sum + μ s' ≤ μ s + (as.map paid).sum
  | [], s, s', _, hr => by
    obtain rfl : s = s' := by simpa using hr
    simp
  | a :: as, s, s', hs, hr => by
    obtain ⟨t, ht, hr⟩ := run_cons_eq_some.mp hr
    have hone := hstep s a t hs ht
    have hrest := account_run hI hstep (hI s a t hs ht) hr
    simp only [List.map_cons, List.sum_cons]
    omega

/-- **Progress.** If every state of positive measure has a step to one of smaller measure, by an
action of `P`, then every state has a run to one of measure zero. -/
theorem exists_run_zero {P : α → Prop} (hI : ∀ s a s', I s → step s a = some s' → I s')
    (hdec : ∀ s, I s → 0 < μ s → ∃ a s', P a ∧ step s a = some s' ∧ μ s' < μ s) {s : σ}
    (hs : I s) :
    ∃ as s', (∀ a ∈ as, P a) ∧ as.length ≤ μ s ∧ run step s as = some s' ∧ μ s' = 0 := by
  induction hn : μ s using Nat.strongRecOn generalizing s with
  | _ n ih =>
    subst hn
    rcases Nat.eq_zero_or_pos (μ s) with hzero | hpos
    · exact ⟨[], s, List.forall_mem_nil _, Nat.zero_le _, rfl, hzero⟩
    · obtain ⟨a, t, ha, ht, hlt⟩ := hdec s hs hpos
      obtain ⟨as, s', has, hlen, hr, hend⟩ := ih (μ t) hlt (hI s a t hs ht) rfl
      refine ⟨a :: as, s', List.forall_mem_cons.mpr ⟨ha, has⟩, ?_,
        run_cons_eq_some.mpr ⟨t, ht, hr⟩, hend⟩
      rw [List.length_cons]
      omega

end Transition
