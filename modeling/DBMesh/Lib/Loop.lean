import Mathlib.Order.Basic

/-!
# Loops that may not terminate

A loop is its body: a function from the loop state to either the next state or the result the loop
ends with. `Loop.run` performs a bounded number of iterations, so it can be evaluated; a loop
terminates if some bound is enough. `Loop.after` keeps the state when the bound is not enough.

## Main results

* `Loop.run_post` — the rule for partial correctness
* `Loop.run_eq_none_of_invariant` — the rule for nontermination: an invariant under which the body
  always goes on
-/

namespace Loop

variable {σ ρ : Type*} {body : σ → σ ⊕ ρ}

/-- At most `n` iterations from state `s`; `none` if the loop has not ended by then. -/
def run (body : σ → σ ⊕ ρ) : ℕ → σ → Option ρ
  | 0, _ => none
  | n + 1, s =>
    match body s with
    | .inl s' => run body n s'
    | .inr r => some r

/-- At most `n` iterations from state `s`, with the state that is reached if the loop has not
ended. -/
def after (body : σ → σ ⊕ ρ) : ℕ → σ → σ ⊕ ρ
  | 0, s => .inl s
  | n + 1, s =>
    match body s with
    | .inl s' => after body n s'
    | .inr r => .inr r

theorem run_succ_of_inl {s s' : σ} (h : body s = .inl s') (n : ℕ) :
    run body (n + 1) s = run body n s' := by
  simp only [run, h]

theorem run_succ_of_inr {s : σ} {r : ρ} (h : body s = .inr r) (n : ℕ) :
    run body (n + 1) s = some r := by
  simp only [run, h]

theorem after_succ_of_inl {s s' : σ} (h : body s = .inl s') (n : ℕ) :
    after body (n + 1) s = after body n s' := by
  simp only [after, h]

theorem after_succ_of_inr {s : σ} {r : ρ} (h : body s = .inr r) (n : ℕ) :
    after body (n + 1) s = .inr r := by
  simp only [after, h]

theorem run_eq_getRight?_after (n : ℕ) (s : σ) : run body n s = (after body n s).getRight? := by
  induction n generalizing s with
  | zero => rfl
  | succ n ih =>
    cases hb : body s with
    | inl s' => rw [run_succ_of_inl hb, after_succ_of_inl hb, ih]
    | inr r => rw [run_succ_of_inr hb, after_succ_of_inr hb, Sum.getRight?_inr]

/-- More iterations do not change a result. -/
theorem run_mono {n m : ℕ} {s : σ} {r : ρ} (h : run body n s = some r) (hle : n ≤ m) :
    run body m s = some r := by
  induction n generalizing s m with
  | zero => exact absurd h (Option.some_ne_none r).symm
  | succ n ih =>
    obtain ⟨m, rfl⟩ : ∃ m', m = m' + 1 := ⟨m - 1, by omega⟩
    cases hb : body s with
    | inl s' =>
      rw [run_succ_of_inl hb] at h ⊢
      exact ih h (Nat.le_of_succ_le_succ hle)
    | inr r' =>
      rw [run_succ_of_inr hb] at h ⊢
      exact h

theorem after_mono {n m : ℕ} {s : σ} {r : ρ} (h : after body n s = .inr r) (hle : n ≤ m) :
    after body m s = .inr r := by
  induction n generalizing s m with
  | zero => exact absurd h Sum.inl_ne_inr
  | succ n ih =>
    obtain ⟨m, rfl⟩ : ∃ m', m = m' + 1 := ⟨m - 1, by omega⟩
    cases hb : body s with
    | inl s' =>
      rw [after_succ_of_inl hb] at h ⊢
      exact ih h (Nat.le_of_succ_le_succ hle)
    | inr r' =>
      rw [after_succ_of_inr hb] at h ⊢
      exact h

/-- **Partial correctness.** What holds of the state before the loop and is kept by every iteration
that goes on, and gives `Q` of the result at an iteration that ends the loop, gives `Q` of the
result. -/
theorem run_post {I : σ → Prop} {Q : ρ → Prop} (next : ∀ s s', I s → body s = .inl s' → I s')
    (last : ∀ s r, I s → body s = .inr r → Q r) {n : ℕ} {s : σ} {r : ρ} (hs : I s)
    (h : run body n s = some r) : Q r := by
  induction n generalizing s with
  | zero => exact absurd h (Option.some_ne_none r).symm
  | succ n ih =>
    cases hb : body s with
    | inl s' =>
      rw [run_succ_of_inl hb] at h
      exact ih (next s s' hs hb) h
    | inr r' =>
      rw [run_succ_of_inr hb] at h
      obtain rfl := Option.some.inj h
      exact last s r' hs hb

/-- **Nontermination.** A loop whose body goes on from every state of `I`, and stays in `I`, never
ends from a state of `I`. -/
theorem run_eq_none_of_invariant {I : σ → Prop} (hI : ∀ s, I s → ∃ s', body s = .inl s' ∧ I s')
    (n : ℕ) {s : σ} (hs : I s) : run body n s = none := by
  refine Option.eq_none_iff_forall_ne_some.mpr fun r h => ?_
  refine run_post (Q := fun _ => False) (fun s s' hs hb => ?_) (fun s r hs hb => ?_) hs h
  · obtain ⟨s'', hb', hs''⟩ := hI s hs
    obtain rfl := Sum.inl.inj (hb.symm.trans hb')
    exact hs''
  · obtain ⟨s'', hb', -⟩ := hI s hs
    exact absurd (hb.symm.trans hb') (by simp)

end Loop
