import DBMesh.Lib.Transition

/-!
# What a run shows

An observation gives each step of a transition system a list of values. The trace of a run is these
lists one after the other. A trace is ordered if every value that is shown comes before all that may
still be shown, and no step adds to these. A trace is a run of another system if what each step
shows is one.

## Main definitions

* `Transition.trace` — the values that a run shows

## Main results

* `Transition.pairwise_trace` — the rule for ordered traces
* `Transition.run_trace` — the rule for traces that are runs
* `Transition.along_trace` — the rule for what holds at each step of such a trace
* `Transition.known_run` — the rule for what is known from the values shown so far
-/

namespace Transition

variable {σ α β : Type*} {step : σ → α → Option σ} {obs : σ → α → List β}

/-- The values that the run of `as` from `s` shows, up to the first action that is not enabled. -/
def trace (step : σ → α → Option σ) (obs : σ → α → List β) : σ → List α → List β
  | _, [] => []
  | s, a :: as =>
    match step s a with
    | none => []
    | some s' => obs s a ++ trace step obs s' as

theorem trace_cons {s s' : σ} {a : α} (hs : step s a = some s') (as : List α) :
    trace step obs s (a :: as) = obs s a ++ trace step obs s' as := by
  simp only [trace, hs]

/-- Leaving out some of the values. -/
theorem filter_trace {p : β → Bool} {obs' : σ → α → List β}
    (hobs : ∀ s a, (obs s a).filter p = obs' s a) :
    ∀ (as : List α) (s : σ), (trace step obs s as).filter p = trace step obs' s as
  | [], _ => rfl
  | a :: as, s => by
    cases hs : step s a with
    | none => simp only [trace, hs, List.filter_nil]
    | some s' =>
      rw [trace_cons hs, trace_cons hs, List.filter_append, hobs, filter_trace hobs as s']

/-- **Traces that are runs.** If what each step shows takes `f` of the state to `f` of the next one,
so does what a run shows. -/
theorem run_trace {τ : Type*} {step' : τ → β → Option τ} {f : σ → τ} {I : σ → Prop}
    (hI : ∀ s a s', I s → step s a = some s' → I s')
    (hobs : ∀ s a s', I s → step s a = some s' → run step' (f s) (obs s a) = some (f s')) :
    ∀ {as : List α} {s s' : σ}, I s → run step s as = some s' →
      run step' (f s) (trace step obs s as) = some (f s')
  | [], s, s', _, hr => by
    obtain rfl : s = s' := by simpa using hr
    rfl
  | a :: as, s, s', hs, hr => by
    obtain ⟨t, ht, hr⟩ := run_cons_eq_some.mp hr
    rw [trace_cons ht]
    exact run_append_eq_some.mpr ⟨f t, hobs s a t hs ht, run_trace hI hobs (hI s a t hs ht) hr⟩

/-- **Conditions along such a trace.** If a step that is taken under one condition shows steps that
are taken under another, so does a run. -/
theorem along_trace {τ : Type*} {step' : τ → β → Option τ} {f : σ → τ} {ok : σ → α → Prop}
    {ok' : τ → β → Prop}
    (hobs : ∀ s a s', step s a = some s' → run step' (f s) (obs s a) = some (f s'))
    (hok : ∀ s a s', step s a = some s' → ok s a → Along step' ok' (f s) (obs s a)) :
    ∀ {as : List α} {s s' : σ}, run step s as = some s' → Along step ok s as →
      Along step' ok' (f s) (trace step obs s as)
  | [], _, _, _, _ => trivial
  | a :: as, s, s', hr, hs => by
    obtain ⟨t, ht, hr⟩ := run_cons_eq_some.mp hr
    rw [trace_cons ht]
    exact (along_append (hobs s a t ht)).mpr
      ⟨hok s a t ht hs.1, along_trace hobs hok hr (hs.2 t ht)⟩

/-- **What a trace says of the state.** If what is known from the values shown so far holds of the
state with every step, it holds after every run. -/
theorem known_run {K : List β → σ → Prop}
    (hstep : ∀ bs s a s', K bs s → step s a = some s' → K (bs ++ obs s a) s') :
    ∀ {as : List α} {bs : List β} {s s' : σ}, K bs s → run step s as = some s' →
      K (bs ++ trace step obs s as) s'
  | [], bs, s, s', hK, hr => by
    obtain rfl : s = s' := by simpa using hr
    rwa [trace, List.append_nil]
  | a :: as, bs, s, s', hK, hr => by
    obtain ⟨t, ht, hr⟩ := run_cons_eq_some.mp hr
    rw [trace_cons ht, ← List.append_assoc]
    exact known_run hstep (hstep bs s a t hK ht) hr

/-- **Ordered traces.** `M s b` says that `b` may be shown from `s` on. If every value shown may
be shown and stands in `R` to all that may be shown after it, and no step adds to what may be shown,
then the trace of a run is ordered by `R`, and stands in `R` to all that may be shown after the
run. -/
theorem pairwise_trace {I : σ → Prop} {M : σ → β → Prop} {R : β → β → Prop}
    (hI : ∀ s a s', I s → step s a = some s' → I s')
    (hshow : ∀ s a s', I s → step s a = some s' → (obs s a).Pairwise R ∧
      ∀ b ∈ obs s a, M s b ∧ ∀ x, M s' x → R b x)
    (hmay : ∀ s a s' x, I s → step s a = some s' → M s' x → M s x) :
    ∀ {as : List α} {s s' : σ}, I s → run step s as = some s' →
      (∀ x, M s' x → M s x) ∧ (trace step obs s as).Pairwise R ∧
        ∀ b ∈ trace step obs s as, M s b ∧ ∀ x, M s' x → R b x
  | [], s, s', _, hr => by
    obtain rfl : s = s' := by simpa using hr
    exact ⟨fun _ h => h, .nil, List.forall_mem_nil _⟩
  | a :: as, s, s', hs, hr => by
    obtain ⟨t, ht, hr⟩ := run_cons_eq_some.mp hr
    obtain ⟨hback, hpair, hall⟩ := pairwise_trace hI hshow hmay (hI s a t hs ht) hr
    obtain ⟨hnow, hafter⟩ := hshow s a t hs ht
    refine ⟨fun x hx => hmay s a t x hs ht (hback x hx), ?_⟩
    rw [trace_cons ht]
    refine ⟨List.pairwise_append.mpr ⟨hnow, hpair, fun b hb x hx => ?_⟩, fun b hb => ?_⟩
    · exact (hafter b hb).2 x (hall x hx).1
    · rcases List.mem_append.mp hb with hb | hb
      · exact ⟨(hafter b hb).1, fun x hx => (hafter b hb).2 x (hback x hx)⟩
      · exact ⟨hmay s a t b hs ht (hall b hb).1, (hall b hb).2⟩

end Transition
