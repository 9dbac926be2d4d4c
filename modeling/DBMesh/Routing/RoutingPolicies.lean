import DBMesh.Routing.BackendRegistry

/-!
# Routing policies

`routing/src/routing_policies.cpp`. A policy picks one backend out of a list of candidates that the
selector has already filtered. It answers with an id, the empty one if there is nothing to pick.

Some policies keep a counter of their own, so a policy takes the counter of its instance and returns
it. The draw of the generator is an argument, and the distributions take it modulo their range.

## Main results

* `DBMesh.Routing.answers_createPolicy` — every policy answers with a candidate, or not at all
* `DBMesh.Routing.createPolicy_ne_empty_iff` — when a policy answers with an id
-/

namespace DBMesh.Routing

/-- The live signals a policy may use. A callback that is not set is `none`. -/
structure RoutingContext where
  activeConnections : Option (BackendID → UInt64) := none
  latencyUs : Option (BackendID → UInt64) := none

/-- What a policy reads and keeps in one call: the candidates, the signals, the random draw and the
counter of its instance. -/
abbrev Policy := List BackendEntry → RoutingContext → ℕ → UInt64 → BackendID × UInt64

/-- `c[i]->id` -/
def idAt (es : List BackendEntry) (i : ℕ) : BackendID := (es[i]?.map (·.id)).getD ""

def roundRobinPolicy : Policy := fun c _ _ counter =>
  if c = [] then ("", counter) else (idAt c (counter.toNat % c.length), counter + 1)

def randomPolicy : Policy := fun c _ draw counter =>
  if c = [] then ("", counter) else (idAt c (draw % c.length), counter)

/-- `std::max(1, e->weight)` -/
def BackendEntry.share (e : BackendEntry) : Int := max 1 e.weight

/-- The second loop of `WeightedPolicy::select`, which ends at the first candidate that takes `pick`
below zero. -/
def weightedLoop : Int → List BackendEntry → Option BackendID
  | _, [] => none
  | pick, e :: c => if pick - e.share < 0 then some e.id else weightedLoop (pick - e.share) c

def weightedPolicy : Policy := fun c _ draw counter =>
  if c = [] then ("", counter)
  else
    let total := c.foldl (fun total e => total + e.share) 0
    ((weightedLoop (draw % total) c).getD (idAt c (c.length - 1)), counter)

/-- One round of the loop of `LeastConnectionsPolicy` and `LatencyPolicy`. -/
def leastStep (signal : BackendID → UInt64) (best : BackendID × UInt64) (e : BackendEntry) :
    BackendID × UInt64 :=
  if signal e.id < best.2 then (e.id, signal e.id) else best

/-- The loop of `LeastConnectionsPolicy` and `LatencyPolicy`: the first candidate with the least
signal, if that is below the largest value there is. -/
def leastLoop (signal : BackendID → UInt64) (c : List BackendEntry) : BackendID × UInt64 :=
  c.foldl (leastStep signal) ("", 0xFFFFFFFFFFFFFFFF)

/-- The policies that follow a signal; without one they go round. -/
def leastPolicy (signal : RoutingContext → Option (BackendID → UInt64)) : Policy :=
  fun c ctx draw counter =>
    match signal ctx with
    | some f => if c = [] then ("", counter) else ((leastLoop f c).1, counter)
    | none => roundRobinPolicy c ctx draw counter

def leastConnectionsPolicy : Policy := leastPolicy (·.activeConnections)

def latencyPolicy : Policy := leastPolicy (·.latencyUs)

def failoverPolicy : Policy := fun c _ _ counter =>
  if c = [] then ("", counter)
  else
    match c.find? fun e => e.state ≠ .failed ∧ e.state ≠ .draining with
    | some e => (e.id, counter)
    | none => (idAt c 0, counter)

/-- `PolicyFactory::create` -/
def createPolicy : RoutingPolicy → Policy
  | .roundRobin => roundRobinPolicy
  | .weighted => weightedPolicy
  | .leastConnections => leastConnectionsPolicy
  | .latency => latencyPolicy
  | .random => randomPolicy
  | .failover => failoverPolicy
  | .consistentHashing => roundRobinPolicy

/-! ### Every answer is a candidate -/

/-- The id of one of the candidates, or no id. -/
def Answers (c : List BackendEntry) (id : BackendID) : Prop := id = "" ∨ ∃ e ∈ c, e.id = id

theorem answers_idAt (es : List BackendEntry) (i : ℕ) : Answers es (idAt es i) := by
  rw [idAt]
  cases hi : es[i]? with
  | none => exact .inl rfl
  | some e => exact .inr ⟨e, List.mem_of_getElem? hi, rfl⟩

theorem exists_of_weightedLoop {c : List BackendEntry} {pick : Int} {id : BackendID}
    (h : weightedLoop pick c = some id) : ∃ e ∈ c, e.id = id := by
  induction c generalizing pick with
  | nil => exact absurd h (by simp [weightedLoop])
  | cons e c ih =>
    rw [weightedLoop] at h
    split at h
    · exact ⟨e, List.mem_cons_self, Option.some.inj h⟩
    · obtain ⟨e', he', hid⟩ := ih h
      exact ⟨e', List.mem_cons_of_mem _ he', hid⟩

/-- The id of a candidate whose signal is least, and of the first such candidate. -/
def FirstLeast (signal : BackendID → UInt64) (c : List BackendEntry) (id : BackendID) : Prop :=
  ∃ pre e post, c = pre ++ e :: post ∧ e.id = id ∧ (∀ x ∈ pre, signal e.id < signal x.id) ∧
    ∀ x ∈ post, signal e.id ≤ signal x.id

theorem FirstLeast.mem {signal : BackendID → UInt64} {c : List BackendEntry} {id : BackendID}
    (h : FirstLeast signal c id) : ∃ e ∈ c, e.id = id := by
  obtain ⟨pre, e, post, rfl, hid, -⟩ := h
  exact ⟨e, by simp, hid⟩

/-- **The loop from any best so far.** It stays where no signal is smaller, and otherwise ends at
the first least signal. -/
theorem foldl_leastStep (signal : BackendID → UInt64) (c : List BackendEntry)
    (best : BackendID × UInt64) :
    ((∀ e ∈ c, best.2 ≤ signal e.id) ∧ c.foldl (leastStep signal) best = best) ∨
      ∃ id, signal id < best.2 ∧ FirstLeast signal c id ∧
        c.foldl (leastStep signal) best = (id, signal id) := by
  induction c generalizing best with
  | nil => exact .inl ⟨fun _ he => absurd he List.not_mem_nil, rfl⟩
  | cons e c ih =>
    -- a candidate before the first least one has a greater signal
    have hcons : ∀ {id}, signal id < signal e.id → FirstLeast signal c id →
        FirstLeast signal (e :: c) id := by
      rintro _ hlt ⟨pre, e', post, rfl, rfl, hpre, hpost⟩
      exact ⟨e :: pre, e', post, rfl, rfl, List.forall_mem_cons.mpr ⟨hlt, hpre⟩, hpost⟩
    rw [List.foldl_cons, leastStep]
    split
    · next hlt =>
      refine .inr ?_
      obtain ⟨hge, heq⟩ | ⟨id, hid, hfirst, heq⟩ := ih (e.id, signal e.id)
      · refine ⟨e.id, hlt, ⟨[], e, c, rfl, rfl, ?_, hge⟩, heq⟩
        exact fun _ hx => absurd hx List.not_mem_nil
      · exact ⟨id, UInt64.lt_trans hid hlt, hcons hid hfirst, heq⟩
    · next hge =>
      rw [UInt64.not_lt] at hge
      obtain ⟨hall, heq⟩ | ⟨id, hid, hfirst, heq⟩ := ih best
      · exact .inl ⟨List.forall_mem_cons.mpr ⟨hge, hall⟩, heq⟩
      · exact .inr ⟨id, hid, hcons (UInt64.lt_of_lt_of_le hid hge) hfirst, heq⟩

theorem answers_leastLoop (signal : BackendID → UInt64) (c : List BackendEntry) :
    Answers c (leastLoop signal c).1 := by
  rw [leastLoop]
  obtain ⟨-, heq⟩ | ⟨id, -, hfirst, heq⟩ := foldl_leastStep signal c ("", 0xFFFFFFFFFFFFFFFF)
  · exact .inl (congrArg Prod.fst heq)
  · rw [heq]
    exact .inr hfirst.mem

theorem answers_roundRobinPolicy (c : List BackendEntry) (ctx : RoutingContext) (draw : ℕ)
    (counter : UInt64) : Answers c (roundRobinPolicy c ctx draw counter).1 := by
  rw [roundRobinPolicy]
  split
  · exact .inl rfl
  · exact answers_idAt c _

theorem answers_leastPolicy (signal : RoutingContext → Option (BackendID → UInt64))
    (c : List BackendEntry) (ctx : RoutingContext) (draw : ℕ) (counter : UInt64) :
    Answers c (leastPolicy signal c ctx draw counter).1 := by
  rw [leastPolicy]
  split
  · split
    · exact .inl rfl
    · exact answers_leastLoop _ c
  · exact answers_roundRobinPolicy c ctx draw counter

/-- **Every policy answers with a candidate**, or not at all. -/
theorem answers_createPolicy (p : RoutingPolicy) (c : List BackendEntry) (ctx : RoutingContext)
    (draw : ℕ) (counter : UInt64) : Answers c (createPolicy p c ctx draw counter).1 := by
  cases p with
  | roundRobin => exact answers_roundRobinPolicy c ctx draw counter
  | consistentHashing => exact answers_roundRobinPolicy c ctx draw counter
  | leastConnections => exact answers_leastPolicy _ c ctx draw counter
  | latency => exact answers_leastPolicy _ c ctx draw counter
  | random =>
    rw [createPolicy, randomPolicy]
    split
    · exact .inl rfl
    · exact answers_idAt c _
  | weighted =>
    rw [createPolicy, weightedPolicy]
    split
    · exact .inl rfl
    · show Answers c (Option.getD _ _)
      cases hloop : weightedLoop _ c with
      | none => exact answers_idAt c _
      | some id => exact .inr (exists_of_weightedLoop hloop)
  | failover =>
    rw [createPolicy, failoverPolicy]
    split
    · exact .inl rfl
    · split
      · next e he => exact .inr ⟨e, List.mem_of_find?_eq_some he, rfl⟩
      · exact answers_idAt c _

/-! ### When there is an answer -/

/-- The signal that a policy follows, if it follows one and it is set. -/
def signalOf : RoutingPolicy → RoutingContext → Option (BackendID → UInt64)
  | .leastConnections, ctx => ctx.activeConnections
  | .latency, ctx => ctx.latencyUs
  | _, _ => none

/-- A candidate is passed over by a policy that follows a signal if that is the largest value there
is. -/
def Heard (p : RoutingPolicy) (ctx : RoutingContext) (id : BackendID) : Prop :=
  ∀ f, signalOf p ctx = some f → f id < 0xFFFFFFFFFFFFFFFF

theorem idAt_ne_empty {c : List BackendEntry} (hid : ∀ e ∈ c, e.id ≠ "") {i : ℕ}
    (hi : i < c.length) : idAt c i ≠ "" := by
  rw [idAt, List.getElem?_eq_getElem hi]
  exact hid _ (List.getElem_mem hi)

/-- The loop ends with the id it began with only if no signal is below the one it began with. -/
theorem leastLoop_ne_empty_iff (signal : BackendID → UInt64) {c : List BackendEntry}
    (hid : ∀ e ∈ c, e.id ≠ "") :
    (leastLoop signal c).1 ≠ "" ↔ ∃ e ∈ c, signal e.id < 0xFFFFFFFFFFFFFFFF := by
  rw [leastLoop]
  obtain ⟨hall, heq⟩ | ⟨id, hlt, hfirst, heq⟩ := foldl_leastStep signal c ("", 0xFFFFFFFFFFFFFFFF)
  · rw [heq]
    refine iff_of_false (not_not.mpr rfl) ?_
    rintro ⟨e, he, hlt⟩
    exact UInt64.not_lt.mpr (hall e he) hlt
  · obtain ⟨e, he, rfl⟩ := hfirst.mem
    rw [heq]
    exact iff_of_true (hid e he) ⟨e, he, hlt⟩

theorem roundRobinPolicy_ne_empty {c : List BackendEntry} (hid : ∀ e ∈ c, e.id ≠ "") (hc : c ≠ [])
    (ctx : RoutingContext) (draw : ℕ) (counter : UInt64) :
    (roundRobinPolicy c ctx draw counter).1 ≠ "" := by
  rw [roundRobinPolicy, if_neg hc]
  exact idAt_ne_empty hid (Nat.mod_lt _ (List.length_pos_iff.mpr hc))

theorem leastPolicy_ne_empty_iff (signal : RoutingContext → Option (BackendID → UInt64))
    {c : List BackendEntry} (hid : ∀ e ∈ c, e.id ≠ "") (hc : c ≠ []) (ctx : RoutingContext)
    (draw : ℕ) (counter : UInt64) :
    (leastPolicy signal c ctx draw counter).1 ≠ "" ↔
      ∃ e ∈ c, ∀ f, signal ctx = some f → f e.id < 0xFFFFFFFFFFFFFFFF := by
  rw [leastPolicy]
  split
  · next f hf =>
    rw [if_neg hc, leastLoop_ne_empty_iff f hid]
    simp only [hf, Option.some.injEq, forall_eq']
  · next hf =>
    obtain ⟨e, he⟩ := List.exists_mem_of_ne_nil c hc
    refine iff_of_true (roundRobinPolicy_ne_empty hid hc ctx draw counter) ⟨e, he, fun f h => ?_⟩
    exact absurd (hf.symm.trans h) nofun

/-- **When a policy answers.** Among candidates that have ids, every policy picks one, except that a
policy that follows a signal needs a candidate whose signal is not the largest value there is. -/
theorem createPolicy_ne_empty_iff (p : RoutingPolicy) {c : List BackendEntry}
    (hid : ∀ e ∈ c, e.id ≠ "") (hc : c ≠ []) (ctx : RoutingContext) (draw : ℕ) (counter : UInt64) :
    (createPolicy p c ctx draw counter).1 ≠ "" ↔ ∃ e ∈ c, Heard p ctx e.id := by
  obtain ⟨e₀, he₀⟩ := List.exists_mem_of_ne_nil c hc
  -- the policies without a signal pass nobody over
  have hany : signalOf p ctx = none → ∃ e ∈ c, Heard p ctx e.id :=
    fun hnone => ⟨e₀, he₀, fun f hf => absurd (hnone.symm.trans hf) nofun⟩
  cases p with
  | roundRobin => exact iff_of_true (roundRobinPolicy_ne_empty hid hc ctx draw counter) (hany rfl)
  | consistentHashing =>
    exact iff_of_true (roundRobinPolicy_ne_empty hid hc ctx draw counter) (hany rfl)
  | leastConnections => exact leastPolicy_ne_empty_iff _ hid hc ctx draw counter
  | latency => exact leastPolicy_ne_empty_iff _ hid hc ctx draw counter
  | random =>
    refine iff_of_true ?_ (hany rfl)
    rw [createPolicy, randomPolicy, if_neg hc]
    exact idAt_ne_empty hid (Nat.mod_lt _ (List.length_pos_iff.mpr hc))
  | weighted =>
    refine iff_of_true ?_ (hany rfl)
    rw [createPolicy, weightedPolicy, if_neg hc]
    show Option.getD _ _ ≠ ""
    cases hloop : weightedLoop _ c with
    | none => exact idAt_ne_empty hid (Nat.sub_lt (List.length_pos_iff.mpr hc) Nat.one_pos)
    | some id =>
      obtain ⟨e, he, rfl⟩ := exists_of_weightedLoop hloop
      exact hid e he
  | failover =>
    refine iff_of_true ?_ (hany rfl)
    rw [createPolicy, failoverPolicy, if_neg hc]
    split
    · next e he => exact hid e (List.mem_of_find?_eq_some he)
    · exact idAt_ne_empty hid (List.length_pos_iff.mpr hc)

end DBMesh.Routing
