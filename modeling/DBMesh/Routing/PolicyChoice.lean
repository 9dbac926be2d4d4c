import Mathlib.Order.Interval.Finset.Nat
import Mathlib.Tactic.Linarith
import DBMesh.Routing.BackendSelector

/-!
# What the policies choose

Two loops of `routing/src/routing_policies.cpp` in detail.

The loop of the policies that follow a signal looks for the first least signal, but it begins with
the largest value there is as the best so far, and only a smaller one replaces it. So it finds the
first least signal unless all of them have that value. Then it ends with the empty id it began with,
which the selector takes for the lack of a backend.

The loop of the weighted policy takes the shares of the candidates off the draw until it is
negative. It cuts the range of the draws into one interval for each candidate, as long as its share.

## Main definitions

* `DBMesh.Routing.weightedStop` — the position at which the loop of the weighted policy ends
* `DBMesh.Routing.sharesBefore` — the shares of the candidates before a position

## Main results

* `DBMesh.Routing.least_signal_chosen_iff` — when the least signal is chosen
* `DBMesh.Routing.weightedStop_eq_some_iff` — the draws that end at a position
* `DBMesh.Routing.weighted_partition` — the draws are divided by weight
-/

namespace DBMesh.Routing

/-! ### The least signal -/

/-- **The loop finds the first least signal**, if some signal is not the largest value there is. -/
theorem firstLeast_leastLoop_iff (signal : BackendID → UInt64) {c : List BackendEntry}
    (hid : ∀ e ∈ c, e.id ≠ "") :
    FirstLeast signal c (leastLoop signal c).1 ↔ ∃ e ∈ c, signal e.id < 0xFFFFFFFFFFFFFFFF := by
  rw [← leastLoop_ne_empty_iff signal hid, leastLoop]
  obtain ⟨-, heq⟩ | ⟨id, -, hfirst, heq⟩ := foldl_leastStep signal c ("", 0xFFFFFFFFFFFFFFFF)
  · rw [heq]
    refine iff_of_false (fun h => ?_) (not_not.mpr rfl)
    obtain ⟨e, he, hempty⟩ := h.mem
    exact hid e he hempty
  · rw [heq]
    obtain ⟨e, he, rfl⟩ := hfirst.mem
    exact iff_of_true hfirst (hid e he)

/-- A policy that follows a signal runs that loop. -/
theorem createPolicy_of_signalOf {p : RoutingPolicy} {ctx : RoutingContext}
    {f : BackendID → UInt64} (hf : signalOf p ctx = some f) {c : List BackendEntry} (hc : c ≠ [])
    (draw : ℕ) (counter : UInt64) :
    (createPolicy p c ctx draw counter).1 = (leastLoop f c).1 := by
  have hleast : ∀ signal : RoutingContext → Option (BackendID → UInt64), signal ctx = some f →
      (leastPolicy signal c ctx draw counter).1 = (leastLoop f c).1 := by
    intro signal hsignal
    rw [leastPolicy, hsignal]
    dsimp only
    rw [if_neg hc]
  cases p with
  | leastConnections => exact hleast _ hf
  | latency => exact hleast _ hf
  | _ => exact absurd hf (by simp [signalOf])

/-- **When the least signal is chosen.** A policy that follows a signal chooses the first candidate
with the least signal exactly if some signal is not the largest value there is. So the selector
names a backend for a role, while some backend may take the request, exactly if there is one that
the policy does not pass over for that. -/
theorem least_signal_chosen_iff (ctx : RoutingContext) (draw : ℕ) :
    (∀ (p : RoutingPolicy) (f : BackendID → UInt64) (c : List BackendEntry) (counter : UInt64),
      signalOf p ctx = some f → c ≠ [] → (∀ e ∈ c, e.id ≠ "") →
      (FirstLeast f c (createPolicy p c ctx draw counter).1 ↔
        ∃ e ∈ c, f e.id < 0xFFFFFFFFFFFFFFFF)) ∧
    ∀ (ops : List RegistryOp) (reg : BackendRegistry),
      Transition.run BackendRegistry.step {} ops = some reg → reg.entry "" = none →
      ∀ (s : BackendSelector) (schema : SchemaConfig) (role : BackendRole),
        (∃ id e, Serves s.defaults reg schema.backendGroup role id e) →
      ((∃ id, (s.select reg schema role ctx draw).1 = .ok id) ↔
        ∃ id e, Serves s.defaults reg schema.backendGroup role id e ∧
          ∀ f, signalOf (s.policyOf schema) ctx = some f → f id < 0xFFFFFFFFFFFFFFFF) := by
  constructor
  · intro p f c counter hf hc hid
    rw [createPolicy_of_signalOf hf hc]
    exact firstLeast_leastLoop_iff f hid
  · intro ops reg hrun hempty s schema role _
    have I := BackendRegistry.inv_run hrun
    have hid : ∀ e ∈ s.candidates reg schema.backendGroup role, e.id ≠ "" := by
      intro e he hnil
      have hentry := ((I.mem_candidates s).mp he).entry
      rw [hnil, hempty] at hentry
      exact absurd hentry nofun
    rw [s.exists_select_eq_ok_iff reg schema role ctx draw hid]
    constructor
    · rintro ⟨e, he, hheard⟩
      exact ⟨e.id, e, (I.mem_candidates s).mp he, hheard⟩
    · rintro ⟨id, e, hserves, hheard⟩
      obtain rfl := I.id_of_entry hserves.entry
      exact ⟨e, (I.mem_candidates s).mpr hserves, hheard⟩

/-- Of two backends with the same signal the first, and one of them is always named. -/
theorem least_signal_chosen_first : (FirstLeast (fun id => if id = "a" then 9 else 4)
    [.ofConfig { id := "a", group := "g" }, .ofConfig { id := "b", group := "g" },
      .ofConfig { id := "c", group := "g" }] "b") ∧
    ∃ reg, Transition.run BackendRegistry.step {} [.load [{ id := "a", group := "g" }] ["a"]] =
      some reg ∧ ∃ id, (({} : BackendSelector).select reg { name := [], backendGroup := "g" }
        .replica {} 0).1 = .ok id := by
  have hids : ∀ e ∈ [BackendEntry.ofConfig { id := "a", group := "g" },
      .ofConfig { id := "b", group := "g" }, .ofConfig { id := "c", group := "g" }],
      e.id ≠ "" := by
    decide
  refine ⟨((least_signal_chosen_iff { latencyUs := some fun id => if id = "a" then 9 else 4 } 0).1
    .latency _ _ 0 rfl (by simp) hids).mpr
    ⟨_, List.mem_cons_self, by decide⟩, _, rfl, ?_⟩
  have hserves : Serves ({} : BackendSelector).defaults
      (({} : BackendRegistry).load [{ id := "a", group := "g" }] ["a"]) "g" .replica "a"
      (.ofConfig { id := "a", group := "g" }) := by
    refine .inr ⟨rfl, fun id e h => ?_, ⟨rfl, rfl, rfl, .inl rfl⟩⟩
    have hentry := h.entry
    by_cases hid : id = "a"
    · subst hid
      obtain rfl : BackendEntry.ofConfig { id := "a", group := "g" } = e := Option.some.inj hentry
      exact absurd h.hasRole (by decide)
    · have hnone : ((∅ : ById).insert "a" 0).lookup id = none := by
        rw [AList.lookup_insert_ne hid, AList.lookup_empty]
      exact absurd ((congrArg (Option.map _) hnone).symm.trans hentry) nofun
  exact ((least_signal_chosen_iff {} 0).2 [.load [{ id := "a", group := "g" }] ["a"]] _ rfl rfl {}
    { name := [], backendGroup := "g" } .replica ⟨_, _, hserves⟩).mpr
    ⟨_, _, hserves, nofun⟩

/-- The only backend of a group is healthy, but its signal is the largest value there is. -/
theorem least_signal_refused : ∃ reg,
    Transition.run BackendRegistry.step {} [.load [{ id := "a", group := "g" }] ["a"]] = some reg ∧
    ¬ FirstLeast (fun _ => 0xFFFFFFFFFFFFFFFF) [.ofConfig { id := "a", group := "g" }]
      (leastConnectionsPolicy [.ofConfig { id := "a", group := "g" }]
        { activeConnections := some fun _ => 0xFFFFFFFFFFFFFFFF } 0 0).1 ∧
    (∃ e, Serves {} reg "g" .primary "a" e) ∧
    (({} : BackendSelector).select reg
      { name := [], backendGroup := "g", routingPolicy := some .leastConnections } .primary
      { activeConnections := some fun _ => 0xFFFFFFFFFFFFFFFF } 0).1 =
        .error .noBackendAvailable := by
  refine ⟨_, rfl, fun h => ?_, ⟨_, .inl ⟨rfl, rfl, rfl, .inl rfl⟩⟩, by decide +kernel⟩
  obtain ⟨e, he, hid⟩ := h.mem
  rw [List.mem_singleton.mp he] at hid
  exact absurd hid (by decide)

/-! ### The weighted policy -/

/-- The position at which the loop of the weighted policy ends. -/
def weightedStop : Int → List BackendEntry → Option ℕ
  | _, [] => none
  | pick, e :: c =>
    if pick - e.share < 0 then some 0 else (weightedStop (pick - e.share) c).map (· + 1)

/-- The shares of the candidates before a position. -/
def sharesBefore (c : List BackendEntry) (i : ℕ) : Int := ((c.take i).map (·.share)).sum

theorem one_le_share (e : BackendEntry) : 1 ≤ e.share := le_max_left _ _

@[simp] theorem sharesBefore_zero (c : List BackendEntry) : sharesBefore c 0 = 0 := rfl

@[simp] theorem sharesBefore_cons_succ (e : BackendEntry) (c : List BackendEntry) (i : ℕ) :
    sharesBefore (e :: c) (i + 1) = e.share + sharesBefore c i := by
  rw [sharesBefore, List.take_succ_cons, List.map_cons, List.sum_cons, sharesBefore]

theorem sharesBefore_succ {es : List BackendEntry} {i : ℕ} {e : BackendEntry}
    (h : es[i]? = some e) : sharesBefore es (i + 1) = sharesBefore es i + e.share := by
  rw [sharesBefore, List.take_add_one, h, List.map_append, List.sum_append, sharesBefore]
  simp

theorem sharesBefore_mono (es : List BackendEntry) {i j : ℕ} (hij : i ≤ j) :
    sharesBefore es i ≤ sharesBefore es j := by
  induction hij with
  | refl => exact Int.le_refl _
  | @step j _ ih =>
    refine Int.le_trans ih ?_
    cases h : es[j]? with
    | none =>
      have hlen := List.getElem?_eq_none_iff.mp h
      rw [sharesBefore, sharesBefore, List.take_of_length_le hlen,
        List.take_of_length_le (Nat.le_succ_of_le hlen)]
    | some e =>
      have hstep : sharesBefore es j.succ = sharesBefore es j + e.share := sharesBefore_succ h
      have hone := one_le_share e
      omega

theorem sharesBefore_nonneg (c : List BackendEntry) (i : ℕ) : 0 ≤ sharesBefore c i :=
  sharesBefore_mono c (Nat.zero_le i)

/-- The total of the first loop. -/
theorem foldl_share (c : List BackendEntry) :
    c.foldl (fun total e => total + e.share) 0 = sharesBefore c c.length := by
  have hfold : ∀ (c : List BackendEntry) (total : Int),
      c.foldl (fun total e => total + e.share) total = total + sharesBefore c c.length := by
    intro c
    induction c with
    | nil => exact fun total => (Int.add_zero total).symm
    | cons e c ih =>
      intro total
      rw [List.foldl_cons, ih, List.length_cons, sharesBefore_cons_succ, Int.add_assoc]
  rw [hfold, Int.zero_add]

/-- The total of the shares is below the largest `long`. -/
theorem sharesBefore_lt {c : List BackendEntry} (hw : ∀ e ∈ c, e.weight < 2 ^ 31)
    (hlen : c.length ≤ 2 ^ 32) : sharesBefore c c.length < 2 ^ 63 := by
  have hsum : sharesBefore c c.length ≤ c.length * (2 ^ 31 - 1) := by
    clear hlen
    induction c with
    | nil => exact le_refl 0
    | cons e c ih =>
      obtain ⟨he, hw⟩ := List.forall_mem_cons.mp hw
      have hshare : e.share ≤ 2 ^ 31 - 1 := max_le (by decide) (Int.le_sub_one_of_lt he)
      have hrest := ih hw
      rw [List.length_cons, sharesBefore_cons_succ, Nat.cast_succ]
      omega
  omega

/-- The loop answers with the candidate at which it ends. -/
theorem weightedLoop_eq (pick : Int) (c : List BackendEntry) :
    weightedLoop pick c = (weightedStop pick c).map (idAt c) := by
  induction c generalizing pick with
  | nil => rfl
  | cons e c ih =>
    rw [weightedLoop, weightedStop]
    split
    · rfl
    · rw [ih, Option.map_map]
      rfl

/-- **The draws that end at a position**: those between the shares up to it and with it. -/
theorem weightedStop_eq_some_iff {pick : Int} (hpick : 0 ≤ pick) (c : List BackendEntry) (i : ℕ) :
    weightedStop pick c = some i ↔
      i < c.length ∧ sharesBefore c i ≤ pick ∧ pick < sharesBefore c (i + 1) := by
  induction c generalizing pick i with
  | nil => simp [weightedStop]
  | cons e c ih =>
    rw [weightedStop]
    cases i with
    | zero =>
      rw [sharesBefore_cons_succ, sharesBefore_zero, sharesBefore_zero, List.length_cons]
      split
      · next hlt => exact iff_of_true rfl ⟨by omega, hpick, by omega⟩
      · next hge =>
        refine iff_of_false (fun h => ?_) fun h => hge (by omega)
        obtain ⟨j, -, hj⟩ := Option.map_eq_some_iff.mp h
        exact absurd hj (Nat.succ_ne_zero j)
    | succ i =>
      rw [sharesBefore_cons_succ, sharesBefore_cons_succ, List.length_cons]
      split
      · next hlt =>
        -- the draw ends at the first position already
        have := sharesBefore_nonneg c i
        exact iff_of_false (by simp) fun h => by omega
      · next hge =>
        have hinj : (weightedStop (pick - e.share) c).map (· + 1) = some (i + 1) ↔
            weightedStop (pick - e.share) c = some i := by
          simp
        rw [hinj, ih (by omega)]
        omega

/-- Every draw below the total ends somewhere. -/
theorem exists_weightedStop {c : List BackendEntry} {pick : Int}
    (hlt : pick < sharesBefore c c.length) (hpick : 0 ≤ pick) :
    ∃ i < c.length, weightedStop pick c = some i := by
  induction c generalizing pick with
  | nil => exact absurd hlt (not_lt.mpr hpick)
  | cons e c ih =>
    rw [List.length_cons, sharesBefore_cons_succ] at hlt
    rw [weightedStop]
    split
    · exact ⟨0, Nat.succ_pos _, rfl⟩
    · have hrest : pick - e.share < sharesBefore c c.length := by omega
      obtain ⟨i, hi, hstop⟩ := ih hrest (by omega)
      exact ⟨i + 1, Nat.succ_lt_succ hi, by rw [hstop]; rfl⟩

/-- The draws that end at a position, as an interval. -/
theorem filter_weightedStop {c : List BackendEntry} {i : ℕ} (hi : i < c.length) :
    (Finset.range (sharesBefore c c.length).toNat).filter
        (fun draw : ℕ => weightedStop draw c = some i) =
      Finset.Ico (sharesBefore c i).toNat (sharesBefore c (i + 1)).toNat := by
  have hle : sharesBefore c (i + 1) ≤ sharesBefore c c.length := sharesBefore_mono c hi
  have hnonneg := sharesBefore_nonneg c i
  ext draw
  rw [Finset.mem_filter, Finset.mem_range, Finset.mem_Ico,
    weightedStop_eq_some_iff (Int.natCast_nonneg draw)]
  omega

/-- **The draws are divided by weight.** Whatever the weights are, every draw below the total ends
the loop at one of the candidates, whose id is the answer, and the number of draws that end at a
candidate is its share of the total. The total fits into a `long`, unless there are more candidates
than fit into memory. -/
theorem weighted_partition (c : List BackendEntry) (hc : c ≠ []) :
    (∀ draw : ℕ, (draw : Int) < c.foldl (fun total e => total + e.share) 0 →
      ∃ i, ∃ hi : i < c.length, weightedStop draw c = some i ∧
        weightedLoop draw c = some (c.get ⟨i, hi⟩).id ∧
        ∀ ctx counter, (weightedPolicy c ctx draw counter).1 = (c.get ⟨i, hi⟩).id) ∧
    (∀ i : Fin c.length,
      (((Finset.range (c.foldl (fun total e => total + e.share) (0 : Int)).toNat).filter
        (fun draw : ℕ => weightedStop draw c = some i.val)).card : Int) = max 1 (c.get i).weight ∧
      0 < max 1 (c.get i).weight) ∧
    ((∀ e ∈ c, e.weight < 2 ^ 31) → c.length ≤ 2 ^ 32 →
      c.foldl (fun total e => total + e.share) 0 < 2 ^ 63) := by
  rw [foldl_share]
  refine ⟨?_, ?_, fun hw hlen => sharesBefore_lt hw hlen⟩
  · intro draw hdraw
    obtain ⟨i, hi, hstop⟩ := exists_weightedStop hdraw (Int.natCast_nonneg draw)
    have hid : idAt c i = (c.get ⟨i, hi⟩).id := by
      rw [idAt, List.getElem?_eq_getElem hi]
      rfl
    have hloop : weightedLoop draw c = some (c.get ⟨i, hi⟩).id := by
      rw [weightedLoop_eq, hstop, Option.map_some, hid]
    refine ⟨i, hi, hstop, hloop, fun ctx counter => ?_⟩
    have hmod : (draw : Int) % sharesBefore c c.length = draw :=
      Int.emod_eq_of_lt (Int.natCast_nonneg draw) hdraw
    rw [weightedPolicy, if_neg hc]
    dsimp only
    rw [foldl_share, hmod, hloop, Option.getD_some]
  · intro i
    have hsucc : sharesBefore c (i + 1) = sharesBefore c i + (c.get i).share :=
      sharesBefore_succ (List.getElem?_eq_getElem i.isLt)
    have hnonneg := sharesBefore_nonneg c i
    have hshare := one_le_share (c.get i)
    refine ⟨?_, hshare⟩
    show _ = (c.get i).share
    rw [filter_weightedStop i.isLt, Nat.card_Ico]
    omega

/-- A negative weight counts as one, and so does a weight of zero. -/
theorem weighted_partition_small :
    ((Finset.range 5).filter fun draw : ℕ => weightedStop draw
      [.ofConfig { id := "a", group := "g", weight := 3 },
        .ofConfig { id := "b", group := "g", weight := 0 },
        .ofConfig { id := "b", group := "g", weight := 0xFFFFFFFF }] = some 0).card = 3 := by
  have h := ((weighted_partition [.ofConfig { id := "a", group := "g", weight := 3 },
    .ofConfig { id := "b", group := "g", weight := 0 },
    .ofConfig { id := "b", group := "g", weight := 0xFFFFFFFF }] (by simp)).2.1 0).1
  exact Int.natCast_inj.mp h

end DBMesh.Routing
