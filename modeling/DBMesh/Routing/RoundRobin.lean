import DBMesh.Lib.Rounds
import DBMesh.Routing.BackendSelector
import Mathlib.Data.Nat.ModEq

/-!
# Round robin under mixed traffic

`BackendSelector` keeps one instance of each policy, so one counter serves the round-robin calls of
every schema, group and role. A pair of a group and a role with `n` candidates is given the backend
at the counter modulo `n`, and the counter also advances with the calls of the other pairs in
between.

So a pair is served evenly exactly when no two calls of a round of it, which is `n` of its calls,
are a multiple of `n` served calls apart. In particular alternating reads and writes give every read
to the same one of two replicas.

## Main definitions

* `DBMesh.Routing.BackendSelector.chosen` — the backends that the calls of a pair were given
* `DBMesh.Routing.BackendSelector.places` — the calls of a pair among all calls that are served

## Main results

* `DBMesh.Routing.chosen_eq_map_places` — the backend at the place modulo the number of candidates
* `DBMesh.Routing.roundRobin_even_iff` — when all pairs are served evenly
-/

namespace DBMesh.Routing

structure SelectCall where
  schema : SchemaConfig
  role : BackendRole
  ctx : RoutingContext := {}
  draw : ℕ := 0

/-- The group and the role that a call asks for. -/
def SelectCall.pair (call : SelectCall) : String × BackendRole :=
  (call.schema.backendGroup, call.role)

namespace BackendSelector

/-- The calls one after the other, each with its answer. -/
def serve (reg : BackendRegistry) :
    BackendSelector → List SelectCall → List (SelectCall × Except RoutingError BackendID)
  | _, [] => []
  | s, call :: calls =>
    let r := s.select reg call.schema call.role call.ctx call.draw
    (call, r.1) :: serve reg r.2 calls

/-- The backends that the calls of a pair were given, in order. -/
def chosen (s : BackendSelector) (reg : BackendRegistry) (calls : List SelectCall)
    (pair : String × BackendRole) : List BackendID :=
  (s.serve reg calls).filterMap fun x => if x.1.pair = pair then x.2.toOption else none

/-- The calls for which there is a candidate; these are the calls that reach the policy. -/
def served (s : BackendSelector) (reg : BackendRegistry) (calls : List SelectCall) :
    List SelectCall :=
  calls.filter fun call => s.candidates reg call.pair.1 call.pair.2 ≠ []

/-- The calls of a pair, as places among all calls that are served, the first of which is at
`start`. -/
def places (s : BackendSelector) (reg : BackendRegistry) (calls : List SelectCall)
    (pair : String × BackendRole) (start : ℕ) : List ℕ :=
  (s.served reg calls).findIdxs (fun call => call.pair = pair) start

end BackendSelector

/-- No two places of one round are a multiple of the length of the round apart. -/
def Spaced (n : ℕ) (places : List ℕ) : Prop :=
  ∀ i j, i < j → i / n = j / n → ∀ t u, places[i]? = some t → places[j]? = some u → ¬ n ∣ u - t

instance (n : ℕ) (places : List ℕ) : Decidable (Spaced n places) :=
  decidable_of_iff (∀ j < places.length, ∀ i < j, i / n = j / n →
    ¬ n ∣ places.getD j 0 - places.getD i 0) <| by
    constructor
    · intro h i j hij hround t u ht hu
      have hj := (List.getElem?_eq_some_iff.mp hu).1
      have := h j hj i hij hround
      rwa [List.getD_eq_getElem?_getD, List.getD_eq_getElem?_getD, ht, hu] at this
    · intro h j hj i hij hround
      have hi : i < places.length := hij.trans hj
      have ht := List.getElem?_eq_getElem hi
      have hu := List.getElem?_eq_getElem hj
      rw [List.getD_eq_getElem?_getD, List.getD_eq_getElem?_getD, ht, hu]
      exact h i j hij hround _ _ ht hu

variable {s : BackendSelector} {reg : BackendRegistry} {call : SelectCall}
  {calls : List SelectCall} {pair : String × BackendRole}

/-! ### One call -/

theorem select_of_candidates_eq_nil (h : s.candidates reg call.pair.1 call.pair.2 = []) :
    s.select reg call.schema call.role call.ctx call.draw = (.error .noBackendAvailable, s) := by
  rw [BackendSelector.select]
  exact if_pos h

/-- A call that reaches the round-robin policy is given the backend at the counter, which it moves
on. -/
theorem select_roundRobin {c : List BackendEntry}
    (hc : s.candidates reg call.pair.1 call.pair.2 = c) (hne : c ≠ [])
    (hp : s.policyOf call.schema = .roundRobin) (hid : ∀ e ∈ c, e.id ≠ "") :
    s.select reg call.schema call.role call.ctx call.draw =
      (.ok (idAt c ((s.counters .roundRobin).toNat % c.length)), { s with
        counters := Function.update s.counters .roundRobin (s.counters .roundRobin + 1) }) := by
  have hlt : (s.counters .roundRobin).toNat % c.length < c.length :=
    Nat.mod_lt _ (List.length_pos_of_ne_nil hne)
  have hchosen : idAt c ((s.counters .roundRobin).toNat % c.length) ≠ "" := by
    rw [idAt, List.getElem?_eq_getElem hlt]
    exact hid _ (List.getElem_mem hlt)
  have hc' : s.candidates reg call.schema.backendGroup call.role = c := hc
  rw [BackendSelector.select, hp, hc', if_neg hne]
  simp only [createPolicy, roundRobinPolicy, if_neg hne, if_neg hchosen]

/-- The selector after a call that was served. -/
def BackendSelector.advance (s : BackendSelector) : BackendSelector :=
  { s with counters := Function.update s.counters .roundRobin (s.counters .roundRobin + 1) }

theorem toNat_counter_advance (h : (s.counters .roundRobin).toNat + 1 < 2 ^ 64) :
    (s.advance.counters .roundRobin).toNat = (s.counters .roundRobin).toNat + 1 := by
  rw [BackendSelector.advance]
  simp only [Function.update_self, UInt64.toNat_add, UInt64.toNat_one]
  exact Nat.mod_eq_of_lt h

/-! ### All calls -/

theorem chosen_cons (s : BackendSelector) (reg : BackendRegistry) (call : SelectCall)
    (calls : List SelectCall) (pair : String × BackendRole) :
    s.chosen reg (call :: calls) pair =
      (if call.pair = pair then
          (s.select reg call.schema call.role call.ctx call.draw).1.toOption.toList
        else []) ++
        (s.select reg call.schema call.role call.ctx call.draw).2.chosen reg calls pair := by
  rw [BackendSelector.chosen, BackendSelector.serve, List.filterMap_cons]
  split_ifs
  · cases (s.select reg call.schema call.role call.ctx call.draw).1 with
    | error _ => rfl
    | ok _ => rfl
  · rfl

theorem places_cons (s : BackendSelector) (reg : BackendRegistry) (call : SelectCall)
    (calls : List SelectCall) (pair : String × BackendRole) (start : ℕ) :
    s.places reg (call :: calls) pair start =
      if s.candidates reg call.pair.1 call.pair.2 = [] then s.places reg calls pair start
      else (if call.pair = pair then [start] else []) ++ s.places reg calls pair (start + 1) := by
  rw [BackendSelector.places, BackendSelector.served]
  split_ifs with hnil hpair
  · rw [List.filter_cons_of_neg (by simpa using hnil)]
    rfl
  · rw [List.filter_cons_of_pos (by simpa using hnil), List.findIdxs_cons,
      if_pos (decide_eq_true hpair)]
    rfl
  · rw [List.filter_cons_of_pos (by simpa using hnil), List.findIdxs_cons,
      if_neg (by simpa using hpair)]
    rfl

/-- The counter is the place of the next call that is served. -/
theorem chosen_eq_map_places {c : List BackendEntry}
    (hp : ∀ call ∈ calls, s.policyOf call.schema = .roundRobin)
    (hid : ∀ pair : String × BackendRole, ∀ e ∈ s.candidates reg pair.1 pair.2, e.id ≠ "")
    (hwrap : (s.counters .roundRobin).toNat + calls.length ≤ 2 ^ 64)
    (hc : s.candidates reg pair.1 pair.2 = c) :
    s.chosen reg calls pair =
      (s.places reg calls pair (s.counters .roundRobin).toNat).map fun t =>
        idAt c (t % c.length) := by
  induction calls generalizing s with
  | nil => rfl
  | cons call calls ih =>
    have hp' := fun x hx => hp x (List.mem_cons_of_mem _ hx)
    rw [List.length_cons] at hwrap
    rw [chosen_cons, places_cons]
    by_cases hnil : s.candidates reg call.pair.1 call.pair.2 = []
    · -- the call fails and leaves the counter alone
      rw [select_of_candidates_eq_nil hnil, if_pos hnil, ih hp' hid (by omega) hc]
      exact (congrArg (· ++ _) (ite_self _)).trans (List.nil_append _)
    · rw [select_roundRobin rfl hnil (hp call List.mem_cons_self) (hid call.pair), if_neg hnil,
        List.map_append]
      refine congrArg₂ (· ++ ·) ?_ ?_
      · by_cases hpair : call.pair = pair
        · rw [if_pos hpair, if_pos hpair, ← hc, hpair]
          rfl
        · rw [if_neg hpair, if_neg hpair]
          rfl
      · show s.advance.chosen reg calls pair = _
        cases calls with
        | nil => rfl
        | cons call' calls =>
          rw [List.length_cons] at hwrap
          have hnext := toNat_counter_advance (s := s) (by omega)
          have hrest := ih (s := s.advance) hp' hid (by rw [hnext, List.length_cons]; omega) hc
          rw [hrest, hnext]
          rfl

/-- The first answers are the answers to the first calls. -/
theorem isPrefix_serve_iff {answers : List (SelectCall × Except RoutingError BackendID)} :
    answers <+: s.serve reg calls ↔ ∃ calls', calls' <+: calls ∧ answers = s.serve reg calls' := by
  induction calls generalizing s answers with
  | nil =>
    rw [BackendSelector.serve, List.prefix_nil]
    constructor
    · rintro rfl
      exact ⟨[], List.prefix_refl _, rfl⟩
    · rintro ⟨calls', hcalls', rfl⟩
      rw [List.prefix_nil.mp hcalls']
      rfl
  | cons call calls ih =>
    rw [BackendSelector.serve, List.prefix_cons_iff]
    constructor
    · rintro (rfl | ⟨answers, rfl, h⟩)
      · exact ⟨[], List.nil_prefix, rfl⟩
      · obtain ⟨calls', hcalls', rfl⟩ := ih.mp h
        exact ⟨call :: calls', (List.prefix_cons_inj call).mpr hcalls', rfl⟩
    · rintro ⟨calls', hcalls', rfl⟩
      obtain rfl | ⟨calls', rfl, h⟩ := List.prefix_cons_iff.mp hcalls'
      · exact .inl rfl
      · exact .inr ⟨_, rfl, ih.mpr ⟨calls', h, rfl⟩⟩

theorem isPrefix_chosen_iff {ids : List BackendID} :
    ids <+: s.chosen reg calls pair ↔
      ∃ calls', calls' <+: calls ∧ ids = s.chosen reg calls' pair := by
  rw [BackendSelector.chosen, List.prefix_filterMap_iff]
  constructor
  · rintro ⟨answers, hanswers, rfl⟩
    obtain ⟨calls', hcalls', rfl⟩ := isPrefix_serve_iff.mp hanswers
    exact ⟨calls', hcalls', rfl⟩
  · rintro ⟨calls', hcalls', rfl⟩
    exact ⟨_, isPrefix_serve_iff.mpr ⟨calls', hcalls', rfl⟩, rfl⟩

/-! ### Evenness -/

theorem spaced_iff {n : ℕ} {places : List ℕ} (h : places.Pairwise (· < ·)) :
    Spaced n places ↔ Rounds.Distinct n (places.map (· % n)) := by
  have happart : ∀ i j t u : ℕ, i < j → places[i]? = some t → places[j]? = some u →
      (n ∣ u - t ↔ t % n = u % n) := by
    intro i j t u hij ht hu
    obtain ⟨hi, rfl⟩ := List.getElem?_eq_some_iff.mp ht
    obtain ⟨hj, rfl⟩ := List.getElem?_eq_some_iff.mp hu
    exact (Nat.modEq_iff_dvd' (List.pairwise_iff_getElem.mp h i j hi hj hij).le).symm
  constructor
  · intro hs i j hij hround a ha hb
    rw [List.getElem?_map] at ha hb
    obtain ⟨t, ht, rfl⟩ := Option.map_eq_some_iff.mp ha
    obtain ⟨u, hu, htu⟩ := Option.map_eq_some_iff.mp hb
    exact hs i j hij hround t u ht hu ((happart i j t u hij ht hu).mpr htu.symm)
  · intro hd i j hij hround t u ht hu hdvd
    refine hd i j hij hround (t % n) ?_ ?_
    · rw [List.getElem?_map, ht, Option.map_some]
    · rw [List.getElem?_map, hu, Option.map_some, (happart i j t u hij ht hu).mp hdvd]

theorem BackendRegistry.Inv.nodup_ids_candidates (I : reg.Inv) (s : BackendSelector)
    (group : String) (role : BackendRole) : ((s.candidates reg group role).map (·.id)).Nodup := by
  have hrole : ∀ role, ((s.usable reg group role).map (·.id)).Nodup := by
    intro role
    refine List.Nodup.sublist (List.Sublist.map _ List.filter_sublist) ?_
    rw [List.map_map]
    refine List.Nodup.map_on (fun r hr r' hr' heq => ?_) ((I.nodup_getGroup group).filter _)
    obtain ⟨id, hid, -, -⟩ := (I.mem_getGroupByRole group role).mp hr
    obtain ⟨id', hid', -, -⟩ := (I.mem_getGroupByRole group role).mp hr'
    have hsame : id = id' := by
      rw [← (I.keyed id r hid).1, ← (I.keyed id' r' hid').1]
      exact heq
    exact Option.some.inj (hid.symm.trans (hsame ▸ hid'))
  rw [BackendSelector.candidates]
  split
  · exact hrole _
  · exact hrole _

theorem idAt_inj {c : List BackendEntry} (hc : (c.map (·.id)).Nodup) {i j : ℕ} (hi : i < c.length)
    (hj : j < c.length) (h : idAt c i = idAt c j) : i = j := by
  rw [idAt, idAt, List.getElem?_eq_getElem hi, List.getElem?_eq_getElem hj] at h
  have hi' : i < (c.map (·.id)).length := by rwa [List.length_map]
  have hj' : j < (c.map (·.id)).length := by rwa [List.length_map]
  have heq : (c.map (·.id))[i] = (c.map (·.id))[j] := by
    rw [List.getElem_map, List.getElem_map]
    exact h
  exact hc.getElem_inj_iff.mp heq

theorem idAt_mem {c : List BackendEntry} {i : ℕ} (hi : i < c.length) :
    idAt c i ∈ c.map (·.id) := by
  rw [idAt, List.getElem?_eq_getElem hi]
  exact List.mem_map_of_mem (List.getElem_mem hi)

/-- The ids a pair is given at its places are even all along exactly when the places are spaced. -/
theorem forall_even_map_idAt_iff {c : List BackendEntry} (hc : (c.map (·.id)).Nodup)
    {places : List ℕ} (hplaces : places.Pairwise (· < ·)) (hnil : c = [] → places = []) :
    (∀ ids, ids <+: places.map (fun t => idAt c (t % c.length)) →
      Rounds.Even (c.map (·.id)) ids) ↔ Spaced c.length places := by
  have hlt : ∀ t ∈ places, t % c.length < c.length := by
    intro t ht
    refine Nat.mod_lt _ (List.length_pos_of_ne_nil fun h => ?_)
    rw [hnil h] at ht
    exact List.not_mem_nil ht
  have hmap : places.map (fun t => idAt c (t % c.length)) =
      (places.map (· % c.length)).map (idAt c) := by
    rw [List.map_map]
    rfl
  rw [spaced_iff hplaces, Rounds.forall_even_iff hc, hmap, List.length_map, Rounds.distinct_map]
  · intro x hx y hy hxy
    obtain ⟨t, ht, rfl⟩ := List.mem_map.mp hx
    obtain ⟨u, hu, rfl⟩ := List.mem_map.mp hy
    exact idAt_inj hc (hlt t ht) (hlt u hu) hxy
  · intro id hid
    obtain ⟨t, ht, rfl⟩ := List.mem_map.mp hid
    exact idAt_mem (hlt t ht)

/-- A pair without candidates is not served. -/
theorem places_eq_nil (h : s.candidates reg pair.1 pair.2 = []) (start : ℕ) :
    s.places reg calls pair start = [] := by
  rw [BackendSelector.places, List.findIdxs_eq_nil_iff]
  intro call hcall
  obtain ⟨-, hne⟩ := List.mem_filter.mp hcall
  refine decide_eq_false fun heq => ?_
  rw [heq] at hne
  exact of_decide_eq_true hne h

theorem id_ne_empty_of_candidates (I : reg.Inv) (hid : reg.entry "" = none) {group : String}
    {role : BackendRole} {e : BackendEntry} (he : e ∈ s.candidates reg group role) : e.id ≠ "" := by
  intro hempty
  have hentry : reg.entry e.id = some e := ((I.mem_candidates s).mp he).entry
  rw [hempty, hid] at hentry
  exact absurd hentry (by simp)

/-- **When round robin is even.** Over the calls that a new selector serves from an unchanging
registry, before its counter wraps, no candidate of a pair is ever ahead of another by more than one
exactly when no two calls of a round of the pair are a multiple of the number of its candidates
apart among all served calls. -/
theorem roundRobin_even_iff (ops : List RegistryOp) (reg : BackendRegistry)
    (hrun : Transition.run BackendRegistry.step {} ops = some reg) (hid : reg.entry "" = none)
    (config : RoutingConfig) (calls : List SelectCall)
    (hp : ∀ call ∈ calls, call.schema.routingPolicy.getD config.defaultPolicy = .roundRobin)
    (hwrap : calls.length ≤ 2 ^ 64) (pair : String × BackendRole) :
    let s : BackendSelector := { defaults := config }
    (∀ calls', calls' <+: calls →
      Rounds.Even ((s.candidates reg pair.1 pair.2).map (·.id)) (s.chosen reg calls' pair)) ↔
    Spaced (s.candidates reg pair.1 pair.2).length (s.places reg calls pair 0) := by
  intro s
  have I := BackendRegistry.inv_run hrun
  have hplaces : (s.places reg calls pair 0).Pairwise (· < ·) := List.pairwise_findIdxs
  rw [← forall_even_map_idAt_iff (I.nodup_ids_candidates s _ _) hplaces fun h => places_eq_nil h 0]
  have hchosen := chosen_eq_map_places (s := s) (c := s.candidates reg pair.1 pair.2) hp
    (fun _ _ he => id_ne_empty_of_candidates I hid he)
    (by rw [show (s.counters .roundRobin).toNat = 0 from rfl]; omega) rfl
  rw [show (s.counters .roundRobin).toNat = 0 from rfl] at hchosen
  rw [← hchosen]
  constructor
  · rintro h ids hids
    obtain ⟨calls', hcalls', rfl⟩ := isPrefix_chosen_iff.mp hids
    exact h calls' hcalls'
  · intro h calls' hcalls'
    exact h _ (isPrefix_chosen_iff.mpr ⟨calls', hcalls', rfl⟩)

/-- A group of a primary and two replicas. -/
def threeBackends : List RegistryOp :=
  [.load [{ id := "p", group := "g" }, { id := "r₁", group := "g", role := .replica },
    { id := "r₂", group := "g", role := .replica }] ["p", "r₁", "r₂"]]

/-- A call for a role of that group. -/
def callFor (role : BackendRole) : SelectCall where
  schema := { name := [], backendGroup := "g" }
  role := role

/-- Reads that come in pairs are even. -/
theorem roundRobin_even_pairs : ∃ reg,
    Transition.run BackendRegistry.step {} threeBackends = some reg ∧
    let s : BackendSelector := {}
    let calls := [BackendRole.replica, .replica, .primary, .replica, .replica].map callFor
    ∀ calls', calls' <+: calls → Rounds.Even ((s.candidates reg "g" .replica).map (·.id))
      (s.chosen reg calls' ("g", .replica)) := by
  refine ⟨_, rfl, ?_⟩
  exact (roundRobin_even_iff threeBackends _ rfl (by decide +kernel) {}
    ([BackendRole.replica, .replica, .primary, .replica, .replica].map callFor)
    (by decide +kernel) (by decide) ("g", .replica)).mpr (by decide +kernel)

/-- Reads and writes that take turns send every read to the same one of the two replicas. -/
theorem roundRobin_uneven_turns : ∃ reg,
    Transition.run BackendRegistry.step {} threeBackends = some reg ∧
    let s : BackendSelector := {}
    let calls := [BackendRole.replica, .primary, .replica, .primary].map callFor
    (s.candidates reg "g" .replica).map (·.id) = ["r₁", "r₂"] ∧
    s.chosen reg calls ("g", .replica) = ["r₁", "r₁"] ∧
    ¬ Rounds.Even ((s.candidates reg "g" .replica).map (·.id))
      (s.chosen reg calls ("g", .replica)) := by
  refine ⟨_, rfl, by decide +kernel, by decide +kernel, by decide +kernel⟩

end DBMesh.Routing
