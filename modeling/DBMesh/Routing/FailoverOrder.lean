import DBMesh.Core.Application

/-!
# The order of failover

The failover policy takes the first of its candidates, and relies on them to arrive in the order of
the configuration. But `load` puts the backends into a map and fills the index of the groups in the
order in which that map iterates, so the candidates of a group arrive in that order. The policy
falls back in the order of the configuration exactly if the map happens to iterate over the backends
of the group and the role in that order.

## Main definitions

* `DBMesh.Routing.Loaded` — the registry after `load` and updates of states
* `DBMesh.Routing.configuredIds` — the ids of a group and a role in configured order
* `DBMesh.Routing.TakesEarliest` — the selector names the usable backend configured earliest

## Main results

* `DBMesh.Routing.Loaded.select_failover` — what failover selects
* `DBMesh.Routing.failover_in_order_iff` — when failover follows the configuration
-/

namespace DBMesh.Routing

open Application

/-! ### After loading -/

/-- The registry has loaded the backends, whose map iterates in the order, and their states have
been updated to `st` since. -/
structure Loaded (bs : List BackendConfig) (order : List BackendID)
    (st : BackendID → BackendState) (reg : BackendRegistry) : Prop where
  inv : reg.Inv
  indexed : ∀ g, reg.getGroup g =
    (order.filterMap reg.current.byId.lookup).filter fun r => (reg.heap r).group = g
  entry : ∀ id, reg.entry id =
    (bs.find? fun b => b.id = id).map fun b => { BackendEntry.ofConfig b with state := st id }

variable {bs : List BackendConfig} {order : List BackendID} {st : BackendID → BackendState}
  {reg reg' : BackendRegistry} {group : String} {role : BackendRole} {id : BackendID}

theorem loaded_load (reg : BackendRegistry)
    (ho : Iterates order (reg.loadLoop ∅ bs).2) :
    Loaded bs order (fun _ => .healthy) (reg.load bs order) where
  inv := BackendRegistry.inv_store (BackendRegistry.keyed_loadLoop bs
    (BackendRegistry.keyed_empty _ _)) ho
  indexed g := (lookup_foldl_pushGroup _ _ ∅ g).trans (List.nil_append _)
  entry id := by
    refine (entry_loadLoop bs (BackendRegistry.keyed_empty reg.heap reg.next) id).trans ?_
    rw [AList.lookup_empty, Option.map_none, Option.none_or]
    rfl

theorem Loaded.updateState (h : Loaded bs order st reg) (id : BackendID) (state : BackendState) :
    Loaded bs order (Function.update st id state) (reg.updateState id state) := by
  have hstep : reg.step (.updateState id state) = some (reg.updateState id state) := rfl
  have hcurrent : (reg.updateState id state).current = reg.current := by
    rw [BackendRegistry.updateState, BackendRegistry.bump]
    split
    all_goals exact BackendRegistry.current_modify _
  have hkeeps : BackendRegistry.KeepsIdentity fun e => { e with state := state } :=
    fun _ => ⟨rfl, rfl⟩
  have hgroup : ∀ r, ((reg.updateState id state).heap r).group = (reg.heap r).group := by
    intro r
    rw [BackendRegistry.updateState, BackendRegistry.bump]
    split
    all_goals exact (BackendRegistry.heap_modify hkeeps r).2
  refine ⟨h.inv.step hstep, fun g => ?_, fun id' => ?_⟩
  · rw [BackendRegistry.getGroup, hcurrent]
    simp only [hgroup]
    exact h.indexed g
  · by_cases hid : id' = id
    · subst hid
      rw [BackendRegistry.updateState, entry_bump, entry_modify_self, h.entry, Option.map_map]
      simp only [Function.update_self]
      rfl
    · rw [h.inv.entry_step hstep ⟨by simp [RegistryOp.target],
        by simpa [RegistryOp.target] using Ne.symm hid⟩, h.entry, Function.update_of_ne hid]

/-- The states after some updates. -/
def statesAfter (us : List (BackendID × BackendState)) (st : BackendID → BackendState) :
    BackendID → BackendState :=
  us.foldl (fun st u => Function.update st u.1 u.2) st

theorem Loaded.run (us : List (BackendID × BackendState)) (h : Loaded bs order st reg)
    (hrun : Transition.run BackendRegistry.step reg (us.map fun u => .updateState u.1 u.2) =
      some reg') : Loaded bs order (statesAfter us st) reg' := by
  induction us generalizing st reg with
  | nil =>
    obtain rfl := Option.some.inj hrun
    exact h
  | cons u us ih =>
    rw [List.map_cons, Transition.run_cons_eq_some] at hrun
    obtain ⟨reg₁, hstep, hrun⟩ := hrun
    obtain rfl := Option.some.inj hstep
    exact ih (h.updateState u.1 u.2) hrun

theorem loaded_run {reg₀ : BackendRegistry} {us : List (BackendID × BackendState)}
    (hrun : Transition.run BackendRegistry.step reg₀
      (.load bs order :: us.map fun u => .updateState u.1 u.2) = some reg) :
    Loaded bs order (statesAfter us fun _ => .healthy) reg := by
  obtain ⟨reg₁, hstep, hrun⟩ := Transition.run_cons_eq_some.mp hrun
  obtain ⟨ho, hload⟩ := Option.ite_none_right_eq_some.mp hstep
  obtain rfl := Option.some.inj hload
  exact (loaded_load reg₀ ho).run us hrun

/-- The states of some backends set to failed. -/
theorem statesAfter_failed (ids : List BackendID) (st : BackendID → BackendState)
    (id : BackendID) :
    statesAfter (ids.map fun i => (i, .failed)) st id = if id ∈ ids then .failed else st id := by
  induction ids generalizing st with
  | nil => rfl
  | cons i ids ih =>
    show statesAfter (ids.map fun i => (i, .failed)) (Function.update st i .failed) id = _
    rw [ih]
    by_cases hid : id = i
    · subst hid
      simp
    · simp [hid]

/-! ### What failover selects -/

/-- The ids of the backends of a group and a role, in configured order. -/
def configuredIds (bs : List BackendConfig) (group : String) (role : BackendRole) :
    List BackendID :=
  (bs.filter fun b => b.group = group ∧ b.role = role).map (·.id)

theorem mem_configuredIds (hnd : (bs.map (·.id)).Nodup) :
    id ∈ configuredIds bs group role ↔
      ∃ b, (bs.find? fun b => b.id = id) = some b ∧ b.group = group ∧ b.role = role := by
  rw [configuredIds, List.mem_map]
  constructor
  · rintro ⟨b, hb, rfl⟩
    obtain ⟨hb, hfits⟩ := List.mem_filter.mp hb
    exact ⟨b, Emplace.find?_eq_of_nodup hnd hb, by simpa using hfits⟩
  · rintro ⟨b, hfind, hfits⟩
    refine ⟨b, List.mem_filter.mpr ⟨List.mem_of_find?_eq_some hfind, by simpa using hfits⟩, ?_⟩
    simpa using List.find?_some hfind

/-- A fresh entry has no lag, so its state decides. -/
theorem usable_iff (config : RoutingConfig) {e : BackendEntry} (hlag : e.replicationLagMs = 0)
    (role : BackendRole) : Usable config e role ↔ usableForRole e.state role = true := by
  cases role with
  | primary => simp [Usable, usableForRole]
  | replica => simp [Usable, usableForRole, hlag]

/-- The backend of an id is usable for a role of its group. -/
theorem Loaded.offers_iff (h : Loaded bs order st reg) (hnd : (bs.map (·.id)).Nodup)
    (config : RoutingConfig) :
    (∃ e, Offers config reg group role id e) ↔
      id ∈ configuredIds bs group role ∧ usableForRole (st id) role = true := by
  rw [mem_configuredIds hnd]
  constructor
  · rintro ⟨e, hentry, hgroup, hrole, husable⟩
    rw [h.entry] at hentry
    obtain ⟨b, hb, rfl⟩ := Option.map_eq_some_iff.mp hentry
    exact ⟨⟨b, hb, hgroup, hrole⟩, (usable_iff config (by rfl) role).mp husable⟩
  · rintro ⟨⟨b, hb, hgroup, hrole⟩, husable⟩
    refine ⟨{ BackendEntry.ofConfig b with state := st id }, ?_, hgroup, hrole, ?_⟩
    · rw [h.entry, hb]
      rfl
    · exact (usable_iff config (by rfl) role).mpr husable

/-- The usable entries of a group and a role, in the order of the map. -/
theorem Loaded.usable_eq (h : Loaded bs order st reg) (s : BackendSelector) :
    s.usable reg group role =
      filter ((order.filterMap reg.entry).filter fun e => e.group = group && e.role = role) role
        s.defaults.maxReplicaLagMs s.defaults.replicationAware := by
  have hmap : (order.filterMap reg.current.byId.lookup).map reg.heap =
      order.filterMap reg.entry := List.map_filterMap
  have hswap : (fun r => decide ((reg.heap r).role = role) && decide ((reg.heap r).group = group)) =
      (fun e : BackendEntry => decide (e.group = group) && decide (e.role = role)) ∘ reg.heap := by
    funext r
    exact Bool.and_comm _ _
  rw [BackendSelector.usable, BackendRegistry.getGroupByRole, h.indexed, List.filter_filter,
    hswap, ← hmap, List.filter_map]

/-- Whether the backend of an id is usable for the role in its group. -/
def offered (bs : List BackendConfig) (group : String) (role : BackendRole)
    (st : BackendID → BackendState) (id : BackendID) : Bool :=
  decide (id ∈ configuredIds bs group role) && usableForRole (st id) role

theorem Loaded.head?_usable (h : Loaded bs order st reg) (hnd : (bs.map (·.id)).Nodup)
    (s : BackendSelector) (group : String) (role : BackendRole) :
    (s.usable reg group role).head? =
      (order.find? (offered bs group role st)).bind reg.entry := by
  have hoffered : (fun id => (reg.entry id).any fun e =>
      decide ((decide (e.group = group) && decide (e.role = role)) = true ∧
        (usableForRole e.state role && !(role = .replica && s.defaults.replicationAware &&
          s.defaults.maxReplicaLagMs < e.replicationLagMs)) = true)) =
      offered bs group role st := by
    funext id
    rw [Bool.eq_iff_iff, offered, Bool.and_eq_true, decide_eq_true_iff,
      ← h.offers_iff hnd s.defaults, Option.any_eq_true]
    refine exists_congr fun e => ?_
    rw [decide_eq_true_iff, passes_iff, Bool.and_eq_true, decide_eq_true_iff, decide_eq_true_iff]
    exact ⟨fun ⟨he, ⟨hg, hr⟩, hu⟩ => ⟨he, hg, hr, hu⟩,
      fun he => ⟨he.entry, ⟨he.inGroup, he.hasRole⟩, he.usable⟩⟩
  rw [h.usable_eq, filter, List.head?_filter, List.find?_filter, List.find?_filterMap, hoffered]

/-- A usable candidate in front is taken. -/
theorem failoverPolicy_cons {e : BackendEntry} (c : List BackendEntry) (ctx : RoutingContext)
    (draw : ℕ) (counter : UInt64) (h : usableForRole e.state role = true) :
    (failoverPolicy (e :: c) ctx draw counter).1 = e.id := by
  have hstate : e.state ≠ .failed ∧ e.state ≠ .draining := by
    constructor
    all_goals
      intro hst
      rw [hst] at h
      cases role with
      | primary => exact absurd h (by decide)
      | replica => exact absurd h (by decide)
  rw [failoverPolicy, if_neg (List.cons_ne_nil _ _), List.find?_cons_of_pos (by simpa using hstate)]

/-- **What failover selects**: the first backend in the order of the map that is usable for the role
in its group. -/
theorem Loaded.select_failover (h : Loaded bs order st reg) (hnd : (bs.map (·.id)).Nodup)
    {s : BackendSelector} {schema : SchemaConfig} (hpolicy : s.policyOf schema = .failover)
    (ctx : RoutingContext) (draw : ℕ)
    (hfirst : order.find? (offered bs schema.backendGroup role st) = some id) :
    (s.select reg schema role ctx draw).1 =
      if id = "" then .error .noBackendAvailable else .ok id := by
  have hoffer := List.find?_some hfirst
  rw [offered, Bool.and_eq_true, decide_eq_true_iff, ← h.offers_iff hnd s.defaults] at hoffer
  obtain ⟨e, hoffer⟩ := hoffer
  obtain rfl : e.id = id := h.inv.id_of_entry hoffer.entry
  have hhead := h.head?_usable hnd s schema.backendGroup role
  rw [hfirst, Option.bind_some, hoffer.entry] at hhead
  obtain ⟨c, hc⟩ : ∃ c, s.usable reg schema.backendGroup role = e :: c :=
    ⟨_, List.eq_cons_of_mem_head? hhead⟩
  have hcand : s.candidates reg schema.backendGroup role = e :: c := by
    rw [BackendSelector.candidates, hc, if_neg (fun hnil => List.cons_ne_nil _ _ hnil.1)]
  have hstate : usableForRole e.state role = true := by
    have hpass := passes_iff.mpr hoffer.usable
    exact (Bool.and_eq_true_iff.mp hpass).1
  have hchosen := failoverPolicy_cons c ctx draw (s.counters (s.policyOf schema)) hstate
  rw [BackendSelector.select, hcand, if_neg (List.cons_ne_nil _ _), hpolicy]
  rw [hpolicy] at hchosen
  dsimp only [createPolicy]
  rw [hchosen]
  split_ifs <;> rfl

/-! ### The configured order -/

/-- The selector names, of the backends that are usable for the role in the group of the schema, the
one that is configured earliest. -/
def TakesEarliest (bs : List BackendConfig) (reg : BackendRegistry) (s : BackendSelector)
    (schema : SchemaConfig) (role : BackendRole) (ctx : RoutingContext) (draw : ℕ) : Prop :=
  ∀ pre b post, bs = pre ++ b :: post →
    (∃ e, Offers s.defaults reg schema.backendGroup role b.id e) →
    (∀ b' ∈ pre, ∀ e, ¬ Offers s.defaults reg schema.backendGroup role b'.id e) →
    (s.select reg schema role ctx draw).1 = .ok b.id

/-- From any registry, after `load` and any updates of states, with any schema of the group that
uses failover. -/
def FailoverInOrder (reg₀ : BackendRegistry) (bs : List BackendConfig) (order : List BackendID)
    (group : String) (role : BackendRole) : Prop :=
  ∀ (us : List (BackendID × BackendState)) (reg : BackendRegistry),
    Transition.run BackendRegistry.step reg₀
      (.load bs order :: us.map fun u => .updateState u.1 u.2) = some reg →
    ∀ (s : BackendSelector) (schema : SchemaConfig) (ctx : RoutingContext) (draw : ℕ),
      schema.backendGroup = group → s.policyOf schema = .failover →
      TakesEarliest bs reg s schema role ctx draw

/-- Two orders of the same items agree if they agree on the first item outside every beginning. -/
theorem eq_of_find?_notMem {α : Type*} [DecidableEq α] {l m : List α} (hl : l.Nodup)
    (hperm : m.Perm l)
    (h : ∀ pre x post, l = pre ++ x :: post → m.find? (fun y => decide (y ∉ pre)) = some x) :
    m = l := by
  induction l generalizing m with
  | nil => exact hperm.eq_nil
  | cons x l ih =>
    have hhead := h [] x l rfl
    cases m with
    | nil => exact absurd hhead (by simp)
    | cons y m =>
      obtain rfl : y = x := by simpa using hhead
      have hperm' := hperm.cons_inv
      refine congrArg (y :: ·) (ih (List.nodup_cons.mp hl).2 hperm' fun pre z post hsplit => ?_)
      have hskip := h (y :: pre) z post (by rw [hsplit]; rfl)
      rw [List.find?_cons_of_neg (by simp)] at hskip
      rw [← hskip, ← List.head?_filter, ← List.head?_filter]
      refine congrArg List.head? (List.filter_congr fun a ha => ?_)
      have hne : a ≠ y := by
        rintro rfl
        exact (List.nodup_cons.mp hl).1 (hperm'.mem_iff.mp ha)
      simp [hne]

theorem length_le_one_of_reverse_eq {α : Type*} {l : List α} (hl : l.Nodup)
    (h : l.reverse = l) : l.length ≤ 1 := by
  have hends : l.getLast? = l.head? := by rw [← List.head?_reverse, h]
  cases l with
  | nil => exact Nat.zero_le 1
  | cons x l =>
    cases l with
    | nil => exact Nat.le_refl 1
    | cons y l =>
      rw [List.getLast?_cons_cons, List.head?_cons] at hends
      exact absurd (List.mem_of_getLast? hends) (List.nodup_cons.mp hl).1

theorem find?_offered (l : List BackendID) :
    l.find? (offered bs group role st) =
      (l.filter fun id => id ∈ configuredIds bs group role).find? fun id =>
        usableForRole (st id) role := by
  rw [List.find?_filter]
  congr 1
  funext id
  simp [offered]

/-- The map has the ids of the configuration as its keys. -/
theorem perm_keys_load (reg₀ : BackendRegistry) (hnd : (bs.map (·.id)).Nodup) :
    (reg₀.loadLoop ∅ bs).2.keys.Perm (bs.map (·.id)) := by
  refine (List.perm_ext_iff_of_nodup (reg₀.loadLoop ∅ bs).2.keys_nodup hnd).mpr fun id => ?_
  have hentry := entry_loadLoop bs (BackendRegistry.keyed_empty reg₀.heap reg₀.next) id
  rw [AList.lookup_empty, Option.map_none, Option.none_or] at hentry
  have hsome := congrArg Option.isSome hentry
  rw [Option.isSome_map, Option.isSome_map] at hsome
  rw [← AList.mem_keys, ← AList.lookup_isSome, hsome, List.find?_isSome, List.mem_map]
  simp

/-- Restricted to a group and a role, the order of the map is some order of the configured ids. -/
theorem perm_configuredIds (hnd : (bs.map (·.id)).Nodup) (ho : order.Perm (bs.map (·.id)))
    (group : String) (role : BackendRole) :
    (order.filter fun id => id ∈ configuredIds bs group role).Perm
      (configuredIds bs group role) := by
  have hsub : configuredIds bs group role |>.Sublist (bs.map (·.id)) :=
    List.filter_sublist.map _
  refine (List.perm_ext_iff_of_nodup ((ho.nodup_iff.mpr hnd).filter _) (hnd.sublist hsub)).mpr
    fun id => ?_
  rw [List.mem_filter, decide_eq_true_iff, ho.mem_iff]
  exact and_iff_right_of_imp fun hid => hsub.subset hid

/-- The configured ids are those that the filter finds in the configured list. -/
theorem filter_configuredIds (hnd : (bs.map (·.id)).Nodup) :
    ((bs.map (·.id)).filter fun id => id ∈ configuredIds bs group role) =
      configuredIds bs group role := by
  rw [List.filter_map, configuredIds]
  congr 1
  refine List.filter_congr fun b hb => ?_
  show decide (b.id ∈ configuredIds bs group role) = _
  rw [decide_eq_decide, mem_configuredIds hnd, Emplace.find?_eq_of_nodup hnd hb]
  simp

/-- The earliest configured backend that is usable. -/
theorem Loaded.takesEarliest_iff (h : Loaded bs order st reg) (hnd : (bs.map (·.id)).Nodup)
    {s : BackendSelector} {schema : SchemaConfig} {ctx : RoutingContext} {draw : ℕ} :
    TakesEarliest bs reg s schema role ctx draw ↔
      ∀ x, (configuredIds bs schema.backendGroup role).find?
        (fun id => usableForRole (st id) role) = some x →
          (s.select reg schema role ctx draw).1 = .ok x := by
  have hoffered : ∀ id, (∃ e, Offers s.defaults reg schema.backendGroup role id e) ↔
      offered bs schema.backendGroup role st id = true := by
    intro id
    rw [h.offers_iff hnd, offered, Bool.and_eq_true, decide_eq_true_iff]
  rw [← filter_configuredIds hnd, ← find?_offered, List.find?_map]
  constructor
  · intro htakes x hx
    obtain ⟨b, hb, rfl⟩ := Option.map_eq_some_iff.mp hx
    obtain ⟨hoffer, pre, post, hsplit, hpre⟩ := List.find?_eq_some_iff_append.mp hb
    refine htakes pre b post hsplit ((hoffered b.id).mpr hoffer) fun b' hb' e he => ?_
    have := hpre b' hb'
    rw [Function.comp_apply, (hoffered b'.id).mp ⟨e, he⟩] at this
    exact absurd this (by decide)
  · intro hfind pre b post hsplit hoffer hpre
    refine hfind b.id (Option.map_eq_some_iff.mpr ⟨b, ?_, rfl⟩)
    refine List.find?_eq_some_iff_append.mpr
      ⟨(hoffered b.id).mp hoffer, pre, post, hsplit, fun b' hb' => ?_⟩
    rw [Bool.not_eq_true', Bool.eq_false_iff, ne_eq, Function.comp_apply, ← hoffered]
    exact fun ⟨e, he⟩ => hpre b' hb' e he

/-- Updates of states always succeed. -/
theorem exists_run_updateState (us : List (BackendID × BackendState)) (reg : BackendRegistry) :
    ∃ reg', Transition.run BackendRegistry.step reg (us.map fun u => .updateState u.1 u.2) =
      some reg' := by
  induction us generalizing reg with
  | nil => exact ⟨reg, rfl⟩
  | cons u us ih => exact ih (reg.updateState u.1 u.2)

theorem nodup_configuredIds (hnd : (bs.map (·.id)).Nodup) (group : String) (role : BackendRole) :
    (configuredIds bs group role).Nodup := by
  rw [← filter_configuredIds hnd]
  exact hnd.filter _

/-- With some backends failed and the others healthy, those others are usable. -/
theorem usableForRole_failed (pre : List BackendID) (role : BackendRole) :
    (fun id => usableForRole (statesAfter (pre.map fun i => (i, .failed))
      (fun _ => .healthy) id) role) = fun id => decide (id ∉ pre) := by
  funext id
  rw [statesAfter_failed]
  cases role with
  | primary => by_cases hid : id ∈ pre <;> simp [usableForRole, hid]
  | replica => by_cases hid : id ∈ pre <;> simp [usableForRole, hid]

/-- If failover follows the configuration, then with the ids before one of them failed that one is
the first in the order of the map. -/
theorem FailoverInOrder.find?_eq {reg₀ : BackendRegistry} (hnd : (bs.map (·.id)).Nodup)
    (ho : Iterates order (reg₀.loadLoop ∅ bs).2) (h : FailoverInOrder reg₀ bs order group role)
    {pre post : List BackendID} {x : BackendID}
    (hsplit : configuredIds bs group role = pre ++ x :: post) :
    (order.filter fun id => id ∈ configuredIds bs group role).find?
      (fun y => decide (y ∉ pre)) = some x ∧ x ≠ "" := by
  have hperm := perm_configuredIds hnd (ho.trans (perm_keys_load reg₀ hnd)) group role
  obtain ⟨reg, hus⟩ := exists_run_updateState (pre.map fun i => (i, .failed)) (reg₀.load bs order)
  have hload : reg₀.step (.load bs order) = some (reg₀.load bs order) := if_pos ho
  have hrun := Transition.run_cons_eq_some.mpr ⟨_, hload, hus⟩
  have hloaded := loaded_run hrun
  have hx : x ∉ pre := by
    have hids := nodup_configuredIds hnd group role
    rw [hsplit] at hids
    exact fun hmem => (List.nodup_append.mp hids).2.2 x hmem x List.mem_cons_self rfl
  have hearliest : (configuredIds bs group role).find? (fun y => decide (y ∉ pre)) = some x := by
    refine List.find?_eq_some_iff_append.mpr ⟨by simpa using hx, pre, post, hsplit, ?_⟩
    simp
  rw [← usableForRole_failed pre role] at hearliest ⊢
  have hok := (hloaded.takesEarliest_iff hnd).mp (h _ reg hrun {}
    { name := [], backendGroup := group, routingPolicy := some .failover } {} 0 rfl rfl) x hearliest
  obtain ⟨y, hy⟩ : ∃ y, (order.filter fun id => id ∈ configuredIds bs group role).find?
      (fun id => usableForRole (statesAfter (pre.map fun i => (i, .failed))
        (fun _ => .healthy) id) role) = some y := by
    have husable := List.find?_some hearliest
    refine Option.isSome_iff_exists.mp (List.find?_isSome.mpr ⟨x, ?_, husable⟩)
    exact hperm.mem_iff.mpr (by rw [hsplit]; simp)
  rw [hloaded.select_failover hnd rfl {} 0 ((find?_offered order).trans hy)] at hok
  split at hok
  · exact absurd hok nofun
  · next hne =>
    obtain rfl := Except.ok.inj hok
    exact ⟨hy, hne⟩

/-- **Failover in order**, for one order of the map. -/
theorem failoverInOrder_iff {reg₀ : BackendRegistry} (hnd : (bs.map (·.id)).Nodup)
    (ho : Iterates order (reg₀.loadLoop ∅ bs).2) :
    FailoverInOrder reg₀ bs order group role ↔
      (order.filter fun id => id ∈ configuredIds bs group role) = configuredIds bs group role ∧
        "" ∉ configuredIds bs group role := by
  constructor
  · intro h
    have hperm := perm_configuredIds hnd (ho.trans (perm_keys_load reg₀ hnd)) group role
    refine ⟨eq_of_find?_notMem (nodup_configuredIds hnd group role) hperm
      fun pre x post hsplit => (h.find?_eq hnd ho hsplit).1, fun hempty => ?_⟩
    obtain ⟨pre, post, hsplit⟩ := List.append_of_mem hempty
    exact (h.find?_eq hnd ho hsplit).2 rfl
  · rintro ⟨horder, hempty⟩ us reg hrun s schema ctx draw rfl hpolicy
    have hloaded := loaded_run hrun
    refine (hloaded.takesEarliest_iff hnd).mpr fun x hx => ?_
    have hne : x ≠ "" := by
      rintro rfl
      exact hempty (List.mem_of_find?_eq_some hx)
    rw [← horder, ← find?_offered] at hx
    rw [hloaded.select_failover hnd hpolicy ctx draw hx, if_neg hne]

/-- **When failover follows the configuration.** Whatever was registered before and whatever states
are updated after, a selector with the failover policy names the usable backend that is configured
earliest in its group and role exactly if the map iterates over their ids in configured order and
none of them is empty. So it does in every order that the map may use exactly if there is at most
one such backend. -/
theorem failover_in_order_iff (reg₀ : BackendRegistry) (bs : List BackendConfig)
    (hnd : (bs.map (·.id)).Nodup) (group : String) (role : BackendRole) :
    (∀ order, Iterates order (reg₀.loadLoop ∅ bs).2 →
      (FailoverInOrder reg₀ bs order group role ↔
        (order.filter fun id => id ∈ configuredIds bs group role) = configuredIds bs group role ∧
          "" ∉ configuredIds bs group role)) ∧
    ((∀ order, Iterates order (reg₀.loadLoop ∅ bs).2 →
        FailoverInOrder reg₀ bs order group role) ↔
      (configuredIds bs group role).length ≤ 1 ∧ "" ∉ configuredIds bs group role) := by
  have hkeys := perm_keys_load reg₀ hnd
  refine ⟨fun order ho => failoverInOrder_iff hnd ho, fun h => ?_, ?_⟩
  · -- the map may iterate backwards
    have ho : Iterates (bs.map (·.id)).reverse (reg₀.loadLoop ∅ bs).2 :=
      (List.reverse_perm _).trans hkeys.symm
    obtain ⟨hrev, hempty⟩ := (failoverInOrder_iff hnd ho).mp (h _ ho)
    rw [List.filter_reverse, filter_configuredIds hnd] at hrev
    exact ⟨length_le_one_of_reverse_eq (nodup_configuredIds hnd group role) hrev, hempty⟩
  · rintro ⟨hlen, hempty⟩ order ho
    refine (failoverInOrder_iff hnd ho).mpr ⟨?_, hempty⟩
    have hperm := perm_configuredIds hnd (ho.trans hkeys) group role
    rw [Nat.le_one_iff_eq_zero_or_eq_one, List.length_eq_zero_iff, List.length_eq_one_iff] at hlen
    obtain hnil | ⟨x, hx⟩ := hlen
    · rw [hnil] at hperm ⊢
      exact hperm.eq_nil
    · rw [hx] at hperm ⊢
      exact List.perm_singleton.mp hperm

/-- The primary of the group is the only one, and the replicas are iterated in configured order. -/
theorem failover_in_order_single :
    FailoverInOrder {} [{ id := "p", group := "g" }, { id := "r", group := "g", role := .replica },
      { id := "q", group := "g", role := .replica }] ["r", "p", "q"] "g" .replica ∧
    ∀ order, Iterates order (({} : BackendRegistry).loadLoop ∅ [{ id := "p", group := "g" },
      { id := "r", group := "g", role := .replica },
      { id := "q", group := "g", role := .replica }]).2 →
    FailoverInOrder {} [{ id := "p", group := "g" }, { id := "r", group := "g", role := .replica },
      { id := "q", group := "g", role := .replica }] order "g" .primary :=
  ⟨((failover_in_order_iff {} [{ id := "p", group := "g" },
      { id := "r", group := "g", role := .replica }, { id := "q", group := "g", role := .replica }]
      (by decide) "g" .replica).1 ["r", "p", "q"] (by decide)).mpr (by decide),
    (failover_in_order_iff {} [{ id := "p", group := "g" },
      { id := "r", group := "g", role := .replica }, { id := "q", group := "g", role := .replica }]
      (by decide) "g" .primary).2.mpr (by decide)⟩

/-- Of two healthy backends the second is selected, because the map iterates backwards. -/
theorem failover_out_of_order : ∃ reg,
    Transition.run BackendRegistry.step {}
      [.load [{ id := "a", group := "g" }, { id := "b", group := "g" }] ["b", "a"]] = some reg ∧
    (({} : BackendSelector).select reg
      { name := [], backendGroup := "g", routingPolicy := some .failover } .primary {} 0).1 =
        .ok "b" ∧
    ¬ FailoverInOrder {} [{ id := "a", group := "g" }, { id := "b", group := "g" }] ["b", "a"]
      "g" .primary := by
  refine ⟨_, rfl, by decide +kernel, fun h => ?_⟩
  have hfirst := h [] _ rfl {} { name := [], backendGroup := "g", routingPolicy := some .failover }
    {} 0 rfl rfl [] { id := "a", group := "g" } [{ id := "b", group := "g" }] rfl
    ⟨_, ⟨rfl, rfl, rfl, .inl rfl⟩⟩ (fun _ hb => absurd hb List.not_mem_nil)
  exact absurd hfirst (by decide +kernel)

end DBMesh.Routing
