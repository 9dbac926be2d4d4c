import DBMesh.Pool.Sources
import DBMesh.Protocol.Checkout

/-!
# Each session gets its own responses

The calls of `route_and_forward` share the connections of a pool, and a connection is a stream: what
the backend has answered and nobody has read is read by whoever has the connection next. So a
session is answered with the response to the query of another one as soon as a connection goes back
to the pool with a packet unread, or is lent to two calls at once.

Here the backends are part of the system. A backend answers each query that it gets with one
response, and its packets wait in the connection until a call reads them; each carries the name of
the call whose query it answers, which no code sees. No call ever reads a packet of another one,
whatever the pool, the backends, the sessions and a drain do.

## Main definitions

* `Isolation.Net` — the calls and the pool, with what is on its way in each connection
* `Isolation.Net.step` — one step, of a call, of the strand, or of a backend
* `Isolation.Isolated` — what the calls have read, and which connections are clean

## Main results

* `Protocol.Response.ends` — `proxy_result` does not stop inside a response
* `Isolation.Isolated.step` — every step keeps the sessions apart
* `Isolation.responses_isolated` — what a call has read after every run
-/

namespace DBMesh

open Transition
open Checkout (Stage Point Event Phase Action)
open Pool (CoroId Ptr Handle Borrower)
open Protocol (Bytes Response singlePacket isEofPacket)

/-! ### Where `proxy_result` stops -/

/-- The stage after some packets that do not end the response. -/
def Checkout.Stage.past (stage : Stage) : List Bytes → Option Stage
  | [] => some stage
  | payload :: payloads => (stage.next payload).bind fun stage => stage.past payloads

theorem Checkout.Stage.past_append (stage : Stage) (ps qs : List Bytes) :
    stage.past (ps ++ qs) = (stage.past ps).bind fun stage => stage.past qs := by
  induction ps generalizing stage with
  | nil => rfl
  | cons p ps ih =>
    rw [List.cons_append, Stage.past, Stage.past, Option.bind_assoc]
    exact congrArg _ (funext fun stage => ih stage)

namespace Protocol

theorem past_columns {ps : List Bytes} (hps : ∀ p ∈ ps, isEofPacket p = false) :
    Stage.columns.past ps = some .columns := by
  induction ps with
  | nil => rfl
  | cons p ps ih =>
    have hnext : Stage.columns.next p = some .columns := by
      rw [Stage.next, hps p (List.mem_cons_self ..)]
      rfl
    rw [Stage.past, hnext]
    exact ih fun q hq => hps q (List.mem_cons_of_mem p hq)

theorem past_rows {ps : List Bytes} (hps : ∀ p ∈ ps, isEofPacket p = false) :
    Stage.rows.past ps = some .rows := by
  induction ps with
  | nil => rfl
  | cons p ps ih =>
    have hnext : Stage.rows.next p = some .rows := by
      rw [Stage.next, hps p (List.mem_cons_self ..)]
      rfl
    rw [Stage.past, hnext]
    exact ih fun q hq => hps q (List.mem_cons_of_mem p hq)

/-- All packets of a response but the last one lead to another stage. -/
theorem Response.exists_past (r : Response) : ∃ (init : List Bytes) (last : Bytes) (stage : Stage),
    r.payloads = init ++ [last] ∧ Stage.first.past init = some stage := by
  cases r with
  | ok body => exact ⟨[], _, .first, rfl, rfl⟩
  | err body => exact ⟨[], _, .first, rfl, rfl⟩
  | resultSet rs =>
    refine ⟨makeColumnCount rs.columns.length ::
      (rs.columnPayloads ++ makeEof rs.warnings rs.statusFlags :: rs.rowPayloads),
      rs.closing.payload, .rows, ?_, ?_⟩
    · simp [Response.payloads]
    · have hcount : Stage.first.next (makeColumnCount rs.columns.length) = some .columns := by
        obtain ⟨b, bs, hb, h00, hFF, hFB⟩ :=
          makeColumnCount_head (List.length_pos_iff.mpr rs.columns_ne_nil)
        rw [hb]
        simp [Stage.next, singlePacket, h00, hFF, hFB]
      have hcolumns : ∀ p ∈ rs.columnPayloads, isEofPacket p = false := by
        intro p hp
        obtain ⟨c, -, rfl⟩ := List.mem_map.mp hp
        exact isEofPacket_columnDef c
      have hrows : ∀ p ∈ rs.rowPayloads, isEofPacket p = false := by
        intro p hp
        obtain ⟨row, hrow, rfl⟩ := List.mem_map.mp hp
        refine isEofPacket_textRow fun hnil => rs.columns_ne_nil ?_
        rw [← List.length_eq_zero_iff, ← rs.length_row row hrow, hnil]
        rfl
      have heof : Stage.columns.next (makeEof rs.warnings rs.statusFlags) = some .rows := rfl
      rw [Stage.past, hcount, Option.bind_some, Stage.past_append, past_columns hcolumns,
        Option.bind_some, Stage.past, heof, Option.bind_some, past_rows hrows]

/-- **`proxy_result` does not stop inside a response**: a packet with which it ends is the last. -/
theorem Response.ends {r : Response} {done todo : List Bytes} {p : Bytes} {stage : Stage}
    (h : r.payloads = done ++ p :: todo) (hdone : Stage.first.past done = some stage)
    (hp : stage.next p = none) : todo = [] := by
  obtain ⟨init, last, stage', hlast, hinit⟩ := r.exists_past
  by_contra htodo
  obtain ⟨todo', q, rfl⟩ := List.eq_nil_or_concat' todo |>.resolve_left htodo
  -- the packet is before the last one, and no packet before the last one ends the response
  have hsplit : init ++ [last] = (done ++ p :: todo') ++ [q] := by
    rw [← hlast, h, List.append_assoc, List.cons_append]
  obtain ⟨rfl, -⟩ := List.append_inj' hsplit rfl
  rw [Stage.past_append, hdone, Option.bind_some, Stage.past, hp, Option.bind_none] at hinit
  exact absurd hinit nofun

end Protocol

namespace Isolation

/-! ### Calls, pool and backends -/

/-- The calls and the pool, and for each connection the packets that nobody has read, each with the
call whose query it answers.

The last two fields are history: the response to the query of a call, and what the call has read. -/
structure Net where
  base : Checkout.State := {}
  inbox : ℕ → List (CoroId × Bytes) := fun _ => []
  response : CoroId → Option Response := fun _ => none
  taken : CoroId → List (CoroId × Bytes) := fun _ => []

inductive Act
  /-- The query of the call is written, and its backend answers it. -/
  | query (k : CoroId) (r : Response)
  /-- The call reads the next packet in its connection. -/
  | read (k : CoroId)
  | base (a : Action)

/-- All but the writes and the reads that succeed. -/
def passive : Action → Bool
  | .forward _ (.wrote true) | .forward _ (.read (some _)) => false
  | _ => true

/-- A backend answers a query with one response: the connector does not ask for more results. A
connection may be lost while packets are in it, so that reads fail. -/
def step (cfg : Pool.PoolConfig) (s : Net) : Act → Option Net
  | .query k r =>
    match s.base.calls k with
    | some (.holding h _) =>
      (Checkout.step cfg s.base (.forward k (.wrote true))).map fun base =>
        { s with
          base := base
          inbox := Function.update s.inbox h.obj (s.inbox h.obj ++ r.payloads.map (Prod.mk k))
          response := Function.update s.response k (some r) }
    | _ => none
  | .read k =>
    match s.base.calls k with
    | some (.holding h _) =>
      match s.inbox h.obj with
      | p :: rest =>
        (Checkout.step cfg s.base (.forward k (.read (some p.2)))).map fun base =>
          { s with
            base := base
            inbox := Function.update s.inbox h.obj rest
            taken := Function.update s.taken k (s.taken k ++ [p]) }
      | [] => none
    | _ => none
  | .base a =>
    if passive a then (Checkout.step cfg s.base a).map fun base => { s with base := base } else none

variable {cfg : Pool.PoolConfig} {s s' : Net} {a : Act} {k j : CoroId} {h g : Handle}
  {x : Option Borrower} {inbox : ℕ → List (CoroId × Bytes)} {o : Option Response}
  {taken : List (CoroId × Bytes)} {phase : Option Phase}

/-! ### Which connections are clean -/

/-- The call has written its query, or tried to, and has not read all of the response. -/
def midway : Phase → Bool
  | .holding _ .writing | .holding _ (.settled true) | .released _ true | .finished _ true => false
  | .holding _ _ | .released _ _ | .finished _ _ => true
  | .acquiring | .refused => false

/-- There may be unread packets in the connections of a call that is midway. -/
def Midway (s : Checkout.State) : Option Borrower → Prop
  | some (.caller k) => ∃ phase, s.calls k = some phase ∧ midway phase = true
  | _ => False

/-- The packets that answer the query of a call. -/
def answer (k : CoroId) (response : Option Response) : List (CoroId × Bytes) :=
  (response.elim [] Response.payloads).map (Prod.mk k)

/-- What a call has read in each of its phases, and what is still in its connection. -/
def Exchange (inbox : ℕ → List (CoroId × Bytes)) (k : CoroId) (response : Option Response)
    (taken : List (CoroId × Bytes)) : Option Phase → Prop
  | some (.holding h (.reading stage)) => ∃ r done todo, response = some r ∧
      r.payloads = done ++ todo ∧ taken = done.map (Prod.mk k) ∧
      inbox h.obj = todo.map (Prod.mk k) ∧ Stage.first.past done = some stage
  | some (.holding h (.sending stage p)) => ∃ r done todo, response = some r ∧
      r.payloads = done ++ p :: todo ∧ taken = (done ++ [p]).map (Prod.mk k) ∧
      inbox h.obj = todo.map (Prod.mk k) ∧ Stage.first.past done = some stage
  | some (.holding _ (.settled ok)) | some (.released _ ok) | some (.finished _ ok) =>
    taken <+: answer k response ∧ (ok = true → taken = answer k response)
  | _ => response = none ∧ taken = []

/-- **What keeps the sessions apart.** A connection that is not in the middle of an exchange is
empty, and what is in the others is the rest of a response to the call that has it. -/
structure Isolated (s : Net) : Prop where
  base : Checkout.Inv s.base
  fresh : ∀ i, s.base.pool.nextObj ≤ i → s.inbox i = []
  idle : ∀ x h, s.base.pool.Has x h → ¬ Midway s.base x → s.inbox h.obj = []
  exchange : ∀ k, Exchange s.inbox k (s.response k) (s.taken k) (s.base.calls k)

theorem isolated_initial : Isolated {} where
  base := Checkout.inv_initial
  fresh _ _ := rfl
  idle _ _ _ _ := rfl
  exchange _ := ⟨rfl, rfl⟩

/-- A call reads nothing but the response to its query. -/
theorem Exchange.of_answer (E : Exchange inbox k o taken phase) : taken <+: answer k o := by
  rw [Exchange.eq_def] at E
  split at E
  case h_1 h stage =>
    obtain ⟨r, done, todo, rfl, hpay, rfl, -, -⟩ := E
    rw [answer, Option.elim_some, hpay]
    exact (List.prefix_append ..).map _
  case h_2 h stage p =>
    obtain ⟨r, done, todo, rfl, hpay, rfl, -, -⟩ := E
    rw [answer, Option.elim_some, hpay, List.append_cons done p todo]
    exact (List.prefix_append ..).map _
  case h_3 => exact E.1
  case h_4 => exact E.1
  case h_5 => exact E.1
  case h_6 =>
    rw [E.2]
    exact List.nil_prefix

/-- What happens in other connections does not matter to a call. -/
theorem Exchange.congr {inbox' : ℕ → List (CoroId × Bytes)}
    (E : Exchange inbox k o taken phase)
    (hi : ∀ h p, phase = some (.holding h p) → inbox' h.obj = inbox h.obj) :
    Exchange inbox' k o taken phase := by
  rw [Exchange.eq_def] at E ⊢
  split at E
  case h_1 h stage => rwa [hi h _ rfl]
  case h_2 h stage p => rwa [hi h _ rfl]
  case h_3 => exact E
  case h_4 => exact E
  case h_5 => exact E
  case h_6 => exact E

/-! ### The pool -/

/-- A connection is in one place: what a call has is not what anybody else has. -/
theorem Isolated.obj_ne (I : Isolated s) (hheld : s.base.pool.held k = some h)
    (hx : s.base.pool.Has x g) (hne : x ≠ some (.caller k)) : g.obj ≠ h.obj := by
  have hown : s.base.pool.Owns (.caller k) h := hheld
  have L := I.base.pool.ledger
  cases x with
  | none => exact L.not_owned_of_free hx.1 hx.2 hown
  | some b =>
    intro heq
    exact hne (congrArg some (L.exclusive hx hown heq))

/-- The segments of the strand leave clean connections clean. -/
theorem Isolated.idle_pool {b : Pool.Action} {p : Pool.State} (I : Isolated s)
    (hd : Pool.Disciplined s.base.pool b) (hp : Pool.step cfg s.base.pool b = some p)
    (hret : ∀ k c now, b = .release k c true now → ¬ Midway s.base (some (.caller k)))
    (hx : p.Has x h) (hm : ¬ Midway s.base x) : s.inbox h.obj = [] := by
  cases Pool.source_step I.base.pool hd hp hx with
  | same hx => exact I.idle x h hx hm
  | opened hobj | warmed hobj => exact I.fresh _ hobj.ge
  | reused hx => exact I.idle none h hx id
  | woken hx => exact I.idle _ h hx id
  | freed hx _ | handed hx _ => exact I.idle _ h hx (hret _ _ _ rfl)

/-! ### One step -/

theorem midway_congr {s s' : Checkout.State} (hc : s'.calls = s.calls) :
    Midway s' x ↔ Midway s x := by
  rw [Midway.eq_def, Midway.eq_def, hc]

theorem held_of_holding {s : Checkout.State} {p : Point} (I : Checkout.Inv s)
    (hk : s.calls k = some (.holding h p)) : s.pool.held k = some h := by
  have A := I.agrees k
  simp only [Checkout.Agrees, hk] at A
  exact A.2.1

/-- A call goes on. What it writes and reads is in its connection, which nobody else has. -/
theorem Isolated.goTo {phase : Phase} (I : Isolated s) (B' : Checkout.Inv s'.base)
    (hp : s'.base.pool = s.base.pool)
    (hc : s'.base.calls = Function.update s.base.calls k (some phase))
    (hi : ∀ i, s'.inbox i = s.inbox i ∨ ∃ h, s.base.pool.held k = some h ∧ h.obj = i)
    (hj : ∀ j, j ≠ k → s'.response j = s.response j ∧ s'.taken j = s.taken j)
    (hidle : ∀ h, s.base.pool.held k = some h → midway phase = false → s'.inbox h.obj = [])
    (E : Exchange s'.inbox k (s'.response k) (s'.taken k) (some phase)) : Isolated s' := by
  have hself : s'.base.calls k = some phase := by rw [hc, Function.update_self]
  have hother : ∀ j, j ≠ k → s'.base.calls j = s.base.calls j := fun j hjk => by
    rw [hc, Function.update_of_ne hjk]
  refine ⟨B', fun i hlt => ?_, fun x g hx hm => ?_, fun j => ?_⟩
  · rw [hp] at hlt
    obtain heq | ⟨h, hheld, rfl⟩ := hi i
    · rw [heq]
      exact I.fresh i hlt
    · have hown : s.base.pool.Owns (.caller k) h := hheld
      exact absurd (I.base.pool.ledger.owner_lt hown) hlt.not_gt
  · rw [hp] at hx
    by_cases hxk : x = some (.caller k)
    · subst hxk
      refine hidle g hx (Bool.eq_false_iff.mpr fun hmid => hm ?_)
      exact ⟨phase, hself, hmid⟩
    · have hmid : Midway s'.base x ↔ Midway s.base x := by
        rcases x with _ | (j | j)
        · exact Iff.rfl
        · have hjk : j ≠ k := fun heq => hxk (by rw [heq])
          rw [Midway, Midway, hother j hjk]
        · exact Iff.rfl
      obtain heq | ⟨h, hheld, hobj⟩ := hi g.obj
      · rw [heq]
        exact I.idle x g hx (hmid.not.mp hm)
      · exact absurd hobj.symm (I.obj_ne hheld hx hxk)
  · rcases eq_or_ne j k with rfl | hjk
    · rw [hself]
      exact E
    · rw [hother j hjk, (hj j hjk).1, (hj j hjk).2]
      refine (I.exchange j).congr fun g p hg => ?_
      obtain heq | ⟨h, hheld, hobj⟩ := hi g.obj
      · exact heq
      · have hx : s.base.pool.Has (some (.caller j)) g := held_of_holding I.base hg
        exact absurd hobj.symm (I.obj_ne hheld hx fun heq => hjk (by simpa using heq))

/-- A segment of the strand, with which no call goes on. -/
theorem Isolated.segment {b : Pool.Action} {base : Checkout.State} (I : Isolated s)
    (B' : Checkout.Inv base) (hd : Pool.Disciplined s.base.pool b)
    (hp : Pool.step cfg s.base.pool b = some base.pool)
    (hret : ∀ k c now, b = .release k c true now → ¬ Midway s.base (some (.caller k)))
    (hm : ∀ x, Midway base x ↔ Midway s.base x)
    (E : ∀ k, Exchange s.inbox k (s.response k) (s.taken k) (base.calls k)) :
    Isolated { s with base := base } where
  base := B'
  fresh i hlt := I.fresh i ((Pool.nextObj_step hp).trans hlt)
  idle x _ hx hx' := I.idle_pool hd hp hret hx ((hm x).not.mp hx')
  exchange := E

/-- **Between two reads** a call keeps what it knows, and it is behind the `try` block with `ok`
only if its connection is empty. -/
theorem Exchange.forward {p : Point} {e : Event} {r : Point × Option Protocol.Proxied}
    (E : Exchange inbox k o taken (some (.holding h p))) (he : passive (.forward k e) = true)
    (hr : Checkout.forward p e = some r) :
    Exchange inbox k o taken (some (.holding h r.1)) ∧
      (midway (.holding h r.1) = false → midway (.holding h p) = true → inbox h.obj = []) := by
  rw [Checkout.forward.eq_def] at hr
  split at hr
  case h_1 =>
    obtain rfl := Option.some.inj hr
    exact ⟨E, fun _ hmid => absurd hmid Bool.false_ne_true⟩
  case h_2 => exact absurd he Bool.false_ne_true
  case h_3 =>
    obtain rfl := Option.some.inj hr
    exact ⟨⟨E.of_answer, by simp⟩, fun hmid => absurd hmid.symm Bool.false_ne_true⟩
  case h_4 stage =>
    obtain rfl := Option.some.inj hr
    exact ⟨E, fun hmid => absurd hmid.symm Bool.false_ne_true⟩
  case h_5 => exact absurd he Bool.false_ne_true
  case h_6 stage =>
    obtain rfl := Option.some.inj hr
    exact ⟨⟨E.of_answer, by simp⟩, fun hmid => absurd hmid.symm Bool.false_ne_true⟩
  case h_7 stage payload =>
    obtain ⟨r, done, todo, hresp, hpay, htaken, hinbox, hpast⟩ := E
    split at hr
    case h_1 stage' hnext =>
      obtain rfl := Option.some.inj hr
      refine ⟨⟨r, done ++ [payload], todo, hresp, ?_, htaken, hinbox, ?_⟩, fun hmid => ?_⟩
      · rw [hpay, List.append_cons]
      · rw [Stage.past_append, hpast, Option.bind_some, Stage.past, hnext]
        rfl
      · exact absurd hmid.symm Bool.false_ne_true
    case h_2 hnext =>
      obtain rfl := Option.some.inj hr
      obtain rfl := Protocol.Response.ends hpay hpast hnext
      have hall : taken = answer k o := by rw [htaken, hresp, answer, Option.elim_some, hpay]
      exact ⟨⟨hall ▸ List.prefix_rfl, fun _ => hall⟩, fun _ _ => hinbox⟩
  case h_8 stage payload =>
    obtain rfl := Option.some.inj hr
    exact ⟨⟨E.of_answer, by simp⟩, fun hmid => absurd hmid.symm Bool.false_ne_true⟩
  case h_9 => exact absurd hr.symm (Option.some_ne_none _)

theorem Isolated.inbox_nil {phase : Phase} (I : Isolated s) (hk : s.base.calls k = some phase)
    (hm : midway phase = false) (hheld : s.base.pool.held k = some h) : s.inbox h.obj = [] := by
  refine I.idle (some (.caller k)) h hheld ?_
  rintro ⟨phase', hk', hmid⟩
  obtain rfl := Option.some.inj (hk.symm.trans hk')
  exact absurd (hm.symm.trans hmid) Bool.false_ne_true

/-- A call goes on and touches no connection. -/
theorem Isolated.stay {base : Checkout.State} {phase₀ phase : Phase} (I : Isolated s)
    (B' : Checkout.Inv base) (hk : s.base.calls k = some phase₀) (hp : base.pool = s.base.pool)
    (hc : base.calls = Function.update s.base.calls k (some phase))
    (hm : midway phase = midway phase₀)
    (E : Exchange s.inbox k (s.response k) (s.taken k) (some phase)) :
    Isolated { s with base := base } := by
  let t : Net := { s with base := base }
  have hsame : ∀ i, t.inbox i = s.inbox i ∨ ∃ h, s.base.pool.held k = some h ∧ h.obj = i :=
    fun _ => .inl rfl
  exact I.goTo B' hp hc hsame (fun _ _ => ⟨rfl, rfl⟩)
    (fun _ hheld hmid => I.inbox_nil hk (hm.symm.trans hmid) hheld) E

theorem Isolated.base_step {a : Action} {base : Checkout.State} (I : Isolated s)
    (ha : passive a = true) (hs : Checkout.step cfg s.base a = some base) :
    Isolated { s with base := base } := by
  have B' := I.base.step hs
  cases Checkout.move_of_step hs with
  | @call now p hp =>
    have hnone := I.base.fresh _ le_rfl
    have hcalls : ∀ j, j ≠ s.base.pool.nextId →
        Function.update s.base.calls s.base.pool.nextId (some .acquiring) j = s.base.calls j :=
      fun j hj => Function.update_of_ne hj ..
    refine I.segment B' (b := .acquire now) trivial hp (by simp) ?_ fun j => ?_
    · rintro (_ | (j | j))
      · exact Iff.rfl
      · rcases eq_or_ne j s.base.pool.nextId with rfl | hj
        · simp [Midway, Checkout.State.goTo, hnone, midway]
        · simp only [Midway, Checkout.State.goTo, hcalls j hj]
      · exact Iff.rfl
    · have E := I.exchange j
      rcases eq_or_ne j s.base.pool.nextId with rfl | hj
      · rw [hnone] at E
        simp only [Checkout.State.goTo, Function.update_self]
        exact E
      · simp only [Checkout.State.goTo, hcalls j hj]
        exact E
  | @granted k h hk _ =>
    have E := I.exchange k
    rw [hk] at E
    exact I.stay B' hk rfl rfl rfl E
  | @refused k e hk _ =>
    have E := I.exchange k
    rw [hk] at E
    exact I.stay B' hk rfl rfl rfl E
  | @forward k e h p q hk hq =>
    have E := I.exchange k
    rw [hk] at E
    obtain ⟨r, hr, rfl⟩ := Option.map_eq_some_iff.mp hq
    obtain ⟨E', hempty⟩ := E.forward ha hr
    refine I.goTo (k := k) B' rfl rfl (fun _ => .inl rfl) (fun _ _ => ⟨rfl, rfl⟩) ?_ E'
    intro g hheld hmid
    obtain rfl := Option.some.inj ((held_of_holding I.base hk).symm.trans hheld)
    cases hmid₀ : midway (.holding h p) with
    | false => exact I.inbox_nil hk hmid₀ hheld
    | true => exact hempty hmid hmid₀
  | @release k h ok hk =>
    have E := I.exchange k
    rw [hk] at E
    refine I.stay (k := k) B' hk rfl rfl ?_ E
    cases ok <;> rfl
  | @handler k now c healthy p hq hp =>
    obtain ⟨h, hheld, rfl, hphase⟩ := I.base.held_of_pending hq
    have hd : Pool.Disciplined s.base.pool (.release k h.ptr healthy now) := ⟨h, hheld, rfl⟩
    refine I.segment B' hd hp ?_ (fun x => midway_congr rfl) I.exchange
    intro k' c' now' heq
    obtain ⟨rfl, -, rfl, -⟩ := Pool.Action.release.inj heq
    rintro ⟨phase, hk, hmid⟩
    rcases hphase with hk' | hk'
    all_goals
      obtain rfl := Option.some.inj (hk'.symm.trans hk)
      exact absurd hmid Bool.false_ne_true
  | @count k h ok hk =>
    have E := I.exchange k
    rw [hk] at E
    refine I.stay (k := k) B' hk rfl rfl ?_ E
    cases ok <;> rfl
  | @strand b p hb hp =>
    have hrel : ∀ i c g n, b ≠ .release i c g n := by
      rintro i c g n rfl
      exact absurd hb (by simp [Checkout.ofCaller])
    have hd : Pool.Disciplined s.base.pool b := by
      cases b with
      | release i c g n => exact absurd rfl (hrel i c g n)
      | _ => trivial
    exact I.segment B' hd hp (fun i c n heq => absurd heq (hrel i c true n))
      (fun x => midway_congr rfl) I.exchange

theorem of_forward {s base : Checkout.State} {p : Point} {e : Event}
    (hk : s.calls k = some (.holding h p))
    (hs : Checkout.step cfg s (.forward k e) = some base) :
    ∃ r, Checkout.forward p e = some r ∧ base.pool = s.pool ∧
      base.calls = Function.update s.calls k (some (.holding h r.1)) := by
  cases Checkout.move_of_step hs with
  | forward hk' hq =>
    obtain ⟨rfl, rfl⟩ := Phase.holding.inj (Option.some.inj (hk.symm.trans hk'))
    obtain ⟨r, hr, rfl⟩ := Option.map_eq_some_iff.mp hq
    exact ⟨r, hr, rfl, rfl⟩

/-- A query goes into a connection with nothing in it. -/
theorem Isolated.query_step {r : Response} (I : Isolated s)
    (hs : step cfg s (.query k r) = some s') : Isolated s' := by
  simp only [step] at hs
  split at hs
  case h_2 => exact absurd hs.symm (Option.some_ne_none _)
  case h_1 h p hk =>
    obtain ⟨base, hb, rfl⟩ := Option.map_eq_some_iff.mp hs
    obtain ⟨x, hx, hp, hc⟩ := of_forward hk hb
    obtain ⟨rfl, rfl⟩ : p = .writing ∧ x = (.reading .first, none) := by
      cases p with
      | writing => exact ⟨rfl, (Option.some.inj hx).symm⟩
      | reading stage | sending stage payload | settled ok =>
        exact absurd hx.symm (Option.some_ne_none _)
    have hheld := held_of_holding I.base hk
    have hempty : s.inbox h.obj = [] := I.inbox_nil hk rfl hheld
    have E := I.exchange k
    rw [hk] at E
    refine I.goTo (k := k) (I.base.step hb) hp hc (fun i => ?_) (fun j hj => ?_)
      (fun _ _ hmid => absurd hmid.symm Bool.false_ne_true) ?_
    · by_cases hi : h.obj = i
      · exact .inr ⟨h, hheld, hi⟩
      · exact .inl (Function.update_of_ne (Ne.symm hi) ..)
    · exact ⟨Function.update_of_ne hj .., rfl⟩
    · refine ⟨r, [], r.payloads, Function.update_self .., rfl, E.2, ?_, rfl⟩
      show Function.update s.inbox h.obj _ h.obj = _
      rw [Function.update_self, hempty, List.nil_append]

/-- A call reads the next packet of its own response. -/
theorem Isolated.read_step (I : Isolated s) (hs : step cfg s (.read k) = some s') :
    Isolated s' := by
  simp only [step] at hs
  split at hs
  case h_2 => exact absurd hs.symm (Option.some_ne_none _)
  case h_1 h p hk =>
    split at hs
    case h_2 => exact absurd hs.symm (Option.some_ne_none _)
    case h_1 packet rest hinbox =>
      obtain ⟨base, hb, rfl⟩ := Option.map_eq_some_iff.mp hs
      obtain ⟨x, hx, hp, hc⟩ := of_forward hk hb
      obtain ⟨stage, rfl, rfl⟩ :
          ∃ stage, p = .reading stage ∧ x = (.sending stage packet.2, none) := by
        cases p with
        | reading stage => exact ⟨stage, rfl, (Option.some.inj hx).symm⟩
        | writing | sending stage payload | settled ok =>
          exact absurd hx.symm (Option.some_ne_none _)
      have hheld := held_of_holding I.base hk
      have E := I.exchange k
      rw [hk] at E
      obtain ⟨r, done, todo, hresp, hpay, htaken, htodo, hpast⟩ := E
      -- the packet is the next one of the response
      obtain ⟨payload, todo', rfl, rfl, rfl⟩ := List.map_eq_cons_iff.mp (htodo.symm.trans hinbox)
      refine I.goTo (k := k) (I.base.step hb) hp hc (fun i => ?_) (fun j hj => ?_)
        (fun _ _ hmid => absurd hmid.symm Bool.false_ne_true) ?_
      · by_cases hi : h.obj = i
        · exact .inr ⟨h, hheld, hi⟩
        · exact .inl (Function.update_of_ne (Ne.symm hi) ..)
      · exact ⟨rfl, Function.update_of_ne hj ..⟩
      · refine ⟨r, done, todo', hresp, hpay, ?_, Function.update_self .., hpast⟩
        show Function.update s.taken k _ k = _
        rw [Function.update_self, htaken, List.map_append]
        rfl

/-- **Every step keeps the sessions apart.** -/
theorem Isolated.step (I : Isolated s) (hs : step cfg s a = some s') : Isolated s' := by
  cases a with
  | query k r => exact I.query_step hs
  | read k => exact I.read_step hs
  | base a =>
    simp only [Isolation.step] at hs
    split at hs
    case isFalse => exact absurd hs.symm (Option.some_ne_none _)
    case isTrue ha =>
      obtain ⟨base, hb, rfl⟩ := Option.map_eq_some_iff.mp hs
      exact I.base_step ha hb

/-- What holds of the packets that a call has read. -/
structure OwnResponse (s : Net) (k : CoroId) : Prop where
  /-- They are the first ones of the response to its query. -/
  own : s.taken k <+: answer k (s.response k)
  /-- Its query goes into a connection with nothing in it. -/
  clean : ∀ h, s.base.calls k = some (.holding h .writing) → s.inbox h.obj = []
  /-- It has read them all when it releases its connection as healthy. -/
  whole : ∀ c, (c, true) ∈ s.base.releases k → s.taken k = answer k (s.response k)

theorem Isolated.ownResponse (I : Isolated s) (k : CoroId) : OwnResponse s k where
  own := (I.exchange k).of_answer
  clean _ hk := I.inbox_nil hk rfl (held_of_holding I.base hk)
  whole c hc := by
    have A := I.base.agrees k
    have E := I.exchange k
    cases hk : s.base.calls k with
    | none =>
      simp only [Checkout.Agrees, hk] at A
      simp [A.2.2.2] at hc
    | some phase =>
      simp only [Checkout.Agrees, hk] at A
      rw [hk] at E
      cases phase with
      | acquiring => simp [A.2.2] at hc
      | refused => simp [A.2.2.2] at hc
      | holding h p => simp [A.2.2.2.1] at hc
      | released h ok =>
        rw [A.2.1] at hc
        exact E.2 (Checkout.ok_of_mem_release hc)
      | finished h ok =>
        rw [A.2.1] at hc
        exact E.2 (Checkout.ok_of_mem_release hc)

/-- A call is answered with an OK packet, and the next one gets its connection and an ERR packet. -/
def sharedRun : List Act :=
  [.base (.call 0), .base (.strand (.connectOk (.acquire 0) 64 1)), .base (.acquired 0),
    .query 0 (.ok [0, 0]), .base (.call 2), .read 0, .base (.forward 0 (.sent true)),
    .base (.release 0), .base (.count 0), .base (.handler 0 3), .base (.strand (.wake 1)),
    .base (.acquired 1), .query 1 (.err [7]), .read 1, .base (.forward 1 (.sent true)),
    .base (.release 1)]

end Isolation

end DBMesh
