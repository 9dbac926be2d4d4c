import DBMesh.Core.ConfigChecks
import DBMesh.Core.ConfigFile
import DBMesh.Lib.Ranking

/-!
# From start to exit

`Application::run`, `on_signal`, `request_shutdown` and `stop_subsystems` of
`core/src/application.cpp`, with the handlers that the `io_context` runs meanwhile. `run()` of the
`io_context` comes back when `stop()` was called or when nothing is outstanding. The first one comes
back by `stop()`, which leaves every coroutine where it is. `stop_subsystems` then destroys the
frontend, starts the drain of the pools, and calls `run()` once more: that one comes back when
nothing is outstanding, and until then it runs whatever handlers there are.

What is outstanding is the wait for a signal, the accept, the connections of the clients, and the
coroutines of the pools. Of the last two only the number is kept.

## Main definitions

* `Application.App`, `Application.Event` — the application, and what can happen
* `Application.happen` — the handlers, and the main thread
* `Application.signalled` — a signal that nobody waits for a successor of

## Main results

* `Application.config_in_force` — the configuration in force
* `Application.exits_iff_signalled` — when the second `run()` can come back
* `Application.frontend_gone_iff` — when the accept loop outlives its frontend
-/

namespace DBMesh.Application

open ConfigLoader Transition

inductive Signo
  | term
  | int
  | hup
  deriving DecidableEq, Repr

/-- The main thread: in the first `run()`, between the two, in the second, and after it. -/
inductive Thread
  | running
  | stopped
  | draining
  | exited
  deriving DecidableEq, Repr

/-- The wait of `accept_loop`: going on, over with a socket or with `operation_aborted` and its
handler queued, or the loop has ended. -/
inductive Accept
  | waiting
  | ready
  | aborted
  | ended
  deriving DecidableEq, Repr

structure App where
  config : LoadedConfig
  /-- `signals_` is waited for, or the handler of a signal is queued. -/
  armed : Bool := true
  shuttingDown : Bool := false
  /-- The handler that calls `stop()` is queued. -/
  stopPosted : Bool := false
  thread : Thread := .running
  frontend : Bool
  accept : Accept
  connections : ℕ := 0
  coroutines : ℕ
  /-- A coroutine has used a frontend that is gone. -/
  dangling : Bool := false

/-- The application after `start_subsystems`, with `warm_all` and a reaper for each pool. -/
def started (config : LoadedConfig) : App where
  config := config
  frontend := config.listeners.mysql.enabled
  accept := if config.listeners.mysql.enabled then .waiting else .ended
  coroutines := 1 + config.backends.length

inductive Event (Node : Type)
  /-- The handler of a signal runs; `file` is what is in the configuration file. -/
  | signal (signo : Signo) (file : Option (Except String Node))
  /-- `request_shutdown()` is called from elsewhere. -/
  | request
  /-- The posted handler runs. -/
  | stop
  /-- A client connects. -/
  | connect
  /-- `accept_loop` goes on. -/
  | accept
  /-- The coroutine of a client's connection ends. -/
  | disconnect
  /-- A pool, or a client in one, starts a coroutine. -/
  | spawn
  /-- A coroutine of a pool ends. -/
  | finish
  /-- `stop_subsystems` up to its `run()`. -/
  | stopSubsystems
  /-- The second `run()` comes back. -/
  | exit

variable {Node : Type}

/-- The `io_context` runs handlers. -/
def App.runs (app : App) : Bool :=
  match app.thread with
  | .running | .draining => true
  | .stopped | .exited => false

def App.outstanding (app : App) : Bool :=
  app.armed || app.stopPosted || app.accept != .ended || app.connections != 0 ||
    app.coroutines != 0

def requestShutdown (app : App) : App :=
  if app.shuttingDown then app else { app with shuttingDown := true, stopPosted := true }

/-- `ConfigReloader::reload` with the callback `on_config_reload`. -/
def reload (y : YamlCpp Node) (path : String) (file : Option (Except String Node))
    (config : LoadedConfig) : LoadedConfig :=
  match load y path file with
  | .ok config' => config'
  | .error _ => config

/-- The wait for the signal is over. After SIGHUP `signals_` is armed again unless the application
is shutting down, after the others it is not. -/
def onSignal (y : YamlCpp Node) (path : String) (file : Option (Except String Node)) (app : App) :
    Signo → App
  | .term | .int => requestShutdown { app with armed := false }
  | .hup => { app with config := reload y path file app.config, armed := !app.shuttingDown }

/-- `accept_loop` after its wait; every member it uses is one of the frontend. -/
def acceptResumed (app : App) : Option App :=
  match app.accept with
  | .ready =>
    if app.frontend then
      some { app with accept := .waiting, connections := app.connections + 1 }
    else some { app with accept := .ended, dangling := true }
  | .aborted => some { app with accept := .ended }
  | .waiting | .ended => none

def stopSubsystems (app : App) : App :=
  { app with
    thread := .draining
    frontend := false
    -- `cancel` and `close` abort the accept if it is still waiting
    accept := if app.accept = .waiting then .aborted else app.accept
    coroutines := app.coroutines + 1 }

def happen (y : YamlCpp Node) (path : String) (app : App) : Event Node → Option App
  | .signal signo file =>
    if app.runs ∧ app.armed then some (onSignal y path file app signo)
    else none
  | .request => if app.thread = .exited then none else some (requestShutdown app)
  | .stop =>
    if app.runs ∧ app.stopPosted then
      some { app with
        stopPosted := false
        thread := if app.thread = .running then .stopped else .exited }
    else none
  | .connect =>
    if app.runs ∧ app.accept = .waiting then some { app with accept := .ready } else none
  | .accept => if app.runs then acceptResumed app else none
  | .disconnect =>
    if app.runs ∧ app.connections ≠ 0 then
      some { app with connections := app.connections - 1 }
    else none
  | .spawn => if app.runs then some { app with coroutines := app.coroutines + 1 } else none
  | .finish =>
    if app.runs ∧ app.coroutines ≠ 0 then some { app with coroutines := app.coroutines - 1 }
    else none
  | .stopSubsystems => if app.thread = .stopped then some (stopSubsystems app) else none
  | .exit =>
    if app.thread = .draining ∧ app.outstanding = false then some { app with thread := .exited }
    else none

variable {y : YamlCpp Node} {path : String} {app app' : App} {e : Event Node}
  {config : LoadedConfig}

/-! ### Inversion -/

/-- What can happen, guards included. -/
inductive Happens (y : YamlCpp Node) (path : String) (app : App) : Event Node → App → Prop
  | terminate {signo : Signo} {file : Option (Except String Node)} (hs : signo ≠ .hup)
      (hr : app.runs = true) (ha : app.armed = true) : Happens y path app (.signal signo file)
        (requestShutdown { app with armed := false })
  | reload {file : Option (Except String Node)} (hr : app.runs = true) (ha : app.armed = true) :
      Happens y path app (.signal .hup file)
        { app with config := reload y path file app.config, armed := !app.shuttingDown }
  | request (ht : app.thread ≠ .exited) : Happens y path app .request (requestShutdown app)
  | stop (ht : app.thread = .running) (hp : app.stopPosted = true) :
      Happens y path app .stop { app with stopPosted := false, thread := .stopped }
  | stopAgain (ht : app.thread = .draining) (hp : app.stopPosted = true) :
      Happens y path app .stop { app with stopPosted := false, thread := .exited }
  | connect (hr : app.runs = true) (ha : app.accept = .waiting) :
      Happens y path app .connect { app with accept := .ready }
  | accept (hr : app.runs = true) (ha : app.accept = .ready) (hf : app.frontend = true) :
      Happens y path app .accept
        { app with accept := .waiting, connections := app.connections + 1 }
  | acceptGone (hr : app.runs = true) (ha : app.accept = .ready) (hf : app.frontend = false) :
      Happens y path app .accept { app with accept := .ended, dangling := true }
  | acceptAborted (hr : app.runs = true) (ha : app.accept = .aborted) :
      Happens y path app .accept { app with accept := .ended }
  | disconnect (hr : app.runs = true) (hc : app.connections ≠ 0) :
      Happens y path app .disconnect { app with connections := app.connections - 1 }
  | spawn (hr : app.runs = true) :
      Happens y path app .spawn { app with coroutines := app.coroutines + 1 }
  | finish (hr : app.runs = true) (hc : app.coroutines ≠ 0) :
      Happens y path app .finish { app with coroutines := app.coroutines - 1 }
  | stopSubsystems (ht : app.thread = .stopped) :
      Happens y path app .stopSubsystems (stopSubsystems app)
  | exit (ht : app.thread = .draining) (ho : app.outstanding = false) :
      Happens y path app .exit { app with thread := .exited }

theorem thread_of_runs (h : app.runs = true) :
    app.thread = .running ∨ app.thread = .draining := by
  rw [App.runs] at h
  cases ht : app.thread with
  | running => exact .inl rfl
  | draining => exact .inr rfl
  | stopped => simp [ht] at h
  | exited => simp [ht] at h

theorem happens_of_happen (h : happen y path app e = some app') : Happens y path app e app' := by
  cases e with
  | signal signo file =>
    obtain ⟨⟨hr, ha⟩, h⟩ := Option.ite_none_right_eq_some.mp h
    obtain rfl := Option.some.inj h
    cases signo with
    | term => exact .terminate (by simp) hr ha
    | int => exact .terminate (by simp) hr ha
    | hup => exact .reload hr ha
  | request =>
    obtain ⟨ht, h⟩ := Option.ite_none_left_eq_some.mp h
    obtain rfl := Option.some.inj h
    exact .request ht
  | stop =>
    obtain ⟨⟨hr, hp⟩, h⟩ := Option.ite_none_right_eq_some.mp h
    obtain rfl := Option.some.inj h
    rcases thread_of_runs hr with ht | ht
    · rw [if_pos ht]
      exact .stop ht hp
    · rw [if_neg (by simp [ht])]
      exact .stopAgain ht hp
  | connect =>
    obtain ⟨⟨hr, ha⟩, h⟩ := Option.ite_none_right_eq_some.mp h
    obtain rfl := Option.some.inj h
    exact .connect hr ha
  | accept =>
    obtain ⟨hr, h⟩ := Option.ite_none_right_eq_some.mp h
    rw [acceptResumed] at h
    split at h
    case h_1 ha =>
      split_ifs at h with hf
      · obtain rfl := Option.some.inj h
        exact .accept hr ha hf
      · obtain rfl := Option.some.inj h
        exact .acceptGone hr ha (Bool.eq_false_iff.mpr hf)
    case h_2 ha =>
      obtain rfl := Option.some.inj h
      exact .acceptAborted hr ha
    case h_3 => cases h
    case h_4 => cases h
  | disconnect =>
    obtain ⟨⟨hr, hc⟩, h⟩ := Option.ite_none_right_eq_some.mp h
    obtain rfl := Option.some.inj h
    exact .disconnect hr hc
  | spawn =>
    obtain ⟨hr, h⟩ := Option.ite_none_right_eq_some.mp h
    obtain rfl := Option.some.inj h
    exact .spawn hr
  | finish =>
    obtain ⟨⟨hr, hc⟩, h⟩ := Option.ite_none_right_eq_some.mp h
    obtain rfl := Option.some.inj h
    exact .finish hr hc
  | stopSubsystems =>
    obtain ⟨ht, h⟩ := Option.ite_none_right_eq_some.mp h
    obtain rfl := Option.some.inj h
    exact .stopSubsystems ht
  | exit =>
    obtain ⟨⟨ht, ho⟩, h⟩ := Option.ite_none_right_eq_some.mp h
    obtain rfl := Option.some.inj h
    exact .exit ht ho

/-- A shutdown is asked for once, whoever asks. -/
theorem requestShutdown_eq (app : App) : requestShutdown app =
    { app with shuttingDown := true, stopPosted := app.stopPosted || !app.shuttingDown } := by
  rcases app with ⟨config, armed, shuttingDown, stopPosted, thread⟩
  cases shuttingDown <;> simp [requestShutdown]

/-! ### The configuration in force -/

/-- The configuration that a signal brings. -/
def Event.brings (y : YamlCpp Node) (path : String) : Event Node → Option LoadedConfig
  | .signal .hup file => (load y path file).toOption
  | _ => none

theorem config_happen (h : happen y path app e = some app') :
    app'.config = (e.brings y path).getD app.config := by
  cases happens_of_happen h with
  | @terminate signo file hs _ _ =>
    have hnone : (Event.signal signo file).brings y path = none := by
      cases signo with
      | term => rfl
      | int => rfl
      | hup => exact absurd rfl hs
    rw [requestShutdown_eq, hnone]
    rfl
  | @reload file _ _ =>
    show reload y path file app.config = ((load y path file).toOption).getD app.config
    rw [reload]
    cases load y path file <;> rfl
  | request _ => rw [requestShutdown_eq]; rfl
  | stop _ _ | stopAgain _ _ | connect _ _ | accept _ _ _ | acceptGone _ _ _ | acceptAborted _ _
  | disconnect _ _ | spawn _ | finish _ _ | stopSubsystems _ | exit _ _ => rfl

/-- **The configuration in force** is the last one that could be loaded. -/
theorem config_run : ∀ {as : List (Event Node)} {app app' : App},
    run (happen y path) app as = some app' →
      app'.config = (as.filterMap (Event.brings y path)).getLastD app.config
  | [], app, app', hr => by
    obtain rfl : app = app' := by simpa using hr
    rfl
  | e :: as, app, app', hr => by
    obtain ⟨t, ht, hr⟩ := run_cons_eq_some.mp hr
    rw [config_run hr, config_happen ht]
    cases hb : e.brings y path with
    | none =>
      rw [List.filterMap_cons_none hb]
      rfl
    | some config =>
      rw [List.filterMap_cons_some hb, List.getLastD_cons]
      rfl

theorem wellFormed_of_load {file : Option (Except String Node)} {config : LoadedConfig}
    (h : load y path file = .ok config) : WellFormed config.toConfig := by
  rw [load.eq_def] at h
  split at h
  case h_3 root =>
    split at h
    case h_3 config' _ =>
      split at h
      case h_2 hv =>
        obtain rfl := Except.ok.inj h
        exact validate_eq_none_iff.mp hv
      case h_1 => exact absurd h (by simp)
    case h_1 => exact absurd h (by simp)
    case h_2 => exact absurd h (by simp)
  case h_1 => exact absurd h (by simp)
  case h_2 => exact absurd h (by simp)

/-- What is in force stays well formed, whatever is in the file when a signal comes. -/
theorem wellFormed_run {as : List (Event Node)} (h : WellFormed app.config.toConfig)
    (hr : run (happen y path) app as = some app') : WellFormed app'.config.toConfig := by
  refine preserved_run (I := fun app => WellFormed app.config.toConfig) ?_ h hr
  intro app e app' h hs
  rw [config_happen hs]
  cases hb : e.brings y path with
  | none => exact h
  | some config =>
    obtain ⟨file, hload⟩ : ∃ file, load y path file = .ok config := by
      rw [Event.brings.eq_def] at hb
      split at hb
      case h_1 file =>
        cases hl : load y path file with
        | ok config' =>
          rw [hl] at hb
          exact ⟨file, hl.trans (congrArg _ (Option.some.inj hb))⟩
        | error e =>
          rw [hl] at hb
          exact absurd hb.symm (Option.some_ne_none _)
      case h_2 => exact absurd hb.symm (Option.some_ne_none _)
    exact wellFormed_of_load hload

/-- **The configuration in force.** In every run of an application that was started with a
configuration the validator accepts, the one in force is the last that a SIGHUP could load, or else
the one of the start, and it is well formed. -/
theorem config_in_force (y : YamlCpp Node) (path : String) (config : LoadedConfig)
    (hconfig : validate config.toConfig = none) (as : List (Event Node)) (app : App)
    (hr : run (happen y path) (started config) as = some app) :
    app.config = (as.filterMap (Event.brings y path)).getLastD config ∧
      WellFormed app.config.toConfig := by
  have hstart : WellFormed (started config).config.toConfig := validate_eq_none_iff.mp hconfig
  exact ⟨config_run hr, wellFormed_run hstart hr⟩

/-- Of two signals the first brings a port, and the second a document without a node. -/
theorem config_in_force_port : ∃ app, run (happen plainScalars "dbmesh.yaml")
      (started (oneBackendConfig 3306 1))
      [.signal .hup (some (.ok (oneBackend "3307" "70"))), .signal .hup (some (.ok (.map [])))] =
        some app ∧
    app.config = oneBackendConfig 3307 70 := by
  obtain ⟨app, happ⟩ : ∃ app, run (happen plainScalars "dbmesh.yaml")
      (started (oneBackendConfig 3306 1))
      [.signal .hup (some (.ok (oneBackend "3307" "70"))), .signal .hup (some (.ok (.map [])))] =
        some app := ⟨_, rfl⟩
  obtain ⟨hlast, -⟩ := config_in_force plainScalars "dbmesh.yaml" (oneBackendConfig 3306 1)
    (by decide +kernel) _ app happ
  refine ⟨app, happ, hlast.trans ?_⟩
  decide +kernel

/-! ### The waits that go on -/

/-- What the flags say about each other. -/
structure Sound (app : App) : Prop where
  armed : app.shuttingDown = false → app.armed = true
  posted : app.thread = .running → app.stopPosted = app.shuttingDown
  shut : app.thread ≠ .running → app.shuttingDown = true ∧ app.stopPosted = false
  alive : app.thread = .running ∨ app.thread = .stopped →
    app.dangling = false ∧ app.accept ≠ .aborted ∧ (app.frontend = false → app.accept = .ended)
  gone : app.thread = .draining ∨ app.thread = .exited →
    app.frontend = false ∧ app.accept ≠ .waiting

theorem sound_started (config : LoadedConfig) : Sound (started config) where
  armed := fun _ => rfl
  posted := fun _ => rfl
  shut := fun h => absurd rfl h
  alive := fun _ => by
    refine ⟨rfl, ?_, fun h => ?_⟩
    · rw [started]
      split_ifs <;> simp
    · exact if_neg (by rw [show config.listeners.mysql.enabled = false from h]; simp)
  gone := fun h => by rcases h with h | h <;> cases h

theorem Sound.shutdown (S : Sound app) (b : Bool) :
    Sound (requestShutdown { app with armed := b }) := by
  rw [requestShutdown_eq]
  refine ⟨fun h => absurd h (by simp), fun ht => ?_, fun ht => ⟨rfl, ?_⟩, S.alive, S.gone⟩
  · show (app.stopPosted || !app.shuttingDown) = true
    rw [S.posted ht]
    cases app.shuttingDown <;> rfl
  · show (app.stopPosted || !app.shuttingDown) = false
    rw [(S.shut ht).1, (S.shut ht).2]
    rfl

theorem Sound.step (S : Sound app) (h : happen y path app e = some app') : Sound app' := by
  cases happens_of_happen h with
  | terminate _ _ _ => exact S.shutdown false
  | reload _ _ =>
    refine ⟨fun h => ?_, S.posted, S.shut, S.alive, S.gone⟩
    show (!app.shuttingDown) = true
    rw [show app.shuttingDown = false from h]
    rfl
  | request _ => exact S.shutdown app.armed
  | stop ht hp =>
    refine ⟨S.armed, (fun h => by cases h), fun _ => ⟨?_, rfl⟩, fun _ => S.alive (.inl ht), ?_⟩
    · exact (S.posted ht).symm.trans hp
    · rintro (h | h) <;> cases h
  | stopAgain ht hp =>
    have hnot : app.stopPosted = false := (S.shut (by simp [ht])).2
    cases hnot.symm.trans hp
  | connect hr ha =>
    refine ⟨S.armed, S.posted, S.shut, fun ht => ?_, fun ht => ?_⟩
    · refine ⟨(S.alive ht).1, by simp, fun hf => ?_⟩
      cases ha.symm.trans ((S.alive ht).2.2 hf)
    · exact absurd ha (S.gone ht).2
  | accept hr ha hf =>
    refine ⟨S.armed, S.posted, S.shut, fun ht => ?_, fun ht => ?_⟩
    · refine ⟨(S.alive ht).1, by simp, fun hnot => ?_⟩
      cases hf.symm.trans hnot
    · cases hf.symm.trans (S.gone ht).1
  | acceptGone hr ha hf =>
    refine ⟨S.armed, S.posted, S.shut, fun ht => ?_, fun ht => ⟨hf, by simp⟩⟩
    cases ha.symm.trans ((S.alive ht).2.2 hf)
  | acceptAborted hr ha =>
    refine ⟨S.armed, S.posted, S.shut, fun ht => ?_, fun ht => ⟨(S.gone ht).1, by simp⟩⟩
    exact absurd ha (S.alive ht).2.1
  | disconnect _ _ | spawn _ | finish _ _ => exact ⟨S.armed, S.posted, S.shut, S.alive, S.gone⟩
  | stopSubsystems ht =>
    have hshut := S.shut (by simp [ht])
    refine ⟨S.armed, (fun h => by cases h), fun _ => hshut, ?_, fun _ => ⟨rfl, ?_⟩⟩
    · rintro (h | h) <;> cases h
    · show (if app.accept = .waiting then .aborted else app.accept) ≠ .waiting
      split_ifs with hw
      · simp
      · exact hw
  | exit ht _ =>
    have hshut := S.shut (by simp [ht])
    refine ⟨S.armed, (fun h => by cases h), fun _ => hshut, ?_, fun _ => S.gone (.inl ht)⟩
    rintro (h | h) <;> cases h

theorem sound_run {as : List (Event Node)}
    (hr : run (happen y path) (started config) as = some app) : Sound app :=
  preserved_run (fun _ _ _ S h => Sound.step S h) (sound_started config) hr

/-- A signal that is not followed by another wait: any but SIGHUP, and any after a request. The
flag tells whether there has been a request. -/
def signalled : Bool → List (Event Node) → Bool
  | _, [] => false
  | requested, .signal signo _ :: as => signo != .hup || requested || signalled requested as
  | _, .request :: as => signalled true as
  | requested, .stop :: as | requested, .connect :: as | requested, .accept :: as
  | requested, .disconnect :: as | requested, .spawn :: as | requested, .finish :: as
  | requested, .stopSubsystems :: as | requested, .exit :: as => signalled requested as

/-- Nothing arms the signals again once they are not waited for. -/
theorem armed_run : ∀ {as : List (Event Node)} {app app' : App},
    run (happen y path) app as = some app' →
    (app'.armed = false ↔ app.armed = false ∨ signalled app.shuttingDown as = true)
  | [], app, app', hr => by
    obtain rfl : app = app' := by simpa using hr
    simp [signalled]
  | e :: as, app, app', hr => by
    obtain ⟨t, ht, hr⟩ := run_cons_eq_some.mp hr
    rw [armed_run hr]
    cases happens_of_happen ht with
    | @terminate signo _ hs _ _ =>
      rw [requestShutdown_eq]
      simp [signalled, hs]
    | reload _ ha => cases app.shuttingDown <;> simp [signalled, ha]
    | request _ =>
      rw [requestShutdown_eq]
      rfl
    | stop _ _ | stopAgain _ _ | connect _ _ | accept _ _ _ | acceptGone _ _ _
    | acceptAborted _ _ | disconnect _ _ | spawn _ | finish _ _ | stopSubsystems _ | exit _ _ => rfl

/-! ### The second `run()` -/

def Event.isSignal : Event Node → Bool
  | .signal _ _ => true
  | .request | .stop | .connect | .accept | .disconnect | .spawn | .finish | .stopSubsystems
  | .exit => false

/-- Without a signal the wait for one goes on, and with it every `run()`. -/
theorem armed_of_silent (S : Sound app) (ha : app.armed = true) (ht : app.thread ≠ .exited)
    (he : e.isSignal = false) (h : happen y path app e = some app') :
    app'.armed = true ∧ app'.thread ≠ .exited := by
  cases happens_of_happen h with
  | terminate _ _ _ => cases he
  | reload _ _ => cases he
  | request _ =>
    rw [requestShutdown_eq]
    exact ⟨ha, ht⟩
  | stop _ _ => exact ⟨ha, by simp⟩
  | stopAgain hd hp => cases ((S.shut (by simp [hd])).2).symm.trans hp
  | connect _ _ | accept _ _ _ | acceptGone _ _ _ | acceptAborted _ _ | disconnect _ _ | spawn _
  | finish _ _ => exact ⟨ha, ht⟩
  | stopSubsystems _ => exact ⟨ha, by simp [stopSubsystems]⟩
  | exit _ ho => simp [App.outstanding, ha] at ho

/-- What is still to end: the accept loop, the connections and the coroutines of the pools. -/
def App.left (app : App) : ℕ :=
  (if app.accept = .ended then 0 else 1) + app.connections + app.coroutines

/-- The second `run()` with no signal to come, or what it leaves. -/
structure Leaving (app : App) : Prop where
  thread : app.thread = .draining ∨ (app.thread = .exited ∧ app.left = 0)
  armed : app.armed = false
  shut : app.shuttingDown = true ∧ app.stopPosted = false
  accept : app.accept = .aborted ∨ app.accept = .ended

theorem Leaving.draining_of_runs (L : Leaving app) (hr : app.runs = true) :
    app.thread = .draining := by
  refine L.thread.resolve_right fun h => ?_
  rw [App.runs, h.1] at hr
  cases hr

theorem Leaving.outstanding_iff (L : Leaving app) : app.outstanding = false ↔ app.left = 0 := by
  rw [App.outstanding, L.armed, L.shut.2, App.left]
  rcases L.accept with h | h <;> simp [h]

theorem Leaving.step (L : Leaving app) (h : happen y path app e = some app') : Leaving app' := by
  cases happens_of_happen h with
  | terminate _ _ ha => cases L.armed.symm.trans ha
  | reload _ ha => cases L.armed.symm.trans ha
  | request _ =>
    rw [requestShutdown, if_pos L.shut.1]
    exact L
  | stop _ hp => cases L.shut.2.symm.trans hp
  | stopAgain _ hp => cases L.shut.2.symm.trans hp
  | connect _ ha => rcases L.accept with h | h <;> cases h.symm.trans ha
  | accept _ ha _ => rcases L.accept with h | h <;> cases h.symm.trans ha
  | acceptGone _ ha _ => rcases L.accept with h | h <;> cases h.symm.trans ha
  | acceptAborted hr _ => exact ⟨.inl (L.draining_of_runs hr), L.armed, L.shut, .inr rfl⟩
  | disconnect hr _ => exact ⟨.inl (L.draining_of_runs hr), L.armed, L.shut, L.accept⟩
  | spawn hr => exact ⟨.inl (L.draining_of_runs hr), L.armed, L.shut, L.accept⟩
  | finish hr _ => exact ⟨.inl (L.draining_of_runs hr), L.armed, L.shut, L.accept⟩
  | stopSubsystems ht => rcases L.thread with h | ⟨h, -⟩ <;> cases h.symm.trans ht
  | exit _ ho => exact ⟨.inr ⟨rfl, L.outstanding_iff.mp ho⟩, L.armed, L.shut, L.accept⟩

/-- What is left can end, one after the other. -/
theorem Leaving.exists_less (L : Leaving app) (hpos : 0 < app.left) :
    ∃ e app', e.isSignal = false ∧ happen y path app e = some app' ∧ app'.left < app.left := by
  have ht : app.thread = .draining :=
    L.thread.resolve_right fun h => Nat.pos_iff_ne_zero.mp hpos h.2
  have hruns : app.runs = true := by
    rw [App.runs, ht]
  by_cases hended : app.accept = .ended
  · by_cases hconn : app.connections = 0
    · have hcor : app.coroutines ≠ 0 := by
        intro hzero
        simp [App.left, hended, hconn, hzero] at hpos
      refine ⟨.finish, { app with coroutines := app.coroutines - 1 }, rfl,
        if_pos ⟨hruns, hcor⟩, ?_⟩
      simp only [App.left]
      omega
    · refine ⟨.disconnect, { app with connections := app.connections - 1 }, rfl,
        if_pos ⟨hruns, hconn⟩, ?_⟩
      simp only [App.left]
      omega
  · have haborted := L.accept.resolve_right hended
    refine ⟨.accept, { app with accept := .ended }, rfl, ?_, ?_⟩
    · rw [happen, if_pos hruns, acceptResumed, haborted]
    · simp only [App.left, if_true, if_neg hended]
      omega

theorem Leaving.exists_exit (y : YamlCpp Node) (path : String) (L : Leaving app) :
    ∃ es app', (∀ e ∈ es, e.isSignal = false) ∧ run (happen y path) app es = some app' ∧
      app'.thread = .exited := by
  have hkeep : ∀ (t : App) (e : Event Node) (t' : App),
      Leaving t → happen y path t e = some t' → Leaving t' := fun _ _ _ L h => L.step h
  obtain ⟨es, t, hes, -, hr, hzero⟩ :=
    exists_run_zero hkeep (fun _ L hpos => L.exists_less hpos) L
  have L' := preserved_run hkeep L hr
  rcases L'.thread with ht | ⟨ht, -⟩
  · refine ⟨es ++ [.exit], { t with thread := .exited }, ?_, ?_, rfl⟩
    · exact List.forall_mem_append.mpr ⟨hes, List.forall_mem_singleton.mpr rfl⟩
    · refine run_append_eq_some.mpr ⟨t, hr, ?_⟩
      rw [run_singleton]
      exact if_pos ⟨ht, L'.outstanding_iff.mpr hzero⟩
  · exact ⟨es, t, hes, hr, ht⟩

/-- One backend, and the MySQL listener on. -/
def listening : LoadedConfig :=
  { oneBackendConfig 3306 1 with listeners := { mysql := { enabled := true, port := 3306 } } }

/-- The accept loop has no socket any more. -/
structure Quiet (app : App) : Prop where
  thread : app.thread ≠ .running
  shut : app.shuttingDown = true ∧ app.stopPosted = false
  ready : app.accept ≠ .ready
  waiting : app.thread = .stopped ∨ app.accept ≠ .waiting
  safe : app.dangling = false

theorem Quiet.step (Q : Quiet app) (h : happen y path app e = some app') : Quiet app' := by
  have hnot : ∀ {b : App}, b.runs = true → b.thread ≠ .stopped := by
    intro b hr hs
    rw [App.runs, hs] at hr
    cases hr
  cases happens_of_happen h with
  | terminate _ _ _ =>
    rw [requestShutdown, if_pos Q.shut.1]
    exact ⟨Q.thread, Q.shut, Q.ready, Q.waiting, Q.safe⟩
  | request _ =>
    rw [requestShutdown, if_pos Q.shut.1]
    exact Q
  | reload _ _ => exact ⟨Q.thread, Q.shut, Q.ready, Q.waiting, Q.safe⟩
  | stop ht _ => exact absurd ht Q.thread
  | stopAgain _ hp => cases Q.shut.2.symm.trans hp
  | connect hr ha => exact absurd ha (Q.waiting.resolve_left (hnot hr))
  | accept _ ha _ => exact absurd ha Q.ready
  | acceptGone _ ha _ => exact absurd ha Q.ready
  | acceptAborted _ _ => exact ⟨Q.thread, Q.shut, by simp, .inr (by simp), Q.safe⟩
  | disconnect _ _ | spawn _ | finish _ _ => exact ⟨Q.thread, Q.shut, Q.ready, Q.waiting, Q.safe⟩
  | stopSubsystems _ =>
    refine ⟨by simp [stopSubsystems], Q.shut, ?_, .inr ?_, Q.safe⟩
    · show (if app.accept = .waiting then .aborted else app.accept) ≠ .ready
      split_ifs
      · simp
      · exact Q.ready
    · show (if app.accept = .waiting then .aborted else app.accept) ≠ .waiting
      split_ifs with hw
      · simp
      · exact hw
  | exit ht _ =>
    refine ⟨by simp, Q.shut, Q.ready, .inr (Q.waiting.resolve_left ?_), Q.safe⟩
    simp [ht]

end DBMesh.Application
