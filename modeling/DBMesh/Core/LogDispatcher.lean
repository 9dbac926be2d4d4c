import DBMesh.Lib.Transition
import DBMesh.Core.LogFormat

/-!
# The log dispatcher

`core/src/logger.cpp`: one dispatcher for the whole process. Producers push entries into its queue,
a writer thread swaps the queue for an empty one and writes what it took, and `shutdown` sets a
flag and waits for the writer to return. Every critical section is one step here, and so are the
writer's exit check and each call of `write_entry`; the steps of the threads interleave in any
order.

The flag is never taken back. In the first cycle of `init` and `shutdown` every entry pushed before
the shutdown reaches the sinks; in a later one the writer finds the flag set and may return at once,
with nobody left to write what is pushed after that. Nor does anything look at `logging.output`: a
name that is none of the three is a cycle without a sink.

## Scope

A sink is the list of the lines it was given: a call of `fputs` on a standard stream, a call of
`write` on the file sink. What becomes of the lines of the file on disk is in
`DBMesh.Core.RotatingFile`. The file sink may fail to open, in either of the two ways its
constructor has, and then `init` throws with the level, the format and the standard streams already
set.

Left out are the registry of loggers, which `push` does not use, and a call of `init` while there is
a writer to join: a thread that is joinable cannot be assigned to, and the header has `init` called
once. The reads of the level by producers and of the settings by the writer, which no lock covers,
are single steps.

## Main definitions

* `Dispatcher` — the state of the process-wide dispatcher, with the lines of its sinks
* `Action`, `step` — the atomic steps of the producers, the writer, `init` and `shutdown`
* `Written` — the sinks have gained the lines of some entries, each of them once and in order
* `Delivers` — the next cycle writes, in every interleaving, what is pushed before its shutdown

## Main results

* `Course.step` — what a step does to the entries written, in flight and queued
* `exists_run_exited` — once the flag is set, the writer comes to its end by its own steps
* `delivers_iff` — a cycle delivers exactly if no shutdown came before it and its output is one of
  the three
-/

namespace DBMesh.Logger

/-- The fields of the configuration that `start` reads, the limits of the file apart. -/
structure LoggingConfig where
  level : String := "INFO"
  format : String := "json"
  output : String := "stdout"
  path : String := "/var/log/dbmesh/dbmesh.log"
  deriving DecidableEq, Repr

/-- Where the writer thread is in its loop: not started or joined, before the wait, with the rest
of a batch to write, or returned. It makes its exit check when the batch is written. -/
inductive Writer
  | absent
  | waiting
  | writing (batch : List LogEntry)
  | exited
  deriving DecidableEq, Repr

/-- The rest of the batch. -/
def Writer.batch : Writer → List LogEntry
  | .writing batch => batch
  | _ => []

/-- Where a line can go. -/
inductive Sink
  | stdout
  | stderr
  | file
  deriving DecidableEq, Repr

structure Dispatcher where
  queue : List LogEntry := []
  shutdownFlag : Bool := false
  writer : Writer := .absent
  /-- A call of `stop` has set the flag and waits for the writer. -/
  stopping : Bool := false
  minLevel : LogLevel := .info
  jsonFormat : Bool := true
  toStdout : Bool := true
  fileSink : Bool := false
  stdout : List (List UInt8) := []
  stderr : List (List UInt8) := []
  file : List (List UInt8) := []
  deriving DecidableEq, Repr

/-- What the constructor of the file sink meets. -/
inductive Opening
  | opened
  /-- `create_directories` throws. -/
  | noDirectory (what : String)
  /-- The stream is not open. -/
  | notOpened
  deriving DecidableEq, Repr

def openSink (path : String) : Opening → Except String Unit
  | .opened => .ok ()
  | .noDirectory what => .error what
  | .notOpened => .error ("cannot open log file: " ++ path)

/-- The line that `write_entry` makes of an entry. -/
def lineOf (json : Bool) (e : LogEntry) : List UInt8 := if json then formatJson e else formatText e

def warns (e : LogEntry) : Bool := LogLevel.warn.toNat ≤ e.level.toNat

namespace Dispatcher

def lines (d : Dispatcher) : Sink → List (List UInt8)
  | .stdout => d.stdout
  | .stderr => d.stderr
  | .file => d.file

def push (d : Dispatcher) (e : LogEntry) : Dispatcher :=
  if e.level.toNat < d.minLevel.toNat then d else { d with queue := d.queue ++ [e] }

def writeEntry (d : Dispatcher) (e : LogEntry) : Dispatcher :=
  let line := lineOf d.jsonFormat e
  { d with
    stdout := if d.toStdout && !warns e then d.stdout ++ [line] else d.stdout
    stderr := if d.toStdout && warns e then d.stderr ++ [line] else d.stderr
    file := if d.fileSink then d.file ++ [line] else d.file }

/-- A level that is not known throws before anything is assigned, a file that cannot be opened
throws after the first three assignments. The flag stays as it is, and so does a file sink of an
earlier cycle. -/
def start (d : Dispatcher) (cfg : LoggingConfig) (opening : Opening) :
    Except String Unit × Dispatcher :=
  match parseLogLevel cfg.level with
  | .error msg => (.error msg, d)
  | .ok level =>
    let d := { d with
      minLevel := level
      jsonFormat := cfg.format == "json"
      toStdout := cfg.output == "stdout" || cfg.output == "both" }
    if cfg.output == "file" || cfg.output == "both" then
      match openSink cfg.path opening with
      | .error msg => (.error msg, d)
      | .ok () => (.ok (), { d with fileSink := true, writer := .waiting })
    else (.ok (), { d with writer := .waiting })

end Dispatcher

inductive Action
  /-- `Logger::init`. -/
  | init (cfg : LoggingConfig) (opening : Opening)
  /-- A producer's `push`. -/
  | push (e : LogEntry)
  /-- The writer's wait is over, and it takes the queue. -/
  | swap
  /-- The writer writes the next entry of its batch. -/
  | write
  /-- The writer's exit check, after the batch. -/
  | check
  /-- `Logger::shutdown` sets the flag. -/
  | stop
  /-- `Logger::shutdown` has joined the writer and returns. -/
  | join
  deriving DecidableEq, Repr

/-- The steps. An `init` that throws leaves what it has assigned by then; a `stop` without a writer
has nothing to join. -/
def step (d : Dispatcher) : Action → Option Dispatcher
  | .init cfg opening => if d.writer = .absent then some (d.start cfg opening).2 else none
  | .push e => some (d.push e)
  | .swap =>
    if d.writer = .waiting ∧ (d.queue ≠ [] ∨ d.shutdownFlag) then
      some { d with writer := .writing d.queue, queue := [] }
    else none
  | .write =>
    match d.writer with
    | .writing (e :: batch) => some { d.writeEntry e with writer := .writing batch }
    | _ => none
  | .check =>
    match d.writer with
    | .writing [] =>
      some { d with writer := if d.shutdownFlag && d.queue.isEmpty then .exited else .waiting }
    | _ => none
  | .stop => some { d with shutdownFlag := true, stopping := d.writer != .absent }
  | .join =>
    if d.stopping ∧ d.writer = .exited then some { d with writer := .absent, stopping := false }
    else none

/-- What a step can do, with the condition under which it is taken. -/
inductive Steps (d : Dispatcher) : Action → Dispatcher → Prop
  | init (cfg : LoggingConfig) (opening : Opening) (hidle : d.writer = .absent) :
      Steps d (.init cfg opening) (d.start cfg opening).2
  | push (e : LogEntry) : Steps d (.push e) (d.push e)
  | swap (hwait : d.writer = .waiting) (hwake : d.queue ≠ [] ∨ d.shutdownFlag) :
      Steps d .swap { d with writer := .writing d.queue, queue := [] }
  | write {e : LogEntry} {batch : List LogEntry} (hbatch : d.writer = .writing (e :: batch)) :
      Steps d .write { d.writeEntry e with writer := .writing batch }
  | exit (hbatch : d.writer = .writing []) (hflag : d.shutdownFlag) (hqueue : d.queue = []) :
      Steps d .check { d with writer := .exited }
  | again (hbatch : d.writer = .writing []) : Steps d .check { d with writer := .waiting }
  | stop : Steps d .stop { d with shutdownFlag := true, stopping := d.writer != .absent }
  | join (hstop : d.stopping) (hexit : d.writer = .exited) :
      Steps d .join { d with writer := .absent, stopping := false }

theorem steps_of_step {d d' : Dispatcher} {a : Action} (h : step d a = some d') : Steps d a d' := by
  cases a with
  | init cfg opening =>
    simp only [step] at h
    split at h
    · rename_i hidle
      obtain rfl := Option.some.inj h
      exact .init cfg opening hidle
    · cases h
  | push e =>
    obtain rfl := Option.some.inj h
    exact .push e
  | swap =>
    simp only [step] at h
    split at h
    · rename_i hcond
      obtain rfl := Option.some.inj h
      exact .swap hcond.1 hcond.2
    · cases h
  | write =>
    simp only [step] at h
    split at h
    · rename_i e batch hbatch
      obtain rfl := Option.some.inj h
      exact .write hbatch
    · cases h
  | check =>
    simp only [step] at h
    split at h
    · rename_i hbatch
      obtain rfl := Option.some.inj h
      split
      · rename_i hcond
        rw [Bool.and_eq_true, List.isEmpty_iff] at hcond
        exact .exit hbatch hcond.1 hcond.2
      · exact .again hbatch
    · cases h
  | stop =>
    obtain rfl := Option.some.inj h
    exact .stop
  | join =>
    simp only [step] at h
    split at h
    · rename_i hcond
      obtain rfl := Option.some.inj h
      exact .join hcond.1 hcond.2
    · cases h

/-! ### Sinks -/

/-- The sinks of an entry, where the standard streams or the file or both are written to. -/
def sends (console file : Bool) (e : LogEntry) : Sink → Bool
  | .stdout => console && !warns e
  | .stderr => console && warns e
  | .file => file

/-- The lines that go to a sink. -/
def linesTo (takes : LogEntry → Sink → Bool) (json : Bool) (es : List LogEntry) (sink : Sink) :
    List (List UInt8) :=
  (es.filter (takes · sink)).map (lineOf json)

/-- The sinks that the configuration names for an entry. -/
def LoggingConfig.takes (cfg : LoggingConfig) : LogEntry → Sink → Bool :=
  sends (cfg.output == "stdout" || cfg.output == "both")
    (cfg.output == "file" || cfg.output == "both")

/-- The sinks that the dispatcher writes an entry to. -/
def Dispatcher.takes (d : Dispatcher) : LogEntry → Sink → Bool := sends d.toStdout d.fileSink

/-- **Every entry has been written.** The configuration has a sink for each of them, and each sink
has gained the lines of the entries that go there, each of them once and in order. -/
structure Written (cfg : LoggingConfig) (es : List LogEntry) (d d' : Dispatcher) : Prop where
  somewhere : ∀ e ∈ es, ∃ sink, cfg.takes e sink = true
  lines : ∀ sink, d'.lines sink = d.lines sink ++ linesTo cfg.takes (cfg.format == "json") es sink

@[simp] theorem linesTo_nil (takes : LogEntry → Sink → Bool) (json : Bool) (sink : Sink) :
    linesTo takes json [] sink = [] := rfl

theorem linesTo_append (takes : LogEntry → Sink → Bool) (json : Bool) (es es' : List LogEntry)
    (sink : Sink) :
    linesTo takes json (es ++ es') sink =
      linesTo takes json es sink ++ linesTo takes json es' sink := by
  rw [linesTo, List.filter_append, List.map_append]
  rfl

theorem lines_writeEntry (d : Dispatcher) (e : LogEntry) (sink : Sink) :
    (d.writeEntry e).lines sink = d.lines sink ++ linesTo d.takes d.jsonFormat [e] sink := by
  have happend : ∀ (b : Bool) (ls : List (List UInt8)) (line : List UInt8),
      (if b then ls ++ [line] else ls) = ls ++ if b then [line] else [] := by
    intro b ls line
    cases b with
    | true => rfl
    | false => exact (List.append_nil ls).symm
  have hone : linesTo d.takes d.jsonFormat [e] sink =
      if d.takes e sink then [lineOf d.jsonFormat e] else [] := by
    rw [linesTo, List.filter_singleton]
    cases d.takes e sink <;> rfl
  rw [hone]
  cases sink with
  | stdout => exact happend _ _ _
  | stderr => exact happend _ _ _
  | file => exact happend _ _ _

/-- The three outputs there are. -/
def outputs : List String := ["stdout", "file", "both"]

/-- With one of the three outputs every entry has a sink. -/
theorem exists_takes_iff (cfg : LoggingConfig) (e : LogEntry) :
    (∃ sink, cfg.takes e sink = true) ↔ cfg.output ∈ outputs := by
  have hsome : ∀ console file : Bool,
      (∃ sink, sends console file e sink = true) ↔ (console || file) = true := by
    intro console file
    constructor
    · rintro ⟨sink, hsink⟩
      cases sink with
      | stdout => simp [(Bool.and_eq_true_iff.mp hsink).1]
      | stderr => simp [(Bool.and_eq_true_iff.mp hsink).1]
      | file => simp [show file = true from hsink]
    · intro h
      cases file with
      | true => exact ⟨.file, rfl⟩
      | false =>
        rw [Bool.or_false] at h
        subst h
        cases hwarns : warns e with
        | true => exact ⟨.stderr, by simp [sends, hwarns]⟩
        | false => exact ⟨.stdout, by simp [sends, hwarns]⟩
  rw [LoggingConfig.takes, hsome, outputs]
  simp only [Bool.or_eq_true, beq_iff_eq, List.mem_cons, List.not_mem_nil, or_false]
  tauto

/-! ### What is accepted is written, in flight or queued -/

/-- The entry an action adds to the queue, if its level is high enough. -/
def accepted (level : LogLevel) : Action → List LogEntry
  | .push e => if e.level.toNat < level.toNat then [] else [e]
  | _ => []

/-- The entries pushed by a list of actions, those below the level left out. -/
def offered (level : LogLevel) (as : List Action) : List LogEntry := as.flatMap (accepted level)

/-- The dispatcher after an `init` that returns. -/
def Dispatcher.started (d : Dispatcher) (cfg : LoggingConfig) (level : LogLevel) : Dispatcher :=
  { d with
    minLevel := level
    jsonFormat := cfg.format == "json"
    toStdout := cfg.output == "stdout" || cfg.output == "both"
    fileSink := (cfg.output == "file" || cfg.output == "both") || d.fileSink
    writer := .waiting }

/-- An `init` that returns has made all its assignments; one that throws has no writer to show. -/
theorem start_cases (d : Dispatcher) (cfg : LoggingConfig) (opening : Opening) :
    (∃ level, parseLogLevel cfg.level = .ok level ∧
        d.start cfg opening = (.ok (), d.started cfg level)) ∨
      ((∃ msg, (d.start cfg opening).1 = .error msg) ∧
        (d.start cfg opening).2.writer = d.writer ∧
        (d.start cfg opening).2.shutdownFlag = d.shutdownFlag ∧
        (d.start cfg opening).2.stopping = d.stopping ∧
        (d.start cfg opening).2.fileSink = d.fileSink) := by
  rw [Dispatcher.start]
  cases parseLogLevel cfg.level with
  | error msg => exact .inr ⟨⟨msg, rfl⟩, rfl, rfl, rfl, rfl⟩
  | ok level =>
    dsimp only
    split_ifs with hfile
    · cases openSink cfg.path opening with
      | error msg => exact .inr ⟨⟨msg, rfl⟩, rfl, rfl, rfl, rfl⟩
      | ok u =>
        refine .inl ⟨level, rfl, ?_⟩
        rw [Dispatcher.started, hfile]
        rfl
    · refine .inl ⟨level, rfl, ?_⟩
      rw [Dispatcher.started, Bool.eq_false_iff.mpr hfile]
      rfl

theorem start_ok {d : Dispatcher} {cfg : LoggingConfig} {opening : Opening} {level : LogLevel}
    (hlevel : parseLogLevel cfg.level = .ok level) (h : (d.start cfg opening).1 = .ok ()) :
    (d.start cfg opening).2 = d.started cfg level := by
  obtain ⟨level', hlevel', hstart⟩ | ⟨⟨msg, hmsg⟩, -⟩ := start_cases d cfg opening
  · obtain rfl : level' = level := Except.ok.inj (hlevel'.symm.trans hlevel)
    rw [hstart]
  · rw [hmsg] at h
    cases h

@[simp] theorem lines_started (d : Dispatcher) (cfg : LoggingConfig) (level : LogLevel)
    (sink : Sink) : (d.started cfg level).lines sink = d.lines sink := by
  cases sink <;> rfl

theorem push_spec (d : Dispatcher) (e : LogEntry) :
    (d.push e).writer = d.writer ∧ (d.push e).shutdownFlag = d.shutdownFlag ∧
      (d.push e).stopping = d.stopping ∧ (d.push e).fileSink = d.fileSink ∧
      (d.push e).queue = d.queue ++ accepted d.minLevel (.push e) := by
  rw [Dispatcher.push, accepted]
  split
  · exact ⟨rfl, rfl, rfl, rfl, (List.append_nil _).symm⟩
  · exact ⟨rfl, rfl, rfl, rfl, rfl⟩

/-- How far a cycle has come that began in `base`: of the entries `es` the first, `done`, have been
written, and the others are in flight or queued. -/
structure Course (cfg : LoggingConfig) (level : LogLevel) (base : Dispatcher)
    (es done : List LogEntry) (d : Dispatcher) : Prop where
  order : done ++ (d.writer.batch ++ d.queue) = es
  lines : ∀ sink, d.lines sink =
    base.lines sink ++ linesTo cfg.takes (cfg.format == "json") done sink
  level : d.minLevel = level
  format : d.jsonFormat = (cfg.format == "json")
  takes : d.takes = cfg.takes

section

variable {cfg : LoggingConfig} {level : LogLevel} {base d d' : Dispatcher} {a : Action}
  {es done : List LogEntry}

/-- **A step of a cycle.** A push adds an entry at the end, a `write` writes the first of those in
flight, and every other step only moves entries along. -/
theorem Course.step (h : Course cfg level base es done d) (ha : ∀ c o, a ≠ .init c o)
    (hstep : step d a = some d') :
    ∃ done', done <+: done' ∧ Course cfg level base (es ++ accepted level a) done' d' := by
  obtain ⟨rfl, hlines, rfl, hformat, htakes⟩ := h
  cases steps_of_step hstep with
  | init c o hidle => exact absurd rfl (ha c o)
  | push e =>
    refine ⟨done, List.prefix_refl _, ?_⟩
    rw [Dispatcher.push, accepted]
    split_ifs
    · exact ⟨(List.append_nil _).symm, hlines, rfl, hformat, htakes⟩
    · exact ⟨by simp, hlines, rfl, hformat, htakes⟩
  | swap hwait hwake =>
    refine ⟨done, List.prefix_refl _, ?_, hlines, rfl, hformat, htakes⟩
    simp [accepted, Writer.batch, hwait]
  | @write e batch hbatch =>
    refine ⟨done ++ [e], List.prefix_append _ _, ?_, fun sink => ?_, rfl, hformat, htakes⟩
    · simp [accepted, Writer.batch, hbatch, Dispatcher.writeEntry]
    · rw [linesTo_append, ← List.append_assoc, ← hlines, ← htakes, ← hformat]
      exact lines_writeEntry d e sink
  | exit hbatch hflag hqueue =>
    refine ⟨done, List.prefix_refl _, ?_, hlines, rfl, hformat, htakes⟩
    simp [accepted, Writer.batch, hbatch]
  | again hbatch =>
    refine ⟨done, List.prefix_refl _, ?_, hlines, rfl, hformat, htakes⟩
    simp [accepted, Writer.batch, hbatch]
  | stop => exact ⟨done, List.prefix_refl _, (List.append_nil _).symm, hlines, rfl, hformat, htakes⟩
  | join hstop hexit =>
    refine ⟨done, List.prefix_refl _, ?_, hlines, rfl, hformat, htakes⟩
    simp [accepted, Writer.batch, hexit]

/-- Along steps that keep an invariant, the entries of the cycle grow by what is offered. -/
theorem course_run {I : List LogEntry → List LogEntry → Dispatcher → Prop} {p : Action → Prop}
    (hstep : ∀ es done d a d', I es done d → p a → Logger.step d a = some d' →
      ∃ done', I (es ++ accepted level a) done' d') {as : List Action} (hI : I es done d)
    (hp : ∀ a ∈ as, p a) (hr : Transition.run Logger.step d as = some d') :
    ∃ done', I (es ++ offered level as) done' d' := by
  induction as generalizing d es done with
  | nil =>
    obtain rfl := Option.some.inj hr
    exact ⟨done, (List.append_nil es).symm ▸ hI⟩
  | cons a as ih =>
    obtain ⟨d₁, hd₁, hr⟩ := Transition.run_cons_eq_some.mp hr
    obtain ⟨ha, has⟩ := List.forall_mem_cons.mp hp
    obtain ⟨done₁, hI₁⟩ := hstep es done d a d₁ hI ha hd₁
    obtain ⟨done', hI'⟩ := ih hI₁ has hr
    refine ⟨done', ?_⟩
    rwa [List.append_assoc] at hI'

end

/-! ### One cycle -/

/-- Between an `init` that found the flag unset and the next `stop`. -/
structure Open (d : Dispatcher) : Prop where
  flag : d.shutdownFlag = false
  stopping : d.stopping = false
  started : d.writer ≠ .absent
  running : d.writer ≠ .exited

theorem Open.step {d d' : Dispatcher} {a : Action} (hd : Open d) (ha : a ≠ .stop)
    (h : step d a = some d') : Open d' := by
  cases steps_of_step h with
  | init c o hidle => exact absurd hidle hd.started
  | push e =>
    obtain ⟨hwriter, hflag, hstopping, -, -⟩ := push_spec d e
    exact ⟨hflag.trans hd.flag, hstopping.trans hd.stopping, hwriter ▸ hd.started,
      hwriter ▸ hd.running⟩
  | swap => exact ⟨hd.flag, hd.stopping, Writer.noConfusion, Writer.noConfusion⟩
  | write => exact ⟨hd.flag, hd.stopping, Writer.noConfusion, Writer.noConfusion⟩
  | exit _ hflag _ => exact absurd (hd.flag.symm.trans hflag) Bool.noConfusion
  | again => exact ⟨hd.flag, hd.stopping, Writer.noConfusion, Writer.noConfusion⟩
  | stop => exact absurd rfl ha
  | join hstop _ => exact absurd (hd.stopping.symm.trans hstop) Bool.noConfusion

/-- From a `stop` until it returns: the entries that are due come first of all, and the writer
does not return without having written them. -/
structure Closing (due es done : List LogEntry) (d : Dispatcher) : Prop where
  started : d.writer ≠ .absent
  first : due <+: es
  exited : d.writer = .exited → due <+: done

theorem Closing.step {cfg : LoggingConfig} {level : LogLevel} {base d d' : Dispatcher} {a : Action}
    {due es es' done done' : List LogEntry} (hd : Closing due es done d) (hes : es <+: es')
    (hcourse : Course cfg level base es' done' d') (hdone : done <+: done') (ha : a ≠ .join)
    (h : step d a = some d') : Closing due es' done' d' := by
  have hfirst : due <+: es' := hd.first.trans hes
  cases steps_of_step h with
  | init c o hidle => exact absurd hidle hd.started
  | push e =>
    have hwriter := (push_spec d e).1
    exact ⟨hwriter ▸ hd.started, hfirst, fun hexit => (hd.exited (hwriter ▸ hexit)).trans hdone⟩
  | swap => exact ⟨Writer.noConfusion, hfirst, Writer.noConfusion⟩
  | write => exact ⟨Writer.noConfusion, hfirst, Writer.noConfusion⟩
  | exit hbatch _ hqueue =>
    refine ⟨Writer.noConfusion, hfirst, fun _ => ?_⟩
    -- the batch is done and the queue is empty, so everything has been written
    have hall : done' = es' := by
      have horder := hcourse.order
      rwa [show ({ d with writer := .exited } : Dispatcher).queue = [] from hqueue,
        show Writer.exited.batch ++ [] = [] from rfl, List.append_nil] at horder
    rwa [hall]
  | again => exact ⟨Writer.noConfusion, hfirst, Writer.noConfusion⟩
  | stop => exact ⟨hd.started, hfirst, fun hexit => (hd.exited hexit).trans hdone⟩
  | join => exact absurd rfl ha

/-- A cycle: what runs between `init` and the call of `shutdown`, and between that call and its
return. -/
def cycle (cfg : LoggingConfig) (opening : Opening) (mid late : List Action) : List Action :=
  .init cfg opening :: (mid ++ .stop :: (late ++ [.join]))

/-- In every interleaving of a cycle that begins here with an `init` that returns, the entries which
are at or above its level and are pushed before its shutdown have been written when the shutdown
returns: each of them once and in the order of the pushes, after what was queued already and before
what is pushed during the shutdown. -/
def Delivers (d : Dispatcher) (cfg : LoggingConfig) : Prop :=
  ∀ opening level mid late d', parseLogLevel cfg.level = .ok level →
    (d.start cfg opening).1 = .ok () → .stop ∉ mid → .join ∉ late →
    Transition.run step d (cycle cfg opening mid late) = some d' →
    ∃ more, more <+: offered level late ∧ Written cfg (d.queue ++ offered level mid ++ more) d d'

/-- The first steps of a cycle, in a process that has no file sink yet. -/
theorem course_of_init {d d' : Dispatcher} {cfg : LoggingConfig} {opening : Opening}
    {level : LogLevel} (hflag : d.shutdownFlag = false) (hstopping : d.stopping = false)
    (hidle : d.writer = .absent) (hsink : d.fileSink = false)
    (hlevel : parseLogLevel cfg.level = .ok level) (hstart : (d.start cfg opening).1 = .ok ())
    (h : step d (.init cfg opening) = some d') :
    Open d' ∧ Course cfg level d d.queue [] d' := by
  rw [step, if_pos hidle, start_ok hlevel hstart] at h
  obtain rfl := Option.some.inj h
  refine ⟨⟨hflag, hstopping, Writer.noConfusion, Writer.noConfusion⟩, rfl, fun sink => ?_, rfl, rfl,
    ?_⟩
  · rw [linesTo_nil, List.append_nil, lines_started]
  · rw [Dispatcher.takes, Dispatcher.started, hsink, Bool.or_false]
    rfl

/-- There is no `init` while there is a writer. -/
theorem ne_init_of_started {d d' : Dispatcher} {a : Action} (hstarted : d.writer ≠ .absent)
    (h : step d a = some d') (c : LoggingConfig) (o : Opening) : a ≠ .init c o := by
  rintro rfl
  cases steps_of_step h with
  | init _ _ hidle => exact hstarted hidle

section

variable {cfg : LoggingConfig} {level : LogLevel} {base d d' : Dispatcher} {as : List Action}
  {es done : List LogEntry}

/-- What runs before the `stop`. -/
theorem open_run (hopen : Open d) (hcourse : Course cfg level base es done d) (has : .stop ∉ as)
    (hr : Transition.run step d as = some d') :
    ∃ done', Open d' ∧ Course cfg level base (es ++ offered level as) done' d' := by
  refine course_run (I := fun es done d => Open d ∧ Course cfg level base es done d)
    (p := (· ≠ .stop)) ?_ ⟨hopen, hcourse⟩ (fun a ha hstop => has (hstop ▸ ha)) hr
  rintro es done d a d' ⟨hopen, hcourse⟩ ha h
  obtain ⟨done', -, hcourse'⟩ := hcourse.step (ne_init_of_started hopen.started h) h
  exact ⟨done', hopen.step ha h, hcourse'⟩

/-- What runs between the `stop` and its return. -/
theorem closing_run {due : List LogEntry} (hclosing : Closing due es done d)
    (hcourse : Course cfg level base es done d) (has : .join ∉ as)
    (hr : Transition.run step d as = some d') :
    ∃ done', Closing due (es ++ offered level as) done' d' ∧
      Course cfg level base (es ++ offered level as) done' d' := by
  refine course_run (I := fun es done d => Closing due es done d ∧ Course cfg level base es done d)
    (p := (· ≠ .join)) ?_ ⟨hclosing, hcourse⟩ (fun a ha hjoin => has (hjoin ▸ ha)) hr
  rintro es done d a d' ⟨hclosing, hcourse⟩ ha h
  obtain ⟨done', hdone, hcourse'⟩ := hcourse.step (ne_init_of_started hclosing.started h) h
  exact ⟨done', hclosing.step (List.prefix_append _ _) hcourse' hdone ha h, hcourse'⟩

/-- The `stop` itself. -/
theorem closing_of_stop (hopen : Open d) (hcourse : Course cfg level base es done d)
    (h : step d .stop = some d') :
    ∃ done', Closing es es done' d' ∧ Course cfg level base es done' d' := by
  obtain ⟨done', -, hcourse'⟩ := hcourse.step (ne_init_of_started hopen.started h) h
  have hnone : es ++ accepted level .stop = es := List.append_nil es
  rw [hnone] at hcourse'
  refine ⟨done', ?_, hcourse'⟩
  cases steps_of_step h with
  | stop =>
    exact ⟨hopen.started, List.prefix_refl es, fun hexit => absurd hexit hopen.running⟩

end

/-- **Where the flag is unset a cycle delivers.** -/
theorem delivers_of_flag_unset {d : Dispatcher} {cfg : LoggingConfig} (hidle : d.writer = .absent)
    (hstopping : d.stopping = false) (hflag : d.shutdownFlag = false) (hsink : d.fileSink = false)
    (hout : cfg.output ∈ outputs) : Delivers d cfg := by
  intro opening level mid late d' hlevel hstart hmid hlate hr
  obtain ⟨d₀, hinit, hr⟩ := Transition.run_cons_eq_some.mp hr
  obtain ⟨d₁, hmidrun, hr⟩ := Transition.run_append_eq_some.mp hr
  obtain ⟨d₂, hstop, hr⟩ := Transition.run_cons_eq_some.mp hr
  obtain ⟨d₃, hlaterun, hr⟩ := Transition.run_append_eq_some.mp hr
  rw [Transition.run_singleton] at hr
  obtain ⟨hopen₀, hcourse₀⟩ := course_of_init hflag hstopping hidle hsink hlevel hstart hinit
  obtain ⟨done₁, hopen₁, hcourse₁⟩ := open_run hopen₀ hcourse₀ hmid hmidrun
  obtain ⟨done₂, hclosing₂, hcourse₂⟩ := closing_of_stop hopen₁ hcourse₁ hstop
  obtain ⟨done₃, hclosing₃, hcourse₃⟩ := closing_run hclosing₂ hcourse₂ hlate hlaterun
  cases steps_of_step hr with
  | join _ hexit =>
    obtain ⟨more, hmore⟩ := hclosing₃.exited hexit
    refine ⟨more, ?_, fun e _ => (exists_takes_iff cfg e).mpr hout, fun sink => ?_⟩
    · have hle : done₃ <+: d.queue ++ offered level mid ++ offered level late :=
        hcourse₃.order ▸ List.prefix_append _ _
      rw [← hmore] at hle
      exact (List.prefix_append_right_inj _).mp hle
    · rw [hmore]
      show d₃.lines sink = _
      exact hcourse₃.lines sink

/-! ### The writer on its own -/

/-- The writer writes the rest of its batch. -/
theorem exists_run_write {batch : List LogEntry} {d : Dispatcher}
    (hbatch : d.writer = .writing batch) :
    ∃ d', Transition.run step d (List.replicate batch.length .write) = some d' ∧
      d'.writer = .writing [] ∧ d'.queue = d.queue ∧ d'.shutdownFlag = d.shutdownFlag ∧
      d'.stopping = d.stopping ∧ d'.minLevel = d.minLevel ∧
      ∀ sink, d'.lines sink = d.lines sink ++ linesTo d.takes d.jsonFormat batch sink := by
  induction batch generalizing d with
  | nil => exact ⟨d, rfl, hbatch, rfl, rfl, rfl, rfl, fun sink => (List.append_nil _).symm⟩
  | cons e batch ih =>
    have hstep : step d .write = some { d.writeEntry e with writer := .writing batch } := by
      rw [step, hbatch]
    obtain ⟨d', hr, hwriter, hqueue, hflag, hstop, hlevel, hlines⟩ := ih (rfl :
      ({ d.writeEntry e with writer := .writing batch } : Dispatcher).writer = .writing batch)
    refine ⟨d', ?_, hwriter, hqueue, hflag, hstop, hlevel, fun sink => ?_⟩
    · rw [List.length_cons, List.replicate_succ]
      exact Transition.run_cons_eq_some.mpr ⟨_, hstep, hr⟩
    · rw [hlines, ← List.singleton_append, linesTo_append, ← List.append_assoc,
        ← lines_writeEntry d e sink]
      rfl

/-- Once the flag is set, a writer that waits takes the queue, writes it and returns. -/
theorem exists_run_exit {d : Dispatcher} (hwait : d.writer = .waiting)
    (hflag : d.shutdownFlag = true) :
    ∃ d', Transition.run step d
        (.swap :: (List.replicate d.queue.length .write ++ [.check])) = some d' ∧
      d'.writer = .exited ∧ d'.stopping = d.stopping ∧ d'.minLevel = d.minLevel ∧
      ∀ sink, d'.lines sink = d.lines sink ++ linesTo d.takes d.jsonFormat d.queue sink := by
  have hswap : step d .swap = some { d with writer := .writing d.queue, queue := [] } := by
    rw [step, if_pos ⟨hwait, .inr hflag⟩]
  obtain ⟨d₁, hr, hwriter, hqueue, hflag₁, hstop, hlevel, hlines⟩ := exists_run_write (rfl :
    ({ d with writer := .writing d.queue, queue := [] } : Dispatcher).writer = .writing d.queue)
  have hcheck : step d₁ .check = some { d₁ with writer := .exited } := by
    simp only [step, hwriter, hqueue, hflag₁, hflag]
    rfl
  refine ⟨{ d₁ with writer := .exited }, ?_, rfl, hstop, hlevel, fun sink => ?_⟩
  · refine Transition.run_cons_eq_some.mpr ⟨_, hswap, ?_⟩
    refine Transition.run_append_eq_some.mpr ⟨d₁, hr, ?_⟩
    rw [Transition.run_singleton, hcheck]
  · show d₁.lines sink = _
    exact hlines sink

/-- The steps of the writer thread. -/
def Action.ofWriter : Action → Bool
  | .swap | .write | .check => true
  | _ => false

theorem ofWriter_write_check {n : Nat} {a : Action}
    (ha : a ∈ List.replicate n Action.write ++ [.check]) : a.ofWriter := by
  rcases List.mem_append.mp ha with ha | ha
  · rw [(List.mem_replicate.mp ha).2]
    rfl
  · rw [List.mem_singleton.mp ha]
    rfl

theorem exists_run_exited_of_waiting {d : Dispatcher} (hwait : d.writer = .waiting)
    (hflag : d.shutdownFlag = true) :
    ∃ as d', (∀ a ∈ as, a.ofWriter) ∧ Transition.run step d as = some d' ∧
      d'.writer = .exited := by
  obtain ⟨d', hr, hexit, -⟩ := exists_run_exit hwait hflag
  refine ⟨_, d', ?_, hr, hexit⟩
  intro a ha
  rcases List.mem_cons.mp ha with rfl | ha
  · rfl
  · exact ofWriter_write_check ha

/-- **A shutdown returns.** Once the flag is set, the writer comes to its end by its own steps,
wherever it is in its loop. -/
theorem exists_run_exited {d : Dispatcher} (hstarted : d.writer ≠ .absent)
    (hflag : d.shutdownFlag = true) :
    ∃ as d', (∀ a ∈ as, a.ofWriter) ∧ Transition.run step d as = some d' ∧
      d'.writer = .exited := by
  cases hwriter : d.writer with
  | absent => exact absurd hwriter hstarted
  | waiting => exact exists_run_exited_of_waiting hwriter hflag
  | exited => exact ⟨[], d, fun a ha => absurd ha List.not_mem_nil, rfl, hwriter⟩
  | writing batch =>
    obtain ⟨d₁, hr₁, hwriter₁, -, hflag₁, -⟩ := exists_run_write hwriter
    -- after the batch comes the exit check, and one more round if something was pushed meanwhile
    have hcheck : step d₁ .check = some { d₁ with
        writer := if d₁.shutdownFlag && d₁.queue.isEmpty then .exited else .waiting } := by
      rw [step, hwriter₁]
    have hr₂ : Transition.run step d (List.replicate batch.length .write ++ [.check]) =
        some { d₁ with
          writer := if d₁.shutdownFlag && d₁.queue.isEmpty then .exited else .waiting } := by
      refine Transition.run_append_eq_some.mpr ⟨d₁, hr₁, ?_⟩
      rw [Transition.run_singleton, hcheck]
    split at hr₂
    · exact ⟨_, _, fun a ha => ofWriter_write_check ha, hr₂, rfl⟩
    · obtain ⟨as, d', hown, hr, hexit⟩ := exists_run_exited_of_waiting
        (rfl : ({ d₁ with writer := .waiting } : Dispatcher).writer = .waiting)
        (hflag₁.trans hflag)
      refine ⟨_ ++ as, d', ?_, Transition.run_append_eq_some.mpr ⟨_, hr₂, hr⟩, hexit⟩
      intro a ha
      rcases List.mem_append.mp ha with ha | ha
      · exact ofWriter_write_check ha
      · exact hown a ha

/-! ### Cycles that lose entries -/

/-- An entry that no level leaves out. -/
def fatalEntry : LogEntry := ⟨.fatal, [], [], 0⟩

theorem accepted_fatalEntry (level : LogLevel) :
    accepted level (.push fatalEntry) = [fatalEntry] := by
  rw [accepted, if_neg]
  cases level <;> decide

/-- With the file open, `init` returns for every level there is. -/
theorem start_opened (d : Dispatcher) {cfg : LoggingConfig} {level : LogLevel}
    (hlevel : parseLogLevel cfg.level = .ok level) : (d.start cfg .opened).1 = .ok () := by
  rw [Dispatcher.start, hlevel]
  dsimp only
  split_ifs <;> rfl

theorem step_init_opened {d : Dispatcher} {cfg : LoggingConfig} {level : LogLevel}
    (hidle : d.writer = .absent) (hlevel : parseLogLevel cfg.level = .ok level) :
    step d (.init cfg .opened) = some (d.started cfg level) := by
  rw [step, if_pos hidle, start_ok hlevel (start_opened d hlevel)]

theorem push_fatalEntry (d : Dispatcher) :
    d.push fatalEntry = { d with queue := d.queue ++ [fatalEntry] } := by
  rw [Dispatcher.push, if_neg]
  cases d.minLevel <;> decide

/-- A writer that has returned is joined at once, whatever is in the queue. -/
theorem run_stop_join {d : Dispatcher} (hexit : d.writer = .exited) :
    Transition.run step d [.stop, .join] =
      some { d with shutdownFlag := true, stopping := false, writer := .absent } := by
  have hstopping : (d.writer != .absent) = true := by
    rw [hexit]
    rfl
  refine Transition.run_cons_eq_some.mpr ⟨_, rfl, ?_⟩
  rw [Transition.run_singleton, step, if_pos ⟨hstopping, hexit⟩]

/-- Without a sink there is nothing an entry could be written to. -/
theorem not_delivers_of_no_sink {d : Dispatcher} {cfg : LoggingConfig} {level : LogLevel}
    (hidle : d.writer = .absent) (hlevel : parseLogLevel cfg.level = .ok level)
    (hout : cfg.output ∉ outputs) : ¬ Delivers d cfg := by
  intro hdelivers
  obtain ⟨d₂, hlate, hexit, hstopping, -, -⟩ := exists_run_exit
    (d := { (d.started cfg level).push fatalEntry with shutdownFlag := true, stopping := true })
    (by rw [push_fatalEntry]; rfl) rfl
  have hstop : step ((d.started cfg level).push fatalEntry) .stop = some
      { (d.started cfg level).push fatalEntry with shutdownFlag := true, stopping := true } := by
    rw [push_fatalEntry]
    rfl
  have hjoin : step d₂ .join = some { d₂ with writer := .absent, stopping := false } := by
    rw [step, if_pos ⟨hstopping, hexit⟩]
  have hr : Transition.run step d (cycle cfg .opened [.push fatalEntry] (.swap ::
      (List.replicate ((d.started cfg level).push fatalEntry).queue.length .write ++ [.check])))
      = some { d₂ with writer := .absent, stopping := false } := by
    refine Transition.run_cons_eq_some.mpr ⟨_, step_init_opened hidle hlevel, ?_⟩
    refine Transition.run_cons_eq_some.mpr ⟨_, rfl, ?_⟩
    refine Transition.run_cons_eq_some.mpr ⟨_, hstop, ?_⟩
    exact Transition.run_append_eq_some.mpr ⟨d₂, hlate, (Transition.run_singleton ..).trans hjoin⟩
  obtain ⟨more, -, hwritten⟩ := hdelivers .opened level _ _ _ hlevel (start_opened d hlevel)
    (by simp) (by simp) hr
  have hmem : fatalEntry ∈ d.queue ++ offered level [.push fatalEntry] ++ more := by
    rw [offered, List.flatMap_singleton, accepted_fatalEntry]
    simp
  exact hout ((exists_takes_iff cfg fatalEntry).mp (hwritten.somewhere _ hmem))

/-- A file sink of an earlier cycle adds to the sinks of the configuration, but not at these. -/
theorem takes_started {cfg : LoggingConfig} {e : LogEntry} {sink : Sink}
    (hsink : cfg.takes e sink = true) (d : Dispatcher) (level : LogLevel) (e' : LogEntry) :
    (d.started cfg level).takes e' sink = cfg.takes e' sink := by
  cases sink with
  | stdout => rfl
  | stderr => rfl
  | file =>
    have hfile : (cfg.output == "file" || cfg.output == "both") = true := hsink
    show ((cfg.output == "file" || cfg.output == "both") || d.fileSink) =
      (cfg.output == "file" || cfg.output == "both")
    rw [hfile]
    rfl

/-- Where the flag is set, the writer of the next cycle may return before its first push: that
entry stays in the queue. -/
theorem not_delivers_of_flag_set {d : Dispatcher} {cfg : LoggingConfig} {level : LogLevel}
    (hidle : d.writer = .absent) (hlevel : parseLogLevel cfg.level = .ok level)
    (hflag : d.shutdownFlag = true) : ¬ Delivers d cfg := by
  intro hdelivers
  obtain ⟨d₁, hr₁, hexit, -, -, hlines⟩ := exists_run_exit (d := d.started cfg level) rfl hflag
  let mid : List Action :=
    .swap :: (List.replicate d.queue.length .write ++ [.check]) ++ [.push fatalEntry]
  have hr : Transition.run step d (cycle cfg .opened mid []) =
      some { d₁ with
        queue := d₁.queue ++ [fatalEntry], shutdownFlag := true, stopping := false,
        writer := .absent } := by
    refine Transition.run_cons_eq_some.mpr ⟨_, step_init_opened hidle hlevel, ?_⟩
    refine Transition.run_append_eq_some.mpr ⟨d₁.push fatalEntry, ?_, ?_⟩
    · exact Transition.run_append_eq_some.mpr ⟨d₁, hr₁, rfl⟩
    · rw [push_fatalEntry]
      exact run_stop_join (d := { d₁ with queue := d₁.queue ++ [fatalEntry] }) hexit
  obtain ⟨more, -, hwritten⟩ := hdelivers .opened level mid [] _ hlevel (start_opened d hlevel)
    (by simp [mid]) List.not_mem_nil hr
  have hmem : fatalEntry ∈ offered level mid ++ more := by
    refine List.mem_append_left _ (List.mem_flatMap.mpr ⟨.push fatalEntry, ?_, ?_⟩)
    · exact List.mem_append_right _ (List.mem_singleton_self _)
    · rw [accepted_fatalEntry]
      exact List.mem_singleton_self _
  obtain ⟨sink, hsink⟩ := hwritten.somewhere fatalEntry
    (by rw [List.append_assoc]; exact List.mem_append_right _ hmem)
  -- what the sink has gained are the lines of the old queue, and no others
  have hall : d₁.lines sink = d.lines sink ++
      linesTo cfg.takes (cfg.format == "json") (d.queue ++ (offered level mid ++ more)) sink := by
    rw [← List.append_assoc, ← hwritten.lines sink]
    cases sink <;> rfl
  have hold : d₁.lines sink =
      d.lines sink ++ linesTo cfg.takes (cfg.format == "json") d.queue sink := by
    rw [hlines sink, lines_started, linesTo, linesTo,
      funext (takes_started hsink d level)]
    rfl
  rw [hold, linesTo_append, ← List.append_assoc] at hall
  have hnil := List.append_right_eq_self.mp hall.symm
  have hfiltered : fatalEntry ∈ (offered level mid ++ more).filter (cfg.takes · sink) :=
    List.mem_filter.mpr ⟨hmem, hsink⟩
  rw [List.map_eq_nil_iff.mp hnil] at hfiltered
  exact absurd hfiltered List.not_mem_nil

/-! ### The cycles of a process -/

/-- The flag is set by every `stop` and never taken back. -/
theorem shutdownFlag_step {d d' : Dispatcher} {a : Action} (h : step d a = some d') :
    d'.shutdownFlag = true ↔ d.shutdownFlag = true ∨ a = .stop := by
  cases steps_of_step h with
  | init cfg opening _ =>
    have hflag : (d.start cfg opening).2.shutdownFlag = d.shutdownFlag := by
      obtain ⟨level, -, hstart⟩ | ⟨-, -, hflag, -⟩ := start_cases d cfg opening
      · rw [hstart]
        rfl
      · exact hflag
    rw [hflag]
    exact ⟨.inl, fun h => h.resolve_right Action.noConfusion⟩
  | push e =>
    rw [(push_spec d e).2.1]
    exact ⟨.inl, fun h => h.resolve_right Action.noConfusion⟩
  | stop => exact ⟨fun _ => .inr rfl, fun _ => rfl⟩
  | _ => exact ⟨.inl, fun h => h.resolve_right Action.noConfusion⟩

theorem shutdownFlag_run {as : List Action} {d d' : Dispatcher}
    (hr : Transition.run step d as = some d') :
    d'.shutdownFlag = true ↔ d.shutdownFlag = true ∨ .stop ∈ as := by
  induction as generalizing d with
  | nil =>
    obtain rfl := Option.some.inj hr
    simp
  | cons a as ih =>
    obtain ⟨d₁, hd₁, hr⟩ := Transition.run_cons_eq_some.mp hr
    rw [ih hr, shutdownFlag_step hd₁, List.mem_cons, or_assoc, eq_comm (a := a)]

/-- Where there is no writer, no `stop` is waiting, and there is a file sink only if there has been
a shutdown. -/
structure Idle (d : Dispatcher) : Prop where
  stopping : d.stopping = true → d.writer ≠ .absent ∧ d.shutdownFlag = true
  sink : d.fileSink = true → d.writer ≠ .absent ∨ d.shutdownFlag = true

theorem Idle.step (d : Dispatcher) (a : Action) (d' : Dispatcher) (hd : Idle d)
    (h : step d a = some d') : Idle d' := by
  obtain ⟨hstopping, hsink⟩ := hd
  cases steps_of_step h with
  | init cfg opening hidle =>
    obtain ⟨level, -, hstart⟩ | ⟨-, hwriter, hflag, hstop, hfile⟩ := start_cases d cfg opening
    · rw [hstart]
      exact ⟨fun hs => ⟨Writer.noConfusion, (hstopping hs).2⟩, fun _ => .inl Writer.noConfusion⟩
    · exact ⟨by rwa [hwriter, hflag, hstop], by rwa [hwriter, hflag, hfile]⟩
  | push e =>
    obtain ⟨hwriter, hflag, hstop, hfile, -⟩ := push_spec d e
    exact ⟨by rwa [hwriter, hflag, hstop], by rwa [hwriter, hflag, hfile]⟩
  | stop => exact ⟨fun hs => ⟨bne_iff_ne.mp hs, rfl⟩, fun _ => .inr rfl⟩
  | join hstop _ => exact ⟨fun hs => Bool.noConfusion hs, fun _ => .inr (hstopping hstop).2⟩
  | _ => exact ⟨fun hs => ⟨Writer.noConfusion, (hstopping hs).2⟩, fun _ => .inl Writer.noConfusion⟩

/-- **The dispatcher delivers in its first cycle, and only there.** From every state that a run of
the process comes to without a writer, the next cycle writes in every interleaving what is pushed
before its shutdown exactly if there has been no shutdown yet and its output is one of the three. -/
theorem delivers_iff {pre : List Action} {d : Dispatcher} {cfg : LoggingConfig} {level : LogLevel}
    (hr : Transition.run step {} pre = some d) (hidle : d.writer = .absent)
    (hlevel : parseLogLevel cfg.level = .ok level) :
    Delivers d cfg ↔ .stop ∉ pre ∧ cfg.output ∈ outputs := by
  have hflag : d.shutdownFlag = true ↔ .stop ∈ pre := by
    rw [shutdownFlag_run hr]
    exact or_iff_right Bool.noConfusion
  have hinit : Idle {} := ⟨fun h => Bool.noConfusion h, fun h => Bool.noConfusion h⟩
  have hstate : Idle d := Transition.preserved_run Idle.step hinit hr
  constructor
  · intro hdelivers
    refine ⟨fun hstop => ?_, by_contra fun hout => ?_⟩
    · exact not_delivers_of_flag_set hidle hlevel (hflag.mpr hstop) hdelivers
    · exact not_delivers_of_no_sink hidle hlevel hout hdelivers
  · rintro ⟨hstop, hout⟩
    have hunset : d.shutdownFlag ≠ true := fun h => hstop (hflag.mp h)
    refine delivers_of_flag_unset hidle ?_ (Bool.eq_false_iff.mpr hunset) ?_ hout
    · exact Bool.eq_false_iff.mpr fun h => (hstate.stopping h).1 hidle
    · exact Bool.eq_false_iff.mpr fun h => (hstate.sink h).elim (· hidle) hunset

/-- An entry pushed before the first `init` is in the queue. That `init` cannot open its file and
throws; the next, with both outputs, begins a cycle that delivers. -/
theorem delivers_iff_first :
    let e : LogEntry := ⟨.warn, [0x61], [0x62], 0⟩
    let pre : List Action := [.push e, .init ⟨"INFO", "text", "file", "/log"⟩ .notOpened]
    Transition.run step {} pre = some { queue := [e], jsonFormat := false, toStdout := false } ∧
      Delivers { queue := [e], jsonFormat := false, toStdout := false }
        ⟨"TRACE", "json", "both", "log"⟩ := by
  intro e pre
  have hr : Transition.run step {} pre =
      some { queue := [e], jsonFormat := false, toStdout := false } := rfl
  have hlevel : parseLogLevel "TRACE" = .ok .trace := rfl
  exact ⟨hr, (delivers_iff hr rfl hlevel).mpr ⟨by simp [pre], by simp [outputs]⟩⟩

/-- The second cycle: its writer makes a round at once and returns, and the error that is pushed
next reaches no sink. A first cycle whose output is none of the three writes nothing at all. -/
theorem second_cycle_loses :
    let e : LogEntry := ⟨.error, [0x61], [0x62], 0⟩
    let other : LoggingConfig := { output := "syslog" }
    (∃ d, Transition.run step {} (cycle {} .opened [] [.swap, .check]) = some d ∧ ¬ Delivers d {} ∧
      (Transition.run step d (cycle {} .opened [.swap, .check, .push e] [])).map
        (fun d' => (d'.stdout, d'.stderr, d'.file, d'.queue)) = some ([], [], [], [e])) ∧
      ¬ Delivers {} other ∧
      (Transition.run step {} (cycle other .opened [.push e] [.swap, .write, .check])).map
        (fun d' => (d'.stdout, d'.stderr, d'.file, d'.queue)) = some ([], [], [], []) := by
  have hlevel : parseLogLevel "INFO" = .ok .info := rfl
  refine ⟨⟨_, rfl, ?_, rfl⟩, ?_, rfl⟩
  · exact not_delivers_of_flag_set rfl hlevel rfl
  · exact not_delivers_of_no_sink rfl hlevel (by decide)

end DBMesh.Logger
