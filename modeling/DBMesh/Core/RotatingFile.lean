import DBMesh.Lib.Segments
import DBMesh.Core.LogDispatcher

/-!
# The rotating log file

`RotatingFileSink` of `core/src/logger.cpp`: lines are appended to one file, and a file that has
grown to its limit is renamed to the first of a row of backups before the next line, the others
moving up by one and the last dropping out. The file system is a function from names to contents
here, and its operations succeed.

What is on disk is read from the oldest backup to the file itself. Over any number of lines and
restarts that text is the end of what was written, cut between two lines, and it is short of the
whole only where every backup is full.

## Main definitions

* `Files` — the contents of a file system, with `remove`, `rename` and `put`
* `RotatingFileSink`, `Directory` — the settings of a sink, and what changes as it writes
* `RotatingFileSink.rotate`, `write`, `openApp` — the operations of the source
* `RotatingFileSink.onDisk` — the text of the backups and the file, the oldest first
* `withFile` — the dispatcher's steps, with the files that they leave

## Main results

* `RotatingFileSink.holds_write` — the files are the last segments of a log
* `RotatingFileSink.onDisk_run` — what is kept on disk
* `RotatingFileSink.length_le_of_fileName` — how large a file becomes
* `onDisk_of_cycle` — the files after any run of the threads of the dispatcher
-/

namespace DBMesh.Logger

/-! ### Files -/

/-- The contents of the files there are. -/
abbrev Files := String → Option (List UInt8)

namespace Files

variable {fs : Files} {p q : String}

def remove (fs : Files) (p : String) : Files := fun q => if q = p then none else fs q

def rename (fs : Files) (src dst : String) : Files :=
  fun q => if q = dst then fs src else if q = src then none else fs q

def put (fs : Files) (p : String) (content : List UInt8) : Files :=
  fun q => if q = p then some content else fs q

@[simp] theorem remove_of_ne (h : q ≠ p) : fs.remove p q = fs q := if_neg h

@[simp] theorem put_self {content : List UInt8} : fs.put p content p = some content := if_pos rfl

@[simp] theorem put_of_ne {content : List UInt8} (h : q ≠ p) : fs.put p content q = fs q :=
  if_neg h

theorem rename_dst {src dst : String} : fs.rename src dst dst = fs src := if_pos rfl

theorem rename_src {src dst : String} (h : src ≠ dst) : fs.rename src dst src = none := by
  rw [rename, if_neg h, if_pos rfl]

theorem rename_of_ne {src dst : String} (hdst : q ≠ dst) (hsrc : q ≠ src) :
    fs.rename src dst q = fs q := by
  rw [rename, if_neg hdst, if_neg hsrc]

/-- A move of a file to a free name, if there is such a file. -/
def moveUp (fs : Files) (src dst : String) : Files :=
  if (fs src).isSome then fs.rename src dst else fs

theorem moveUp_dst {src dst : String} (h : fs dst = none) : fs.moveUp src dst dst = fs src := by
  rw [moveUp]
  split
  · exact rename_dst
  · rename_i hsrc
    rw [h, Option.not_isSome_iff_eq_none.mp hsrc]

theorem moveUp_src {src dst : String} (h : src ≠ dst) : fs.moveUp src dst src = none := by
  rw [moveUp]
  split
  · exact rename_src h
  · rename_i hsrc
    exact Option.not_isSome_iff_eq_none.mp hsrc

theorem moveUp_of_ne {src dst : String} (hdst : q ≠ dst) (hsrc : q ≠ src) :
    fs.moveUp src dst q = fs q := by
  rw [moveUp]
  split
  · exact rename_of_ne hdst hsrc
  · rfl

end Files

/-! ### The sink -/

/-- The settings of a sink. Whether the position of a stream just opened with `std::ios::app` is at
the end of its file or at the beginning is left to the implementation of the library. -/
structure RotatingFileSink where
  path : String
  maxMb : UInt32
  maxBackups : UInt32
  atEnd : Bool := true
  deriving DecidableEq, Repr

/-- The files, and the position that `tellp` reports. -/
structure Directory where
  files : Files
  tellp : ℕ

namespace RotatingFileSink

def maxBytes (s : RotatingFileSink) : ℕ := s.maxMb.toNat * 1024 * 1024

/-- The name of a backup. -/
def backup (s : RotatingFileSink) (i : ℕ) : String := s.path ++ "." ++ toString i

/-- `static_cast<int>` of a 32-bit number. -/
def toInt (n : UInt32) : ℤ :=
  if n.toNat < 2147483648 then (n.toNat : ℤ) else (n.toNat : ℤ) - 4294967296

/-- The backup with which the loop of `rotate` begins. -/
def firstMoved (s : RotatingFileSink) : ℕ := (toInt s.maxBackups - 1).toNat

/-- The loop of `rotate`, from the backup `i` down to the first. -/
def moveBackups (s : RotatingFileSink) : ℕ → Files → Files
  | 0, fs => fs
  | i + 1, fs => s.moveBackups i (fs.moveUp (s.backup (i + 1)) (s.backup (i + 2)))

/-- The renames of `rotate`, before the stream is opened again. -/
def rotate (s : RotatingFileSink) (fs : Files) : Files :=
  let fs := fs.remove (s.backup s.maxBackups.toNat)
  let fs := s.moveBackups s.firstMoved fs
  fs.moveUp s.path (s.backup 1)

/-- `stream_.open(path_, std::ios::app)`. -/
def openApp (s : RotatingFileSink) (fs : Files) : Directory :=
  let content := (fs s.path).getD []
  ⟨fs.put s.path content, if s.atEnd then content.length else 0⟩

/-- A line in the file. -/
def render (line : List UInt8) : List UInt8 := line ++ [0x0A]

/-- The file is full, as far as the position says. -/
def isFull (s : RotatingFileSink) (d : Directory) : Bool := 0 < d.tellp && s.maxBytes ≤ d.tellp

def write (s : RotatingFileSink) (d : Directory) (line : List UInt8) : Directory :=
  let d := if s.isFull d then s.openApp (s.rotate d.files) else d
  let content := (d.files s.path).getD [] ++ render line
  ⟨d.files.put s.path content, content.length⟩

/-- What happens to a sink: a line, or its construction by another process later on. -/
inductive Step
  | write (line : List UInt8)
  | reopen
  deriving DecidableEq, Repr

def step (s : RotatingFileSink) (d : Directory) : Step → Directory
  | .write line => s.write d line
  | .reopen => s.openApp d.files

/-- The lines that are written in a list of steps. -/
def linesOf : List Step → List (List UInt8)
  | [] => []
  | .write line :: as => line :: linesOf as
  | .reopen :: as => linesOf as

/-- How many backups there are at most: the file itself always becomes one. -/
def backups (s : RotatingFileSink) : ℕ := s.firstMoved + 1

/-- The text of the first `n` backups, the oldest first. -/
def backupText (s : RotatingFileSink) (fs : Files) : ℕ → List UInt8
  | 0 => []
  | n + 1 => (fs (s.backup (n + 1))).getD [] ++ s.backupText fs n

/-- The text of the backups and the file, the oldest first. -/
def onDisk (s : RotatingFileSink) (fs : Files) : List UInt8 :=
  s.backupText fs s.backups ++ (fs s.path).getD []

/-! ### Names -/

variable {s : RotatingFileSink}

theorem backup_injective {i j : ℕ} (h : s.backup i = s.backup j) : i = j := by
  have hrepr : i.repr = j.repr := (String.append_right_inj _).mp h
  have hdigits : Nat.toDigits 10 i = Nat.toDigits 10 j := by
    rw [← Nat.toList_repr, ← Nat.toList_repr, hrepr]
  have hi := @Nat.ofDigitChars_ten_toDigits i
  rw [hdigits, Nat.ofDigitChars_ten_toDigits] at hi
  exact hi.symm

theorem backup_ne {i j : ℕ} (h : i ≠ j) : s.backup i ≠ s.backup j :=
  fun heq => h (backup_injective heq)

theorem backup_ne_path (i : ℕ) : s.backup i ≠ s.path := by
  intro h
  have hlen : (s.path ++ "." ++ toString i).length = s.path.length := congrArg String.length h
  rw [String.length_append, String.length_append] at hlen
  have hdot : ".".length = 1 := rfl
  omega

/-- A number of backups from `1` on that fits an `int` is the number there are. -/
theorem backups_eq (s : RotatingFileSink) :
    s.backups = s.maxBackups.toNat ∨
      s.backups = 1 ∧ (s.maxBackups.toNat = 0 ∨ 1 < s.maxBackups.toNat) := by
  have hlt := s.maxBackups.toNat_lt
  rw [backups, firstMoved, toInt]
  split <;> omega

/-! ### What a rotation does -/

theorem moveBackups_of_ne {q : String} : ∀ {n : ℕ} {fs : Files},
    (∀ i, i ≤ n → q ≠ s.backup (i + 1)) → s.moveBackups n fs q = fs q
  | 0, _, _ => rfl
  | n + 1, fs, h => by
    rw [moveBackups, moveBackups_of_ne fun i hi => h i (by omega)]
    exact Files.moveUp_of_ne (h (n + 1) le_rfl) (h n (Nat.le_succ n))

/-- Where the last name is free, the loop moves every backup up by one and frees the first. -/
theorem moveBackups_spec : ∀ {n : ℕ} {fs : Files}, fs (s.backup (n + 1)) = none →
    s.moveBackups n fs (s.backup 1) = none ∧
      ∀ i, i < n → s.moveBackups n fs (s.backup (i + 2)) = fs (s.backup (i + 1))
  | 0, _, h => ⟨h, fun _ hi => absurd hi (Nat.not_lt_zero _)⟩
  | n + 1, fs, h => by
    have hsrc : fs.moveUp (s.backup (n + 1)) (s.backup (n + 2)) (s.backup (n + 1)) = none :=
      Files.moveUp_src (backup_ne (by omega))
    obtain ⟨hone, hup⟩ := moveBackups_spec hsrc
    refine ⟨hone, fun i hi => ?_⟩
    rw [moveBackups]
    rcases Nat.lt_or_ge i n with hin | hin
    · rw [hup i hin]
      exact Files.moveUp_of_ne (backup_ne (by omega)) (backup_ne (by omega))
    · obtain rfl : i = n := by omega
      rw [moveBackups_of_ne fun j hj => backup_ne (by omega)]
      exact Files.moveUp_dst h

variable {fs : Files} {c : List UInt8}

theorem rotate_path : s.rotate fs s.path = none := by
  rw [rotate]
  exact Files.moveUp_src (backup_ne_path 1).symm

/-- The file becomes the first backup. -/
theorem rotate_backup_one (hpath : fs s.path = some c) : s.rotate fs (s.backup 1) = some c := by
  have hkeep : s.moveBackups s.firstMoved (fs.remove (s.backup s.maxBackups.toNat)) s.path =
      some c := by
    rw [moveBackups_of_ne fun i _ => (backup_ne_path (i + 1)).symm,
      Files.remove_of_ne (backup_ne_path _).symm, hpath]
  rw [rotate, Files.moveUp]
  simp only [hkeep, Option.isSome_some, if_true]
  rw [Files.rename_dst, hkeep]

/-- Every other backup is the one before it. -/
theorem rotate_backup {i : ℕ} (hi : i + 1 < s.backups) :
    s.rotate fs (s.backup (i + 2)) = fs (s.backup (i + 1)) := by
  have hmax : s.backups = s.maxBackups.toNat := (backups_eq s).resolve_right fun h => by omega
  have hlast : s.firstMoved + 1 = s.maxBackups.toNat := hmax
  have hfree : fs.remove (s.backup s.maxBackups.toNat) (s.backup (s.firstMoved + 1)) = none := by
    rw [hlast, Files.remove, if_pos rfl]
  have hne : s.backup (i + 2) ≠ s.backup 1 := backup_ne (by omega)
  rw [rotate, Files.moveUp_of_ne hne (backup_ne_path _),
    (moveBackups_spec hfree).2 i (Nat.lt_of_succ_lt_succ hi),
    Files.remove_of_ne (backup_ne (by omega))]

/-- **The frame of a rotation.** A file that is neither the log nor one of its backups stays. -/
theorem rotate_of_ne {q : String} (hpath : q ≠ s.path)
    (hbackup : ∀ i, q ≠ s.backup i) : s.rotate fs q = fs q := by
  rw [rotate, Files.moveUp_of_ne (hbackup 1) hpath, moveBackups_of_ne fun i _ => hbackup (i + 1),
    Files.remove_of_ne (hbackup _)]

/-! ### The files are the last segments of a log -/

/-- The files hold the segment at hand and the segments closed last, and `tellp` is at the end of
the file or, where the stream has just been opened, at its beginning. -/
structure Holds (s : RotatingFileSink) (log : Segments (List UInt8)) (d : Directory) : Prop where
  path : d.files s.path = some (log.current.flatMap render)
  backup : ∀ i, i < s.backups →
    d.files (s.backup (i + 1)) = log.closed[i]?.map (·.flatMap render)
  tellp : d.tellp = (log.current.flatMap render).length ∨ s.atEnd = false ∧ d.tellp = 0

variable {d : Directory} {log : Segments (List UInt8)}

theorem holds_openApp (hpath : d.files s.path = some (log.current.flatMap render))
    (hbackup : ∀ i, i < s.backups →
      d.files (s.backup (i + 1)) = log.closed[i]?.map (·.flatMap render)) :
    Holds s log (s.openApp d.files) := by
  rw [openApp, hpath]
  refine ⟨Files.put_self, fun i hi => ?_, ?_⟩
  · exact (Files.put_of_ne (backup_ne_path _)).trans (hbackup i hi)
  · cases hend : s.atEnd with
    | false => exact .inr ⟨rfl, rfl⟩
    | true => exact .inl rfl

/-- **A line is written.** The segment at hand is closed first if the file is full. -/
theorem holds_write (h : Holds s log d) (line : List UInt8) :
    Holds s (log.push (s.isFull d) line) (s.write d line) := by
  rw [write]
  cases hfull : s.isFull d with
  | false =>
    simp only [Bool.false_eq_true, if_false, Segments.push]
    have hcontent : (d.files s.path).getD [] ++ render line =
        (log.current ++ [line]).flatMap render := by
      rw [h.path, Option.getD_some, List.flatMap_append, List.flatMap_singleton]
    refine ⟨?_, fun i hi => ?_, .inl ?_⟩
    · rw [hcontent]
      exact Files.put_self
    · exact (Files.put_of_ne (backup_ne_path _)).trans (h.backup i hi)
    · rw [hcontent]
  | true =>
    simp only [if_true, Segments.push]
    have hempty : (s.openApp (s.rotate d.files)).files s.path = some [] := by
      rw [openApp, rotate_path]
      exact Files.put_self
    have hcontent : ((s.openApp (s.rotate d.files)).files s.path).getD [] ++ render line =
        [line].flatMap render := by
      rw [hempty, List.flatMap_singleton]
      rfl
    refine ⟨?_, fun i hi => ?_, .inl ?_⟩
    · rw [hcontent]
      exact Files.put_self
    · have hrotate : (s.openApp (s.rotate d.files)).files (s.backup (i + 1)) =
          s.rotate d.files (s.backup (i + 1)) := Files.put_of_ne (backup_ne_path _)
      refine (Files.put_of_ne (backup_ne_path _)).trans (hrotate.trans ?_)
      cases i with
      | zero => exact rotate_backup_one h.path
      | succ i => exact (rotate_backup hi).trans (h.backup i (Nat.lt_of_succ_lt hi))
    · rw [hcontent]

theorem le_of_isFull (h : Holds s log d) (hfull : s.isFull d = true) :
    s.maxBytes ≤ (log.current.flatMap render).length := by
  rw [isFull, Bool.and_eq_true, decide_eq_true_eq, decide_eq_true_eq] at hfull
  have := h.tellp
  omega

theorem lt_of_not_isFull (h : Holds s log d) (hend : s.atEnd = true) (hfull : s.isFull d = false) :
    (log.current.flatMap render).length = 0 ∨
      (log.current.flatMap render).length < s.maxBytes := by
  have htell : d.tellp = (log.current.flatMap render).length :=
    h.tellp.resolve_right fun hbegin => Bool.noConfusion (hend.symm.trans hbegin.1)
  rw [isFull, Bool.and_eq_false_iff, decide_eq_false_iff_not, decide_eq_false_iff_not] at hfull
  omega

/-- What the log behind the files satisfies: the lines written are in it, a segment is closed only
when it is full, and where `tellp` is right no segment is much larger than that. -/
structure Logged (s : RotatingFileSink) (bound : ℕ) (lines : List (List UInt8))
    (log : Segments (List UInt8)) : Prop where
  records : log.records = lines
  full : log.Full render s.maxBytes
  bounded : s.atEnd = true → (∀ line ∈ lines, line.length ≤ bound) →
    log.Bounded render (s.maxBytes + bound + 1)

theorem length_render (line : List UInt8) : (render line).length = line.length + 1 := by
  rw [render, List.length_append]
  rfl

theorem Logged.write {bound : ℕ} {lines : List (List UInt8)} (hd : Holds s log d)
    (hlog : Logged s bound lines log) (line : List UInt8) :
    Logged s bound (lines ++ [line]) (log.push (s.isFull d) line) := by
  refine ⟨?_, hlog.full.push (fun hfull => le_of_isFull hd hfull) line, fun hend hlines => ?_⟩
  · rw [Segments.records_push, hlog.records]
  · have hline : line.length ≤ bound :=
      hlines line (List.mem_append_right _ (List.mem_singleton_self _))
    have hbounded := hlog.bounded hend fun l hl => hlines l (List.mem_append_left _ hl)
    refine hbounded.push ?_ fun hfull => ?_
    · rw [length_render]
      omega
    · have hlt := lt_of_not_isFull hd hend hfull
      rw [length_render]
      omega

/-- **The log behind the files.** After any steps there is a log that the files hold. -/
theorem exists_log_run {bound : ℕ} : ∀ (as : List Step) {d : Directory}
    {log : Segments (List UInt8)} {lines : List (List UInt8)}, Holds s log d →
    Logged s bound lines log →
    ∃ log', Holds s log' (as.foldl s.step d) ∧ Logged s bound (lines ++ linesOf as) log'
  | [], _, log, lines, hd, hlog => ⟨log, hd, (List.append_nil lines).symm ▸ hlog⟩
  | .write line :: as, _, _, lines, hd, hlog => by
    obtain ⟨log', hd', hlog'⟩ := exists_log_run as (holds_write hd line) (hlog.write hd line)
    refine ⟨log', hd', ?_⟩
    rwa [List.append_assoc] at hlog'
  | .reopen :: as, _, _, _, hd, hlog =>
    exists_log_run as (holds_openApp hd.path hd.backup) hlog

/-- A directory without a log. -/
def Fresh (s : RotatingFileSink) (fs : Files) : Prop :=
  fs s.path = none ∧ ∀ i, fs (s.backup i) = none

theorem Fresh.exists_log {fs : Files} (hfs : Fresh s fs) (bound : ℕ) (as : List Step) :
    ∃ log, Holds s log (as.foldl s.step (s.openApp fs)) ∧ Logged s bound (linesOf as) log := by
  have hopen : Holds s ⟨[], []⟩ (s.openApp fs) := by
    rw [openApp, hfs.1]
    refine ⟨Files.put_self, fun i _ => ?_, ?_⟩
    · exact (Files.put_of_ne (backup_ne_path _)).trans (hfs.2 (i + 1))
    · exact .inl (ite_self 0)
  have hlog : Logged s bound [] ⟨[], []⟩ := by
    refine ⟨rfl, fun seg hseg => absurd hseg List.not_mem_nil, fun _ _ seg hseg => ?_⟩
    obtain rfl := List.mem_singleton.mp hseg
    exact Nat.zero_le _
  exact exists_log_run as hopen hlog

/-! ### What is on disk -/

theorem backupText_eq (h : Holds s log d) : ∀ {n : ℕ}, n ≤ s.backups →
    s.backupText d.files n = (log.closed.take n).reverse.flatten.flatMap render
  | 0, _ => rfl
  | n + 1, hn => by
    rw [backupText, h.backup n hn, backupText_eq h (Nat.le_of_succ_le hn), List.take_add_one,
      List.reverse_append, List.flatten_append, List.flatMap_append]
    congr 1
    cases log.closed[n]? with
    | none => rfl
    | some seg => simp

theorem onDisk_eq (h : Holds s log d) : s.onDisk d.files = (log.kept s.backups).flatMap render := by
  rw [onDisk, backupText_eq h le_rfl, h.path, Option.getD_some, Segments.kept,
    List.flatMap_append]

/-- The file or one of its backups. -/
def fileName (s : RotatingFileSink) : ℕ → String
  | 0 => s.path
  | i + 1 => s.backup (i + 1)

theorem exists_segment_of_fileName (h : Holds s log d) {i : ℕ} (hi : i ≤ s.backups)
    {c : List UInt8} (hc : d.files (s.fileName i) = some c) :
    ∃ seg ∈ log.current :: log.closed, c = seg.flatMap render := by
  cases i with
  | zero => exact ⟨_, List.mem_cons_self .., Option.some.inj (hc.symm.trans h.path)⟩
  | succ i =>
    obtain ⟨seg, hseg, rfl⟩ := Option.map_eq_some_iff.mp ((h.backup i hi).symm.trans hc)
    exact ⟨seg, List.mem_cons_of_mem _ (List.mem_of_getElem? hseg), rfl⟩

/-- The files, read from the oldest backup on, are the lines written but for the first `n`. If any
is missing, what is left is at least the limit of a file for each backup. -/
theorem exists_drop {bound : ℕ} {lines : List (List UInt8)} (hd : Holds s log d)
    (hlog : Logged s bound lines log) :
    ∃ n, s.onDisk d.files = (lines.drop n).flatMap render ∧
      (n = 0 ∨ s.backups * s.maxBytes ≤ (s.onDisk d.files).length) := by
  rw [onDisk_eq hd]
  rcases hlog.full.le_length_kept s.backups with hall | hle
  · refine ⟨0, ?_, .inl rfl⟩
    rw [hall, hlog.records, List.drop_zero]
  · refine ⟨(log.closed.drop s.backups).reverse.flatten.length, ?_, .inr hle⟩
    rw [log.kept_eq_drop, hlog.records]

theorem length_le_of_fileName {bound : ℕ} {lines : List (List UInt8)} (hd : Holds s log d)
    (hlog : Logged s bound lines log) (hend : s.atEnd = true)
    (hbound : ∀ line ∈ lines, line.length ≤ bound) {i : ℕ} (hi : i ≤ s.backups) {c : List UInt8}
    (hc : d.files (s.fileName i) = some c) : c.length ≤ s.maxBytes + bound + 1 := by
  obtain ⟨seg, hseg, rfl⟩ := exists_segment_of_fileName hd hi hc
  exact hlog.bounded hend hbound seg hseg

/-- **Rotation keeps the end of the log.** After any lines and restarts the files, read from the
oldest backup on, are the lines written but for the first `n` of them, whole and in order; if any
is missing, what is left is at least the limit of a file for each backup. Each file is made of
whole lines. -/
theorem onDisk_run {fs : Files} (hfs : Fresh s fs) (as : List Step) :
    (∃ n, s.onDisk (as.foldl s.step (s.openApp fs)).files =
        ((linesOf as).drop n).flatMap render ∧
      (n = 0 ∨
        s.backups * s.maxBytes ≤ (s.onDisk (as.foldl s.step (s.openApp fs)).files).length)) ∧
      ∀ i c, i ≤ s.backups → (as.foldl s.step (s.openApp fs)).files (s.fileName i) = some c →
        ∃ lines : List (List UInt8), c = lines.flatMap render := by
  obtain ⟨log, hd, hlog⟩ := hfs.exists_log 0 as
  refine ⟨exists_drop hd hlog, fun i c hi hc => ?_⟩
  obtain ⟨seg, -, rfl⟩ := exists_segment_of_fileName hd hi hc
  exact ⟨seg, rfl⟩

/-- Files that are full after one line, and two backups: the first line of four drops out. -/
theorem onDisk_run_drops :
    ∃ n, ([[1], [2], [3], [4]].drop n).flatMap render = [2, 0x0A, 3, 0x0A, 4, 0x0A] ∧
      onDisk ⟨"log", 0, 2, true⟩ ([.write [1], .write [2], .reopen, .write [3], .write [4]].foldl
        (step ⟨"log", 0, 2, true⟩) (openApp ⟨"log", 0, 2, true⟩ fun _ => none)).files =
        ([[1], [2], [3], [4]].drop n).flatMap render := by
  have hfresh : Fresh ⟨"log", 0, 2, true⟩ fun _ => none := ⟨rfl, fun _ => rfl⟩
  obtain ⟨⟨n, hn, -⟩, -⟩ := onDisk_run hfresh
    [.write [1], .write [2], .reopen, .write [3], .write [4]]
  refine ⟨n, hn.symm.trans ?_, hn⟩
  decide

end RotatingFileSink

/-! ### The files of the dispatcher -/

/-- What a step of the dispatcher does to the sink: a `start` that opens it makes a new one on the
same files. -/
def fileSteps (d : Dispatcher) : Action → List RotatingFileSink.Step
  | .init cfg opening =>
    if (cfg.output == "file" || cfg.output == "both") && (d.start cfg opening).1.isOk then
      [.reopen]
    else []
  | .write =>
    match d.writer with
    | .writing (e :: _) => if d.fileSink then [.write (lineOf d.jsonFormat e)] else []
    | _ => []
  | _ => []

/-- The steps of the dispatcher, with the files. -/
def withFile (s : RotatingFileSink) (st : Dispatcher × Directory) (a : Action) :
    Option (Dispatcher × Directory) :=
  (step st.1 a).map fun d => (d, (fileSteps st.1 a).foldl s.step st.2)

theorem length_snprintf_le (n : ℕ) (pieces : List (List UInt8)) :
    (snprintf n pieces).length ≤ n - 1 := List.length_take_le _ _

theorem length_lineOf_le (json : Bool) (e : LogEntry) : (lineOf json e).length ≤ 2047 := by
  cases json with
  | false =>
    rw [lineOf, if_neg Bool.false_ne_true, formatText]
    exact length_snprintf_le 2048 _
  | true =>
    rw [lineOf, if_pos rfl, formatJson]
    exact length_snprintf_le 2048 _

/-- With a file sink, the files hold the log of the lines it was given. -/
structure Filed (s : RotatingFileSink) (d : Dispatcher) (dir : Directory) : Prop where
  sink : d.fileSink = true
  log : ∃ log, s.Holds log dir ∧ s.Logged 2047 d.file log

variable {s : RotatingFileSink} {d d' : Dispatcher} {dir dir' : Directory}

theorem withFile_eq_some {a : Action} : withFile s (d, dir) a = some (d', dir') ↔
    step d a = some d' ∧ dir' = (fileSteps d a).foldl s.step dir := by
  rw [withFile, Option.map_eq_some_iff]
  constructor
  · rintro ⟨d₁, hd, heq⟩
    obtain ⟨rfl, rfl⟩ := Prod.mk.inj heq
    exact ⟨hd, rfl⟩
  · rintro ⟨hd, rfl⟩
    exact ⟨d', hd, rfl⟩

theorem Filed.push (h : Filed s d dir) (e : LogEntry) : Filed s (d.push e) dir := by
  rw [Dispatcher.push]
  split
  · exact h
  · exact ⟨h.sink, h.log⟩

theorem Filed.write (h : Filed s d dir) (e : LogEntry) :
    Filed s (d.writeEntry e) (s.write dir (lineOf d.jsonFormat e)) := by
  obtain ⟨log, hholds, hlog⟩ := h.log
  refine ⟨h.sink, log.push (s.isFull dir) (lineOf d.jsonFormat e),
    RotatingFileSink.holds_write hholds _, ?_⟩
  have hfile : (d.writeEntry e).file = d.file ++ [lineOf d.jsonFormat e] := if_pos h.sink
  rw [hfile]
  exact hlog.write hholds _

/-- **The files follow the sink** as long as it is not opened again. -/
theorem Filed.step {a : Action} (h : Filed s d dir) (ha : ∀ c o, a ≠ .init c o)
    (hstep : withFile s (d, dir) a = some (d', dir')) : Filed s d' dir' := by
  obtain ⟨hd, rfl⟩ := withFile_eq_some.mp hstep
  cases steps_of_step hd with
  | init c o _ => exact absurd rfl (ha c o)
  | push e => exact h.push e
  | @write e batch hbatch =>
    have hfile : fileSteps d .write = [.write (lineOf d.jsonFormat e)] := by
      simp only [fileSteps, hbatch, h.sink, if_true]
    rw [hfile]
    exact ⟨(h.write e).sink, (h.write e).log⟩
  | swap _ _ => exact ⟨h.sink, h.log⟩
  | exit _ _ _ => exact ⟨h.sink, h.log⟩
  | again _ => exact ⟨h.sink, h.log⟩
  | stop => exact ⟨h.sink, h.log⟩
  | join _ _ => exact ⟨h.sink, h.log⟩

/-- The start of a process whose file can be opened. -/
theorem filed_of_init {fs : Files} (hfs : s.Fresh fs) {cfg : LoggingConfig} {level : LogLevel}
    (hlevel : parseLogLevel cfg.level = .ok level)
    (hout : cfg.output = "file" ∨ cfg.output = "both")
    (hstep : withFile s ({}, ⟨fs, 0⟩) (.init cfg .opened) = some (d, dir)) :
    Filed s d dir ∧ Course cfg level {} [] [] d := by
  obtain ⟨hd, rfl⟩ := withFile_eq_some.mp hstep
  have hfile : (cfg.output == "file" || cfg.output == "both") = true := by
    rcases hout with hout | hout <;> rw [hout] <;> rfl
  have hstart := start_opened {} hlevel
  obtain ⟨-, hcourse⟩ := course_of_init rfl rfl rfl rfl hlevel hstart hd
  have hreopen : fileSteps {} (.init cfg .opened) = [.reopen] := by
    rw [fileSteps, hfile, hstart]
    rfl
  obtain ⟨log, hholds, hlog⟩ := hfs.exists_log 2047 []
  refine ⟨⟨?_, log, ?_, ?_⟩, hcourse⟩
  · have htakes := congrFun (congrFun hcourse.takes ⟨.info, [], [], 0⟩) .file
    exact htakes.trans hfile
  · rw [hreopen]
    exact hholds
  · have hlines := hcourse.lines .file
    rw [linesTo_nil, List.append_nil] at hlines
    rwa [show d.file = [] from hlines]

/-- **The log files of a process.** In every interleaving of the threads after `init` with file
output, the file sink was given the lines of the first entries that were pushed at or above the
level, in the same order, and the files, read from the oldest backup on, are these lines but for
the first `n`: if any is missing, what is left is at least the limit of a file for each backup. No
file outgrows its limit by more than one line. -/
theorem onDisk_of_cycle {fs : Files} (hfs : s.Fresh fs) {cfg : LoggingConfig} {level : LogLevel}
    (hlevel : parseLogLevel cfg.level = .ok level)
    (hout : cfg.output = "file" ∨ cfg.output = "both") {as : List Action}
    (has : ∀ c o, .init c o ∉ as)
    (hr : Transition.run (withFile s) ({}, ⟨fs, 0⟩) (.init cfg .opened :: as) = some (d, dir)) :
    (∃ written, written <+: offered level as ∧
        d.file = written.map (lineOf (cfg.format == "json"))) ∧
      (∃ n, s.onDisk dir.files = (d.file.drop n).flatMap RotatingFileSink.render ∧
        (n = 0 ∨ s.backups * s.maxBytes ≤ (s.onDisk dir.files).length)) ∧
      (s.atEnd = true → ∀ i c, i ≤ s.backups → dir.files (s.fileName i) = some c →
        c.length ≤ s.maxBytes + 2048) := by
  obtain ⟨⟨d₀, dir₀⟩, hinit, hr⟩ := Transition.run_cons_eq_some.mp hr
  obtain ⟨hfiled, hcourse⟩ := filed_of_init hfs hlevel hout hinit
  have hrun : Transition.run step d₀ (as.flatMap fun a => [a]) = some d :=
    Transition.sim_run (f := Prod.fst) (g := fun a => [a]) (fun st a st' hst =>
      (Transition.run_singleton _ _).trans (withFile_eq_some.mp hst).1) hr
  rw [List.flatMap_singleton'] at hrun
  obtain ⟨written, hcourse'⟩ := course_run (p := fun a => ∀ c o, a ≠ .init c o)
    (fun es done d a d' h ha hd => (h.step ha hd).imp fun _ h => h.2) hcourse
    (fun a ha c o hinit => has c o (hinit ▸ ha)) hrun
  have halong : Transition.Along (withFile s) (fun _ a => ∀ c o, a ≠ .init c o) (d₀, dir₀) as :=
    Transition.Along.of_forall_mem fun a ha _ c o hinit => has c o (hinit ▸ ha)
  have hfiled' : Filed s d dir :=
    Transition.invariant_run (I := fun st => Filed s st.1 st.2)
      (fun st a st' hst ha h => hst.step ha h) hfiled halong hr
  have htakes : ∀ e, cfg.takes e .file = true := by
    intro e
    show (cfg.output == "file" || cfg.output == "both") = true
    rcases hout with hout | hout <;> rw [hout] <;> rfl
  have hfile : d.file = written.map (lineOf (cfg.format == "json")) := by
    have hlines := hcourse'.lines .file
    rwa [linesTo, List.filter_eq_self.mpr fun e _ => htakes e] at hlines
  obtain ⟨log, hholds, hlog⟩ := hfiled'.log
  refine ⟨⟨written, ?_, hfile⟩, RotatingFileSink.exists_drop hholds hlog, fun hend i c hi hc => ?_⟩
  · have horder := hcourse'.order
    rw [List.nil_append] at horder
    exact horder ▸ List.prefix_append _ _
  · refine RotatingFileSink.length_le_of_fileName hholds hlog hend ?_ hi hc
    intro line hline
    rw [hfile] at hline
    obtain ⟨e, -, rfl⟩ := List.mem_map.mp hline
    exact length_lineOf_le _ e

/-- Of two entries that are pushed the one at the level is written, and is in the file. -/
theorem onDisk_of_cycle_one :
    let e : LogEntry := ⟨.warn, [0x61], [0x62], 0⟩
    ∃ d dir n, Transition.run (withFile ⟨"log", 1, 7, true⟩) ({}, ⟨fun _ => none, 0⟩)
        [.init ⟨"INFO", "json", "file", "log"⟩ .opened, .push e, .push ⟨.debug, [0x61], [], 0⟩,
          .swap, .write] = some (d, dir) ∧ d.file = [lineOf true e] ∧
      RotatingFileSink.onDisk ⟨"log", 1, 7, true⟩ dir.files =
        ([lineOf true e].drop n).flatMap RotatingFileSink.render := by
  let s : RotatingFileSink := ⟨"log", 1, 7, true⟩
  let as : List Action :=
    [.push ⟨.warn, [0x61], [0x62], 0⟩, .push ⟨.debug, [0x61], [], 0⟩, .swap, .write]
  have hfresh : s.Fresh fun _ => none := ⟨rfl, fun _ => rfl⟩
  obtain ⟨-, ⟨n, hn, -⟩, -⟩ := @onDisk_of_cycle s _ _ _ hfresh ⟨"INFO", "json", "file", "log"⟩ .info
    rfl (.inl rfl) as (by simp [as]) rfl
  exact ⟨_, _, n, rfl, rfl, hn⟩

end DBMesh.Logger
