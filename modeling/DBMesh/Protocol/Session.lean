import Mathlib
import DBMesh.Lib.Transition
import DBMesh.Routing.Pieces
import DBMesh.Routing.ReadWriteRouter

/-!
# Session-local statements

`MySqlConnection::handle_com_query` looks at the first sixteen characters of a query, with
whitespace collapsed, and answers `SET`, `USE` and the transaction statements itself; everything
else goes to `route_and_forward`.

## Implementation notes

`Mathlib` is imported whole: the lemmas on the case of ASCII letters are in no smaller module of it.

## Main definitions

* `DBMesh.Protocol.normalisePrefix`, `handleComQuery` — the code
* `DBMesh.Protocol.plannedRole` — the role a query is planned with
* `DBMesh.Protocol.Opens`, `OpensStart` — how the beginning of a text reads, letter by letter

## Main results

* `DBMesh.Protocol.startsWith_word`, `startsWith_start` — the tests on the collapsed prefix are
  tests on the beginning of the text itself
-/

namespace DBMesh.Protocol

open DBMesh.Routing

/-! ### The code -/

/-- The loop of `normalise_prefix`. -/
def normaliseLoop (out : List Char) (inSpace : Bool) : List Char → List Char
  | [] => out
  | c :: cs =>
    if 16 ≤ out.length then out
    else if isSpace c then
      normaliseLoop (if !inSpace && !out.isEmpty then out ++ [' '] else out) true cs
    else normaliseLoop (out ++ [c.toUpper]) false cs

def normalisePrefix (sql : List Char) : List Char := normaliseLoop [] true sql

def startsWith (s : List Char) (p : String) : Bool := p.toList.isPrefixOf s

/-- `s.find(p) != std::string::npos` -/
def contains (s : List Char) (p : String) : Bool := decide (p.toList <:+: s)

/-- `current_db_`, `in_transaction_` and `autocommit_` of a `MySqlConnection`. -/
structure Session where
  currentDb : List Char
  inTransaction : Bool
  autocommit : Bool
  deriving DecidableEq, Repr

/-- What a client gets for a query: an OK packet, whatever the backend answers (or an error from
`route_and_forward`), or a closed connection. -/
inductive Answer
  | ok
  | forward
  | threw
  deriving DecidableEq, Repr

/-- `sql.substr(sql.find_first_not_of(" \t", 3))` without the whitespace at its end; `none` if
`substr` throws. -/
def useName (sql : List Char) : Option (List Char) :=
  match (sql.drop 3).dropWhile fun c => c == ' ' || c == '\t' with
  | [] => none
  | db => some (db.rdropWhile isSpace)

/-- `MySqlConnection::handle_com_query` -/
def handleComQuery (session : Session) (sql : List Char) : Answer × Session :=
  let p := normalisePrefix sql
  if startsWith p "SET " then
    if contains p "AUTOCOMMIT" then
      (.ok, { session with
        autocommit := !contains p "AUTOCOMMIT=0" && !contains p "AUTOCOMMIT = 0" })
    else (.ok, session)
  else if startsWith p "USE " then
    match useName sql with
    | none => (.threw, session)
    | some db => (.ok, { session with currentDb := db })
  else if startsWith p "BEGIN" || startsWith p "START TRANS" then
    (.ok, { session with inTransaction := true })
  else if startsWith p "COMMIT" || startsWith p "ROLLBACK" then
    (.ok, { session with inTransaction := false })
  else (.forward, session)

/-- One command of a session; a connection that threw is closed. -/
def comQuery (session : Session) (sql : List Char) : Option Session :=
  match handleComQuery session sql with
  | (.threw, _) => none
  | (_, session) => some session

/-- The role `RoutingEngine::plan` gives a query that `route_and_forward` hands it. -/
def plannedRole (rwSplit : Bool) (session : Session) (sql : List Char) : BackendRole :=
  if rwSplit then selectRole (classify sql) ⟨session.inTransaction, session.autocommit⟩
  else .primary

/-! ### The collapsed prefix -/

/-- The text with runs of whitespace collapsed and letters in upper case; `inSpace` if the text
before it ended in whitespace. -/
def collapse (inSpace : Bool) : List Char → List Char
  | [] => []
  | c :: cs =>
    if isSpace c then (if inSpace then collapse true cs else ' ' :: collapse true cs)
    else c.toUpper :: collapse false cs

theorem normaliseLoop_eq (out : List Char) (inSpace : Bool) (cs : List Char)
    (hout : inSpace = false → out ≠ []) (hlen : out.length ≤ 16) :
    normaliseLoop out inSpace cs = (out ++ collapse inSpace cs).take 16 := by
  induction cs generalizing out inSpace with
  | nil =>
    rw [normaliseLoop, collapse, List.append_nil, List.take_of_length_le hlen]
  | cons c cs ih =>
    rw [normaliseLoop, collapse]
    by_cases hfull : 16 ≤ out.length
    · have hlen' : out.length = 16 := Nat.le_antisymm hlen hfull
      rw [if_pos hfull, ← hlen', List.take_left]
    · rw [if_neg hfull]
      cases hc : isSpace c with
      | true =>
        cases inSpace with
        | true => exact ih out true (fun h => absurd h (by decide)) hlen
        | false =>
          have hne : out.isEmpty = false := List.isEmpty_eq_false_iff.mpr (hout rfl)
          simp only [hne, Bool.not_false, Bool.and_self, if_true, Bool.false_eq_true, if_false]
          rw [ih _ true (fun h => absurd h (by decide)) (by rw [List.length_append]; simp; omega),
            List.append_assoc]
          rfl
      | false =>
        rw [if_neg (by decide), if_neg (by decide),
          ih _ false (fun _ => by simp) (by rw [List.length_append]; simp; omega),
          List.append_assoc]
        rfl

theorem normalisePrefix_eq (sql : List Char) :
    normalisePrefix sql = (collapse true sql).take 16 :=
  normaliseLoop_eq [] true sql (fun h => absurd h (by decide)) (Nat.zero_le _)

theorem collapse_true_eq (sql : List Char) :
    collapse true sql = collapse false (sql.dropWhile isSpace) := by
  induction sql with
  | nil => rfl
  | cons c cs ih =>
    rw [collapse, List.dropWhile_cons]
    cases hc : isSpace c with
    | true => exact ih
    | false =>
      rw [if_neg (by decide), if_neg (by decide), collapse, hc, if_neg (by decide)]

/-! ### Letters -/

theorem toUpper_ne_space {c : Char} (h : isSpace c = false) : c.toUpper ≠ ' ' := by
  intro hsp
  cases hl : c.isLower with
  | true =>
    have hup := Char.isUpper_toUpper_eq_isAlpha c
    rw [hsp, Char.isAlpha, hl, Bool.or_true] at hup
    exact absurd hup (by decide)
  | false =>
    rw [Char.toUpper_eq_of_not_isLower (by simp [hl])] at hsp
    subst hsp
    exact absurd h (by decide)

/-! ### The beginning of a text -/

/-- The text begins with the letters of `kw`, in any letter case. -/
def Opens (kw : String) (t : List Char) : Prop :=
  (t.take kw.toList.length).map Char.toUpper = kw.toList

/-- The text begins with the letters of `kw` and whitespace after them. -/
def OpensSpaced (kw : String) (t : List Char) : Prop :=
  Opens kw t ∧ (t.drop kw.toList.length).head?.any isSpace = true

/-- The text begins with `START`, whitespace and the letters `TRANS`. -/
def OpensStart (t : List Char) : Prop :=
  OpensSpaced "START" t ∧ Opens "TRANS" ((t.drop 5).dropWhile isSpace)

instance (kw : String) (t : List Char) : Decidable (Opens kw t) :=
  inferInstanceAs (Decidable (_ = _))

instance (kw : String) (t : List Char) : Decidable (OpensSpaced kw t) :=
  inferInstanceAs (Decidable (_ ∧ _))

instance (t : List Char) : Decidable (OpensStart t) := inferInstanceAs (Decidable (_ ∧ _))

theorem prefix_collapse {kw : List Char} (hkw : kw.all Char.isAlpha = true) (r t : List Char) :
    kw ++ r <+: collapse false t ↔
      (t.take kw.length).map Char.toUpper = kw ∧ r <+: collapse false (t.drop kw.length) := by
  induction kw generalizing t with
  | nil => simp
  | cons k kw ih =>
    rw [List.all_cons, Bool.and_eq_true] at hkw
    cases t with
    | nil => simp [collapse]
    | cons c t =>
      cases hc : isSpace c with
      | true =>
        -- whitespace is not a letter, neither as it stands nor collapsed
        have hk : k ≠ ' ' := by
          rintro rfl
          exact absurd hkw.1 (by decide)
        have hu : c.toUpper ≠ k := by
          rintro rfl
          have := isWord_of_isAlpha ((Char.isAlpha_toUpper_eq_isAlpha c).symm.trans hkw.1)
          exact absurd (this.symm.trans (isWord_of_isSpace hc)) (by decide)
        simp [collapse, hc, hk, hu]
      | false =>
        have hstep : collapse false (c :: t) = c.toUpper :: collapse false t := by
          simp [collapse, hc]
        rw [hstep, List.cons_append, List.cons_prefix_cons, ih hkw.2]
        simp only [List.length_cons, List.take_succ_cons, List.map_cons, List.cons.injEq,
          List.drop_succ_cons, and_assoc, eq_comm]

theorem space_prefix_collapse (r t : List Char) :
    ' ' :: r <+: collapse false t ↔
      t.head?.any isSpace = true ∧ r <+: collapse false (t.dropWhile isSpace) := by
  cases t with
  | nil => simp [collapse]
  | cons c t =>
    cases hc : isSpace c with
    | true =>
      have hstep : collapse false (c :: t) = ' ' :: collapse true t := by simp [collapse, hc]
      rw [hstep, List.cons_prefix_cons, collapse_true_eq, List.dropWhile_cons, if_pos hc]
      simp [hc]
    | false =>
      have hstep : collapse false (c :: t) = c.toUpper :: collapse false t := by
        simp [collapse, hc]
      rw [hstep, List.cons_prefix_cons]
      simp [hc, (toUpper_ne_space hc).symm]

theorem startsWith_normalisePrefix {p : String} (hp : p.toList.length ≤ 16) (sql : List Char) :
    startsWith (normalisePrefix sql) p = true ↔
      p.toList <+: collapse false (sql.dropWhile isSpace) := by
  rw [startsWith, List.isPrefixOf_iff_prefix, normalisePrefix_eq, collapse_true_eq,
    List.prefix_take_iff]
  exact and_iff_left hp

/-- **A test for a keyword** on the collapsed prefix is a test on the beginning of the text. -/
theorem startsWith_word (kw : String)
    (hkw : kw.toList.all Char.isAlpha = true ∧ kw.toList.length ≤ 16) (sql : List Char) :
    startsWith (normalisePrefix sql) kw = true ↔ Opens kw (sql.dropWhile isSpace) := by
  have h := prefix_collapse hkw.1 [] (sql.dropWhile isSpace)
  rw [List.append_nil] at h
  rw [startsWith_normalisePrefix hkw.2, h]
  exact and_iff_left (List.nil_prefix)

theorem startsWith_spaced (kw p : String) (hp : p.toList = kw.toList ++ [' '])
    (hkw : kw.toList.all Char.isAlpha = true ∧ p.toList.length ≤ 16) (sql : List Char) :
    startsWith (normalisePrefix sql) p = true ↔ OpensSpaced kw (sql.dropWhile isSpace) := by
  rw [startsWith_normalisePrefix hkw.2, hp, prefix_collapse hkw.1, space_prefix_collapse]
  exact and_congr_right fun _ => and_iff_left List.nil_prefix

theorem startsWith_start (sql : List Char) :
    startsWith (normalisePrefix sql) "START TRANS" = true ↔
      OpensStart (sql.dropWhile isSpace) := by
  have hp : "START TRANS".toList = "START".toList ++ (' ' :: ("TRANS".toList ++ [])) := by decide
  rw [startsWith_normalisePrefix (by decide), hp, prefix_collapse (by decide),
    space_prefix_collapse, prefix_collapse (by decide)]
  simp only [List.nil_prefix, and_true, ← and_assoc]
  exact Iff.rfl

/-! ### What a query does to the session -/

/-- The text opens a transaction, as `handle_com_query` reads it. -/
def OpensBegin (sql : List Char) : Prop :=
  Opens "BEGIN" (sql.dropWhile isSpace) ∨ OpensStart (sql.dropWhile isSpace)

/-- The text ends a transaction, as `handle_com_query` reads it. -/
def OpensEnd (sql : List Char) : Prop :=
  Opens "COMMIT" (sql.dropWhile isSpace) ∨ Opens "ROLLBACK" (sql.dropWhile isSpace)

instance (sql : List Char) : Decidable (OpensBegin sql) := inferInstanceAs (Decidable (_ ∨ _))

instance (sql : List Char) : Decidable (OpensEnd sql) := inferInstanceAs (Decidable (_ ∨ _))

theorem opens_iff_isPrefix {kw : String} {t : List Char} :
    Opens kw t ↔ kw.toList <+: t.map Char.toUpper := by
  rw [Opens, List.prefix_iff_eq_take, ← List.map_take]
  exact eq_comm

/-- A text does not begin with two keywords, unless one begins with the other. -/
theorem Opens.not_opens {kw kw' : String} {t : List Char} (h : Opens kw t)
    (hne : ¬ (kw.toList <+: kw'.toList ∨ kw'.toList <+: kw.toList)) : ¬ Opens kw' t :=
  fun h' => hne
    (List.prefix_or_prefix_of_prefix (opens_iff_isPrefix.mp h) (opens_iff_isPrefix.mp h'))

/-- A text that begins with a keyword begins with a letter. -/
theorem Opens.exists_cons {kw : String} {t : List Char} (h : Opens kw t)
    (hkw : kw.toList.head?.any Char.isAlpha = true) :
    ∃ c t', t = c :: t' ∧ c.isAlpha = true := by
  obtain ⟨u, hu⟩ := opens_iff_isPrefix.mp h
  cases hk : kw.toList with
  | nil => exact absurd hkw (by simp [hk])
  | cons k ks =>
    cases t with
    | nil => exact absurd hu (by simp [hk])
    | cons c t =>
      refine ⟨c, t, rfl, ?_⟩
      rw [hk, List.cons_append, List.map_cons] at hu
      rw [← Char.isAlpha_toUpper_eq_isAlpha, ← (List.cons.inj hu).1]
      simpa [hk] using hkw

/-- `SET` and `USE` are none of the transaction statements. -/
theorem not_opensBegin_of_opens {kw : String} {sql : List Char}
    (h : Opens kw (sql.dropWhile isSpace))
    (hne : ∀ kw' ∈ ["BEGIN", "START", "COMMIT", "ROLLBACK"],
      ¬ (kw.toList <+: kw'.toList ∨ kw'.toList <+: kw.toList)) :
    ¬ OpensBegin sql ∧ ¬ OpensEnd sql := by
  have hkw : ∀ kw' ∈ ["BEGIN", "START", "COMMIT", "ROLLBACK"],
      ¬ Opens kw' (sql.dropWhile isSpace) := fun kw' hmem => h.not_opens (hne kw' hmem)
  simp only [List.forall_mem_cons] at hkw
  obtain ⟨hbegin, hstart, hcommit, hrollback, -⟩ := hkw
  exact ⟨fun h => h.elim hbegin fun h => hstart h.1.1, fun h => h.elim hcommit hrollback⟩

/-- What `handle_com_query` tests, as a case distinction on the beginning of the text. -/
theorem handleComQuery_cases (session : Session) (sql : List Char) :
    (OpensSpaced "SET" (sql.dropWhile isSpace) ∧ ∃ autocommit,
      handleComQuery session sql = (.ok, { session with autocommit := autocommit })) ∨
    (OpensSpaced "USE" (sql.dropWhile isSpace) ∧ useName sql = none ∧
      handleComQuery session sql = (.threw, session)) ∨
    (OpensSpaced "USE" (sql.dropWhile isSpace) ∧ ∃ db, useName sql = some db ∧
      handleComQuery session sql = (.ok, { session with currentDb := db })) ∨
    (OpensBegin sql ∧ handleComQuery session sql = (.ok, { session with inTransaction := true })) ∨
    (OpensEnd sql ∧ handleComQuery session sql = (.ok, { session with inTransaction := false })) ∨
    (¬ OpensSpaced "SET" (sql.dropWhile isSpace) ∧ ¬ OpensSpaced "USE" (sql.dropWhile isSpace) ∧
      ¬ OpensBegin sql ∧ ¬ OpensEnd sql ∧ handleComQuery session sql = (.forward, session)) := by
  have hset := startsWith_spaced "SET" "SET " (by decide) (by decide) sql
  have huse := startsWith_spaced "USE" "USE " (by decide) (by decide) sql
  have hbegin : (startsWith (normalisePrefix sql) "BEGIN" ||
      startsWith (normalisePrefix sql) "START TRANS") = true ↔ OpensBegin sql := by
    rw [Bool.or_eq_true, startsWith_word "BEGIN" (by decide), startsWith_start]
    exact Iff.rfl
  have hend : (startsWith (normalisePrefix sql) "COMMIT" ||
      startsWith (normalisePrefix sql) "ROLLBACK") = true ↔ OpensEnd sql := by
    rw [Bool.or_eq_true, startsWith_word "COMMIT" (by decide),
      startsWith_word "ROLLBACK" (by decide)]
    exact Iff.rfl
  simp only [handleComQuery, hset, huse, hbegin, hend]
  by_cases h₁ : OpensSpaced "SET" (sql.dropWhile isSpace)
  · refine .inl ⟨h₁, ?_⟩
    rw [if_pos h₁]
    split_ifs
    · exact ⟨_, rfl⟩
    · exact ⟨session.autocommit, rfl⟩
  rw [if_neg h₁]
  refine .inr ?_
  by_cases h₂ : OpensSpaced "USE" (sql.dropWhile isSpace)
  · rw [if_pos h₂]
    cases hname : useName sql with
    | none => exact .inl ⟨h₂, rfl, rfl⟩
    | some db => exact .inr (.inl ⟨h₂, db, rfl, rfl⟩)
  rw [if_neg h₂]
  refine .inr (.inr ?_)
  by_cases h₃ : OpensBegin sql
  · exact .inl ⟨h₃, if_pos h₃⟩
  rw [if_neg h₃]
  refine .inr ?_
  by_cases h₄ : OpensEnd sql
  · exact .inl ⟨h₄, if_pos h₄⟩
  · exact .inr ⟨h₁, h₂, h₃, h₄, if_neg h₄⟩

end DBMesh.Protocol
