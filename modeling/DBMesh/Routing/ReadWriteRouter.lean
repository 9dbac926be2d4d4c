import DBMesh.Routing.Lexing

/-!
# Routing a batch

`routing/src/read_write_router.cpp` gives each query type a role, and `QueryClassifier::classify`
gives a batch one type: its first write, else its first statement that is known. A batch without a
write may so take the type of one `SELECT` and go to a replica with everything else in it.

## Main definitions

* `DBMesh.Routing.selectRole` — the role of a query type
* `DBMesh.Routing.firstKnown`, `escalate` — the type of a batch, from the types of its statements

## Main results

* `DBMesh.Routing.classify_eq_escalate` — the loop of `classify` computes it
* `DBMesh.Routing.firstKnown_append` — the first known statement of two batches
* `DBMesh.Routing.classify_isWrite_append` — a batch is a write if one of its parts is
* `DBMesh.Routing.batch_primary_iff` — exactly when a batch is routed as safely as its parts
-/

namespace DBMesh.Routing

structure RwSessionState where
  inTransaction : Bool
  autocommit : Bool
  deriving DecidableEq, Repr

/-- `ReadWriteRouter::select_role` -/
def selectRole (type : QueryType) (session : RwSessionState) : BackendRole :=
  if session.inTransaction then .primary
  else
    match type with
    | .select => .replica
    | .begin => .primary
    | .commit | .rollback => .primary
    | .set | .use => .primary
    | .insert | .update | .delete | .ddl | .call => .primary
    | .unknown => .primary

theorem selectRole_eq_primary_iff {type : QueryType} {session : RwSessionState} :
    selectRole type session = .primary ↔ session.inTransaction = true ∨ type ≠ .select := by
  cases h : session.inTransaction with
  | true => simp [selectRole, h]
  | false => cases type <;> simp [selectRole, h]

/-! ### The type of a batch -/

/-- The types of the statements of a text. -/
def types (sql : List Char) : List QueryType := (statements sql).map classifyOne

def firstKnown (ts : List QueryType) : QueryType := (ts.find? (· ≠ .unknown)).getD .unknown

def escalate (ts : List QueryType) : QueryType := (ts.find? QueryType.isWrite).getD (firstKnown ts)

theorem escalateLoop_eq (known : Option QueryType) (stmts : List (List Char)) :
    escalateLoop known stmts = ((stmts.map classifyOne).find? QueryType.isWrite).getD
      (known.getD (firstKnown (stmts.map classifyOne))) := by
  induction stmts generalizing known with
  | nil => rfl
  | cons st stmts ih =>
    rw [escalateLoop, List.map_cons, List.find?_cons]
    by_cases hu : classifyOne st = .unknown
    · rw [if_pos hu, ih, hu]
      rfl
    · rw [if_neg hu]
      cases hw : (classifyOne st).isWrite with
      | true => rfl
      | false =>
        rw [if_neg (by simp), ih]
        have hk : firstKnown (classifyOne st :: stmts.map classifyOne) = classifyOne st := by
          simp [firstKnown, hu]
        rw [hk]
        rfl

theorem escalate_singleton (t : QueryType) : escalate [t] = t := by
  cases t <;> rfl

/-- **The type of a text** comes from the types of its statements alone. -/
theorem classify_eq_escalate (sql : List Char) : classify sql = escalate (types sql) := by
  rw [classify, types]
  split
  · next h => rw [h]; rfl
  -- for one statement the loop is skipped, but would give the same
  · next stmt h => rw [h, List.map_singleton, escalate_singleton]
  · next h => rw [escalateLoop_eq]; rfl

theorem escalate_isWrite {ts : List QueryType} (h : ∃ t ∈ ts, t.isWrite = true) :
    (escalate ts).isWrite = true := by
  cases hf : ts.find? QueryType.isWrite with
  | none =>
    obtain ⟨t, ht, hw⟩ := h
    exact absurd hw (List.find?_eq_none.mp hf t ht)
  | some t =>
    rw [escalate, hf]
    exact List.find?_some hf

theorem escalate_of_no_write {ts : List QueryType} (h : ¬ ∃ t ∈ ts, t.isWrite = true) :
    escalate ts = firstKnown ts := by
  have hf : ts.find? QueryType.isWrite = none :=
    List.find?_eq_none.mpr fun t ht hw => h ⟨t, ht, hw⟩
  rw [escalate, hf]
  rfl

theorem escalate_isWrite_iff {ts : List QueryType} :
    (escalate ts).isWrite = true ↔ ∃ t ∈ ts, t.isWrite = true := by
  refine ⟨fun h => ?_, escalate_isWrite⟩
  by_contra hw
  rw [escalate_of_no_write hw, firstKnown] at h
  cases hf : ts.find? (· ≠ .unknown) with
  | none =>
    rw [hf] at h
    exact absurd h (by decide)
  | some t =>
    rw [hf] at h
    exact hw ⟨t, List.mem_of_find?_eq_some hf, h⟩

theorem firstKnown_append (ts us : List QueryType) :
    firstKnown (ts ++ us) = if firstKnown ts = .unknown then firstKnown us else firstKnown ts := by
  induction ts with
  | nil => rfl
  | cons t ts ih =>
    by_cases ht : t = .unknown
    · subst ht
      exact ih
    · have hk : ∀ vs, firstKnown (t :: vs) = t := fun vs => by simp [firstKnown, ht]
      rw [List.cons_append, hk, hk, if_neg ht]

/-! ### Batches and their parts -/

theorem types_append {a : List Char} (ha : (stripScan .normal a).2 = some .normal)
    (b : List Char) : types (a ++ ';' :: b) = types a ++ types b := by
  rw [types, statements_append ha, List.map_append]
  rfl

/-- A batch with a write in it has the type of its first write. -/
theorem classify_first_write {sql : List Char} (h : (classify sql).isWrite = true) :
    ∃ before st after, statements sql = before ++ st :: after ∧
      (∀ st' ∈ before, (classifyOne st').isWrite = false) ∧
      (classifyOne st).isWrite = true ∧ classify sql = classifyOne st := by
  rw [classify_eq_escalate] at h ⊢
  obtain ⟨t, ht, hw⟩ := escalate_isWrite_iff.mp h
  obtain ⟨st₀, hst₀, rfl⟩ := List.mem_map.mp ht
  have hsome : ((statements sql).find? fun st => (classifyOne st).isWrite).isSome = true :=
    List.find?_isSome.mpr ⟨st₀, hst₀, hw⟩
  obtain ⟨st, hst⟩ := Option.isSome_iff_exists.mp hsome
  obtain ⟨hwrite, before, after, heq, hbefore⟩ := List.find?_eq_some_iff_append.mp hst
  refine ⟨before, st, after, heq, fun st' hmem => by simpa using hbefore st' hmem, hwrite, ?_⟩
  rw [escalate, types, List.find?_map, show (QueryType.isWrite ∘ classifyOne) =
    (fun st => (classifyOne st).isWrite) from rfl, hst]
  rfl

/-- **Write detection is compositional.** A batch is a write if and only if one of its halves is,
and its type is then that of the first write in it. -/
theorem classify_isWrite_append (a b : List Char) (ha : (stripScan .normal a).2 = some .normal) :
    ((classify (a ++ ';' :: b)).isWrite = true ↔
      (classify a).isWrite = true ∨ (classify b).isWrite = true) ∧
    ((classify (a ++ ';' :: b)).isWrite = true →
      ∃ before st after, statements a ++ statements b = before ++ st :: after ∧
        (∀ st' ∈ before, (classifyOne st').isWrite = false) ∧
        (classifyOne st).isWrite = true ∧ classify (a ++ ';' :: b) = classifyOne st) := by
  constructor
  · simp only [classify_eq_escalate, escalate_isWrite_iff, types_append ha, List.mem_append]
    constructor
    · rintro ⟨t, ht | ht, hw⟩
      · exact .inl ⟨t, ht, hw⟩
      · exact .inr ⟨t, ht, hw⟩
    · rintro (⟨t, ht, hw⟩ | ⟨t, ht, hw⟩)
      · exact ⟨t, .inl ht, hw⟩
      · exact ⟨t, .inr ht, hw⟩
  · intro h
    obtain ⟨before, st, after, heq, hfirst⟩ := classify_first_write h
    rw [statements_append ha] at heq
    exact ⟨before, st, after, heq, hfirst⟩

/-- A literal with a semicolon in it, a comment and two writes. -/
theorem classify_isWrite_append_drop :
    (classify ("SELECT ';' # c\n".toList ++ ';' :: "DROP TABLE t; DELETE FROM t".toList)).isWrite =
      true :=
  (classify_isWrite_append "SELECT ';' # c\n".toList "DROP TABLE t; DELETE FROM t".toList
    (by decide +kernel)).1.mpr (.inr (by decide +kernel))

/-- **A batch is routed as safely as its parts** exactly in a transaction, or if a statement of it
is a write, or if its first known statement does not hide another: a `SELECT` at the head of `a`
hides a `b` that begins with anything else, and a `SELECT` at the head of `b` hides an `a` in which
nothing is known. -/
theorem batch_primary_iff (a b : List Char) (ha : (stripScan .normal a).2 = some .normal)
    (session : RwSessionState) :
    (selectRole (classify a) session = .primary ∨ selectRole (classify b) session = .primary →
      selectRole (classify (a ++ ';' :: b)) session = .primary) ↔
    session.inTransaction = true ∨ (∃ t ∈ types a ++ types b, t.isWrite = true) ∨
      ¬ (firstKnown (types a) = .select ∧ firstKnown (types b) ≠ .select ∨
        firstKnown (types a) = .unknown ∧ firstKnown (types b) = .select) := by
  simp only [selectRole_eq_primary_iff, classify_eq_escalate, types_append ha]
  by_cases ht : session.inTransaction = true
  · simp [ht]
  by_cases hw : ∃ t ∈ types a ++ types b, t.isWrite = true
  · have hne : escalate (types a ++ types b) ≠ .select := by
      intro h
      have := escalate_isWrite hw
      rw [h] at this
      exact absurd this (by decide)
    exact iff_of_true (fun _ => .inr hne) (.inr (.inl hw))
  · have hwa : ¬ ∃ t ∈ types a, t.isWrite = true :=
      fun ⟨t, h, hw'⟩ => hw ⟨t, List.mem_append_left _ h, hw'⟩
    have hwb : ¬ ∃ t ∈ types b, t.isWrite = true :=
      fun ⟨t, h, hw'⟩ => hw ⟨t, List.mem_append_right _ h, hw'⟩
    rw [escalate_of_no_write hw, escalate_of_no_write hwa, escalate_of_no_write hwb,
      firstKnown_append]
    simp only [ht, hw, Bool.false_eq_true, false_or]
    generalize firstKnown (types a) = ta
    generalize firstKnown (types b) = tb
    by_cases hua : ta = .unknown
    · subst hua
      simp
    · simp only [hua, if_false, false_and, or_false]
      by_cases hsa : ta = .select
      · simp [hsa]
      · simp [hsa]

/-- A `SELECT` and a `DELETE`. -/
theorem batch_primary_select_delete :
    selectRole (classify ("SELECT 1".toList ++ ';' :: "DELETE FROM t".toList)) ⟨false, true⟩ =
      .primary :=
  (batch_primary_iff "SELECT 1".toList "DELETE FROM t".toList (by decide +kernel)
    ⟨false, true⟩).mpr (.inr (.inl ⟨.delete, by decide +kernel, rfl⟩)) (.inr (by decide +kernel))

/-- `BEGIN` goes to the primary, and `SELECT 1;BEGIN` to a replica. -/
theorem batch_not_primary_select_begin :
    (stripScan .normal "SELECT 1".toList).2 = some .normal ∧
    statements "SELECT 1".toList ≠ [] ∧ statements "BEGIN".toList ≠ [] ∧
    ¬ (selectRole (classify "SELECT 1".toList) ⟨false, true⟩ = .primary ∨
        selectRole (classify "BEGIN".toList) ⟨false, true⟩ = .primary →
      selectRole (classify ("SELECT 1".toList ++ ';' :: "BEGIN".toList)) ⟨false, true⟩ =
        .primary) := by
  decide +kernel

end DBMesh.Routing
