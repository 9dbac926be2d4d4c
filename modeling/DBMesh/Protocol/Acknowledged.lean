import DBMesh.Protocol.Session

/-!
# Statements answered without a backend

A query that `handle_com_query` answers itself is acknowledged and goes nowhere. Its first statement
is a session-control statement, unless its keyword is the beginning of a longer word; the rest of a
batch is never looked at.

## Main definitions

* `DBMesh.Protocol.OpensLocal` — the texts that are answered locally, by how they begin
* `DBMesh.Protocol.leadingWord` — the letters a text begins with

## Main results

* `DBMesh.Protocol.classifyOne_isSessionControl_iff` — which statements are session control
* `DBMesh.Protocol.acknowledged_iff` — exactly which texts are acknowledged without losing a
  statement
-/

namespace DBMesh.Protocol

open DBMesh.Routing

/-! ### Session-control statements -/

def isSessionControl (t : QueryType) : Bool :=
  t == .set || t == .use || t == .begin || t == .commit || t == .rollback

/-- The keywords of session-control statements. -/
def controlWords : List (List Char) :=
  ["set".toList, "use".toList, "begin".toList, "start".toList, "commit".toList, "rollback".toList]

theorem isSessionControl_cteKeyword {w : List Char} {t : QueryType} (h : cteKeyword w = some t) :
    isSessionControl t = false := by
  simp only [cteKeyword] at h
  split_ifs at h <;> obtain rfl := Option.some.inj h <;> rfl

/-- A CTE is a query or a write. -/
theorem isSessionControl_cteScan (st : LexState) (depth : ℕ) (s : List Char) :
    isSessionControl (cteScan st depth s) = false := by
  fun_induction cteScan st depth s with
  | case1 => rfl
  | case8 _ _ _ _ _ _ _ _ _ _ hkw => exact isSessionControl_cteKeyword hkw
  | case2 | case3 | case4 | case5 | case6 | case7 | case9 | case10 => assumption

theorem mem_of_lookup {k : List Char} {t : QueryType} {l : List (List Char × QueryType)}
    (h : l.lookup k = some t) : (k, t) ∈ l := by
  obtain ⟨l₁, l₂, rfl, -⟩ := List.lookup_eq_some_iff.mp h
  exact List.mem_append_right _ (List.mem_cons_self ..)

theorem keywordMap_isSessionControl :
    ∀ p ∈ keywordMap, isSessionControl p.2 = true ↔ p.1 ∈ controlWords := by
  decide

theorem controlWords_mem :
    ∀ w ∈ controlWords, w ≠ [] ∧ w ≠ "with".toList ∧ (keywordMap.lookup w).isSome = true := by
  decide

theorem classifyOne_isSessionControl_iff (stmt : List Char) :
    isSessionControl (classifyOne stmt) = true ↔ firstKeyword stmt ∈ controlWords := by
  rw [classifyOne]
  by_cases hnil : firstKeyword stmt = []
  · rw [if_pos hnil, hnil]
    decide
  by_cases hwith : firstKeyword stmt = "with".toList
  · rw [if_neg hnil, if_pos hwith, classifyCte, isSessionControl_cteScan, hwith]
    decide
  rw [if_neg hnil, if_neg hwith]
  cases hlookup : keywordMap.lookup (firstKeyword stmt) with
  | none =>
    refine iff_of_false (by decide) fun hmem => ?_
    exact absurd (controlWords_mem _ hmem).2.2 (by simp [hlookup])
  | some t => exact keywordMap_isSessionControl _ (mem_of_lookup hlookup)

/-! ### The first statement -/

/-- The letters a text begins with, after whitespace. -/
def leadingWord (sql : List Char) : List Char :=
  ((sql.dropWhile isSpace).takeWhile Char.isAlpha).map lower

theorem length_le_of_mem_controlWords : ∀ w ∈ controlWords, w.length ≤ 16 := by decide

/-- The first statement of a text that begins with letters is session control if they are. -/
theorem first_isSessionControl_iff {sql : List Char} (h : leadingWord sql ≠ []) :
    ∃ st rest, statements sql = st :: rest ∧
      (isSessionControl (classifyOne st) = true ↔ leadingWord sql ∈ controlWords) := by
  have hw : ∀ c ∈ (sql.dropWhile isSpace).takeWhile Char.isAlpha, c.isAlpha = true :=
    fun c hc => List.mem_takeWhile_imp hc
  have hne : (sql.dropWhile isSpace).takeWhile Char.isAlpha ≠ [] := by
    intro hnil
    exact h (by rw [leadingWord, hnil]; rfl)
  have hy : StartsNot Char.isAlpha ((sql.dropWhile isSpace).dropWhile Char.isAlpha) := by
    intro c hc
    have := List.head?_dropWhile_not Char.isAlpha (sql.dropWhile isSpace)
    rw [hc] at this
    simpa using this
  have hws : ∀ c ∈ sql.takeWhile isSpace, isSpace c = true := fun c hc => List.mem_takeWhile_imp hc
  obtain ⟨h', rest, hh', hstmts⟩ := statements_of_word (by decide) hws
    (fun c hc => isWord_of_isAlpha (hw c hc)) hne hy
  rw [List.takeWhile_append_dropWhile, List.takeWhile_append_dropWhile] at hstmts
  refine ⟨_, rest, hstmts, ?_⟩
  rw [classifyOne_isSessionControl_iff, (firstKeyword_append hw hne hh').2]
  split_ifs with hlen
  · refine iff_of_false (by decide) fun hmem => ?_
    have := length_le_of_mem_controlWords _ hmem
    rw [leadingWord, List.length_map] at this
    omega
  · exact Iff.rfl

/-- The texts that are answered locally, by how they begin. -/
def OpensLocal (sql : List Char) : Prop :=
  OpensSpaced "SET" (sql.dropWhile isSpace) ∨
  (OpensSpaced "USE" (sql.dropWhile isSpace) ∧ (useName sql).isSome = true) ∨
  OpensBegin sql ∨ OpensEnd sql

instance (sql : List Char) : Decidable (OpensLocal sql) := inferInstanceAs (Decidable (_ ∨ _))

theorem OpensLocal.exists_opens {sql : List Char} (h : OpensLocal sql) :
    ∃ kw ∈ ["SET", "USE", "BEGIN", "START", "COMMIT", "ROLLBACK"],
      Opens kw (sql.dropWhile isSpace) := by
  obtain h | ⟨h, -⟩ | (h | h) | (h | h) := h
  · exact ⟨"SET", by simp, h.1⟩
  · exact ⟨"USE", by simp, h.1⟩
  · exact ⟨"BEGIN", by simp, h⟩
  · exact ⟨"START", by simp, h.1.1⟩
  · exact ⟨"COMMIT", by simp, h⟩
  · exact ⟨"ROLLBACK", by simp, h⟩

theorem OpensLocal.leadingWord_ne_nil {sql : List Char} (h : OpensLocal sql) :
    leadingWord sql ≠ [] := by
  have hkw : ∀ kw ∈ ["SET", "USE", "BEGIN", "START", "COMMIT", "ROLLBACK"],
      kw.toList.head?.any Char.isAlpha = true := by decide
  obtain ⟨kw, hmem, hopens⟩ := h.exists_opens
  obtain ⟨c, t, ht, hc⟩ := hopens.exists_cons (hkw kw hmem)
  simp [leadingWord, ht, hc]

/-- Which texts are answered locally. -/
theorem handleComQuery_ok_iff (session : Session) (sql : List Char) :
    (handleComQuery session sql).1 = .ok ↔ OpensLocal sql := by
  obtain ⟨h, _, heq⟩ | ⟨h, hname, heq⟩ | ⟨h, db, hname, heq⟩ | ⟨h, heq⟩ | ⟨h, heq⟩ |
    ⟨h₁, h₂, h₃, h₄, heq⟩ := handleComQuery_cases session sql
  · rw [heq]
    exact iff_of_true rfl (.inl h)
  · rw [heq]
    refine iff_of_false (by simp) ?_
    obtain ⟨hbegin, hend⟩ := not_opensBegin_of_opens h.1 (by decide)
    rintro (hset | ⟨-, hsome⟩ | hb | he)
    · exact h.1.not_opens (by decide) hset.1
    · exact absurd hsome (by simp [hname])
    · exact hbegin hb
    · exact hend he
  · rw [heq]
    exact iff_of_true rfl (.inr (.inl ⟨h, by simp [hname]⟩))
  · rw [heq]
    exact iff_of_true rfl (.inr (.inr (.inl h)))
  · rw [heq]
    exact iff_of_true rfl (.inr (.inr (.inr h)))
  · rw [heq]
    refine iff_of_false (by simp) ?_
    rintro (hset | ⟨huse, -⟩ | hb | he)
    · exact h₁ hset
    · exact h₂ huse
    · exact h₃ hb
    · exact h₄ he

/-- **No acknowledged statement is dropped exactly when** a text that is answered locally begins
with a whole keyword of session control, and all its statements after the first are session control
too. -/
theorem acknowledged_iff (session : Session) (sql : List Char) :
    ((handleComQuery session sql).1 = .ok →
      ∀ st ∈ statements sql, isSessionControl (classifyOne st) = true) ↔
    (OpensLocal sql → leadingWord sql ∈ controlWords ∧
      ∀ st ∈ (statements sql).tail, isSessionControl (classifyOne st) = true) := by
  rw [handleComQuery_ok_iff]
  refine forall_congr' fun hlocal => ?_
  obtain ⟨st, rest, hstmts, hfirst⟩ := first_isSessionControl_iff hlocal.leadingWord_ne_nil
  rw [hstmts, List.forall_mem_cons, List.tail_cons, hfirst]

/-- A `DELETE` behind a `SET` is acknowledged and lost. -/
theorem acknowledged_delete_lost :
    ¬ ((handleComQuery ⟨[], false, true⟩ "SET a=1; DELETE FROM t".toList).1 = .ok →
      ∀ st ∈ statements "SET a=1; DELETE FROM t".toList,
        isSessionControl (classifyOne st) = true) := by
  decide +kernel

end DBMesh.Protocol
