import DBMesh.Protocol.Session

/-!
# The transaction flag

`handle_com_query` moves `in_transaction_` by the letters a query begins with. A client's
transaction is moved by its statements, wherever comments stand in them and whatever follows their
keywords.

## Main definitions

* `DBMesh.Protocol.word`, `afterWord` — the words of a statement, one after the other
* `DBMesh.Protocol.transactionEffect`, `track` — the reference: what a statement does to a client's
  transaction
* `DBMesh.Protocol.Tracked` — the texts whose beginning tells what they do to a transaction

## Main results

* `DBMesh.Protocol.handleComQuery_inTransaction` — the flag after a query
* `DBMesh.Protocol.statements_of_bare` — a text that begins with words begins with those of its
  first statement
* `DBMesh.Protocol.transaction_tracked` — along tracked texts the flag is the client's
-/

namespace DBMesh.Protocol

open DBMesh.Routing

/-! ### The reference -/

/-- The first word of a text, in lower case. -/
def word (t : List Char) : List Char := ((t.dropWhile isSpace).takeWhile isWord).map lower

/-- What follows the first word. -/
def afterWord (t : List Char) : List Char := (t.dropWhile isSpace).dropWhile isWord

/-- What a statement does to the transaction of a client: `BEGIN` and `START TRANSACTION` open one,
`COMMIT` and a `ROLLBACK` that is not `ROLLBACK TO` end it. -/
def transactionEffect (st : List Char) : Option Bool :=
  if word st = "begin".toList then some true
  else if word st = "start".toList then
    if word (afterWord st) = "transaction".toList then some true else none
  else if word st = "commit".toList then some false
  else if word st = "rollback".toList then
    if word (afterWord st) = "to".toList then none else some false
  else none

/-- What the first statement of a text does. -/
def effect (sql : List Char) : Option Bool := (statements sql).head?.bind transactionEffect

/-- The reference tracker. -/
def track (inTransaction : Bool) (sql : List Char) : Bool := (effect sql).getD inTransaction

/-! ### The flag after a query -/

theorem OpensBegin.not_opensEnd {sql : List Char} (h : OpensBegin sql) : ¬ OpensEnd sql := by
  rintro (hend | hend)
  · exact h.elim (hend.not_opens (by decide)) fun h => hend.not_opens (by decide) h.1.1
  · exact h.elim (hend.not_opens (by decide)) fun h => hend.not_opens (by decide) h.1.1

theorem handleComQuery_inTransaction (session : Session) (sql : List Char) :
    (handleComQuery session sql).2.inTransaction =
      if OpensBegin sql then true else if OpensEnd sql then false else session.inTransaction := by
  obtain ⟨h, _, heq⟩ | ⟨h, -, heq⟩ | ⟨h, _, -, heq⟩ | ⟨h, heq⟩ | ⟨h, heq⟩ |
    ⟨-, -, hbegin, hend, heq⟩ := handleComQuery_cases session sql
  · obtain ⟨hbegin, hend⟩ := not_opensBegin_of_opens h.1 (by decide)
    rw [heq, if_neg hbegin, if_neg hend]
  · obtain ⟨hbegin, hend⟩ := not_opensBegin_of_opens h.1 (by decide)
    rw [heq, if_neg hbegin, if_neg hend]
  · obtain ⟨hbegin, hend⟩ := not_opensBegin_of_opens h.1 (by decide)
    rw [heq, if_neg hbegin, if_neg hend]
  · rw [heq, if_pos h]
  · rw [heq, if_neg fun hbegin => hbegin.not_opensEnd h, if_pos h]
  · rw [heq, if_neg hbegin, if_neg hend]

/-- The code and the reference move the flag alike, whatever it was. -/
theorem flag_eq_track_iff (sql : List Char) :
    (∀ session, (handleComQuery session sql).2.inTransaction = track session.inTransaction sql) ↔
      match effect sql with
      | some true => OpensBegin sql
      | some false => OpensEnd sql
      | none => ¬ OpensBegin sql ∧ ¬ OpensEnd sql := by
  have hflag : (∀ session,
      (handleComQuery session sql).2.inTransaction = track session.inTransaction sql) ↔
      ∀ b, (if OpensBegin sql then true else if OpensEnd sql then false else b) = track b sql := by
    simp only [handleComQuery_inTransaction]
    exact ⟨fun h b => h ⟨[], b, true⟩, fun h session => h session.inTransaction⟩
  rw [hflag]
  by_cases hbegin : OpensBegin sql
  · have hend := hbegin.not_opensEnd
    cases heff : effect sql with
    | none => simp [track, heff, hbegin]
    | some b => cases b <;> simp [track, heff, hbegin, hend]
  · by_cases hend : OpensEnd sql
    · cases heff : effect sql with
      | none => simp [track, heff, hbegin, hend]
      | some b => cases b <;> simp [track, heff, hbegin, hend]
    · cases heff : effect sql with
      | none => simp [track, heff, hbegin, hend]
      | some b => cases b <;> simp [track, heff, hbegin, hend]

/-! ### Words of a text and of its first statement -/

theorem word_append {ws w y : List Char} (hws : ∀ c ∈ ws, isSpace c = true)
    (hw : ∀ c ∈ w, isWord c = true) (hne : w ≠ []) (hy : Boundary y) :
    word (ws ++ (w ++ y)) = w.map lower ∧ afterWord (ws ++ (w ++ y)) = y := by
  obtain ⟨htake, hdrop⟩ := takeWhile_isWord hw hy
  have hskip : (ws ++ (w ++ y)).dropWhile isSpace = w ++ y := by
    rw [List.dropWhile_append_of_pos hws]
    cases w with
    | nil => exact absurd rfl hne
    | cons c w =>
      rw [List.cons_append, List.dropWhile_cons, isSpace_of_isWord (hw c (List.mem_cons_self ..))]
      rfl
  rw [word, afterWord, hskip, htake, hdrop]
  exact ⟨rfl, rfl⟩

/-- A text that begins with a word, taken apart. -/
theorem exists_word {t : List Char} (h : word t ≠ []) :
    ∃ ws w y, (∀ c ∈ ws, isSpace c = true) ∧ (∀ c ∈ w, isWord c = true) ∧ w ≠ [] ∧ Boundary y ∧
      t = ws ++ (w ++ y) ∧ word t = w.map lower ∧ afterWord t = y := by
  refine ⟨t.takeWhile isSpace, (t.dropWhile isSpace).takeWhile isWord, afterWord t,
    fun c hc => List.mem_takeWhile_imp hc, fun c hc => List.mem_takeWhile_imp hc, ?_, ?_, ?_, rfl,
    rfl⟩
  · intro hnil
    exact h (by rw [word, hnil]; rfl)
  · intro c hc
    have hnot := List.head?_dropWhile_not isWord (t.dropWhile isSpace)
    rw [show (t.dropWhile isSpace).dropWhile isWord = afterWord t from rfl, hc] at hnot
    simpa using hnot
  · rw [afterWord, List.takeWhile_append_dropWhile, List.takeWhile_append_dropWhile]

/-- The first word of a text is that of its first statement. -/
theorem statements_of_bare {sql : List Char} (h : word sql ≠ []) :
    ∃ st rest, statements sql = st :: rest ∧ word st = word sql := by
  obtain ⟨ws, w, y, hws, hw, hne, hy, rfl, hword, -⟩ := exists_word h
  obtain ⟨h', rest, hh', hstmts⟩ := statements_of_word (by decide) hws hw hne hy
  refine ⟨w ++ h', rest, hstmts, ?_⟩
  rw [hword]
  exact (@word_append [] w h' (by simp) hw hne hh').1

/-- The first two words of a text are those of its first statement. -/
theorem statements_of_bare_two {sql : List Char} (h : word sql ≠ [])
    (h₂ : word (afterWord sql) ≠ []) :
    ∃ st rest, statements sql = st :: rest ∧ word st = word sql ∧
      word (afterWord st) = word (afterWord sql) := by
  obtain ⟨ws, w, y, hws, hw, hne, hy, rfl, hword, hafter⟩ := exists_word h
  rw [hafter] at h₂ ⊢
  obtain ⟨ws₂, w₂, y₂, hws₂, hw₂, hne₂, hy₂, rfl, hword₂, -⟩ := exists_word h₂
  have hx : ∀ c ∈ w ++ (ws₂ ++ w₂), isWord c = true ∨ isSpace c = true := by
    intro c hc
    rw [List.mem_append, List.mem_append] at hc
    obtain hc | hc | hc := hc
    · exact .inl (hw c hc)
    · exact .inr (hws₂ c hc)
    · exact .inl (hw₂ c hc)
  have hhead : ∀ c ∈ (w ++ (ws₂ ++ w₂)).head?, isSpace c = false := by
    intro c hc
    rw [List.head?_append_of_ne_nil _ hne] at hc
    exact isSpace_of_isWord (hw c (List.mem_of_head? hc))
  have hlast : ∀ c ∈ (w ++ (ws₂ ++ w₂)).getLast?, isSpace c = false := by
    intro c hc
    rw [← List.append_assoc, List.getLast?_append_of_ne_nil _ hne₂] at hc
    exact isSpace_of_isWord (hw₂ c (List.mem_of_getLast? hc))
  obtain ⟨h', rest, hh', hstmts⟩ := statements_of_words (p := isWord) (by decide) hws hx hhead
    hlast (by simp [hne]) hy₂
  simp only [List.append_assoc] at hstmts
  -- the second word does not continue the first
  have hgap : Boundary (ws₂ ++ (w₂ ++ h')) := by
    rw [← List.append_assoc]
    exact StartsNot.append (hy.of_isPrefix ⟨y₂, List.append_assoc ..⟩) (by simp [hne₂]) h'
  have hst := @word_append [] w _ (by simp) hw hne hgap
  refine ⟨_, rest, hstmts, hst.1.trans hword.symm, ?_⟩
  rw [hword₂, ← (word_append hws₂ hw₂ hne₂ hh').1]
  exact congrArg word hst.2

/-! ### Words and the beginning of a text -/

theorem opens_of_word {kw k : String} {t : List Char} (h : word t = k.toList)
    (hk : kw.toList <+: k.toList.map Char.toUpper) : Opens kw (t.dropWhile isSpace) := by
  have hup : (word t).map Char.toUpper =
      ((t.dropWhile isSpace).takeWhile isWord).map Char.toUpper := by
    rw [word, List.map_map]
    exact congrArg (List.map · _) (funext Char.toUpper_toLower_eq_toUpper)
  rw [opens_iff_isPrefix]
  rw [← h, hup] at hk
  exact hk.trans ((List.takeWhile_prefix _).map _)

theorem word_ne_nil_of_opens {kw : String} {t : List Char} (h : Opens kw (t.dropWhile isSpace))
    (hkw : kw.toList.head?.any Char.isAlpha = true) : word t ≠ [] := by
  obtain ⟨c, t', ht, hc⟩ := h.exists_cons hkw
  simp [word, ht, isWord_of_isAlpha hc]

theorem drop_word {k : List Char} {t : List Char} (h : word t = k) :
    (t.dropWhile isSpace).drop k.length = afterWord t := by
  have hlen : k.length = ((t.dropWhile isSpace).takeWhile isWord).length := by
    rw [← h, word, List.length_map]
  nth_rewrite 1 [← List.takeWhile_append_dropWhile (p := isWord) (l := t.dropWhile isSpace)]
  rw [hlen, List.drop_left]
  rfl

/-- Where a second word follows, whitespace does. -/
theorem afterWord_head {t : List Char} (h : word t ≠ []) (h₂ : word (afterWord t) ≠ []) :
    (afterWord t).head?.any isSpace = true := by
  obtain ⟨-, -, y, -, -, -, hy, -, -, hafter⟩ := exists_word h
  rw [hafter] at h₂ ⊢
  cases y with
  | nil => exact absurd rfl h₂
  | cons c y =>
    have hc : isWord c = false := hy c rfl
    cases hs : isSpace c with
    | true => simp [hs]
    | false => exact absurd (by simp [word, hs, hc]) h₂

theorem opensStart_of_word {t : List Char} (h : word t = "start".toList)
    (h₂ : word (afterWord t) = "transaction".toList) : OpensStart (t.dropWhile isSpace) := by
  have hdrop : (t.dropWhile isSpace).drop 5 = afterWord t := drop_word h
  refine ⟨⟨opens_of_word h (by decide), ?_⟩, ?_⟩
  · rw [show "START".toList.length = 5 from rfl, hdrop]
    exact afterWord_head (by rw [h]; decide) (by rw [h₂]; decide)
  · rw [hdrop]
    exact opens_of_word h₂ (by decide)

/-! ### Texts that are read as they are meant -/

/-- The text begins with a word, and if that is `START`, another follows after whitespace. -/
def Bare (sql : List Char) : Prop :=
  word sql ≠ [] ∧ (word sql = "start".toList → word (afterWord sql) ≠ [])

/-- A text that moves the transaction has no comment before its keyword, nor behind `START`; any
other text does not begin with the letters of such a keyword. -/
def Tracked (sql : List Char) : Prop :=
  if (effect sql).isSome then Bare sql else ¬ OpensBegin sql ∧ ¬ OpensEnd sql

instance (sql : List Char) : Decidable (Bare sql) := inferInstanceAs (Decidable (_ ∧ _))

instance (sql : List Char) : Decidable (Tracked sql) := inferInstanceAs (Decidable (ite _ _ _))

theorem effect_eq_some {sql : List Char} {b : Bool} (h : effect sql = some b) :
    ∃ st rest, statements sql = st :: rest ∧ transactionEffect st = some b := by
  obtain ⟨st, hst, heff⟩ := Option.bind_eq_some_iff.mp h
  cases hs : statements sql with
  | nil => exact absurd hst (by simp [hs])
  | cons st' rest =>
    obtain rfl : st' = st := by simpa [hs] using hst
    exact ⟨st', rest, rfl, heff⟩

theorem transactionEffect_eq_some {st : List Char} {b : Bool} (h : transactionEffect st = some b) :
    b = true ∧ (word st = "begin".toList ∨
      word st = "start".toList ∧ word (afterWord st) = "transaction".toList) ∨
    b = false ∧ (word st = "commit".toList ∨ word st = "rollback".toList) := by
  simp only [transactionEffect] at h
  split_ifs at h with h₁ h₂ h₃ h₄ h₅ h₆
  · exact .inl ⟨(Option.some.inj h).symm, .inl h₁⟩
  · exact .inl ⟨(Option.some.inj h).symm, .inr ⟨h₂, h₃⟩⟩
  · exact .inr ⟨(Option.some.inj h).symm, .inl h₄⟩
  · exact .inr ⟨(Option.some.inj h).symm, .inr h₅⟩

theorem opensBegin_iff_bare {sql : List Char} (h : effect sql = some true) :
    OpensBegin sql ↔ Bare sql := by
  obtain ⟨st, rest, hstmts, heff⟩ := effect_eq_some h
  have hkey : word st = "begin".toList ∨
      word st = "start".toList ∧ word (afterWord st) = "transaction".toList :=
    (transactionEffect_eq_some heff).elim And.right fun h => absurd h.1 (by decide)
  constructor
  · intro hopens
    have hne : word sql ≠ [] := hopens.elim (word_ne_nil_of_opens · (by decide))
      fun h => word_ne_nil_of_opens h.1.1 (by decide)
    refine ⟨hne, fun hstart => ?_⟩
    have hs : Opens "START" (sql.dropWhile isSpace) := opens_of_word hstart (by decide)
    obtain hbegin | hopens := hopens
    · exact absurd hbegin (hs.not_opens (by decide))
    · have htrans := hopens.2
      rw [show (5 : ℕ) = "start".toList.length from rfl, drop_word hstart] at htrans
      exact word_ne_nil_of_opens htrans (by decide)
  · rintro ⟨hne, hstart⟩
    obtain ⟨st', rest', hstmts', hword⟩ := statements_of_bare hne
    obtain ⟨rfl, -⟩ := List.cons.inj (hstmts.symm.trans hstmts')
    obtain hbegin | ⟨hs, ht⟩ := hkey
    · exact .inl (opens_of_word (hword.symm.trans hbegin) (by decide))
    · have hs' : word sql = "start".toList := hword.symm.trans hs
      obtain ⟨st'', rest'', hstmts'', -, hword₂⟩ := statements_of_bare_two hne (hstart hs')
      obtain ⟨rfl, -⟩ := List.cons.inj (hstmts.symm.trans hstmts'')
      exact .inr (opensStart_of_word hs' (hword₂.symm.trans ht))

theorem opensEnd_iff_bare {sql : List Char} (h : effect sql = some false) :
    OpensEnd sql ↔ Bare sql := by
  obtain ⟨st, rest, hstmts, heff⟩ := effect_eq_some h
  have hkey : word st = "commit".toList ∨ word st = "rollback".toList :=
    (transactionEffect_eq_some heff).elim (fun h => absurd h.1 (by decide)) And.right
  have hfirst : ∀ hne : word sql ≠ [], word sql = word st := by
    intro hne
    obtain ⟨st', rest', hstmts', hword⟩ := statements_of_bare hne
    obtain ⟨rfl, -⟩ := List.cons.inj (hstmts.symm.trans hstmts')
    exact hword.symm
  constructor
  · intro hopens
    have hne : word sql ≠ [] :=
      hopens.elim (word_ne_nil_of_opens · (by decide)) (word_ne_nil_of_opens · (by decide))
    refine ⟨hne, fun hstart => ?_⟩
    rw [hfirst hne] at hstart
    exact hkey.elim (fun h => absurd (h.symm.trans hstart) (by decide))
      fun h => absurd (h.symm.trans hstart) (by decide)
  · intro hbare
    exact hkey.imp (fun h => opens_of_word ((hfirst hbare.1).trans h) (by decide))
      fun h => opens_of_word ((hfirst hbare.1).trans h) (by decide)

/-- **The flag follows one text** whatever it was before, exactly if the text is tracked. -/
theorem flag_eq_track_iff_tracked (sql : List Char) :
    (∀ session, (handleComQuery session sql).2.inTransaction = track session.inTransaction sql) ↔
      Tracked sql := by
  rw [flag_eq_track_iff, Tracked]
  cases heff : effect sql with
  | none => exact Iff.rfl
  | some b =>
    cases b with
    | true => exact opensBegin_iff_bare heff
    | false => exact opensEnd_iff_bare heff

/-! ### Runs of a session -/

theorem comQuery_inTransaction {session session' : Session} {sql : List Char}
    (h : comQuery session sql = some session') :
    session'.inTransaction = (handleComQuery session sql).2.inTransaction := by
  rw [comQuery] at h
  split at h
  · exact absurd h (by simp)
  · next heq =>
    rw [heq, ← Option.some.inj h]

/-- **The flag along a run** of tracked texts is that of the reference. -/
theorem run_inTransaction {texts : List (List Char)} {session session' : Session}
    (htracked : ∀ sql ∈ texts, Tracked sql)
    (hrun : Transition.run comQuery session texts = some session') :
    session'.inTransaction = texts.foldl track session.inTransaction := by
  have halong : Transition.Along comQuery (fun _ sql => Tracked sql) session texts :=
    .of_forall_mem fun sql hsql _ => htracked sql hsql
  refine Transition.map_run (f := Session.inTransaction) (fun s sql s' hsql hstep => ?_) halong hrun
  rw [comQuery_inTransaction hstep]
  exact (flag_eq_track_iff_tracked sql).mpr hsql s

theorem plannedRole_of_inTransaction (rwSplit : Bool) {session : Session} (sql : List Char)
    (h : session.inTransaction = true) : plannedRole rwSplit session sql = .primary := by
  rw [plannedRole, selectRole_eq_primary_iff.mpr (.inl h)]
  exact ite_self _

/-- **Transaction tracking.** After any run of tracked texts the flag is that of the reference, and
while the reference is in a transaction every query is planned with the primary. A text that is not
tracked moves the flag of some session another way. -/
theorem transaction_tracked (texts : List (List Char)) (session session' : Session)
    (hrun : Transition.run comQuery session texts = some session') :
    ((∀ sql ∈ texts, Tracked sql) →
      session'.inTransaction = texts.foldl track session.inTransaction ∧
      (texts.foldl track session.inTransaction = true →
        ∀ rwSplit sql, plannedRole rwSplit session' sql = .primary)) ∧
    ∀ sql, (∀ s, (handleComQuery s sql).2.inTransaction = track s.inTransaction sql) ↔
      Tracked sql := by
  refine ⟨fun htracked => ?_, flag_eq_track_iff_tracked⟩
  have hflag := run_inTransaction htracked hrun
  exact ⟨hflag, fun ht rwSplit sql => plannedRole_of_inTransaction rwSplit sql (hflag.trans ht)⟩

/-- A `SELECT` after `start transaction`. -/
theorem transaction_tracked_start :
    plannedRole true ⟨[], true, true⟩ "SELECT 1".toList = .primary :=
  ((transaction_tracked [" start  transaction /* c */".toList, "SELECT a FROM t".toList]
    ⟨[], false, true⟩ ⟨[], true, true⟩ (by decide +kernel)).1 (by decide +kernel)).2
      (by decide +kernel) true "SELECT 1".toList

/-- A comment before `BEGIN`, or a rollback to a savepoint: the client is in a transaction, the flag
is not set, and the next `SELECT` goes to a replica. -/
theorem transaction_not_tracked :
    (∀ texts ∈ [["/* c */ BEGIN".toList], ["BEGIN".toList, "ROLLBACK TO SAVEPOINT s".toList]],
      (∀ sql ∈ texts, (statements sql).length = 1) ∧
      Transition.run comQuery ⟨[], false, true⟩ texts = some ⟨[], false, true⟩ ∧
      texts.foldl track false = true) ∧
    plannedRole true ⟨[], false, true⟩ "SELECT 1".toList = .replica := by
  decide +kernel

end DBMesh.Protocol
