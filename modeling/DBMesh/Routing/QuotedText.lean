import DBMesh.Routing.SchemaScan

/-!
# Quoted text and the schema

The scan for a schema skips what stands in single quotes. Double quotes and backticks may quote a
table name, so the scan does not skip what stands in them, not even where no name is due: there a
keyword in a string or in a quoted column name is taken for one of the statement, and an apostrophe
begins a literal that is not there.

What a quoted text holds does not matter where it is in single quotes and the scan is in step with
the statement, and where the schema has been found before. Everywhere else two contents and a
continuation can be given for which it does.

## Main definitions

* `DBMesh.Routing.Opaque` — what a quoted text holds at some place does not matter

## Main results

* `DBMesh.Routing.opaque_iff` — when it does not matter
-/

namespace DBMesh.Routing

open Place

/-- A text in quotes. -/
def quotedText (st : LexState) (x : List Char) : List Char := st.quote :: (x ++ [st.quote])

/-- Without quotes and backslashes. -/
def Clean (x : List Char) : Prop := ∀ c ∈ x, opened c = .normal ∧ c ≠ '\\'

instance (x : List Char) : Decidable (Clean x) :=
  List.decidableBAll (fun c => opened c = .normal ∧ c ≠ '\\') x

/-- The content of a quoted text that begins after `pre` and ends before `post` can be replaced by
any clean content without an effect on the schema. -/
def Opaque (pre : List Char) (st : LexState) : Prop :=
  ∀ x x' post, Literal st x → Clean x' → post.head? ≠ some st.quote →
    extract (pre ++ quotedText st x ++ post) = extract (pre ++ quotedText st x' ++ post)

theorem extract_quotedText (pre : List Char) (st : LexState) (x post : List Char) :
    extract (pre ++ quotedText st x ++ post) =
      (((gap.run pre).step st.quote).run (x ++ st.quote :: post)).result := by
  rw [extract_eq_result, quotedText, List.append_assoc, run_append, List.cons_append, run_cons,
    List.append_assoc, List.singleton_append]

theorem Clean.literal {st : LexState} (hst : st ≠ .normal) {x : List Char} (h : Clean x) :
    Literal st x := by
  induction x with
  | nil => exact .nil
  | cons c x ih =>
    obtain ⟨⟨hopened, hescape⟩, hx⟩ := List.forall_mem_cons.mp h
    refine .inside ?_ (fun hc => absurd hc hescape) (ih hx)
    rintro rfl
    exact hst ((opened_quote hst).symm.trans hopened)

/-! ### Where it does -/

/-- Where a quote can take the scan. -/
inductive AfterQuote (q : Char) : Place → Prop
  | gap : AfterQuote q .gap
  | literal : AfterQuote q .literal
  | quoted {b : Char} {n : SchemaName} (hb : b = '\x60' ∨ b = '"') : AfterQuote q (.quoted b n)
  | closing {n : SchemaName} : AfterQuote q (.closing q n)
  | tableQuoted {n : SchemaName} : AfterQuote q (.tableQuoted q n)
  | tableClosing {n : SchemaName} : AfterQuote q (.tableClosing q n)
  | found {n : SchemaName} : AfterQuote q (.found n)

section

variable {q : Char} (hq : opened q ≠ .normal)

include hq

theorem opened_ne_cases : q = '\'' ∨ q = '"' ∨ q = '\x60' := by
  rw [opened] at hq
  split_ifs at hq with h₁ h₂ h₃
  · exact .inl h₁
  · exact .inr (.inl h₂)
  · exact .inr (.inr h₃)
  · exact absurd rfl hq

theorem isIdent_of_opened : isIdent q = false ∧ isSpace q = false ∧ q ≠ '.' := by
  obtain rfl | rfl | rfl := opened_ne_cases hq <;> decide

theorem afterQuote_fromGap : AfterQuote q (fromGap q) := by
  rw [fromGap, (isIdent_of_opened hq).1, if_neg Bool.false_ne_true]
  split_ifs
  · exact .literal
  · exact .gap

theorem afterQuote_fromName : AfterQuote q (fromName q) := by
  obtain ⟨hi, hs, -⟩ := isIdent_of_opened hq
  rw [fromName, hi, hs, if_neg Bool.false_ne_true, if_neg Bool.false_ne_true]
  split_ifs with hname
  · exact .quoted hname
  · exact afterQuote_fromGap hq

theorem afterQuote_fromDot (n : SchemaName) : AfterQuote q (fromDot n q) := by
  obtain ⟨-, hs, hdot⟩ := isIdent_of_opened hq
  rw [fromDot, hs, if_neg Bool.false_ne_true, if_neg hdot]
  exact afterQuote_fromGap hq

theorem afterQuote_step {p : Place} (h : p.WellQuoted) : AfterQuote q (p.step q) := by
  obtain ⟨hi, hs, -⟩ := isIdent_of_opened hq
  cases p with
  | gap => exact afterQuote_fromGap hq
  | word w =>
    rw [step, hi, if_neg Bool.false_ne_true]
    split_ifs
    · exact afterQuote_fromName hq
    · exact afterQuote_fromGap hq
  | literal =>
    rw [step]
    split_ifs with hescape
    · subst hescape
      exact absurd rfl hq
    · exact .gap
    · exact .literal
  | escape => exact .literal
  | name => exact afterQuote_fromName hq
  | bare n =>
    rw [step, hi, if_neg Bool.false_ne_true]
    exact afterQuote_fromDot hq n
  | quoted b n =>
    rw [step]
    split_ifs with hb
    · subst hb
      exact .closing
    · exact .quoted h
  | closing b n =>
    rw [step]
    split_ifs
    · exact .quoted h
    · exact afterQuote_fromGap hq
    · exact afterQuote_fromDot hq n
  | dot n => exact afterQuote_fromDot hq n
  | table n =>
    rw [step, hs, hi, if_neg Bool.false_ne_true, if_neg Bool.false_ne_true]
    split_ifs
    · exact .tableQuoted
    · exact afterQuote_fromGap hq
  | tableQuoted b n =>
    rw [step]
    split_ifs with hb
    · subst hb
      exact .tableClosing
    · exact .found
  | tableClosing b n =>
    rw [step]
    split_ifs
    · exact .found
    · exact afterQuote_fromGap hq
  | found n => exact .found

end

/-- What a quoted text holds shows at a place: two contents and what follows that give different
schemas. -/
def Shows (st : LexState) (p : Place) : Prop :=
  ∃ x x' post, Literal st x ∧ Clean x' ∧ post.head? ≠ some st.quote ∧
    (p.run (x ++ st.quote :: post)).result ≠ (p.run (x' ++ st.quote :: post)).result

/-- A qualified name after a keyword. -/
def probe : List Char := " from a.b ".toList

theorem clean_probe : Clean probe := by decide +kernel

theorem run_gap_probe (y : List Char) : (gap.run (probe ++ y)).result = some ['a'] := by
  have hrun : gap.run probe = found ['a'] := by decide +kernel
  rw [run_append, hrun, run_found]
  rfl

/-- A closed name that is not empty is a schema if a table follows. -/
theorem run_closing_table {b : Char} (hb : b ≠ '.') {n : SchemaName} (hn : n ≠ [])
    (y : List Char) : ((closing b n).run ('.' :: 'c' :: y)).result = some n := by
  have hdot : (closing b n).step '.' = table n := by
    rw [step, if_neg hb.symm, if_neg hn]
    rfl
  have htable : (table n).step 'c' = found n := rfl
  rw [run_cons, hdot, run_cons, htable, run_found]
  rfl

section

variable {st : LexState} (hst : st ≠ .normal)

include hst

theorem quote_ne : st.quote ≠ '.' ∧ st.quote ≠ 'c' ∧ st.quote ≠ 'z' ∧ st.quote ≠ ' ' := by
  refine ⟨?_, ?_, ?_, ?_⟩
  all_goals exact quote_ne_of_opened hst rfl

theorem shows_gap : Shows st .gap := by
  refine ⟨[], probe, [], .nil, clean_probe, by simp, ?_⟩
  rw [run_gap_probe]
  cases st with
  | normal => exact absurd rfl hst
  | squote => decide
  | dquote => decide
  | btick => decide

/-- An apostrophe ends the literal that the scan believes to be in. -/
theorem shows_literal (hs : st ≠ .squote) : Shows st .literal := by
  refine ⟨'\'' :: probe, [], [], ?_, by decide, by simp, ?_⟩
  · refine .inside ?_ (fun h => absurd h (by decide)) (clean_probe.literal hst)
    cases st with
    | normal => exact absurd rfl hst
    | squote => exact absurd rfl hs
    | dquote => decide
    | btick => decide
  · have hrun : (literal.run ('\'' :: probe ++ [st.quote])).result = some ['a'] :=
      run_gap_probe [st.quote]
    rw [hrun]
    cases st with
    | normal => exact absurd rfl hst
    | squote => exact absurd rfl hs
    | dquote => decide
    | btick => decide

/-- A quote inside a name is the end of it, or a part of it. -/
theorem shows_quoted {b : Char} (hb : b = '\x60' ∨ b = '"') (n : SchemaName) :
    Shows st (.quoted b n) := by
  obtain ⟨hdot, hc, hz, -⟩ := quote_ne hst
  have hdot' : b ≠ '.' ∧ 'z' ≠ b ∧ b ≠ '\\' := by
    obtain rfl | rfl := hb <;> decide
  have hne : n ++ ['z'] ≠ [] := List.append_ne_nil_of_right_ne_nil _ (List.cons_ne_nil _ _)
  have hletter : (quoted b n).step 'z' = quoted b (n ++ ['z']) := if_neg hdot'.2.1
  have hclose : ∀ m, (quoted b m).step b = closing b m := fun m => if_pos rfl
  by_cases hq : b = st.quote
  · subst hq
    refine ⟨[], ['z'], ['.', 'c'], .nil, by decide, by simpa using hdot.symm, ?_⟩
    have hlong : ((quoted st.quote n).run (['z'] ++ st.quote :: ['.', 'c'])).result =
        some (n ++ ['z']) := by
      rw [List.singleton_append, run_cons, hletter, run_cons, hclose,
        run_closing_table hdot'.1 hne]
    rw [hlong, List.nil_append, run_cons, hclose]
    by_cases hn : n = []
    · subst hn
      have hgap : (closing st.quote []).step '.' = gap := by
        rw [step, if_neg hdot'.1.symm, if_pos rfl]
        rfl
      rw [run_cons, hgap]
      decide
    · rw [run_closing_table hdot'.1 hn]
      simp
  · refine ⟨['z', b, '.', 'c'], [], [], ?_, by decide, by simp, ?_⟩
    · refine .inside hz.symm (fun h => absurd h (by decide)) (.inside hq ?_ ?_)
      · exact fun h => absurd h hdot'.2.2
      · exact .inside hdot.symm (fun h => absurd h (by decide))
          (.inside hc.symm (fun h => absurd h (by decide)) .nil)
    · have hlong : ((quoted b n).run (['z', b, '.', 'c'] ++ st.quote :: [])).result =
          some (n ++ ['z']) := by
        rw [List.cons_append, run_cons, hletter, List.cons_append, run_cons, hclose,
          List.cons_append, List.cons_append, run_closing_table hdot'.1 hne]
      have hopen : (quoted b n).step st.quote = quoted b (n ++ [st.quote]) :=
        if_neg fun h => hq h.symm
      rw [hlong, List.nil_append, run_cons, hopen]
      simp [result]

/-- The quote of a name doubled, and a blank behind it. -/
theorem shows_closing (n : SchemaName) : Shows st (.closing st.quote n) := by
  obtain ⟨-, -, -, hspace⟩ := quote_ne hst
  refine ⟨[], probe, [], .nil, clean_probe, by simp, ?_⟩
  have hprobe : ((closing st.quote n).run (probe ++ st.quote :: [])).result = some ['a'] := by
    have hblank : ∀ y, (((closing st.quote n).step ' ').run ('f' :: y)).result =
        ((gap.step ' ').run ('f' :: y)).result := by
      intro y
      rw [show (closing st.quote n).step ' ' = if n = [] then fromGap ' ' else fromDot n ' ' from
        if_neg hspace.symm]
      split_ifs
      · rfl
      · rfl
    exact (hblank _).trans (run_gap_probe [st.quote])
  have hdouble : (closing st.quote n).step st.quote = quoted st.quote (n ++ [st.quote]) :=
    if_pos rfl
  rw [hprobe, List.nil_append, run_cons, hdouble]
  simp [result]

theorem shows_tableQuoted (n : SchemaName) : Shows st (.tableQuoted st.quote n) := by
  obtain ⟨-, -, hz, -⟩ := quote_ne hst
  refine ⟨[], ['z'], [], .nil, by decide, by simp, ?_⟩
  have hletter : (tableQuoted st.quote n).step 'z' = found n := if_neg hz.symm
  have hclose : (tableQuoted st.quote n).step st.quote = tableClosing st.quote n := if_pos rfl
  rw [List.singleton_append, run_cons, hletter, run_found, List.nil_append, run_cons, hclose]
  simp [result]

theorem shows_tableClosing (n : SchemaName) : Shows st (.tableClosing st.quote n) := by
  obtain ⟨-, -, -, hspace⟩ := quote_ne hst
  refine ⟨[], [' '], [], .nil, by decide, by simp, ?_⟩
  have hdouble : (tableClosing st.quote n).step st.quote = found n := if_pos rfl
  have hblank : (tableClosing st.quote n).step ' ' = gap := if_neg hspace.symm
  rw [List.nil_append, run_cons, hdouble, run_found, List.singleton_append, run_cons, hblank]
  cases st with
  | normal => exact absurd rfl hst
  | squote => exact Option.some_ne_none n
  | dquote => exact Option.some_ne_none n
  | btick => exact Option.some_ne_none n

end

/-- **When quoted text does not matter.** What a quoted text holds has no effect on the schema,
whatever follows it, exactly if it is in single quotes and the scan takes its first quote for the
beginning of a literal, or the schema is found by then. -/
theorem opaque_iff (pre : List Char) (st : LexState) (hst : st ≠ .normal) :
    Opaque pre st ↔ (st = .squote ∧ (gap.run pre).step '\'' = .literal) ∨
      ∃ n, (gap.run pre).step st.quote = .found n := by
  have hopened : opened st.quote ≠ .normal := by rwa [opened_quote hst]
  have hplace : AfterQuote st.quote ((gap.run pre).step st.quote) :=
    afterQuote_step hopened (wellQuoted_run pre)
  constructor
  · intro h
    have hshows : ¬ Shows st ((gap.run pre).step st.quote) := by
      rintro ⟨x, x', post, hx, hx', hpost, hne⟩
      have heq := h x x' post hx hx' hpost
      rw [extract_quotedText, extract_quotedText] at heq
      exact hne heq
    generalize hp : (gap.run pre).step st.quote = p at hplace hshows
    cases hplace with
    | gap => exact absurd (shows_gap hst) hshows
    | literal =>
      by_cases hs : st = .squote
      · subst hs
        exact .inl ⟨rfl, hp⟩
      · exact absurd (shows_literal hst hs) hshows
    | quoted hb => exact absurd (shows_quoted hst hb _) hshows
    | closing => exact absurd (shows_closing hst _) hshows
    | tableQuoted => exact absurd (shows_tableQuoted hst _) hshows
    | tableClosing => exact absurd (shows_tableClosing hst _) hshows
    | found => exact .inr ⟨_, rfl⟩
  · rintro (⟨rfl, hp⟩ | ⟨n, hp⟩) x x' post hx hx' -
    · have hquote : LexState.squote.quote = '\'' := rfl
      rw [extract_quotedText, extract_quotedText, hquote, hp, run_literal hx,
        run_literal (hx'.literal (by decide))]
    · rw [extract_quotedText, extract_quotedText, hp, run_found, run_found]

/-- In the select list, single quotes hide what they hold. -/
theorem opaque_select : Opaque "SELECT ".toList .squote :=
  (opaque_iff "SELECT ".toList .squote (by decide)).mpr (.inl ⟨rfl, by decide⟩)

/-- Double quotes and backticks do not: a keyword in a string or in a quoted name chooses the
schema. -/
theorem not_opaque_dquote_btick :
    extract "SELECT \"from x.y\"".toList = some ['x'] ∧ extract "SELECT \"c\"".toList = none ∧
      ¬ Opaque "SELECT ".toList .dquote ∧ ¬ Opaque "SELECT ".toList .btick := by
  have hclean : Clean "from x.y".toList := by decide +kernel
  have hopen : ∀ st, st ≠ .normal → Opaque "SELECT ".toList st →
      extract ("SELECT ".toList ++ quotedText st "from x.y".toList ++ []) =
        extract ("SELECT ".toList ++ quotedText st ['c'] ++ []) := by
    intro st hst h
    exact h _ _ [] (hclean.literal hst) (by decide) (by simp)
  refine ⟨by decide +kernel, by decide +kernel, fun h => ?_, fun h => ?_⟩
  · exact absurd (hopen .dquote (by decide) h) (by decide +kernel)
  · exact absurd (hopen .btick (by decide) h) (by decide +kernel)

end DBMesh.Routing
