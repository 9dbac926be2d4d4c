import DBMesh.Routing.CommentBlind
import DBMesh.Routing.CteText
import DBMesh.Routing.Stripping

/-!
# Comments and a single statement

The header says of `classify_one` that comments are tolerated. `classify` removes them before it
splits and classifies; `classify_one` reads the statement as it is, and a comment before the first
keyword, or a keyword, a quote or a parenthesis in a comment of a CTE, changes what it finds.

Where none of this happens every comment leaves the pass of `classify_one` where a blank would, and
the two agree on a single statement.

## Scope

The condition is on the text: what stands before a comment says whether it is in front of the first
keyword, in a CTE, at which depth, and behind the main keyword, where comments are free. It is
sufficient for every statement. A comment of a CTE can break it without harm, as one with a pair of
parentheses does; to leave these out a condition would have to read the comment as `classify_one`
does. What is exact in these terms is said for a single comment: it does not matter, whatever
follows, exactly if it leaves the pass where a blank leaves it.

## Main definitions

* `DBMesh.Routing.SingleStatement` — a text that is one statement, and the text without its `;`
* `DBMesh.Routing.CommentAt.Tolerable`, `CommentsTolerated` — no comment is read as SQL

## Main results

* `DBMesh.Routing.classify_of_single` — `classify` is `classify_one` without the comments
* `DBMesh.Routing.classifyOne_eq_classify` — when the two agree
* `DBMesh.Routing.Reading.eq_of_forall_plain` — the readings after a comment can be told apart
* `DBMesh.Routing.classifyOne_comment_iff` — when a further comment does not matter
-/

namespace DBMesh.Routing

open Reading

/-! ### A single statement -/

/-- No `;` stands outside literals and comments. -/
def OneStatement (s : List Char) : Prop := segments .normal (stripComments s) = [stripComments s]

instance (s : List Char) : Decidable (OneStatement s) := inferInstanceAs (Decidable (_ = _))

/-- The text is one statement with nothing but `;`, whitespace and comments behind it, and `s` is
the text without the `;` and what follows it. -/
inductive SingleStatement : List Char → List Char → Prop
  | bare {s : List Char} (hone : OneStatement s) : SingleStatement s s
  | ended {s rest : List Char} (hone : OneStatement s)
      (hend : (stripScan .normal s).2 = some .normal) (hrest : statements rest = []) :
      SingleStatement (s ++ ';' :: rest) s

theorem SingleStatement.oneStatement {text s : List Char} (h : SingleStatement text s) :
    OneStatement s := by
  cases h with
  | bare hone => exact hone
  | ended hone _ _ => exact hone

theorem SingleStatement.statements_eq {text s : List Char} (h : SingleStatement text s) :
    statements text = statements s := by
  cases h with
  | bare _ => rfl
  | ended _ hend hrest => rw [statements_append hend, hrest, List.append_nil]

/-- **`classify` is `classify_one` without the comments** on a single statement. -/
theorem classify_of_single {text s : List Char} (h : SingleStatement text s) :
    classify text = classifyOne (stripComments s) := by
  have hone : segments .normal (stripComments s) = [stripComments s] := h.oneStatement
  rw [classify, h.statements_eq, statements, splitStatements, hone, List.map_singleton]
  by_cases htrim : trim (stripComments s) = []
  · rw [htrim, ← classifyOne_trim, htrim]
    rfl
  · have hfilter : [trim (stripComments s)].filter (· ≠ []) = [trim (stripComments s)] :=
      List.filter_cons_of_pos (decide_eq_true htrim)
    rw [hfilter]
    exact classifyOne_trim _

/-! ### Comments that are not read as SQL -/

/-- The comment is not read as SQL. -/
structure CommentAt.Tolerable (k : CommentAt) : Prop where
  not_lead : k.after ≠ none → skipOpen k.before ≠ []
  /-- In a CTE, before the main keyword, it has neither quotes nor parentheses. -/
  plain : k.after ≠ none → InCte k.before → ¬ HasMain (skipOpen k.before) →
    ∀ c ∈ k.text, opened c = .normal ∧ c ≠ '(' ∧ c ≠ ')'
  /-- And outside parentheses it has none of the words that decide. -/
  quiet : InCte k.before → ¬ HasMain (skipOpen k.before) →
    Depth (skipOpen k.before) 0 ∨ ')' ∈ k.text → QuietWords k.text

/-- No comment of the text is read as SQL. -/
def CommentsTolerated (s : List Char) : Prop := ∀ k ∈ comments [] .normal s, k.Tolerable

namespace Reading

/-! ### A comment and a blank -/

/-- The pass and `strip_comments` see the same literal, unless the pass does not look for any. -/
def Sync (st : LexState) : Reading → Prop
  | .lead | .keyword _ | .word _ => st = .normal
  | .scan st' _ => st' = st
  | .escape _ _ => False
  | .decided _ => True

theorem sync_fromScan (d : ℕ) (c : Char) : Sync (opened c) (fromScan d c) := by
  rw [fromScan]
  split_ifs with ho hopen hclose hword
  · rfl
  · rw [hopen]
    rfl
  · rw [hclose]
    rfl
  · exact not_not.mp ho
  · exact (not_not.mp ho).symm

theorem sync_fromWord (w : List Char) (c : Char) : Sync (opened c) (fromWord w c) := by
  rw [fromWord]
  split_ifs with hc
  · exact opened_of_isWord hc
  · cases cteKeyword w with
    | some t => trivial
    | none => exact sync_fromScan 0 c

/-- Outside literals the next character leads both to the same literal. -/
theorem Sync.step {p : Reading} (h : Sync .normal p) (c : Char) : Sync (opened c) (p.step c) := by
  cases p with
  | lead =>
    rw [Reading.step]
    split_ifs with hc halpha
    · rw [Bool.or_eq_true, beq_iff_eq] at hc
      obtain hc | rfl := hc
      · exact opened_of_isSpace hc
      · rfl
    · exact opened_of_isWord (isWord_of_isAlpha halpha)
    · trivial
  | keyword w =>
    rw [Reading.step]
    split_ifs with halpha
    · exact opened_of_isWord (isWord_of_isAlpha halpha)
    · exact sync_fromWord w c
    · trivial
  | scan st d =>
    obtain rfl : st = .normal := h
    exact sync_fromScan d c
  | escape st d => exact h.elim
  | word w => exact sync_fromWord w c
  | decided t => trivial

/-- In a literal the pass is in it too, or has decided. -/
theorem Sync.literal {st : LexState} (hn : st ≠ .normal) {p : Reading} (h : Sync st p) :
    (∃ d, p = scan st d) ∨ ∃ t, p = decided t := by
  cases p with
  | scan st' d =>
    obtain rfl : st' = st := h
    exact .inl ⟨d, rfl⟩
  | decided t => exact .inr ⟨t, rfl⟩
  | escape st' d => exact h.elim
  | lead => exact absurd h hn
  | keyword w => exact absurd h hn
  | word w => exact absurd h hn

/-- How the pass goes on where a comment begins: it is in front of the first keyword, it decides, or
it scans a CTE. -/
inductive Pending (u : List Char) (p : Reading) : Prop
  | lead (hu : skipOpen u = []) (hp : p = .lead)
  | free {t : QueryType} (h : ∀ c, isWord c = false → p.step c = decided t)
  | cte {d : ℕ} (hcte : InCte u) (hmain : ¬ HasMain (skipOpen u)) (hd : Depth (skipOpen u) d)
    (h : ∀ c, isWord c = false → opened c = .normal → c ≠ '(' ∧ c ≠ ')' →
      p.step c = scan .normal d)

theorem pending_run {u : List Char} (hsync : Sync .normal (lead.run u)) :
    Pending u (lead.run u) := by
  have hpassed := passed_run u
  have hmain : InCte u → HasMain (skipOpen u) → _ := run_of_hasMain
  generalize lead.run u = p at hsync hpassed hmain
  cases p with
  | lead => exact .lead hpassed rfl
  | keyword w =>
    obtain ⟨hu, -, halpha⟩ := hpassed
    have hnot : ∀ c, isWord c = false → ¬ c.isAlpha = true := fun c hc h =>
      absurd (hc.symm.trans (isWord_of_isAlpha h)) (by decide)
    by_cases hwith : w.map lower = "with".toList
    · have hcte : InCte u := by
        refine inCte_of_eq (r := []) ?_ halpha hwith fun c hc => absurd hc (by simp)
        rw [hu, List.append_nil]
      refine .cte (d := 0) hcte (fun h => ?_) ?_ fun c hc ho hparen => ?_
      · obtain ⟨t, ht⟩ | ⟨w', hw', -⟩ := hmain hcte h
        · exact Reading.noConfusion ht
        · exact Reading.noConfusion hw'
      · rw [hu]
        exact Depth.nil.word fun c hc => isWord_of_isAlpha (halpha c hc)
      · rw [step, if_neg (hnot c hc), if_pos hwith, fromWord, hc, if_neg Bool.false_ne_true,
          cteKeyword_of_with hwith]
        exact fromScan_gap hc ho hparen 0
    · refine .free (t := keywordType w) fun c hc => ?_
      rw [step, if_neg (hnot c hc), if_neg hwith]
  | scan st d =>
    obtain rfl : st = .normal := hsync
    refine .cte hpassed.1.inCte (fun h => ?_) (hpassed.2.1 rfl) fun c hc ho hparen =>
      fromScan_gap hc ho hparen d
    obtain ⟨t, ht⟩ | ⟨w', hw', -⟩ := hmain hpassed.1.inCte h
    · exact Reading.noConfusion ht
    · exact Reading.noConfusion hw'
  | escape st d => exact hsync.elim
  | word w =>
    cases hw : cteKeyword w with
    | some t =>
      refine .free (t := t) fun c hc => ?_
      rw [step, fromWord, hc, if_neg Bool.false_ne_true, hw]
    | none =>
      refine .cte (d := 0) hpassed.1.inCte (fun h => ?_) hpassed.2 fun c hc ho hparen => ?_
      · obtain ⟨t, ht⟩ | ⟨w', hw', hne⟩ := hmain hpassed.1.inCte h
        · exact Reading.noConfusion ht
        · obtain rfl : w = w' := by simpa using hw'
          exact hne hw
      · rw [step, fromWord, hc, if_neg Bool.false_ne_true, hw]
        exact fromScan_gap hc ho hparen 0
  | decided t => exact .free fun _ _ => rfl

/-- **A comment that is not read as SQL is not seen.** -/
theorem unseen_comment {u : List Char} {c : Char} {cs rest : List Char} (hc : OpensComment c cs)
    (hrest : afterComment c cs = some rest) (hsync : Sync .normal (lead.run u))
    (h : CommentAt.Tolerable ⟨u, commentText c cs rest, some rest⟩) :
    (lead.run u).run (commentText c cs rest) = (lead.run u).step ' ' := by
  have hlead := h.not_lead (by simp)
  have hplain := h.plain (by simp)
  have hquiet := h.quiet
  obtain ⟨x, e, htext, he⟩ := commentText_eq_concat hrest
  dsimp only at hlead hplain hquiet
  rw [htext] at hplain hquiet ⊢
  have hgap : isWord c = false ∧ opened c = .normal ∧ c ≠ '(' ∧ c ≠ ')' := by
    obtain rfl | rfl | rfl := hc.opener <;> decide
  have hlast : isWord e = false := by
    obtain rfl | rfl := he <;> decide
  rw [run_cons]
  cases pending_run hsync with
  | lead hu hp => exact absurd hu hlead
  | free hfree => rw [hfree c hgap.1, hfree ' ' (by decide), run_decided]
  | @cte d hcte hmain hd hstep =>
    have hrun := run_plain (hplain hcte hmain) (endsNot_concat hlast (c :: x)) fun hzero =>
      hquiet hcte hmain (.inl (hzero ▸ hd))
    rw [run_cons, step, if_pos rfl, fromScan_gap hgap.1 hgap.2.1 hgap.2.2] at hrun
    rw [hstep c hgap.1 hgap.2.1 hgap.2.2, hstep ' ' (by decide) (by decide) (by decide), hrun]

theorem unseen_unclosed {u : List Char} {c : Char} {cs : List Char} (hc : OpensComment c cs)
    (hsync : Sync .normal (lead.run u)) (h : CommentAt.Tolerable ⟨u, c :: cs, none⟩) :
    ((lead.run u).run (c :: cs)).result = ((lead.run u).step ' ').result := by
  have hgap : isWord c = false ∧ opened c = .normal ∧ c ≠ '(' ∧ c ≠ ')' := by
    obtain rfl | rfl | rfl := hc.opener <;> decide
  rw [run_cons]
  cases pending_run hsync with
  | lead hu hp =>
    have hstep : lead.step c = decided .unknown := by
      obtain rfl | rfl | rfl := hc.opener <;> decide
    rw [hp, hstep, run_decided]
    rfl
  | free hfree => rw [hfree c hgap.1, hfree ' ' (by decide), run_decided]
  | @cte d hcte hmain hd hstep =>
    have hfirst : (scan .normal d).run (c :: cs) = (scan .normal d).run cs := by
      rw [run_cons, step, if_pos rfl, fromScan_gap hgap.1 hgap.2.1 hgap.2.2]
    rw [hstep c hgap.1 hgap.2.1 hgap.2.2, hstep ' ' (by decide) (by decide) (by decide), ← hfirst]
    by_cases hquiet : d = 0 ∨ ')' ∈ c :: cs
    · refine result_run_quiet (h.quiet hcte hmain ?_) d
      exact hquiet.imp_left fun hzero : d = 0 => hzero ▸ hd
    · rw [not_or] at hquiet
      exact result_run_inner hquiet.2 hquiet.1

theorem unseen_of_tolerable {u s : List Char} {st : LexState}
    (h : ∀ k ∈ comments u st s, k.Tolerable) (hsync : Sync st (lead.run u)) :
    ∀ k ∈ comments u st s, k.Unseen Reading.step Reading.result lead := by
  induction st, s using scan_induct generalizing u with
  | nil st =>
    rw [comments_nil]
    exact fun k hk => absurd hk List.not_mem_nil
  | unclosed c cs hc hrest =>
    rw [comments_unclosed hc hrest, List.forall_mem_singleton] at h ⊢
    exact unseen_unclosed hc hsync h
  | comment c cs rest hc hrest ih =>
    rw [comments_comment hc hrest, List.forall_mem_cons] at h ⊢
    have hseen := unseen_comment hc hrest hsync h.1
    refine ⟨hseen, ih h.2 ?_⟩
    rw [run_append, hseen]
    exact hsync.step ' '
  | plain c cs hc ih =>
    rw [comments_plain hc] at h ⊢
    refine ih h ?_
    rw [run_append]
    exact hsync.step c
  | escapeEnd st hn hb =>
    rw [comments_escapeEnd hn hb]
    exact fun k hk => absurd hk List.not_mem_nil
  | escape st n cs hn hb ih =>
    rw [comments_escape hn hb] at h ⊢
    refine ih h ?_
    rw [run_append]
    obtain ⟨d, hp⟩ | ⟨t, hp⟩ := hsync.literal hn
    · have hescape : (scan st d).step '\\' = escape st d := by
        rw [step, if_neg hn, if_pos ⟨rfl, hb⟩]
      rw [hp, run_cons, hescape]
      rfl
    · rw [hp, run_decided]
      trivial
  | close st cs hn ih =>
    rw [comments_close hn] at h ⊢
    refine ih h ?_
    rw [run_append]
    obtain ⟨d, hp⟩ | ⟨t, hp⟩ := hsync.literal hn
    · rw [hp, run_cons, step, if_neg hn, if_neg fun h => quote_ne_backslash hn h.1, if_pos rfl]
      rfl
    · rw [hp, run_decided]
      trivial
  | inside st c cs hn hq hb ih =>
    rw [comments_inside hn hq hb] at h ⊢
    refine ih h ?_
    rw [run_append]
    obtain ⟨d, hp⟩ | ⟨t, hp⟩ := hsync.literal hn
    · rw [hp, run_cons, step, if_neg hn, if_neg fun h => h.2 (hb h.1), if_neg hq]
      rfl
    · rw [hp, run_decided]
      trivial

end Reading

/-! ### When `classify_one` agrees with `classify` -/

theorem CommentsTolerated.blind {s : List Char} (h : CommentsTolerated s) :
    Blind Reading.step Reading.result .lead s :=
  unseen_of_tolerable (u := []) h rfl

/-- **When `classify_one` agrees with `classify`.** Where no comment is read as SQL the two agree on
a single statement. -/
theorem classifyOne_eq_classify (s text : List Char) (h : CommentsTolerated s)
    (htext : SingleStatement text s) : classifyOne s = classify text := by
  rw [classify_of_single htext, classifyOne_eq_result, classifyOne_eq_result]
  exact (result_stripScan_of_blind h.blind).1

/-- A comment right behind the keyword, one in parentheses, and one before the main keyword. -/
theorem classifyOne_eq_classify_cte :
    classifyOne "WITH/* a */ t AS (SELECT 1 /* b */) -- c\n DELETE".toList =
      classify "WITH/* a */ t AS (SELECT 1 /* b */) -- c\n DELETE; -- end\n;".toList := by
  refine classifyOne_eq_classify _ _ (fun k hk => ?_)
    (@SingleStatement.ended "WITH/* a */ t AS (SELECT 1 /* b */) -- c\n DELETE".toList
      " -- end\n;".toList (by decide +kernel) (by decide +kernel) (by decide +kernel))
  have hall : ∀ k ∈ comments [] .normal "WITH/* a */ t AS (SELECT 1 /* b */) -- c\n DELETE".toList,
      skipOpen k.before ≠ [] ∧ (k.text.all fun c => opened c = .normal ∧ c ≠ '(' ∧ c ≠ ')') ∧
        QuietWords k.text := by
    decide +kernel
  obtain ⟨hlead, hplain, hquiet⟩ := hall k hk
  have hchars : ∀ c ∈ k.text, opened c = .normal ∧ c ≠ '(' ∧ c ≠ ')' := by
    intro c hc
    exact of_decide_eq_true (List.all_eq_true.mp hplain c hc)
  exact ⟨fun _ => hlead, fun _ _ _ => hchars, fun _ _ _ => hquiet⟩

/-- A comment before the first keyword is read as SQL, and so are a keyword, a quote and a
parenthesis in a comment of a CTE. -/
theorem classifyOne_ne_classify :
    SingleStatement "/* x */ SELECT 1;".toList "/* x */ SELECT 1".toList ∧
      classifyOne "/* x */ SELECT 1".toList = .unknown ∧
      classify "/* x */ SELECT 1;".toList = .select ∧
      classifyOne "WITH t AS (SELECT 1) /* no update */ DELETE FROM u".toList = .update ∧
      classify "WITH t AS (SELECT 1) /* no update */ DELETE FROM u".toList = .delete ∧
      classifyOne "WITH t AS (SELECT 1) /* don't */ DELETE FROM u".toList = .select ∧
      classifyOne "WITH t AS (SELECT 1) /* ( */ DELETE FROM u".toList = .select :=
  ⟨@SingleStatement.ended "/* x */ SELECT 1".toList [] (by decide +kernel) (by decide +kernel)
    (by decide +kernel), by decide +kernel, by decide +kernel, by decide +kernel, by decide +kernel,
    by decide +kernel, by decide +kernel⟩

/-! ### What may follow -/

/-- A character that neither ends a statement nor begins a comment. -/
def isPlain (c : Char) : Bool := c != ';' && c != '#' && c != '-' && c != '/'

theorem stripComments_of_isPlain {v : List Char} (hv : ∀ c ∈ v, isPlain c = true) :
    stripComments v = v := by
  refine stripComments_of_commentFree ?_
  intro i _ _ hopen
  have hmem : ∀ {c t}, c :: t <+: v.drop i → c ∈ v := by
    intro c t h
    exact List.mem_of_mem_drop (h.subset List.mem_cons_self)
  obtain h | h | h := hopen
  · exact absurd (hv _ (hmem h)) (by decide)
  · exact absurd (hv _ (hmem h)) (by decide)
  · exact absurd (hv _ (hmem h)) (by decide)

theorem eq_singleton_of_consHead {c : Char} {xs : List (List Char)} {s : List Char} (hne : xs ≠ [])
    (h : consHead c xs = [c :: s]) : xs = [s] := by
  cases xs with
  | nil => exact absurd rfl hne
  | cons x xs => simpa [consHead] using h

theorem segments_of_not_mem (st : LexState) (s : List Char) (hs : ';' ∉ s) :
    segments st s = [s] := by
  induction st, s using quote_induct with
  | nil st => exact segments_nil st
  | plain c cs ih =>
    rw [segments_plain (Ne.symm (List.ne_of_not_mem_cons hs)),
      ih (List.not_mem_of_not_mem_cons hs)]
    rfl
  | escapeEnd st hn hb => rw [segments, if_neg hn, if_pos ⟨rfl, hb⟩]
  | escape st n cs hn hb ih =>
    rw [segments_escape hn hb, ih (List.not_mem_of_not_mem_cons (List.not_mem_of_not_mem_cons hs))]
    rfl
  | close st cs hn ih =>
    rw [segments_close hn, ih (List.not_mem_of_not_mem_cons hs)]
    rfl
  | inside st c cs hn hq hb ih =>
    rw [segments_inside hn hq hb, ih (List.not_mem_of_not_mem_cons hs)]
    rfl

/-- What has no `;` does not split. -/
theorem segments_append_of_not_mem (st : LexState) (x : List Char) {y : List Char} (hy : ';' ∉ y)
    (hx : segments st x = [x]) : segments st (x ++ y) = [x ++ y] := by
  have htail : ∀ {st' c cs}, consHead c (segments st' cs) = [c :: cs] → segments st' cs = [cs] := by
    intro st' c cs h
    exact eq_singleton_of_consHead (segments_ne_nil st' cs) h
  induction st, x using quote_induct with
  | nil st => exact segments_of_not_mem st y hy
  | plain c cs ih =>
    have hc : c ≠ ';' := by
      rintro rfl
      rw [segments_semicolon] at hx
      exact absurd (List.cons.inj hx).1 (by simp)
    rw [segments_plain hc] at hx
    rw [List.cons_append, segments_plain hc, ih (htail hx)]
    rfl
  | escapeEnd st hn hb =>
    refine segments_of_not_mem st ('\\' :: y) ?_
    exact List.not_mem_cons_of_ne_of_not_mem (by decide) hy
  | escape st n cs hn hb ih =>
    rw [segments_escape hn hb] at hx
    have hcs := htail (eq_singleton_of_consHead (consHead_ne_nil _ _) hx)
    rw [List.cons_append, List.cons_append, segments_escape hn hb, ih hcs]
    rfl
  | close st cs hn ih =>
    rw [segments_close hn] at hx
    rw [List.cons_append, segments_close hn, ih (htail hx)]
    rfl
  | inside st c cs hn hq hb ih =>
    rw [segments_inside hn hq hb] at hx
    rw [List.cons_append, segments_inside hn hq hb, ih (htail hx)]
    rfl

/-- A single statement goes on behind a comment. -/
theorem OneStatement.comment {s w v : List Char} (hs : OneStatement s)
    (hend : (stripScan .normal s).2 = some .normal) (hw : Comment w) (hj : NoJoin s w)
    (hv : ∀ c ∈ v, isPlain c = true) : OneStatement (s ++ w ++ v) := by
  rw [OneStatement, stripComments_comment (lexes_of_stripScan hend) hw hj,
    stripComments_of_isPlain hv]
  refine segments_append_of_not_mem .normal (stripComments s) ?_ hs
  refine List.not_mem_cons_of_ne_of_not_mem (by decide) ?_
  intro hmem
  exact absurd (hv _ hmem) (by decide)

/-! ### The readings after a comment -/

namespace Reading

/-- The readings at which a blank, a line end or a slash can leave the pass. -/
def Settled : Reading → Prop
  | .lead | .scan _ _ | .decided _ => True
  | _ => False

theorem settled_step (p : Reading) {c : Char} (hc : c = ' ' ∨ c = '\n' ∨ c = '/') :
    (p.step c).Settled := by
  have hgap : isWord c = false ∧ opened c = .normal ∧ c ≠ '(' ∧ c ≠ ')' ∧ c ≠ '\\' := by
    obtain rfl | rfl | rfl := hc <;> decide
  obtain ⟨hw, ho, hopen, hclose, hescape⟩ := hgap
  have halpha : ¬ c.isAlpha = true := by
    intro h
    exact absurd (hw.symm.trans (isWord_of_isAlpha h)) (by decide)
  have hscan : ∀ depth, (fromScan depth c).Settled := by
    intro depth
    rw [fromScan_gap hw ho ⟨hopen, hclose⟩]
    trivial
  have hword : ∀ w, (fromWord w c).Settled := by
    intro w
    rw [fromWord, hw, if_neg Bool.false_ne_true]
    cases cteKeyword w with
    | some t => trivial
    | none => exact hscan 0
  cases p with
  | lead =>
    rw [step, if_neg halpha]
    split_ifs <;> trivial
  | keyword w =>
    rw [step, if_neg halpha]
    split_ifs
    · exact hword w
    · trivial
  | scan st depth =>
    rw [step, if_neg fun h : c = '\\' ∧ _ => hescape h.1]
    split_ifs
    · exact hscan depth
    · trivial
    · trivial
  | escape st depth => trivial
  | word w => exact hword w
  | decided t => trivial

/-- A text that goes on from inside a literal or parentheses to a keyword outside them. -/
def probe (st : LexState) (depth : ℕ) : List Char :=
  (if st = .normal then [] else [st.quote]) ++
    (List.replicate depth ')' ++ " delete".toList)

theorem mem_probe_tail {depth : ℕ} {c : Char}
    (hc : c ∈ List.replicate depth ')' ++ " delete".toList) : c ∈ ") delete".toList := by
  obtain h | h := List.mem_append.mp hc
  · rw [List.eq_of_mem_replicate h]
    exact List.mem_cons_self
  · exact List.mem_cons_of_mem _ h

theorem isPlain_probe (st : LexState) (depth : ℕ) : ∀ c ∈ probe st depth, isPlain c = true := by
  have htail : ∀ c ∈ ") delete".toList, isPlain c = true := List.all_eq_true.mp (by decide)
  intro c hc
  obtain h | h := List.mem_append.mp hc
  · cases st with
    | normal => exact absurd h (by simp)
    | squote | dquote | btick =>
      rw [List.mem_singleton.mp h]
      decide
  · exact htail c (mem_probe_tail h)

theorem run_literal {st : LexState} (hn : st ≠ .normal) (depth : ℕ) {s : List Char}
    (hs : ∀ c ∈ s, c ≠ st.quote ∧ c ≠ '\\') : (scan st depth).run s = scan st depth := by
  induction s with
  | nil => rfl
  | cons c s ih =>
    obtain ⟨⟨hquote, hescape⟩, hs⟩ := List.forall_mem_cons.mp hs
    rw [run_cons, step, if_neg hn, if_neg fun h => hescape h.1, if_neg hquote, ih hs]

theorem run_close (depth n : ℕ) :
    (scan .normal depth).run (List.replicate n ')') = scan .normal (depth - n) := by
  induction n generalizing depth with
  | zero => rfl
  | succ n ih =>
    have hclose : (scan .normal depth).step ')' = scan .normal (depth - 1) := rfl
    rw [List.replicate_succ, run_cons, hclose, ih, Nat.sub_sub, Nat.add_comm]

theorem result_run_delete (depth : ℕ) :
    ((scan .normal depth).run " delete".toList).result =
      if depth = 0 then .delete else .select := by
  cases depth with
  | zero => decide
  | succ depth => rfl

theorem result_run_outside (depth n : ℕ) :
    ((scan .normal depth).run (List.replicate n ')' ++ " delete".toList)).result =
      if depth ≤ n then .delete else .select := by
  rw [run_append, run_close, result_run_delete]
  exact if_congr Nat.sub_eq_zero_iff_le rfl rfl

theorem result_run_inside {st : LexState} (hn : st ≠ .normal) (depth n : ℕ) :
    ((scan st depth).run (List.replicate n ')' ++ " delete".toList)).result = .select := by
  have htail : ∀ c ∈ ") delete".toList, c ≠ st.quote ∧ c ≠ '\\' := by
    cases st with
    | normal => exact absurd rfl hn
    | squote | dquote | btick => simp [LexState.quote]
  rw [run_literal hn depth fun c hc => htail c (mem_probe_tail hc)]
  rfl

/-- The keyword is found exactly if the text leaves the literal, and no more parentheses are open
than it closes. -/
theorem result_run_probe (st st' : LexState) (depth n : ℕ) :
    ((scan st depth).run (probe st' n)).result =
      if st = st' ∧ depth ≤ n then .delete else .select := by
  rw [probe]
  by_cases hst' : st' = .normal
  · subst hst'
    rw [if_pos rfl, List.nil_append]
    by_cases hst : st = .normal
    · subst hst
      rw [result_run_outside]
      exact if_congr (and_iff_right rfl).symm rfl rfl
    · rw [result_run_inside hst, if_neg fun h => hst h.1]
  · rw [if_neg hst', List.singleton_append, run_cons]
    by_cases hst : st = st'
    · subst hst
      have hstep : (scan st depth).step st.quote = scan .normal depth := by
        rw [step, if_neg hst', if_neg fun h => quote_ne_backslash hst' h.1, if_pos rfl]
      rw [hstep, result_run_outside]
      exact if_congr (and_iff_right rfl).symm rfl rfl
    · -- the quote opens another literal, or stands in one
      have hstep : ∃ st₁, st₁ ≠ .normal ∧ (scan st depth).step st'.quote = scan st₁ depth := by
        by_cases hn : st = .normal
        · have ho := opened_quote hst'
          refine ⟨st', hst', ?_⟩
          rw [step, if_pos hn, fromScan, ho, if_pos hst']
        · have hquote : st'.quote ≠ st.quote := by
            intro h
            rw [← opened_quote hn, ← opened_quote hst', h] at hst
            exact hst rfl
          refine ⟨st, hn, ?_⟩
          rw [step, if_neg hn, if_neg fun h => quote_ne_backslash hst' h.1, if_neg hquote]
      obtain ⟨st₁, hn, hstep⟩ := hstep
      rw [hstep, result_run_inside hn, if_neg fun h => hst h.1]

theorem result_run_decided (t : QueryType) (v : List Char) : ((decided t).run v).result = t := by
  rw [run_decided]
  rfl

/-- The outcome depends on what follows, unless the pass has decided. -/
theorem eq_decided {p : Reading} {t : QueryType} (hp : p.Settled)
    (h : ∀ v, (∀ c ∈ v, isPlain c = true) → (p.run v).result = t) : p = decided t := by
  have hnil : p.result = t := h [] fun _ hc => absurd hc List.not_mem_nil
  cases p with
  | lead =>
    have hdelete := h "delete".toList (List.all_eq_true.mp (by decide))
    exact absurd (hnil.trans hdelete.symm) (by decide)
  | scan st depth =>
    have hdelete := h (probe st depth) (isPlain_probe st depth)
    rw [result_run_probe, if_pos ⟨rfl, Nat.le_refl depth⟩] at hdelete
    exact absurd (hnil.trans hdelete.symm) fun h => QueryType.noConfusion h
  | decided t' => exact congrArg decided hnil
  | keyword w => exact hp.elim
  | escape st depth => exact hp.elim
  | word w => exact hp.elim

theorem le_of_result_probe {st st' : LexState} {depth depth' : ℕ}
    (h : ((scan st depth).run (probe st depth)).result =
      ((scan st' depth').run (probe st depth)).result) : st' = st ∧ depth' ≤ depth := by
  rw [result_run_probe, result_run_probe, if_pos ⟨rfl, Nat.le_refl depth⟩] at h
  by_contra hne
  rw [if_neg hne] at h
  exact QueryType.noConfusion h

/-- **Settled readings can be told apart** by what follows. -/
theorem eq_of_forall_plain {p p' : Reading} (hp : p.Settled) (hp' : p'.Settled)
    (h : ∀ v, (∀ c ∈ v, isPlain c = true) → (p.run v).result = (p'.run v).result) : p = p' := by
  have hnil : p.result = p'.result := h [] fun _ hc => absurd hc List.not_mem_nil
  cases p' with
  | decided t => exact eq_decided hp fun v hv => (h v hv).trans (result_run_decided t v)
  | lead =>
    cases p with
    | lead => rfl
    | scan st depth => exact absurd hnil fun h => QueryType.noConfusion h
    | decided t =>
      exact (eq_decided hp' fun v hv => (h v hv).symm.trans (result_run_decided t v)).symm
    | keyword w => exact hp.elim
    | escape st depth => exact hp.elim
    | word w => exact hp.elim
  | scan st' depth' =>
    cases p with
    | lead => exact absurd hnil fun h => QueryType.noConfusion h
    | scan st depth =>
      obtain ⟨hst, hle⟩ := le_of_result_probe (h _ (isPlain_probe st depth))
      obtain ⟨-, hge⟩ := le_of_result_probe (h _ (isPlain_probe st' depth')).symm
      rw [hst, Nat.le_antisymm hle hge]
    | decided t =>
      exact (eq_decided hp' fun v hv => (h v hv).symm.trans (result_run_decided t v)).symm
    | keyword w => exact hp.elim
    | escape st depth => exact hp.elim
    | word w => exact hp.elim
  | keyword w => exact hp'.elim
  | escape st depth => exact hp'.elim
  | word w => exact hp'.elim

end Reading

/-! ### A further comment -/

theorem Comment.settled_reading {s w : List Char} (h : Comment w) :
    (lead.run (s ++ w)).Settled := by
  obtain ⟨x, d, rfl, hd⟩ := h.eq_concat
  rw [← List.append_assoc, Reading.run_append]
  exact Reading.settled_step _ (.inr hd)

/-- **One more comment.** Behind a statement of which every comment leaves the pass of
`classify_one` where a blank would, a further comment makes no difference to the two functions on
single statements, whatever follows that has no comments, exactly if it leaves the pass where a
blank would too. -/
theorem classifyOne_comment_iff (s w : List Char) (hone : OneStatement s)
    (hs : Blind Reading.step Reading.result .lead s) (hw : Comment w)
    (hend : (stripScan .normal s).2 = some .normal) (hj : NoJoin s w) :
    (∀ v, stripComments v = v → ∀ text, SingleStatement text (s ++ w ++ v) →
        classifyOne (s ++ w ++ v) = classify text) ↔
      lead.run (s ++ w) = lead.run (s ++ [' ']) := by
  have hafter : (lead.run (s ++ w)).Settled := hw.settled_reading
  have hblank : ((lead.run s).step ' ').Settled := Reading.settled_step _ (.inl rfl)
  have hiff : (∀ v, stripComments v = v → OneStatement (s ++ w ++ v) →
        (lead.run (s ++ w ++ v)).result = (lead.run (stripComments (s ++ w ++ v))).result) ↔
      lead.run (s ++ w) = lead.run (s ++ [' ']) := by
    have hiff := forall_result_comment_iff (fun v => OneStatement (s ++ w ++ v)) hs hend hw hj (by
      intro h
      refine Reading.eq_of_forall_plain hafter hblank ?_
      intro v hv
      exact h v (stripComments_of_isPlain hv) (hone.comment hend hw hj hv))
    rw [blind_append_comment (lexes_of_stripScan hend) hw hj, and_iff_right hs] at hiff
    rw [Reading.run_append _ s [' ']]
    exact hiff
  rw [← hiff]
  refine forall₂_congr fun v _ => ?_
  constructor
  · intro h hv
    have hclassify := h _ (.bare hv)
    rwa [classify_of_single (.bare hv), classifyOne_eq_result, classifyOne_eq_result] at hclassify
  · intro h text htext
    rw [classify_of_single htext, classifyOne_eq_result, classifyOne_eq_result]
    exact h htext.oneStatement

/-- Where parentheses are open a comment is what a blank is, also with a keyword in it. -/
theorem classifyOne_comment_iff_inner :
    classifyOne ("WITH t AS (SELECT 1 ".toList ++ "/* update */".toList ++ ") DELETE".toList) =
      classify ("WITH t AS (SELECT 1 ".toList ++ "/* update */".toList ++ ") DELETE".toList) := by
  have hblind : Blind Reading.step Reading.result .lead "WITH t AS (SELECT 1 ".toList := by
    have hnone : comments [] .normal "WITH t AS (SELECT 1 ".toList = [] := by decide +kernel
    intro k hk
    rw [hnone] at hk
    exact absurd hk List.not_mem_nil
  have hcomment : Comment "/* update */".toList :=
    ⟨'/', "* update */".toList, rfl, by decide, by decide⟩
  have hjoin : NoJoin "WITH t AS (SELECT 1 ".toList "/* update */".toList := by
    intro c hc d _
    obtain rfl : ' ' = c := by simpa using hc
    simp
  have hany := (classifyOne_comment_iff _ _ (by decide +kernel) hblind hcomment
    (by decide +kernel) hjoin).mpr (by decide +kernel)
  exact hany _ (by decide +kernel) _ (.bare (by decide +kernel))

end DBMesh.Routing
