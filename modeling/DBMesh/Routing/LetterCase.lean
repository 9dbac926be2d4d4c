import DBMesh.Routing.SchemaScan

/-!
# Letter case

None of the scanners looks at a letter except to tell it from other characters or to compare a
word with a keyword, in lower case. So each of them does the same on a text in lower case: it takes
the same branches, and what it puts out is the output in lower case. Two texts that differ only in
the case of their letters have the same text in lower case.

## Main results

* `DBMesh.Routing.classify_map_lower` — the classifier
* `DBMesh.Routing.extract_map_lower` — the schema extractor
* `DBMesh.Routing.routing_ignores_case` — two texts that differ only in letter case
-/

namespace DBMesh.Routing

/-! ### Characters -/

theorem lower_lower (c : Char) : lower (lower c) = lower c := Char.toLower_toLower_eq_toLower c

theorem isAlpha_lower (c : Char) : (lower c).isAlpha = c.isAlpha :=
  Char.isAlpha_toLower_eq_isAlpha c

theorem lower_of_not_isAlpha {c : Char} (h : c.isAlpha = false) : lower c = c := by
  refine Char.toLower_eq_of_not_isUpper fun hupper => ?_
  rw [Char.isAlpha, hupper, Bool.true_or] at h
  exact absurd h (by decide)

/-- What is the same for all letters does not depend on their case. -/
theorem lower_congr {α : Type} {f : Char → α} {a : α} (h : ∀ c, c.isAlpha = true → f c = a)
    (c : Char) : f (lower c) = f c := by
  cases hc : c.isAlpha with
  | true => rw [h c hc, h (lower c) (by rw [isAlpha_lower, hc])]
  | false => rw [lower_of_not_isAlpha hc]

theorem isSpace_lower (c : Char) : isSpace (lower c) = isSpace c :=
  lower_congr (fun _ hc => isSpace_of_isWord (isWord_of_isAlpha hc)) c

theorem isWord_lower (c : Char) : isWord (lower c) = isWord c :=
  lower_congr (fun _ hc => isWord_of_isAlpha hc) c

theorem opened_lower (c : Char) : opened (lower c) = opened c :=
  lower_congr (fun _ hc => opened_of_isWord (isWord_of_isAlpha hc)) c

theorem lower_eq_iff {d : Char} (hd : d.isAlpha = false) (c : Char) : lower c = d ↔ c = d := by
  refine iff_of_eq (lower_congr (f := (· = d)) (a := False) (fun c hc => eq_false ?_) c)
  rintro rfl
  exact absurd (hc.symm.trans hd) (by decide)

theorem isAlpha_quote (st : LexState) : st.quote.isAlpha = false := by
  cases st with
  | normal => rfl
  | squote => rfl
  | dquote => rfl
  | btick => rfl

theorem lower_quote (st : LexState) : lower st.quote = st.quote :=
  lower_of_not_isAlpha (isAlpha_quote st)

section Lists

variable {p : Char → Bool} (hp : ∀ c, p (lower c) = p c)

include hp

theorem takeWhile_map_lower (s : List Char) :
    (s.map lower).takeWhile p = (s.takeWhile p).map lower := by
  have hcomp : p ∘ lower = p := by
    funext c
    exact hp c
  rw [List.takeWhile_map, hcomp]

theorem dropWhile_map_lower (s : List Char) :
    (s.map lower).dropWhile p = (s.dropWhile p).map lower := by
  have hcomp : p ∘ lower = p := by
    funext c
    exact hp c
  rw [List.dropWhile_map, hcomp]

theorem rdropWhile_map_lower (s : List Char) :
    (s.map lower).rdropWhile p = (s.rdropWhile p).map lower := by
  rw [List.rdropWhile, List.rdropWhile, ← List.map_reverse, dropWhile_map_lower hp,
    List.map_reverse]

end Lists

theorem map_lower_map_lower (s : List Char) : (s.map lower).map lower = s.map lower := by
  rw [List.map_map]
  exact List.map_congr_left fun c _ => lower_lower c

theorem head?_map_lower_eq {d : Char} (hd : d.isAlpha = false) (s : List Char) :
    (s.map lower).head? = some d ↔ s.head? = some d := by
  cases s with
  | nil => rfl
  | cons c s =>
    rw [List.map_cons, List.head?_cons, List.head?_cons, Option.some.injEq, Option.some.injEq]
    exact lower_eq_iff hd c

/-! ### Comments -/

theorem opensComment_lower (c : Char) (cs : List Char) :
    OpensComment (lower c) (cs.map lower) ↔ OpensComment c cs := by
  rw [OpensComment, OpensComment, lower_eq_iff rfl, lower_eq_iff rfl, lower_eq_iff rfl,
    head?_map_lower_eq rfl, head?_map_lower_eq rfl]

theorem skipLine_map_lower (s : List Char) :
    skipLine (s.map lower) = (skipLine s).map (List.map lower) := by
  induction s with
  | nil => rfl
  | cons c s ih =>
    rw [List.map_cons, skipLine, skipLine, ih]
    by_cases hc : c = '\n'
    · rw [if_pos hc, if_pos ((lower_eq_iff rfl c).mpr hc)]
      rfl
    · rw [if_neg hc, if_neg fun h => hc ((lower_eq_iff rfl c).mp h)]

theorem skipBlock_map_lower (s : List Char) :
    skipBlock (s.map lower) = (skipBlock s).map (List.map lower) := by
  induction s using skipBlock.induct with
  | case1 cs => rfl
  | case2 c cs hne ih =>
    have hne' : ∀ t, lower c = '*' → cs.map lower = '/' :: t → False := by
      intro t hc ht
      cases cs with
      | nil => exact absurd ht (by simp)
      | cons d cs =>
        rw [List.map_cons] at ht
        have hd := (lower_eq_iff rfl d).mp (List.cons.inj ht).1
        exact hne cs ((lower_eq_iff rfl c).mp hc) (by rw [hd])
    rw [List.map_cons, skipBlock_cons hne', skipBlock_cons hne, ih]
  | case3 => rfl

theorem afterComment_map_lower (c : Char) (cs : List Char) :
    afterComment (lower c) (cs.map lower) = (afterComment c cs).map (List.map lower) := by
  rw [afterComment, afterComment, ← List.map_tail, skipLine_map_lower, skipBlock_map_lower]
  by_cases hc : c = '/'
  · rw [if_pos hc, if_pos ((lower_eq_iff rfl c).mpr hc)]
  · rw [if_neg hc, if_neg fun h => hc ((lower_eq_iff rfl c).mp h)]

/-- Output in lower case. -/
def lowerOut (r : List Char × Option LexState) : List Char × Option LexState :=
  (r.1.map lower, r.2)

theorem lowerOut_emit (out : List Char) (r : List Char × Option LexState) :
    lowerOut (emit out r) = emit (out.map lower) (lowerOut r) := by
  rw [emit, lowerOut, List.map_append]
  rfl

theorem stripScan_map_lower (st : LexState) (s : List Char) :
    stripScan st (s.map lower) = lowerOut (stripScan st s) := by
  induction st, s using scan_induct with
  | nil st =>
    rw [List.map_nil, stripScan]
    rfl
  | unclosed c cs hc hrest =>
    have hrest' : afterComment (lower c) (cs.map lower) = none := by
      rw [afterComment_map_lower, hrest]
      rfl
    rw [List.map_cons, stripScan_unclosed ((opensComment_lower c cs).mpr hc) hrest',
      stripScan_unclosed hc hrest]
    rfl
  | comment c cs rest hc hrest ih =>
    have hrest' : afterComment (lower c) (cs.map lower) = some (rest.map lower) := by
      rw [afterComment_map_lower, hrest]
      rfl
    rw [List.map_cons, stripScan_comment ((opensComment_lower c cs).mpr hc) hrest',
      stripScan_comment hc hrest, lowerOut_emit, ih]
    rfl
  | plain c cs hc ih =>
    have hc' : ¬ OpensComment (lower c) (cs.map lower) :=
      fun h => hc ((opensComment_lower c cs).mp h)
    rw [List.map_cons, stripScan_plain hc', stripScan_plain hc, lowerOut_emit, opened_lower, ih]
    rfl
  | escapeEnd st hn hb =>
    rw [(Lexes.escapeEnd hn hb).stripScan_eq]
    exact (Lexes.escapeEnd hn hb).stripScan_eq
  | escape st n cs hn hb ih =>
    rw [List.map_cons, List.map_cons, stripScan_escape hn hb, lowerOut_emit, ← ih]
    exact stripScan_escape hn hb (lower n) (cs.map lower)
  | close st cs hn ih =>
    rw [List.map_cons, lower_quote, stripScan_close hn, stripScan_close hn, lowerOut_emit, ih,
      List.map_singleton, lower_quote]
  | inside st c cs hn hq hb ih =>
    have hq' : lower c ≠ st.quote := fun h => hq ((lower_eq_iff (isAlpha_quote st) c).mp h)
    have hb' : lower c = '\\' → st = .btick := fun h => hb ((lower_eq_iff rfl c).mp h)
    rw [List.map_cons, stripScan_inside hn hq' hb', stripScan_inside hn hq hb, lowerOut_emit, ih]
    rfl

theorem stripComments_map_lower (s : List Char) :
    stripComments (s.map lower) = (stripComments s).map lower := by
  rw [stripComments, stripScan_map_lower]
  rfl

/-! ### Statements -/

theorem map_consHead (c : Char) (xs : List (List Char)) :
    (consHead c xs).map (List.map lower) = consHead (lower c) (xs.map (List.map lower)) := by
  cases xs with
  | nil => rfl
  | cons x xs => rfl

theorem segments_map_lower (st : LexState) (s : List Char) :
    segments st (s.map lower) = (segments st s).map (List.map lower) := by
  induction st, s using quote_induct with
  | nil st => rw [List.map_nil, segments_nil, List.map_singleton, List.map_nil]
  | plain c cs ih =>
    rw [List.map_cons]
    by_cases hc : c = ';'
    · have hsemi : lower ';' = ';' := rfl
      rw [hc] at ih ⊢
      rw [hsemi, segments_semicolon, segments_semicolon, List.map_cons, List.map_nil]
      exact congrArg _ ih
    · have hc' : lower c ≠ ';' := fun h => hc ((lower_eq_iff rfl c).mp h)
      rw [segments_plain hc', segments_plain hc, opened_lower, ih, map_consHead]
  | escapeEnd st hn hb =>
    have hend : segments st ['\\'] = [['\\']] := by
      rw [segments, if_neg hn, if_pos ⟨rfl, hb⟩]
    rw [hend]
    exact hend
  | escape st n cs hn hb ih =>
    rw [List.map_cons, List.map_cons, segments_escape hn hb, map_consHead, map_consHead, ← ih]
    exact segments_escape hn hb (lower n) (cs.map lower)
  | close st cs hn ih =>
    rw [List.map_cons, lower_quote, segments_close hn, segments_close hn, map_consHead, lower_quote,
      ih]
  | inside st c cs hn hq hb ih =>
    have hq' : lower c ≠ st.quote := fun h => hq ((lower_eq_iff (isAlpha_quote st) c).mp h)
    have hb' : lower c = '\\' → st = .btick := fun h => hb ((lower_eq_iff rfl c).mp h)
    rw [List.map_cons, segments_inside hn hq' hb', segments_inside hn hq hb, map_consHead, ih]

theorem trim_map_lower (s : List Char) : trim (s.map lower) = (trim s).map lower := by
  rw [trim, trim, dropWhile_map_lower isSpace_lower, rdropWhile_map_lower isSpace_lower]

theorem statements_map_lower (s : List Char) :
    statements (s.map lower) = (statements s).map (List.map lower) := by
  have htrim : trim ∘ List.map lower = List.map lower ∘ trim := by
    funext s
    exact trim_map_lower s
  have hne : (fun x : List Char => decide (x ≠ [])) ∘ List.map lower =
      fun x => decide (x ≠ []) := by
    funext s
    cases s with
    | nil => rfl
    | cons c s => rfl
  rw [statements, statements, splitStatements, splitStatements, stripComments_map_lower,
    segments_map_lower, List.map_map, htrim, ← List.map_map, List.filter_map, hne]

/-! ### Keywords -/

theorem skipOpen_map_lower (s : List Char) : skipOpen (s.map lower) = (skipOpen s).map lower := by
  refine dropWhile_map_lower (fun c => ?_) s
  rw [isSpace_lower]
  exact congrArg (isSpace c || ·) (decide_eq_decide.mpr (lower_eq_iff rfl c))

theorem firstKeyword_map_lower (s : List Char) : firstKeyword (s.map lower) = firstKeyword s := by
  simp only [firstKeyword]
  rw [skipOpen_map_lower, takeWhile_map_lower isAlpha_lower, List.length_map, map_lower_map_lower]

theorem cteKeyword_map_lower (w : List Char) : cteKeyword (w.map lower) = cteKeyword w := by
  simp only [cteKeyword]
  rw [List.length_map, map_lower_map_lower]

theorem cteScan_map_lower (st : LexState) (depth : ℕ) (s : List Char) :
    cteScan st depth (s.map lower) = cteScan st depth s := by
  fun_induction cteScan st depth s with
  | case1 st depth => rw [List.map_nil, cteScan]
  | case2 st depth c cs hn hesc ih =>
    have hesc' : lower c = '\\' ∧ st ≠ .btick := ⟨(lower_eq_iff rfl c).mpr hesc.1, hesc.2⟩
    rw [List.map_cons, cteScan, if_pos hn, if_pos hesc', ← List.map_tail, ih]
  | case3 st depth cs hn hesc ih =>
    rw [List.map_cons, lower_quote, cteScan, if_pos hn, if_neg hesc, if_pos rfl, ih]
  | case4 st depth c cs hn hesc hq ih =>
    have hesc' : ¬ (lower c = '\\' ∧ st ≠ .btick) :=
      fun h => hesc ⟨(lower_eq_iff rfl c).mp h.1, h.2⟩
    have hq' : ¬ lower c = st.quote := fun h => hq ((lower_eq_iff (isAlpha_quote st) c).mp h)
    rw [List.map_cons, cteScan, if_pos hn, if_neg hesc', if_neg hq', ih]
  | case5 st depth c cs hn ho ih =>
    obtain rfl := not_not.mp hn
    have ho' : opened (lower c) ≠ .normal := by rwa [opened_lower]
    rw [List.map_cons, cteScan_quote ho', opened_lower, ih]
  | case6 st depth cs hn _ ih =>
    obtain rfl := not_not.mp hn
    have hparen : lower '(' = '(' := rfl
    rw [List.map_cons, hparen, cteScan_open, ih]
  | case7 st depth cs hn _ _ ih =>
    obtain rfl := not_not.mp hn
    rw [List.map_cons, cteScan, ← ih]
    rfl
  | case8 st depth c cs hn _ _ _ hword t ht =>
    obtain rfl := not_not.mp hn
    obtain ⟨rfl, halpha⟩ := hword
    rw [List.map_cons, cteScan_alpha (by rwa [isAlpha_lower]), ← List.map_cons,
      takeWhile_map_lower isWord_lower, cteKeyword_map_lower, ht]
    rfl
  | case9 st depth c cs hn _ _ _ hword hnone ih =>
    obtain rfl := not_not.mp hn
    obtain ⟨rfl, halpha⟩ := hword
    rw [List.map_cons, cteScan_alpha (by rwa [isAlpha_lower]), ← List.map_cons,
      takeWhile_map_lower isWord_lower, cteKeyword_map_lower, hnone,
      dropWhile_map_lower isWord_lower, ih]
    rfl
  | case10 st depth c cs hn ho hopen hclose hword ih =>
    obtain rfl := not_not.mp hn
    have ho' : opened (lower c) = .normal := by rw [opened_lower, not_not.mp ho]
    have hparen : lower c ≠ '(' ∧ lower c ≠ ')' :=
      ⟨fun h => hopen ((lower_eq_iff rfl c).mp h), fun h => hclose ((lower_eq_iff rfl c).mp h)⟩
    rw [List.map_cons, cteScan_other ho' hparen (by rwa [isAlpha_lower]), ih]

theorem classifyOne_map_lower (s : List Char) : classifyOne (s.map lower) = classifyOne s := by
  simp only [classifyOne]
  rw [firstKeyword_map_lower, skipOpen_map_lower, classifyCte, classifyCte, cteScan_map_lower]

theorem escalateLoop_map_lower (firstKnown : Option QueryType) (stmts : List (List Char)) :
    escalateLoop firstKnown (stmts.map (List.map lower)) = escalateLoop firstKnown stmts := by
  induction stmts generalizing firstKnown with
  | nil => rfl
  | cons stmt stmts ih =>
    simp only [List.map_cons, escalateLoop]
    rw [classifyOne_map_lower, ih, ih]

/-- **A text is classified as it is in lower case.** -/
theorem classify_map_lower (s : List Char) : classify (s.map lower) = classify s := by
  rw [classify, classify, statements_map_lower]
  match statements s with
  | [] => rfl
  | [stmt] => exact classifyOne_map_lower stmt
  | stmt :: stmt' :: stmts => exact escalateLoop_map_lower none (stmt :: stmt' :: stmts)

/-! ### The schema -/

namespace Place

/-- A place with its names in lower case; a word is in lower case already. -/
def lowered : Place → Place
  | .bare n => .bare (n.map lower)
  | .quoted q n => .quoted q (n.map lower)
  | .closing q n => .closing q (n.map lower)
  | .dot n => .dot (n.map lower)
  | .table n => .table (n.map lower)
  | .tableQuoted q n => .tableQuoted q (n.map lower)
  | .tableClosing q n => .tableClosing q (n.map lower)
  | .found n => .found (n.map lower)
  | p => p

theorem lowered_fromGap (c : Char) : fromGap (lower c) = (fromGap c).lowered := by
  simp only [fromGap, lower_eq_iff (d := '\'') rfl, isWord_lower, lower_lower]
  split_ifs <;> rfl

/-- A quote that begins a name is no letter. -/
theorem isAlpha_of_nameQuote {q : Char} (hq : q = '\x60' ∨ q = '"') : q.isAlpha = false := by
  obtain rfl | rfl := hq
  · rfl
  · rfl

theorem nameQuote_lower (c : Char) :
    (lower c = '\x60' ∨ lower c = '"') ↔ (c = '\x60' ∨ c = '"') :=
  or_congr (lower_eq_iff rfl c) (lower_eq_iff rfl c)

theorem lowered_fromName (c : Char) : fromName (lower c) = (fromName c).lowered := by
  simp only [fromName, nameQuote_lower, isSpace_lower, isWord_lower, lowered_fromGap]
  split_ifs with _ hq
  · rfl
  · rw [lower_of_not_isAlpha (isAlpha_of_nameQuote hq)]
    rfl
  · rfl
  · rfl

theorem lowered_fromDot (n : SchemaName) (c : Char) :
    fromDot (n.map lower) (lower c) = (fromDot n c).lowered := by
  simp only [fromDot, lower_eq_iff (d := '.') rfl, isSpace_lower, lowered_fromGap]
  split_ifs <;> rfl

/-- **One step in lower case.** -/
theorem lowered_step {p : Place} (h : p.WellQuoted) (c : Char) :
    p.lowered.step (lower c) = (p.step c).lowered := by
  cases p with
  | gap => exact lowered_fromGap c
  | word w =>
    simp only [lowered, step, isWord_lower, lower_lower, lowered_fromName, lowered_fromGap]
    split_ifs <;> rfl
  | literal =>
    simp only [lowered, step, lower_eq_iff (d := '\\') rfl, lower_eq_iff (d := '\'') rfl]
    split_ifs <;> rfl
  | escape => rfl
  | name => exact lowered_fromName c
  | bare n =>
    simp only [lowered, step, isWord_lower, lowered_fromDot]
    split_ifs
    · dsimp only
      rw [List.map_append, List.map_singleton]
    · rfl
  | quoted q n =>
    simp only [lowered, step, lower_eq_iff (isAlpha_of_nameQuote h)]
    split_ifs
    · rfl
    · dsimp only
      rw [List.map_append, List.map_singleton]
  | closing q n =>
    simp only [lowered, step, lower_eq_iff (isAlpha_of_nameQuote h), List.map_eq_nil_iff,
      lowered_fromGap, lowered_fromDot]
    split_ifs
    · dsimp only
      rw [List.map_append, List.map_singleton, lower_of_not_isAlpha (isAlpha_of_nameQuote h)]
    · rfl
    · rfl
  | dot n => exact lowered_fromDot n c
  | table n =>
    simp only [lowered, step, isSpace_lower, nameQuote_lower, isWord_lower, lowered_fromGap]
    split_ifs with _ hq
    · rfl
    · rw [lower_of_not_isAlpha (isAlpha_of_nameQuote hq)]
    · rfl
    · rfl
  | tableQuoted q n =>
    simp only [lowered, step, lower_eq_iff (isAlpha_of_nameQuote h)]
    split_ifs <;> rfl
  | tableClosing q n =>
    simp only [lowered, step, lower_eq_iff (isAlpha_of_nameQuote h), lowered_fromGap]
    split_ifs <;> rfl
  | found n => rfl

theorem lowered_run {p : Place} (h : p.WellQuoted) (s : List Char) :
    p.lowered.run (s.map lower) = (p.run s).lowered := by
  induction s generalizing p with
  | nil => rfl
  | cons c s ih => rw [List.map_cons, run_cons, run_cons, lowered_step h, ih (h.step c)]

theorem result_lowered (p : Place) : p.lowered.result = p.result.map (List.map lower) := by
  cases p with
  | found n => rfl
  | _ => rfl

end Place

/-- **The schema of a text in lower case** is the schema of the text, in lower case. -/
theorem extract_map_lower (s : List Char) :
    extract (s.map lower) = (extract s).map (List.map lower) := by
  rw [extract_eq_result, extract_eq_result, ← Place.result_lowered]
  exact congrArg Place.result (Place.lowered_run (p := .gap) trivial s)

/-- **Routing does not depend on letter case.** Texts that differ only in the case of their letters
are classified alike, and no schema is found in either or schemas that differ only in the case of
their letters. -/
theorem routing_ignores_case (s t : List Char) (h : s.map lower = t.map lower) :
    classify s = classify t ∧
      ((extract s = none ∧ extract t = none) ∨
        ∃ n m, extract s = some n ∧ extract t = some m ∧ n.map lower = m.map lower) := by
  refine ⟨by rw [← classify_map_lower s, h, classify_map_lower], ?_⟩
  have hmap : (extract s).map (List.map lower) = (extract t).map (List.map lower) := by
    rw [← extract_map_lower, h, extract_map_lower]
  cases hs : extract s with
  | none =>
    rw [hs, Option.map_none, eq_comm, Option.map_eq_none_iff] at hmap
    exact .inl ⟨rfl, hmap⟩
  | some n =>
    rw [hs, Option.map_some, eq_comm, Option.map_eq_some_iff] at hmap
    obtain ⟨m, hm, heq⟩ := hmap
    exact .inr ⟨n, m, rfl, hm, heq.symm⟩

theorem routing_ignores_case_select :
    classify "SELECT 1 FROM S.t".toList = classify "select 1 From s.T".toList ∧
      ((extract "SELECT 1 FROM S.t".toList = none ∧ extract "select 1 From s.T".toList = none) ∨
        ∃ n m, extract "SELECT 1 FROM S.t".toList = some n ∧
          extract "select 1 From s.T".toList = some m ∧ n.map lower = m.map lower) :=
  routing_ignores_case _ _ (by decide +kernel)

end DBMesh.Routing
