import DBMesh.Routing.Pieces

/-!
# `classify_one`, one character at a time

`classify_one` looks for the first keyword behind whitespace and parentheses, and in a CTE for the
first of some words outside literals and parentheses. What it finds is decided by one pass over the
text, which at each character only needs to know where it is.

## Main definitions

* `DBMesh.Routing.Reading` — where `classify_one` is
* `DBMesh.Routing.Reading.step`, `run`, `result` — the pass over the text

## Main results

* `DBMesh.Routing.classifyOne_eq_result` — the pass finds what `classify_one` finds
* `DBMesh.Routing.classifyOne_trim` — whitespace at the ends makes no difference
-/

namespace DBMesh.Routing

/-- Where `classify_one` is in a statement: before the first keyword, in it, in the text of a CTE,
or past the word that decides. A word `w` is the part of it that has been read. -/
inductive Reading
  | lead
  | keyword (w : List Char)
  | scan (st : LexState) (depth : ℕ)
  | escape (st : LexState) (depth : ℕ)
  | word (w : List Char)
  | decided (t : QueryType)
  deriving DecidableEq, Repr

/-- The type of a statement whose first keyword is `w`, as far as the keyword decides it. -/
def keywordType (w : List Char) : QueryType :=
  if w.map lower = "with".toList then .select else (keywordMap.lookup (w.map lower)).getD .unknown

namespace Reading

/-- In a CTE, outside literals. -/
def fromScan (depth : ℕ) (c : Char) : Reading :=
  if opened c ≠ .normal then .scan (opened c) depth
  else if c = '(' then .scan .normal (depth + 1)
  else if c = ')' then .scan .normal (depth - 1)
  else if depth = 0 ∧ c.isAlpha then .word [c]
  else .scan .normal depth

/-- In a CTE, in a word outside parentheses. -/
def fromWord (w : List Char) (c : Char) : Reading :=
  if isWord c then .word (w ++ [c])
  else
    match cteKeyword w with
    | some t => .decided t
    | none => fromScan 0 c

def step : Reading → Char → Reading
  | .lead, c =>
    if isSpace c || c == '(' then .lead
    else if c.isAlpha then .keyword [c]
    else .decided .unknown
  | .keyword w, c =>
    if c.isAlpha then .keyword (w ++ [c])
    -- the scan of a CTE begins at the keyword
    else if w.map lower = "with".toList then fromWord w c
    else .decided (keywordType w)
  | .scan st depth, c =>
    if st = .normal then fromScan depth c
    else if c = '\\' ∧ st ≠ .btick then .escape st depth
    else if c = st.quote then .scan .normal depth
    else .scan st depth
  | .escape st depth, _ => .scan st depth
  | .word w, c => fromWord w c
  | .decided t, _ => .decided t

def run (p : Reading) (s : List Char) : Reading := s.foldl step p

def result : Reading → QueryType
  | .lead => .unknown
  | .keyword w => keywordType w
  | .scan _ _ => .select
  | .escape _ _ => .select
  | .word w => (cteKeyword w).getD .select
  | .decided t => t

@[simp] theorem run_nil (p : Reading) : p.run [] = p := rfl

@[simp] theorem run_cons (p : Reading) (c : Char) (s : List Char) :
    p.run (c :: s) = (p.step c).run s := rfl

theorem run_append (p : Reading) (s t : List Char) : p.run (s ++ t) = (p.run s).run t :=
  List.foldl_append

@[simp] theorem run_decided (t : QueryType) (s : List Char) : (decided t).run s = decided t := by
  induction s with
  | nil => rfl
  | cons c s ih => exact ih

/-! ### The pass finds what the scanners find -/

theorem result_run_word (w s : List Char) :
    ((word w).run s).result =
      (cteKeyword (w ++ s.takeWhile isWord)).getD
        ((scan .normal 0).run (s.dropWhile isWord)).result := by
  induction s generalizing w with
  | nil =>
    rw [List.takeWhile_nil, List.append_nil]
    rfl
  | cons c s ih =>
    rw [run_cons, step, fromWord, List.takeWhile_cons, List.dropWhile_cons]
    by_cases hc : isWord c = true
    · rw [if_pos hc, if_pos hc, if_pos hc, ih, List.append_assoc]
      rfl
    · rw [if_neg hc, if_neg hc, if_neg hc, List.append_nil]
      cases cteKeyword w with
      | some t => rw [run_decided]; rfl
      | none => rfl

theorem run_scan_alpha {c : Char} (hc : c.isAlpha = true) (s : List Char) :
    (scan .normal 0).run (c :: s) = (word [c]).run s := by
  have hw : isWord c = true := isWord_of_isAlpha hc
  have ho : ¬ opened c ≠ .normal := not_not.mpr (opened_of_isWord hw)
  rw [run_cons, step, if_pos rfl, fromScan, if_neg ho, if_neg (isWord_ne hw (by decide)),
    if_neg (isWord_ne hw (by decide)), if_pos ⟨rfl, hc⟩]

/-- The loop of `classify_cte`. -/
theorem cteScan_eq_result (st : LexState) (depth : ℕ) (s : List Char) :
    cteScan st depth s = ((scan st depth).run s).result := by
  fun_induction cteScan st depth s with
  | case1 st depth => rfl
  | case2 st depth c cs hn hesc ih =>
    rw [ih, run_cons, step, if_neg hn, if_pos hesc]
    cases cs with
    | nil => rfl
    | cons n cs => rfl
  | case3 st depth cs hn hesc ih => rw [ih, run_cons, step, if_neg hn, if_neg hesc, if_pos rfl]
  | case4 st depth c cs hn hesc hq ih =>
    rw [ih, run_cons, step, if_neg hn, if_neg hesc, if_neg hq]
  | case5 st depth c cs hn ho ih =>
    rw [ih, run_cons, step, if_pos (not_not.mp hn), fromScan, if_pos ho]
  | case6 st depth cs hn ho ih =>
    rw [ih, run_cons, step, if_pos (not_not.mp hn), fromScan, if_neg ho, if_pos rfl]
  | case7 st depth cs hn ho hopen ih =>
    rw [ih, run_cons, step, if_pos (not_not.mp hn), fromScan, if_neg ho, if_neg hopen, if_pos rfl]
  | case8 st depth c cs hn _ _ _ hword t ht =>
    obtain rfl := not_not.mp hn
    obtain ⟨rfl, halpha⟩ := hword
    rw [List.takeWhile_cons, if_pos (isWord_of_isAlpha halpha)] at ht
    rw [run_scan_alpha halpha, result_run_word, List.singleton_append, ht]
    rfl
  | case9 st depth c cs hn _ _ _ hword hnone ih =>
    obtain rfl := not_not.mp hn
    obtain ⟨rfl, halpha⟩ := hword
    rw [List.takeWhile_cons, if_pos (isWord_of_isAlpha halpha)] at hnone
    rw [List.dropWhile_cons, if_pos (isWord_of_isAlpha halpha)] at ih
    rw [run_scan_alpha halpha, result_run_word, List.singleton_append, hnone, Option.getD_none,
      List.dropWhile_cons, if_pos (isWord_of_isAlpha halpha), ih]
  | case10 st depth c cs hn ho hopen hclose hword ih =>
    rw [ih, run_cons, step, if_pos (not_not.mp hn), fromScan, if_neg ho, if_neg hopen,
      if_neg hclose, if_neg hword]

theorem cteKeyword_of_with {w : List Char} (hw : w.map lower = "with".toList) :
    cteKeyword w = none := by
  rw [cteKeyword, hw]
  split
  · rfl
  · decide

/-- The first keyword, and the rest of a CTE. -/
theorem result_run_firstKeyword (w s : List Char) :
    ((keyword w).run s).result =
      if (w ++ s.takeWhile Char.isAlpha).map lower = "with".toList then ((word w).run s).result
      else keywordType (w ++ s.takeWhile Char.isAlpha) := by
  induction s generalizing w with
  | nil =>
    rw [List.takeWhile_nil, List.append_nil]
    split
    · next hw =>
      show keywordType w = (cteKeyword w).getD .select
      rw [cteKeyword_of_with hw, keywordType, if_pos hw]
      rfl
    · rfl
  | cons c s ih =>
    rw [run_cons, step, List.takeWhile_cons]
    by_cases hc : c.isAlpha = true
    · have hword : (word w).step c = word (w ++ [c]) := by
        rw [step, fromWord, if_pos (isWord_of_isAlpha hc)]
      rw [if_pos hc, if_pos hc, ih, run_cons, hword, List.append_assoc]
      rfl
    · rw [if_neg hc, if_neg hc, List.append_nil]
      split
      · rfl
      · rw [run_decided]
        rfl

theorem run_lead_dropWhile {q : Char → Bool} (hq : ∀ c, q c = true → lead.step c = lead)
    (s : List Char) : lead.run (s.dropWhile q) = lead.run s := by
  induction s with
  | nil => rfl
  | cons c s ih =>
    rw [List.dropWhile_cons]
    split
    · next hc => rw [ih, run_cons, hq c hc]
    · rfl

theorem run_skipOpen (s : List Char) : lead.run (skipOpen s) = lead.run s := by
  refine run_lead_dropWhile ?_ s
  intro c hc
  rw [step, if_pos hc]

end Reading

open Reading

theorem keywordMap_length : ∀ p ∈ keywordMap, p.1.length ≤ 16 := by decide

theorem lookup_of_length {w : List Char} (h : 16 < w.length) : keywordMap.lookup w = none := by
  rw [List.lookup_eq_none_iff]
  intro p hp
  rw [bne_iff_ne]
  rintro rfl
  exact absurd (keywordMap_length p hp) (Nat.not_le_of_lt h)

/-- A keyword longer than the buffer is none that the map has. -/
theorem classifyOne_eq (s : List Char) :
    classifyOne s =
      if ((skipOpen s).takeWhile Char.isAlpha).map lower = "with".toList then
        classifyCte (skipOpen s)
      else keywordType ((skipOpen s).takeWhile Char.isAlpha) := by
  rw [classifyOne, firstKeyword]
  generalize (skipOpen s).takeWhile Char.isAlpha = w
  by_cases hlen : 16 < w.length
  · have hwith : w.map lower ≠ "with".toList := by
      intro h
      have := congrArg List.length h
      rw [List.length_map] at this
      exact absurd hlen (by rw [this]; decide)
    have hlookup : keywordMap.lookup (w.map lower) = none :=
      lookup_of_length (by rwa [List.length_map])
    rw [if_pos hlen, if_pos rfl, if_neg hwith, keywordType, if_neg hwith, hlookup]
    rfl
  · rw [if_neg hlen]
    by_cases hnil : w.map lower = []
    · rw [if_pos hnil, keywordType, hnil]
      rfl
    · rw [if_neg hnil, keywordType]
      split_ifs <;> rfl

theorem head?_skipOpen {c : Char} {s t : List Char} (h : skipOpen s = c :: t) :
    ¬ (isSpace c || c == '(') = true := by
  have hhead := List.head?_dropWhile_not (fun c => isSpace c || c == '(') s
  rw [skipOpen] at h
  rw [h] at hhead
  simpa using hhead

/-- **One pass decides what `classify_one` finds.** -/
theorem classifyOne_eq_result (s : List Char) : classifyOne s = (lead.run s).result := by
  rw [classifyOne_eq, ← run_skipOpen]
  cases hs : skipOpen s with
  | nil => decide
  | cons c t =>
    rw [run_cons, step, if_neg (head?_skipOpen hs), List.takeWhile_cons]
    by_cases hc : c.isAlpha = true
    · rw [if_pos hc, if_pos hc, result_run_firstKeyword, classifyCte, cteScan_eq_result,
        run_scan_alpha hc]
      rfl
    · rw [if_neg hc, if_neg hc, run_decided]
      rfl

/-! ### Whitespace at the ends -/

namespace Reading

/-- A character that is neither part of a word nor a quote nor a parenthesis. -/
theorem fromScan_gap {c : Char} (hw : isWord c = false) (ho : opened c = .normal)
    (hp : c ≠ '(' ∧ c ≠ ')') (depth : ℕ) : fromScan depth c = scan .normal depth := by
  have hword : ¬ (depth = 0 ∧ c.isAlpha = true) := by
    intro h
    exact absurd (hw.symm.trans (isWord_of_isAlpha h.2)) (by decide)
  rw [fromScan, if_neg (not_not.mpr ho), if_neg hp.1, if_neg hp.2, if_neg hword]

theorem fromScan_space {c : Char} (hc : isSpace c = true) (depth : ℕ) :
    fromScan depth c = scan .normal depth :=
  fromScan_gap (isWord_of_isSpace hc) (opened_of_isSpace hc)
    ⟨isSpace_ne hc (by decide), isSpace_ne hc (by decide)⟩ depth

theorem result_fromWord_space (w : List Char) {c : Char} (hc : isSpace c = true) :
    (fromWord w c).result = (cteKeyword w).getD .select := by
  rw [fromWord, isWord_of_isSpace hc, if_neg Bool.false_ne_true]
  cases cteKeyword w with
  | some t => rfl
  | none => exact congrArg result (fromScan_space hc 0)

theorem result_step_space (p : Reading) {c : Char} (hc : isSpace c = true) :
    (p.step c).result = p.result := by
  cases p with
  | lead =>
    rw [step, if_pos (by rw [hc]; rfl)]
  | keyword w =>
    have halpha : ¬ c.isAlpha = true := by
      intro h
      exact absurd (hc.symm.trans (isSpace_of_isAlpha h)) (by decide)
    rw [step, if_neg halpha]
    split
    · next hw =>
      show _ = keywordType w
      rw [result_fromWord_space w hc, cteKeyword_of_with hw, keywordType, if_pos hw]
      rfl
    · rfl
  | scan st depth =>
    rw [step]
    split_ifs
    · rw [fromScan_space hc]
      rfl
    · rfl
    · rfl
    · rfl
  | escape st depth => rfl
  | word w => exact result_fromWord_space w hc
  | decided t => rfl

theorem result_run_space (p : Reading) {s : List Char} (hs : ∀ c ∈ s, isSpace c = true) :
    (p.run s).result = p.result := by
  induction s generalizing p with
  | nil => rfl
  | cons c s ih =>
    obtain ⟨hc, hs⟩ := List.forall_mem_cons.mp hs
    rw [run_cons, ih _ hs, result_step_space p hc]

end Reading

/-- The whitespace that `split_statements` trims makes no difference. -/
theorem classifyOne_trim (s : List Char) : classifyOne (trim s) = classifyOne s := by
  have hlead : ∀ c, isSpace c = true → lead.step c = lead := by
    intro c hc
    rw [step, if_pos (by rw [hc]; rfl)]
  have hend : ∀ t : List Char,
      (lead.run t).result = (lead.run (t.rdropWhile isSpace)).result := by
    intro t
    have hsplit : t.rdropWhile isSpace ++ t.rtakeWhile isSpace = t :=
      List.rdropWhile_append_rtakeWhile
    have hrun := result_run_space (lead.run (t.rdropWhile isSpace))
      fun c (hc : c ∈ t.rtakeWhile isSpace) => List.mem_rtakeWhile_imp hc
    rwa [← run_append, hsplit] at hrun
  rw [classifyOne_eq_result, classifyOne_eq_result, trim, ← hend, run_lead_dropWhile hlead]

end DBMesh.Routing
