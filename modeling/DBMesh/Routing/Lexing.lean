import DBMesh.Routing.QueryClassifier

/-!
# How a text is lexed

`Lexes st s out st'` says, by the structure of the text, that comment removal started in state `st`
turns `s` into `out` and ends in state `st'`, outside comments. A doubled quote is here what it is
for the splitter: the end of one literal and the beginning of the next.

## Main results

* `DBMesh.Routing.stripScan_eq_iff` — the relation describes the scanner
* `DBMesh.Routing.Lexes.stripScan_append` — a text that ends outside literals and comments is
  scanned on its own
* `DBMesh.Routing.Lexes.segments_append` — and what is left of it is split on its own
* `DBMesh.Routing.statements_append` — the statements of two texts joined by `;`
-/

namespace DBMesh.Routing

/-! ### The relation -/

/-- The character `c`, followed by `cs`, begins a comment. -/
def OpensComment (c : Char) (cs : List Char) : Prop :=
  c = '#' ∨ (c = '-' ∧ cs.head? = some '-') ∨ (c = '/' ∧ cs.head? = some '*')

/-- What follows a comment that begins with `c`, if it ends. -/
def afterComment (c : Char) (cs : List Char) : Option (List Char) :=
  if c = '/' then skipBlock cs.tail else skipLine cs

inductive Lexes : LexState → List Char → List Char → LexState → Prop
  | nil {st : LexState} : Lexes st [] [] st
  | comment {c : Char} {cs rest out : List Char} {st' : LexState} (hc : OpensComment c cs)
      (hrest : afterComment c cs = some rest) (h : Lexes .normal rest out st') :
      Lexes .normal (c :: cs) (' ' :: out) st'
  | plain {c : Char} {cs out : List Char} {st' : LexState} (hc : ¬ OpensComment c cs)
      (h : Lexes (opened c) cs out st') : Lexes .normal (c :: cs) (c :: out) st'
  | escape {st : LexState} {n : Char} {cs out : List Char} {st' : LexState} (hn : st ≠ .normal)
      (hb : st ≠ .btick) (h : Lexes st cs out st') :
      Lexes st ('\\' :: n :: cs) ('\\' :: n :: out) st'
  | escapeEnd {st : LexState} (hn : st ≠ .normal) (hb : st ≠ .btick) : Lexes st ['\\'] ['\\'] st
  | close {st : LexState} {cs out : List Char} {st' : LexState} (hn : st ≠ .normal)
      (h : Lexes .normal cs out st') : Lexes st (st.quote :: cs) (st.quote :: out) st'
  | inside {st : LexState} {c : Char} {cs out : List Char} {st' : LexState} (hn : st ≠ .normal)
      (hq : c ≠ st.quote) (hb : c = '\\' → st = .btick) (h : Lexes st cs out st') :
      Lexes st (c :: cs) (c :: out) st'

theorem not_opensComment {c : Char} (h : c ≠ '#' ∧ c ≠ '-' ∧ c ≠ '/') (cs : List Char) :
    ¬ OpensComment c cs := by
  rintro (hc | ⟨hc, -⟩ | ⟨hc, -⟩)
  · exact h.1 hc
  · exact h.2.1 hc
  · exact h.2.2 hc

theorem opened_quote {st : LexState} (h : st ≠ .normal) : opened st.quote = st := by
  cases st with
  | normal => exact absurd rfl h
  | squote => rfl
  | dquote => rfl
  | btick => rfl

/-- A quote is no character that leaves the scan outside literals. -/
theorem quote_ne_of_opened {st : LexState} {c : Char} (h : st ≠ .normal) (hc : opened c = .normal) :
    st.quote ≠ c := by
  rintro rfl
  exact h ((opened_quote h).symm.trans hc)

theorem quote_ne_backslash {st : LexState} (h : st ≠ .normal) : st.quote ≠ '\\' :=
  quote_ne_of_opened h rfl

theorem not_opensComment_quote {st : LexState} (h : st ≠ .normal) (cs : List Char) :
    ¬ OpensComment st.quote cs := by
  refine not_opensComment ⟨?_, ?_, ?_⟩ cs
  all_goals exact quote_ne_of_opened h rfl

/-! ### One step of the scanner -/

/-- Output in front of what the rest of the scan gives. -/
def emit (out : List Char) (r : List Char × Option LexState) : List Char × Option LexState :=
  (out ++ r.1, r.2)

theorem stripScan_cons_some {st st' : LexState} {c : Char} {cs out rest : List Char}
    (h : stripStep st c cs = some (out, st', rest)) :
    stripScan st (c :: cs) = emit out (stripScan st' rest) := by
  rw [stripScan]
  split
  · next h' => exact absurd (h.symm.trans h') (by simp)
  · next h' =>
    have heq := h.symm.trans h'
    simp only [Option.some.injEq, Prod.mk.injEq] at heq
    obtain ⟨rfl, rfl, rfl⟩ := heq
    rfl

theorem stripScan_comment {c : Char} {cs rest : List Char} (hc : OpensComment c cs)
    (hrest : afterComment c cs = some rest) :
    stripScan .normal (c :: cs) = emit [' '] (stripScan .normal rest) := by
  refine stripScan_cons_some ?_
  rcases hc with rfl | ⟨rfl, hn⟩ | ⟨rfl, hn⟩
  · have hr : skipLine cs = some rest := hrest
    simp [stripStep, hr]
  · have hr : skipLine cs = some rest := hrest
    simp [stripStep, hn, hr]
  · have hr : skipBlock cs.tail = some rest := hrest
    simp [stripStep, hn, hr]

theorem stripScan_plain {c : Char} {cs : List Char} (hc : ¬ OpensComment c cs) :
    stripScan .normal (c :: cs) = emit [c] (stripScan (opened c) cs) := by
  refine stripScan_cons_some ?_
  simp only [OpensComment, not_or] at hc
  simp [stripStep, hc.1, hc.2.1, hc.2.2]

theorem stripScan_inside {st : LexState} {c : Char} (hn : st ≠ .normal) (hq : c ≠ st.quote)
    (hb : c = '\\' → st = .btick) (cs : List Char) :
    stripScan st (c :: cs) = emit [c] (stripScan st cs) := by
  refine stripScan_cons_some ?_
  have hesc : ¬ (c = '\\' ∧ st ≠ .btick) := fun h => h.2 (hb h.1)
  simp only [stripStep, hn, hesc, hq, if_false]

theorem stripScan_escape {st : LexState} (hn : st ≠ .normal) (hb : st ≠ .btick) (n : Char)
    (cs : List Char) : stripScan st ('\\' :: n :: cs) = emit ['\\', n] (stripScan st cs) := by
  by_cases h0 : n = '\x00'
  · -- a NUL is left for the next iteration, which passes it
    have hstep : stripStep st '\\' (n :: cs) = some (['\\'], st, n :: cs) := by
      simp [stripStep, hn, hb, h0]
    have hq : n ≠ st.quote := by
      rw [h0]
      exact (quote_ne_of_opened hn rfl).symm
    have hesc : n = '\\' → st = .btick := fun h => absurd (h0.symm.trans h) (by decide)
    rw [stripScan_cons_some hstep, stripScan_inside hn hq hesc]
    rfl
  · exact stripScan_cons_some (by simp [stripStep, hn, hb, h0])

theorem stripScan_close {st : LexState} (hn : st ≠ .normal) (cs : List Char) :
    stripScan st (st.quote :: cs) = emit [st.quote] (stripScan .normal cs) := by
  have hesc : ¬ (st.quote = '\\' ∧ st ≠ .btick) := fun h => quote_ne_backslash hn h.1
  by_cases hd : cs.head? = some st.quote
  · -- a doubled quote: closing the literal and opening it again gives the same
    obtain ⟨cs, rfl⟩ : ∃ t, cs = st.quote :: t := by
      cases cs with
      | nil => exact absurd hd (by simp)
      | cons n t => exact ⟨t, by simpa using hd⟩
    have hstep : stripStep st st.quote (st.quote :: cs) = some ([st.quote, st.quote], st, cs) := by
      simp only [stripStep, hn, hesc, hd, if_false, if_true, List.tail_cons]
    rw [stripScan_cons_some hstep, stripScan_plain (not_opensComment_quote hn cs), opened_quote hn]
    rfl
  · have hstep : stripStep st st.quote cs = some ([st.quote], .normal, cs) := by
      simp only [stripStep, hn, hesc, hd, if_false, if_true]
    exact stripScan_cons_some hstep

/-! ### The relation describes the scanner -/

theorem Lexes.stripScan_eq {st st' : LexState} {s out : List Char} (h : Lexes st s out st') :
    stripScan st s = (out, some st') := by
  induction h with
  | nil => rw [stripScan]
  | comment hc hrest _ ih => rw [stripScan_comment hc hrest, ih]; rfl
  | plain hc _ ih => rw [stripScan_plain hc, ih]; rfl
  | escape hn hb _ ih => rw [stripScan_escape hn hb, ih]; rfl
  | @escapeEnd st hn hb =>
    have hstep : stripStep st '\\' [] = some (['\\'], st, []) := by simp [stripStep, hn, hb]
    rw [stripScan_cons_some hstep, stripScan]
    rfl
  | close hn _ ih => rw [stripScan_close hn, ih]; rfl
  | inside hn hq hb _ ih => rw [stripScan_inside hn hq hb, ih]; rfl

theorem stripStep_eq_none {c : Char} {cs : List Char} (hc : OpensComment c cs)
    (hrest : afterComment c cs = none) : stripStep .normal c cs = none := by
  rcases hc with rfl | ⟨rfl, hn⟩ | ⟨rfl, hn⟩
  · have hr : skipLine cs = none := hrest
    simp [stripStep, hr]
  · have hr : skipLine cs = none := hrest
    simp [stripStep, hn, hr]
  · have hr : skipBlock cs.tail = none := hrest
    simp [stripStep, hn, hr]

theorem length_of_afterComment {c : Char} {cs rest : List Char}
    (h : afterComment c cs = some rest) : rest.length < (c :: cs).length := by
  rw [afterComment] at h
  split_ifs at h
  · have := length_of_skipBlock h
    rw [List.length_tail] at this
    rw [List.length_cons]
    omega
  · exact Nat.lt_succ_of_lt (length_of_skipLine h)

/-- The induction of a scanner that takes for comments what begins as `opens` says. -/
theorem scan_induct_of {opens : Char → List Char → Prop} {P : LexState → List Char → Prop}
    (nil : ∀ st, P st [])
    (unclosed : ∀ c cs, opens c cs → afterComment c cs = none → P .normal (c :: cs))
    (comment : ∀ c cs rest, opens c cs → afterComment c cs = some rest → P .normal rest →
      P .normal (c :: cs))
    (plain : ∀ c cs, ¬ opens c cs → P (opened c) cs → P .normal (c :: cs))
    (escapeEnd : ∀ st, st ≠ .normal → st ≠ .btick → P st ['\\'])
    (escape : ∀ st n cs, st ≠ .normal → st ≠ .btick → P st cs → P st ('\\' :: n :: cs))
    (close : ∀ st cs, st ≠ .normal → P .normal cs → P st (st.quote :: cs))
    (inside : ∀ st c cs, st ≠ .normal → c ≠ st.quote → (c = '\\' → st = .btick) → P st cs →
      P st (c :: cs)) (st : LexState) (s : List Char) : P st s := by
  induction hn : s.length using Nat.strong_induction_on generalizing st s with
  | _ n ih =>
    subst hn
    cases s with
    | nil => exact nil st
    | cons c cs =>
      by_cases hst : st = .normal
      · subst hst
        by_cases hc : opens c cs
        · cases hrest : afterComment c cs with
          | none => exact unclosed c cs hc hrest
          | some rest =>
            exact comment c cs rest hc hrest (ih _ (length_of_afterComment hrest) _ _ rfl)
        · exact plain c cs hc (ih _ (Nat.lt_succ_self _) _ _ rfl)
      · by_cases hq : c = st.quote
        · subst hq
          exact close st cs hst (ih _ (Nat.lt_succ_self _) _ _ rfl)
        · by_cases hesc : c = '\\' → st = .btick
          · exact inside st c cs hst hq hesc (ih _ (Nat.lt_succ_self _) _ _ rfl)
          · obtain ⟨rfl, hb⟩ := Classical.not_imp.mp hesc
            cases cs with
            | nil => exact escapeEnd st hst hb
            | cons n cs =>
              exact escape st n cs hst hb (ih _ (by simp only [List.length_cons]; omega) _ _ rfl)

/-- **The induction of the scanner**: the text is taken apart as `strip_comments` walks through
it. -/
theorem scan_induct {P : LexState → List Char → Prop} (nil : ∀ st, P st [])
    (unclosed : ∀ c cs, OpensComment c cs → afterComment c cs = none → P .normal (c :: cs))
    (comment : ∀ c cs rest, OpensComment c cs → afterComment c cs = some rest → P .normal rest →
      P .normal (c :: cs))
    (plain : ∀ c cs, ¬ OpensComment c cs → P (opened c) cs → P .normal (c :: cs))
    (escapeEnd : ∀ st, st ≠ .normal → st ≠ .btick → P st ['\\'])
    (escape : ∀ st n cs, st ≠ .normal → st ≠ .btick → P st cs → P st ('\\' :: n :: cs))
    (close : ∀ st cs, st ≠ .normal → P .normal cs → P st (st.quote :: cs))
    (inside : ∀ st c cs, st ≠ .normal → c ≠ st.quote → (c = '\\' → st = .btick) → P st cs →
      P st (c :: cs)) (st : LexState) (s : List Char) : P st s :=
  scan_induct_of nil unclosed comment plain escapeEnd escape close inside st s

/-- The induction of a scanner that knows quotes but no comments. -/
theorem quote_induct {P : LexState → List Char → Prop} (nil : ∀ st, P st [])
    (plain : ∀ c cs, P (opened c) cs → P .normal (c :: cs))
    (escapeEnd : ∀ st, st ≠ .normal → st ≠ .btick → P st ['\\'])
    (escape : ∀ st n cs, st ≠ .normal → st ≠ .btick → P st cs → P st ('\\' :: n :: cs))
    (close : ∀ st cs, st ≠ .normal → P .normal cs → P st (st.quote :: cs))
    (inside : ∀ st c cs, st ≠ .normal → c ≠ st.quote → (c = '\\' → st = .btick) → P st cs →
      P st (c :: cs)) (st : LexState) (s : List Char) : P st s :=
  @scan_induct_of (fun _ _ => False) P nil (fun _ _ h _ => h.elim) (fun _ _ _ h _ _ => h.elim)
    (fun c cs _ => plain c cs) escapeEnd escape close inside st s

theorem stripScan_unclosed {c : Char} {cs : List Char} (hc : OpensComment c cs)
    (hrest : afterComment c cs = none) : stripScan .normal (c :: cs) = ([' '], none) := by
  rw [stripScan]
  split
  · rfl
  · next h => exact absurd ((stripStep_eq_none hc hrest).symm.trans h) (by simp)

/-- Every text that does not end inside a comment is lexed. -/
theorem lexes_of_stripScan {st st' : LexState} {s : List Char} (h : (stripScan st s).2 = some st') :
    Lexes st s (stripScan st s).1 st' := by
  induction st, s using scan_induct with
  | nil st =>
    rw [stripScan] at h ⊢
    obtain rfl := Option.some.inj h
    exact .nil
  | unclosed c cs hc hrest =>
    rw [stripScan_unclosed hc hrest] at h
    exact absurd h (by simp)
  | comment c cs rest hc hrest ih =>
    rw [stripScan_comment hc hrest] at h ⊢
    exact .comment hc hrest (ih h)
  | plain c cs hc ih =>
    rw [stripScan_plain hc] at h ⊢
    exact .plain hc (ih h)
  | escapeEnd st hn hb =>
    rw [(Lexes.escapeEnd hn hb).stripScan_eq] at h ⊢
    obtain rfl := Option.some.inj h
    exact .escapeEnd hn hb
  | escape st n cs hn hb ih =>
    rw [stripScan_escape hn hb] at h ⊢
    exact .escape hn hb (ih h)
  | close st cs hn ih =>
    rw [stripScan_close hn] at h ⊢
    exact .close hn (ih h)
  | inside st c cs hn hq hb ih =>
    rw [stripScan_inside hn hq hb] at h ⊢
    exact .inside hn hq hb (ih h)

theorem stripScan_eq_iff {st st' : LexState} {s out : List Char} :
    stripScan st s = (out, some st') ↔ Lexes st s out st' := by
  constructor
  · intro h
    have hlex := lexes_of_stripScan (congrArg Prod.snd h)
    rwa [h] at hlex
  · exact Lexes.stripScan_eq

/-! ### Joining texts -/

/-- No comment begins with the last character of `x` and the first of `y`. -/
def NoJoin (x y : List Char) : Prop :=
  ∀ c ∈ x.getLast?, ∀ d ∈ y.head?, ¬ (c = '-' ∧ d = '-') ∧ ¬ (c = '/' ∧ d = '*')

theorem NoJoin.of_suffix {s x y : List Char} (hs : s <:+ x) (h : NoJoin x y) : NoJoin s y := by
  intro c hc
  refine h c ?_
  obtain ⟨p, rfl⟩ := hs
  have hne : s ≠ [] := by
    rintro rfl
    exact absurd hc (by simp)
  rwa [List.getLast?_append_of_ne_nil _ hne]

theorem skipLine_suffix {cs rest : List Char} (h : skipLine cs = some rest) : rest <:+ cs := by
  obtain ⟨line, rfl⟩ := exists_of_skipLine h
  exact (List.suffix_cons _ rest).trans (List.suffix_append line _)

theorem skipBlock_suffix {cs rest : List Char} (h : skipBlock cs = some rest) : rest <:+ cs := by
  obtain ⟨body, rfl⟩ := exists_of_skipBlock h
  have hend : rest <:+ '*' :: '/' :: rest :=
    (List.suffix_cons _ rest).trans (List.suffix_cons _ _)
  exact hend.trans (List.suffix_append body _)

theorem afterComment_suffix {c : Char} {cs rest : List Char} (h : afterComment c cs = some rest) :
    rest <:+ cs := by
  rw [afterComment] at h
  split_ifs at h
  · exact (skipBlock_suffix h).trans (List.tail_suffix cs)
  · exact skipLine_suffix h

theorem skipLine_append {cs rest : List Char} (h : skipLine cs = some rest) (y : List Char) :
    skipLine (cs ++ y) = some (rest ++ y) := by
  induction cs with
  | nil => exact absurd h (by simp [skipLine])
  | cons c cs ih =>
    rw [List.cons_append, skipLine]
    rw [skipLine] at h
    split_ifs at h ⊢
    · rw [Option.some.inj h]
    · exact ih h

theorem skipBlock_append {cs rest : List Char} (h : skipBlock cs = some rest) (y : List Char) :
    skipBlock (cs ++ y) = some (rest ++ y) := by
  induction cs using skipBlock.induct with
  | case1 cs =>
    rw [skipBlock] at h
    rw [← Option.some.inj h]
    rfl
  | case2 c cs hne ih =>
    rw [skipBlock_cons hne] at h
    have hne' : ∀ t, c = '*' → cs ++ y = '/' :: t → False := by
      intro t hc ht
      cases cs with
      | nil => exact absurd h (by simp [skipBlock])
      | cons d cs =>
        obtain ⟨rfl, -⟩ := List.cons.inj ht
        exact hne cs hc rfl
    rw [List.cons_append, skipBlock_cons hne']
    exact ih h
  | case3 => exact absurd h (by simp [skipBlock])

theorem OpensComment.append {c : Char} {cs : List Char} (h : OpensComment c cs) (y : List Char) :
    OpensComment c (cs ++ y) := by
  rcases h with h | ⟨h, hn⟩ | ⟨h, hn⟩
  · exact .inl h
  · exact .inr (.inl ⟨h, by rw [List.head?_append, hn]; rfl⟩)
  · exact .inr (.inr ⟨h, by rw [List.head?_append, hn]; rfl⟩)

theorem afterComment_append {c : Char} {cs rest : List Char} (hc : OpensComment c cs)
    (h : afterComment c cs = some rest) (y : List Char) :
    afterComment c (cs ++ y) = some (rest ++ y) := by
  rw [afterComment] at h ⊢
  split_ifs at h ⊢ with hslash
  · cases cs with
    | nil => exact absurd h (by simp [skipBlock])
    | cons d cs => exact skipBlock_append h y
  · exact skipLine_append h y

theorem not_opensComment_append {c : Char} {cs y : List Char} (hc : ¬ OpensComment c cs)
    (hj : NoJoin (c :: cs) y) : ¬ OpensComment c (cs ++ y) := by
  cases cs with
  | cons d cs => exact hc
  | nil =>
    rintro (h | ⟨h, hn⟩ | ⟨h, hn⟩)
    · exact hc (.inl h)
    · exact (hj c rfl '-' hn).1 ⟨h, rfl⟩
    · exact (hj c rfl '*' hn).2 ⟨h, rfl⟩

/-- **A text that ends outside literals and comments is scanned on its own.** -/
theorem Lexes.stripScan_append {st : LexState} {x out : List Char} (h : Lexes st x out .normal)
    {y : List Char} (hj : NoJoin x y) : stripScan st (x ++ y) = emit out (stripScan .normal y) := by
  generalize hend : LexState.normal = st' at h
  induction h with
  | nil => rw [← hend]; rfl
  | @comment c cs rest out st' hc hrest _ ih =>
    have hsuf : rest <:+ c :: cs := (afterComment_suffix hrest).trans (List.suffix_cons c cs)
    rw [List.cons_append, stripScan_comment (hc.append y) (afterComment_append hc hrest y),
      ih (hj.of_suffix hsuf) hend]
    rfl
  | @plain c cs out st' hc _ ih =>
    rw [List.cons_append, stripScan_plain (not_opensComment_append hc hj),
      ih (hj.of_suffix (List.suffix_cons c cs)) hend]
    rfl
  | @escape st n cs out st' hn hb _ ih =>
    rw [List.cons_append, List.cons_append, stripScan_escape hn hb,
      ih (hj.of_suffix ⟨['\\', n], rfl⟩) hend]
    rfl
  | escapeEnd hn _ => exact absurd hend.symm hn
  | @close st cs out st' hn _ ih =>
    rw [List.cons_append, stripScan_close hn, ih (hj.of_suffix (List.suffix_cons _ cs)) hend]
    rfl
  | @inside st c cs out st' hn hq hb _ ih =>
    rw [List.cons_append, stripScan_inside hn hq hb,
      ih (hj.of_suffix (List.suffix_cons c cs)) hend]
    rfl

theorem Lexes.stripComments_append {x out : List Char} (h : Lexes .normal x out .normal)
    {y : List Char} (hj : NoJoin x y) : stripComments (x ++ y) = out ++ stripComments y :=
  congrArg Prod.fst (h.stripScan_append hj)

/-! ### Splitting what is left -/

theorem consHead_ne_nil (c : Char) (xs : List (List Char)) : consHead c xs ≠ [] := by
  cases xs with
  | nil => exact List.cons_ne_nil _ _
  | cons x xs => exact List.cons_ne_nil _ _

theorem consHead_append (c : Char) {xs : List (List Char)} (h : xs ≠ []) (ys : List (List Char)) :
    consHead c (xs ++ ys) = consHead c xs ++ ys := by
  cases xs with
  | nil => exact absurd rfl h
  | cons x xs => rfl

theorem segments_nil (st : LexState) : segments st [] = [[]] := by rw [segments]

theorem segments_semicolon (cs : List Char) :
    segments .normal (';' :: cs) = [] :: segments .normal cs := by
  rw [segments.eq_def]
  rfl

theorem segments_plain {c : Char} (hc : c ≠ ';') (cs : List Char) :
    segments .normal (c :: cs) = consHead c (segments (opened c) cs) := by
  rw [segments.eq_def]
  exact (if_pos rfl).trans (if_neg hc)

theorem segments_escape {st : LexState} (hn : st ≠ .normal) (hb : st ≠ .btick) (n : Char)
    (cs : List Char) :
    segments st ('\\' :: n :: cs) = consHead '\\' (consHead n (segments st cs)) := by
  rw [segments, if_neg hn, if_pos ⟨rfl, hb⟩]

theorem segments_close {st : LexState} (hn : st ≠ .normal) (cs : List Char) :
    segments st (st.quote :: cs) = consHead st.quote (segments .normal cs) := by
  rw [segments.eq_def]
  simp only [hn, if_false, quote_ne_backslash hn, false_and, if_true]

theorem segments_inside {st : LexState} {c : Char} (hn : st ≠ .normal) (hq : c ≠ st.quote)
    (hb : c = '\\' → st = .btick) (cs : List Char) :
    segments st (c :: cs) = consHead c (segments st cs) := by
  have hesc : ¬ (c = '\\' ∧ st ≠ .btick) := fun h => h.2 (hb h.1)
  rw [segments.eq_def]
  simp only [hn, hesc, hq, if_false]

theorem segments_ne_nil (st : LexState) (s : List Char) : segments st s ≠ [] := by
  cases s with
  | nil => rw [segments_nil]; exact List.cons_ne_nil _ _
  | cons c cs =>
    rw [segments.eq_def]
    simp only
    split_ifs
    · exact List.cons_ne_nil _ _
    · exact consHead_ne_nil _ _
    · cases cs with
      | nil => exact List.cons_ne_nil _ _
      | cons n cs => exact consHead_ne_nil _ _
    · exact consHead_ne_nil _ _
    · exact consHead_ne_nil _ _

/-- A `;` after a text that ends outside literals splits. -/
theorem Lexes.segments_append {st : LexState} {x out : List Char} (h : Lexes st x out .normal)
    (y : List Char) : segments st (out ++ ';' :: y) = segments st out ++ segments .normal y := by
  generalize hend : LexState.normal = st' at h
  induction h with
  | nil =>
    rw [← hend, List.nil_append, segments_semicolon, segments_nil]
    rfl
  | @comment c cs rest out st' _ _ _ ih =>
    rw [List.cons_append, segments_plain (by decide), segments_plain (by decide)]
    have hopen : opened ' ' = .normal := by decide
    rw [hopen, ih hend, hend, consHead_append _ (segments_ne_nil _ _)]
  | @plain c cs out st' _ _ ih =>
    by_cases hc : c = ';'
    · subst hc
      have hopen : opened ';' = .normal := by decide
      rw [hopen, hend] at ih
      rw [List.cons_append, segments_semicolon, segments_semicolon, hend, ih rfl, List.cons_append]
    · rw [List.cons_append, segments_plain hc, segments_plain hc, ih hend,
        consHead_append _ (segments_ne_nil _ _)]
  | @escape st n cs out st' hn hb _ ih =>
    rw [List.cons_append, List.cons_append, segments_escape hn hb, segments_escape hn hb, ih hend,
      consHead_append _ (segments_ne_nil _ _), consHead_append _ (consHead_ne_nil _ _)]
  | escapeEnd hn _ => exact absurd hend.symm hn
  | @close st cs out st' hn _ ih =>
    rw [List.cons_append, segments_close hn, segments_close hn, ih hend,
      consHead_append _ (segments_ne_nil _ _)]
  | @inside st c cs out st' hn hq hb _ ih =>
    rw [List.cons_append, segments_inside hn hq hb, segments_inside hn hq hb, ih hend,
      consHead_append _ (segments_ne_nil _ _)]

/-- **The statements of a batch** `a;b` are those of `a` and those of `b`. -/
theorem statements_append {a : List Char} (ha : (stripScan .normal a).2 = some .normal)
    (b : List Char) : statements (a ++ ';' :: b) = statements a ++ statements b := by
  have hlex := lexes_of_stripScan ha
  have hj : NoJoin a (';' :: b) := by
    intro c _ d hd
    obtain rfl : ';' = d := by simpa using hd
    exact ⟨fun h => absurd h.2 (by decide), fun h => absurd h.2 (by decide)⟩
  have hb : stripComments (';' :: b) = ';' :: stripComments b := by
    exact congrArg Prod.fst (stripScan_plain (not_opensComment (by decide) b))
  rw [statements, hlex.stripComments_append hj, hb, splitStatements, hlex.segments_append,
    List.map_append, List.filter_append]
  rfl

end DBMesh.Routing
