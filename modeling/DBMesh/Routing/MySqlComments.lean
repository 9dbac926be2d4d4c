import DBMesh.Routing.CommentBlind

/-!
# Comments of the server and comments of the proxy

`strip_comments` takes every `--` outside literals for the beginning of a comment. To the server it
is one only in front of whitespace, a control character or the end of the text, so that `2--1` is an
expression. And `/*! */` is no comment to the server at all: it executes what stands there. Where
the two differ, the proxy classifies a text of which the server executes more.

Both are scanners of the same kind, which differ only in what opens a comment. Each gives every
character of a text a mark, and what `strip_comments` puts out can be read off its marks.

## Main definitions

* `DBMesh.Routing.marks` — the marks of a text, for any openers of comments
* `DBMesh.Routing.MySqlOpens` — the server's openers
* `DBMesh.Routing.NoOddOpener` — the server finds no opener of the proxy's that is none of its own

## Main results

* `DBMesh.Routing.stripComments_eq_render` — the output of `strip_comments` from its marks
* `DBMesh.Routing.dropsOnlySkipped_iff` — when only comments of the server are dropped
-/

namespace DBMesh.Routing

/-- What a character is to a lexer: outside literals and comments, part of a literal, the first
character of a comment or a further one. -/
inductive Mark
  | plain
  | literal
  | opener
  | comment
  deriving DecidableEq, Repr

/-- The marks of the text of a comment. -/
def commentMarks (w : List Char) : List Mark := .opener :: List.replicate (w.length - 1) .comment

/-- The marks that a lexer gives to a text from a state on, where `opens` says what opens a comment.
A comment that nothing ends goes on to the end of the text. -/
def marks (opens : Char → List Char → Prop) [∀ c cs, Decidable (opens c cs)] (st : LexState) :
    List Char → List Mark
  | [] => []
  | c :: cs =>
    if st = .normal then
      if opens c cs then
        match _h : afterComment c cs with
        | none => commentMarks (c :: cs)
        | some rest => commentMarks (commentText c cs rest) ++ marks opens .normal rest
      else .plain :: marks opens (opened c) cs
    else if c = '\\' ∧ st ≠ .btick then
      ((c :: cs).take 2).map (fun _ => .literal) ++ marks opens st cs.tail
    else if c = st.quote then .literal :: marks opens .normal cs
    else .literal :: marks opens st cs
termination_by s => s.length
decreasing_by
  all_goals try simp only [List.length_cons, List.length_tail]
  all_goals try omega
  exact length_of_afterComment _h

/-- The text with a blank for each comment. -/
def render : List Char → List Mark → List Char
  | _ :: cs, .opener :: ms => ' ' :: render cs ms
  | _ :: cs, .comment :: ms => render cs ms
  | c :: cs, .plain :: ms => c :: render cs ms
  | c :: cs, .literal :: ms => c :: render cs ms
  | _, _ => []

/-- `std::iscntrl` -/
def isControl (c : Char) : Bool := c.toNat < 0x20 || c.toNat = 0x7F

/-- What opens a comment to the server: `#`, `--` in front of whitespace, a control character or the
end of the text, and `/*` unless a `!` follows. -/
def MySqlOpens (c : Char) (cs : List Char) : Prop :=
  c = '#' ∨
    (c = '-' ∧ cs.head? = some '-' ∧ cs.tail.head?.all fun d => isSpace d || isControl d) ∨
    (c = '/' ∧ cs.head? = some '*' ∧ cs.tail.head? ≠ some '!')

instance (c : Char) (cs : List Char) : Decidable (MySqlOpens c cs) :=
  inferInstanceAs (Decidable (_ ∨ _))

theorem MySqlOpens.opensComment {c : Char} {cs : List Char} (h : MySqlOpens c cs) :
    OpensComment c cs := by
  obtain hc | ⟨hc, hn, -⟩ | ⟨hc, hn, -⟩ := h
  · exact .inl hc
  · exact .inr (.inl ⟨hc, hn⟩)
  · exact .inr (.inr ⟨hc, hn⟩)

/-- The text is dropped at a position. -/
def DropsAt (ms : List Mark) (i : ℕ) : Prop := ms[i]? = some .opener ∨ ms[i]? = some .comment

instance (ms : List Mark) (i : ℕ) : Decidable (DropsAt ms i) :=
  inferInstanceAs (Decidable (_ ∨ _))

/-- The text begins with an opener of the proxy's that is none to the server. -/
def OddOpener : List Char → Prop
  | [] => False
  | c :: cs => OpensComment c cs ∧ ¬ MySqlOpens c cs

instance : DecidablePred OddOpener
  | [] => inferInstanceAs (Decidable False)
  | _ :: _ => inferInstanceAs (Decidable (_ ∧ ¬ _))

/-- Each character that `strip_comments` drops is part of a comment to the server. -/
def DropsOnlySkipped (s : List Char) : Prop :=
  ∀ i, DropsAt (marks OpensComment .normal s) i → DropsAt (marks MySqlOpens .normal s) i

/-- No opener of the proxy's that is none to the server stands where the server is outside literals
and comments. -/
def NoOddOpener (s : List Char) : Prop :=
  ∀ i, (marks MySqlOpens .normal s)[i]? = some .plain → ¬ OddOpener (s.drop i)

theorem noOddOpener_iff (s : List Char) : NoOddOpener s ↔ ∀ i < (marks MySqlOpens .normal s).length,
    (marks MySqlOpens .normal s)[i]? = some .plain → ¬ OddOpener (s.drop i) :=
  ⟨fun h i _ => h i, fun h i hi => h i (List.getElem?_eq_some_iff.mp hi).1 hi⟩

instance (s : List Char) : Decidable (NoOddOpener s) := decidable_of_iff' _ (noOddOpener_iff s)

/-! ### One step -/

section

variable {opens : Char → List Char → Prop} [∀ c cs, Decidable (opens c cs)] {st : LexState}
  {c : Char} {cs rest : List Char}

theorem marks_unclosed (hc : opens c cs) (hrest : afterComment c cs = none) :
    marks opens .normal (c :: cs) = commentMarks (c :: cs) := by
  rw [marks, if_pos rfl, if_pos hc]
  split
  · rfl
  · next h => exact absurd (hrest.symm.trans h) (by simp)

theorem marks_comment (hc : opens c cs) (hrest : afterComment c cs = some rest) :
    marks opens .normal (c :: cs) =
      commentMarks (commentText c cs rest) ++ marks opens .normal rest := by
  rw [marks, if_pos rfl, if_pos hc]
  split
  · next h => exact absurd (hrest.symm.trans h) (by simp)
  · next rest' h =>
    obtain rfl := Option.some.inj (hrest.symm.trans h)
    rfl

theorem marks_plain (hc : ¬ opens c cs) :
    marks opens .normal (c :: cs) = .plain :: marks opens (opened c) cs := by
  rw [marks, if_pos rfl, if_neg hc]

theorem marks_escapeEnd (hn : st ≠ .normal) (hb : st ≠ .btick) :
    marks opens st ['\\'] = [.literal] := by
  rw [marks, if_neg hn, if_pos ⟨rfl, hb⟩, List.tail_nil, marks]
  rfl

theorem marks_escape (hn : st ≠ .normal) (hb : st ≠ .btick) (n : Char) (cs : List Char) :
    marks opens st ('\\' :: n :: cs) = .literal :: .literal :: marks opens st cs := by
  rw [marks, if_neg hn, if_pos ⟨rfl, hb⟩]
  rfl

theorem marks_close (hn : st ≠ .normal) (cs : List Char) :
    marks opens st (st.quote :: cs) = .literal :: marks opens .normal cs := by
  rw [marks, if_neg hn, if_neg fun h => quote_ne_backslash hn h.1, if_pos rfl]

theorem marks_inside (hn : st ≠ .normal) (hq : c ≠ st.quote) (hb : c = '\\' → st = .btick)
    (cs : List Char) : marks opens st (c :: cs) = .literal :: marks opens st cs := by
  rw [marks, if_neg hn, if_neg fun h => h.2 (hb h.1), if_neg hq]

theorem commentText_ne_nil (hrest : afterComment c cs = some rest) :
    commentText c cs rest ≠ [] := by
  intro hnil
  have hlen := congrArg List.length (commentText_append hrest)
  have hlt := length_of_afterComment hrest
  rw [hnil, List.nil_append] at hlen
  omega

end

theorem length_commentMarks {w : List Char} (hw : w ≠ []) :
    (commentMarks w).length = w.length := by
  have := List.length_pos_iff.mpr hw
  rw [commentMarks, List.length_cons, List.length_replicate]
  omega

theorem plain_notMem_commentMarks (w : List Char) : Mark.plain ∉ commentMarks w := by
  rw [commentMarks, List.mem_cons, List.mem_replicate]
  rintro (h | ⟨-, h⟩) <;> exact absurd h (by decide)

/-! ### What is put out -/

theorem render_comments (w rest : List Char) (ms : List Mark) :
    render (w ++ rest) (List.replicate w.length .comment ++ ms) = render rest ms := by
  induction w with
  | nil => rfl
  | cons c w ih => exact ih

theorem render_commentMarks {w : List Char} (hw : w ≠ []) (rest : List Char) (ms : List Mark) :
    render (w ++ rest) (commentMarks w ++ ms) = ' ' :: render rest ms := by
  cases w with
  | nil => exact absurd rfl hw
  | cons c w => exact congrArg (' ' :: ·) (render_comments w rest ms)

theorem stripScan_eq_render (st : LexState) (s : List Char) :
    (stripScan st s).1 = render s (marks OpensComment st s) := by
  induction st, s using scan_induct with
  | nil st =>
    rw [stripScan, marks]
    rfl
  | unclosed c cs hc hrest =>
    have hrender := render_commentMarks (List.cons_ne_nil c cs) [] []
    rw [List.append_nil, List.append_nil] at hrender
    rw [stripScan_unclosed hc hrest, marks_unclosed hc hrest, hrender]
    rfl
  | comment c cs rest hc hrest ih =>
    rw [stripScan_comment hc hrest, marks_comment hc hrest]
    conv_rhs => rw [← commentText_append hrest]
    rw [render_commentMarks (commentText_ne_nil hrest), ← ih]
    rfl
  | plain c cs hc ih =>
    rw [stripScan_plain hc, marks_plain hc]
    exact congrArg (c :: ·) ih
  | escapeEnd st hn hb =>
    rw [(Lexes.escapeEnd hn hb).stripScan_eq, marks_escapeEnd hn hb]
    rfl
  | escape st n cs hn hb ih =>
    rw [stripScan_escape hn hb, marks_escape hn hb]
    exact congrArg ('\\' :: n :: ·) ih
  | close st cs hn ih =>
    rw [stripScan_close hn, marks_close hn]
    exact congrArg (st.quote :: ·) ih
  | inside st c cs hn hq hb ih =>
    rw [stripScan_inside hn hq hb, marks_inside hn hq hb]
    exact congrArg (c :: ·) ih

/-- **The output of `strip_comments` from its marks.** -/
theorem stripComments_eq_render (s : List Char) :
    stripComments s = render s (marks OpensComment .normal s) := stripScan_eq_render .normal s

/-! ### Where the two lexers differ -/

/-- The marks of a text by the proxy, `ms`, and by the server, `ms'`: what the proxy drops is
skipped by the server exactly if the server finds no odd opener, and then all marks are the same. -/
structure LexAgree (ms ms' : List Mark) (s : List Char) : Prop where
  drops_iff : (∀ i, DropsAt ms i → DropsAt ms' i) ↔
    ∀ i, ms'[i]? = some .plain → ¬ OddOpener (s.drop i)
  marks_eq : (∀ i, ms'[i]? = some .plain → ¬ OddOpener (s.drop i)) → ms = ms'

/-- Positions behind a common beginning. -/
theorem dropsOnly_append (front ms ms' : List Mark) :
    (∀ i, DropsAt (front ++ ms) i → DropsAt (front ++ ms') i) ↔
      ∀ i, DropsAt ms i → DropsAt ms' i := by
  constructor
  · intro h i hi
    have := h (front.length + i)
    simp only [DropsAt, List.getElem?_append_right (Nat.le_add_right _ _),
      Nat.add_sub_cancel_left] at this
    exact this hi
  · intro h i hi
    by_cases hlt : i < front.length
    · rw [DropsAt, List.getElem?_append_left hlt] at hi ⊢
      exact hi
    · rw [DropsAt, List.getElem?_append_right (Nat.le_of_not_lt hlt)] at hi ⊢
      exact h _ hi

/-- Openers behind a beginning in which the server is inside literals and comments. -/
theorem noOdd_append {front : List Mark} {w : List Char} (hlen : front.length = w.length)
    (hfront : Mark.plain ∉ front) (ms : List Mark) (rest : List Char) :
    (∀ i, (front ++ ms)[i]? = some .plain → ¬ OddOpener ((w ++ rest).drop i)) ↔
      ∀ i, ms[i]? = some .plain → ¬ OddOpener (rest.drop i) := by
  constructor
  · intro h i hi
    have := h (front.length + i)
    rw [List.getElem?_append_right (Nat.le_add_right _ _), Nat.add_sub_cancel_left, hlen,
      ← List.drop_drop, List.drop_left] at this
    exact this hi
  · intro h i hi
    by_cases hlt : i < front.length
    · rw [List.getElem?_append_left hlt] at hi
      exact absurd (List.mem_of_getElem? hi) hfront
    · have hle := Nat.le_of_not_lt hlt
      rw [List.getElem?_append_right hle] at hi
      rw [List.drop_append, List.drop_eq_nil_of_le (hlen ▸ hle), ← hlen]
      exact h _ hi

theorem noOdd_plain (c : Char) (cs : List Char) (ms : List Mark) :
    (∀ i, (Mark.plain :: ms)[i]? = some .plain → ¬ OddOpener ((c :: cs).drop i)) ↔
      ¬ OddOpener (c :: cs) ∧ ∀ i, ms[i]? = some .plain → ¬ OddOpener (cs.drop i) := by
  constructor
  · exact fun h => ⟨h 0 rfl, fun i hi => h (i + 1) hi⟩
  · rintro ⟨hhead, htail⟩ i hi
    cases i with
    | zero => exact hhead
    | succ i => exact htail i hi

namespace LexAgree

variable {ms ms' : List Mark} {rest : List Char}

/-- What both give the same marks, none of them plain, may stand in front. -/
theorem append (h : LexAgree ms ms' rest) (front : List Mark) (w : List Char)
    (hlen : front.length = w.length) (hfront : Mark.plain ∉ front) :
    LexAgree (front ++ ms) (front ++ ms') (w ++ rest) where
  drops_iff := by
    rw [dropsOnly_append, noOdd_append hlen hfront]
    exact h.drops_iff
  marks_eq := by
    rw [noOdd_append hlen hfront]
    exact fun hodd => congrArg _ (h.marks_eq hodd)

theorem plain (h : LexAgree ms ms' rest) {c : Char} (hc : ¬ OddOpener (c :: rest)) :
    LexAgree (.plain :: ms) (.plain :: ms') (c :: rest) where
  drops_iff := by
    rw [noOdd_plain, and_iff_right hc]
    exact (dropsOnly_append [.plain] ms ms').trans h.drops_iff
  marks_eq := by
    rw [noOdd_plain, and_iff_right hc]
    exact fun hodd => congrArg _ (h.marks_eq hodd)

/-- The first difference: the server does not skip what the proxy drops. -/
theorem odd {c : Char} (hc : OddOpener (c :: rest)) (hms : DropsAt ms 0) :
    LexAgree ms (.plain :: ms') (c :: rest) where
  drops_iff := by
    rw [noOdd_plain]
    refine iff_of_false (fun h => ?_) fun h => h.1 hc
    obtain hm | hm := h 0 hms
    · exact absurd hm (by simp)
    · exact absurd hm (by simp)
  marks_eq := by
    rw [noOdd_plain]
    exact fun h => absurd hc h.1

theorem nil : LexAgree [] [] [] where
  drops_iff := iff_of_true (fun _ hi => hi) fun _ hi => absurd hi (by simp)
  marks_eq _ := rfl

end LexAgree

theorem dropsAt_zero_marks {c : Char} {cs : List Char} (hc : OpensComment c cs) :
    DropsAt (marks OpensComment .normal (c :: cs)) 0 := by
  cases hrest : afterComment c cs with
  | none =>
    rw [marks_unclosed hc hrest]
    exact .inl rfl
  | some rest =>
    rw [marks_comment hc hrest]
    exact .inl rfl

/-- **The two lexers part at the first odd opener.** -/
theorem lexAgree (st : LexState) (s : List Char) :
    LexAgree (marks OpensComment st s) (marks MySqlOpens st s) s := by
  induction st, s using @scan_induct_of MySqlOpens with
  | nil st =>
    rw [marks, marks]
    exact .nil
  | unclosed c cs hc hrest =>
    rw [marks_unclosed hc hrest, marks_unclosed hc.opensComment hrest]
    have h := LexAgree.nil.append (commentMarks (c :: cs)) (c :: cs)
      (length_commentMarks (List.cons_ne_nil c cs)) (plain_notMem_commentMarks _)
    rwa [List.append_nil, List.append_nil] at h
  | comment c cs rest hc hrest ih =>
    rw [marks_comment hc hrest, marks_comment hc.opensComment hrest]
    have h := ih.append (commentMarks (commentText c cs rest)) (commentText c cs rest)
      (length_commentMarks (commentText_ne_nil hrest)) (plain_notMem_commentMarks _)
    rwa [commentText_append hrest] at h
  | plain c cs hc ih =>
    rw [marks_plain hc]
    by_cases hopens : OpensComment c cs
    · exact .odd ⟨hopens, hc⟩ (dropsAt_zero_marks hopens)
    · rw [marks_plain hopens]
      exact ih.plain fun h => hopens h.1
  | escapeEnd st hn hb =>
    rw [marks_escapeEnd hn hb, marks_escapeEnd hn hb]
    exact LexAgree.nil.append [.literal] ['\\'] rfl (by decide)
  | escape st n cs hn hb ih =>
    rw [marks_escape hn hb, marks_escape hn hb]
    exact ih.append [.literal, .literal] ['\\', n] rfl (by decide)
  | close st cs hn ih =>
    rw [marks_close hn, marks_close hn]
    exact ih.append [.literal] [st.quote] rfl (by decide)
  | inside st c cs hn hq hb ih =>
    rw [marks_inside hn hq hb, marks_inside hn hq hb]
    exact ih.append [.literal] [c] rfl (by decide)

/-- **When only comments of the server are dropped.** Each character that `strip_comments` replaces
is part of a comment to the server exactly if no `--` that is not followed by whitespace, a control
character or the end of the text and no `/*!` stands where the server is outside literals and
comments. Then what is left for the classifier is the text that the server executes. -/
theorem dropsOnlySkipped_iff (s : List Char) :
    (DropsOnlySkipped s ↔ NoOddOpener s) ∧
      stripComments s = render s (marks OpensComment .normal s) ∧
      (NoOddOpener s → stripComments s = render s (marks MySqlOpens .normal s)) := by
  refine ⟨(lexAgree .normal s).drops_iff, stripComments_eq_render s, fun h => ?_⟩
  rw [stripComments_eq_render, (lexAgree .normal s).marks_eq h]

/-- Ordinary comments are comments to both. -/
theorem dropsOnlySkipped_hint :
    DropsOnlySkipped "SELECT '--x' -- it's\n/* # */ # y".toList :=
  (dropsOnlySkipped_iff "SELECT '--x' -- it's\n/* # */ # y".toList).1.mpr (by decide +kernel)

/-- The rest of the line after an expression, with the keyword of the statement, is dropped. -/
theorem drops_arithmetic :
    ¬ DropsOnlySkipped "WITH c AS (SELECT 2--1) DELETE FROM t".toList ∧
      classify "WITH c AS (SELECT 2--1) DELETE FROM t".toList = .select ∧
      (splitStatements (render "WITH c AS (SELECT 2--1) DELETE FROM t".toList
        (marks MySqlOpens .normal "WITH c AS (SELECT 2--1) DELETE FROM t".toList))).map
          classifyOne = [.delete] := by
  refine ⟨fun h => ?_, by decide +kernel, by decide +kernel⟩
  exact absurd (h 19 (by decide +kernel)) (by decide +kernel)

end DBMesh.Routing
