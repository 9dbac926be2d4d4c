import DBMesh.Routing.Lexing

/-!
# Comment removal keeps everything else

`strip_comments` puts a blank in the place of each comment, so what stands before a comment and what
stands behind it are not joined: there is nothing to remove from a text without its comments. A text
that has no comment opener outside its quoted literals comes out as it is.

What is outside a literal is said here without the scanner, by reading the text from its beginning:
a backslash escapes the next character except in backticks, and a doubled quote stands for itself.

## Main definitions

* `DBMesh.Routing.Quoting` — where a text stands with respect to its quoted literals
* `DBMesh.Routing.CommentFree` — no comment opener outside quoted literals

## Main results

* `DBMesh.Routing.stripScan_stripScan` — removing comments twice
* `DBMesh.Routing.stripComments_of_commentFree` — a text without comments
-/

namespace DBMesh.Routing

/-! ### Removing comments twice -/

/-- The output begins as the text does, or with a blank. -/
theorem head?_stripScan (st : LexState) (s : List Char) :
    (stripScan st s).1.head? = s.head? ∨ (stripScan st s).1.head? = some ' ' := by
  induction st, s using scan_induct with
  | nil st =>
    rw [stripScan]
    exact .inl rfl
  | unclosed c cs hc hrest =>
    rw [stripScan_unclosed hc hrest]
    exact .inr rfl
  | comment c cs rest hc hrest _ =>
    rw [stripScan_comment hc hrest]
    exact .inr rfl
  | plain c cs hc _ =>
    rw [stripScan_plain hc]
    exact .inl rfl
  | escapeEnd st hn hb =>
    rw [(Lexes.escapeEnd hn hb).stripScan_eq]
    exact .inl rfl
  | escape st n cs hn hb _ =>
    rw [stripScan_escape hn hb]
    exact .inl rfl
  | close st cs hn _ =>
    rw [stripScan_close hn]
    exact .inl rfl
  | inside st c cs hn hq hb _ =>
    rw [stripScan_inside hn hq hb]
    exact .inl rfl

/-- No comment opener comes about. -/
theorem not_opensComment_stripScan {c : Char} {cs : List Char} (h : ¬ OpensComment c cs)
    (st : LexState) : ¬ OpensComment c (stripScan st cs).1 := by
  obtain hhead | hhead := head?_stripScan st cs
  · rwa [OpensComment, hhead]
  · rintro (hc | ⟨-, hn⟩ | ⟨-, hn⟩)
    · exact h (.inl hc)
    · exact absurd (hhead.symm.trans hn) (by decide)
    · exact absurd (hhead.symm.trans hn) (by decide)

theorem stripScan_blank (s : List Char) :
    stripScan .normal (' ' :: s) = emit [' '] (stripScan .normal s) :=
  stripScan_plain (not_opensComment (by decide) s)

/-- **Nothing is left to remove** of what the scanner gives, whatever the text. -/
theorem stripScan_stripScan (st : LexState) (s : List Char) :
    (stripScan st (stripScan st s).1).1 = (stripScan st s).1 := by
  induction st, s using scan_induct with
  | nil st =>
    rw [stripScan, stripScan]
  | unclosed c cs hc hrest =>
    rw [stripScan_unclosed hc hrest, stripScan_blank, stripScan]
    rfl
  | comment c cs rest hc hrest ih =>
    rw [stripScan_comment hc hrest]
    show (stripScan .normal (' ' :: (stripScan .normal rest).1)).1 = _
    rw [stripScan_blank]
    exact congrArg (' ' :: ·) ih
  | plain c cs hc ih =>
    rw [stripScan_plain hc]
    show (stripScan .normal (c :: (stripScan (opened c) cs).1)).1 = _
    rw [stripScan_plain (not_opensComment_stripScan hc _)]
    exact congrArg (c :: ·) ih
  | escapeEnd st hn hb =>
    rw [(Lexes.escapeEnd hn hb).stripScan_eq, (Lexes.escapeEnd hn hb).stripScan_eq]
  | escape st n cs hn hb ih =>
    rw [stripScan_escape hn hb]
    show (stripScan st ('\\' :: n :: (stripScan st cs).1)).1 = _
    rw [stripScan_escape hn hb]
    exact congrArg ('\\' :: n :: ·) ih
  | close st cs hn ih =>
    rw [stripScan_close hn]
    show (stripScan st (st.quote :: (stripScan .normal cs).1)).1 = _
    rw [stripScan_close hn]
    exact congrArg (st.quote :: ·) ih
  | inside st c cs hn hq hb ih =>
    rw [stripScan_inside hn hq hb]
    show (stripScan st (c :: (stripScan st cs).1)).1 = _
    rw [stripScan_inside hn hq hb]
    exact congrArg (c :: ·) ih

/-! ### Quoted literals -/

/-- Where a text stands: outside literals, inside one, behind a backslash inside one, or behind a
quote that closes one unless it is doubled. -/
inductive Quoting
  | outside
  | inside (st : LexState)
  | escaped (st : LexState)
  | quote (st : LexState)
  deriving DecidableEq, Repr

namespace Quoting

def fromOutside (c : Char) : Quoting :=
  if opened c = .normal then .outside else .inside (opened c)

def step : Quoting → Char → Quoting
  | .outside, c => fromOutside c
  | .inside st, c =>
    if c = '\\' ∧ st ≠ .btick then .escaped st else if c = st.quote then .quote st else .inside st
  | .escaped st, _ => .inside st
  | .quote st, c => if c = st.quote then .inside st else fromOutside c

/-- The next character stands outside literals; a quote that doubles the one before it does not. -/
def Outside : Quoting → Option Char → Prop
  | .outside, _ => True
  | .quote st, c => c ≠ some st.quote
  | _, _ => False

instance (q : Quoting) (c : Option Char) : Decidable (q.Outside c) :=
  match q with
  | .outside => inferInstanceAs (Decidable True)
  | .quote st => inferInstanceAs (Decidable (c ≠ some st.quote))
  | .inside _ => inferInstanceAs (Decidable False)
  | .escaped _ => inferInstanceAs (Decidable False)

end Quoting

/-- A comment opener stands at the beginning. -/
def OpenerAt (s : List Char) : Prop := ['-', '-'] <+: s ∨ ['#'] <+: s ∨ ['/', '*'] <+: s

instance (s : List Char) : Decidable (OpenerAt s) := inferInstanceAs (Decidable (_ ∨ _))

/-- No comment opener outside literals, in a text that goes on from `q`. -/
def commentFreeFrom (q : Quoting) (s : List Char) : Prop :=
  ∀ i < s.length, ((s.take i).foldl Quoting.step q).Outside s[i]? → ¬ OpenerAt (s.drop i)

def CommentFree (s : List Char) : Prop := commentFreeFrom .outside s

instance (s : List Char) : Decidable (CommentFree s) :=
  inferInstanceAs (Decidable (∀ i < s.length, _ → _))

theorem commentFreeFrom.tail {q : Quoting} {c : Char} {cs : List Char}
    (h : commentFreeFrom q (c :: cs)) : commentFreeFrom (q.step c) cs :=
  fun i hi hout => h (i + 1) (Nat.succ_lt_succ hi) hout

theorem openerAt_of_opensComment {c : Char} {cs : List Char} (h : OpensComment c cs) :
    OpenerAt (c :: cs) := by
  obtain rfl | ⟨rfl, hn⟩ | ⟨rfl, hn⟩ := h
  · exact .inr (.inl ⟨cs, rfl⟩)
  · obtain ⟨t, rfl⟩ := List.head?_eq_some_iff.mp hn
    exact .inl ⟨t, rfl⟩
  · obtain ⟨t, rfl⟩ := List.head?_eq_some_iff.mp hn
    exact .inr (.inr ⟨t, rfl⟩)

/-- The scanner is in the state `st` where the text stands at `q`. Behind a quote it is outside
already; if the quote is doubled, it goes in again. -/
def Quoting.Matches : Quoting → LexState → Prop
  | .outside, st => st = .normal
  | .inside st', st => st = st' ∧ st' ≠ .normal
  | .quote st', st => st = .normal ∧ st' ≠ .normal
  | .escaped _, _ => False

theorem Quoting.matches_fromOutside (c : Char) : (fromOutside c).Matches (opened c) := by
  rw [fromOutside]
  split
  · next h => exact h
  · next h => exact ⟨rfl, h⟩

/-- Outside literals a character leads both to the same state. -/
theorem Quoting.Matches.step_normal {q : Quoting} (h : q.Matches .normal) (c : Char) :
    (q.step c).Matches (opened c) := by
  cases q with
  | outside => exact matches_fromOutside c
  | inside st => exact absurd h.1.symm h.2
  | escaped st => exact h.elim
  | quote st =>
    rw [step]
    split
    · next hc => exact ⟨hc ▸ opened_quote h.2, h.2⟩
    · exact matches_fromOutside c

theorem Quoting.Matches.eq_inside {q : Quoting} {st : LexState} (h : q.Matches st)
    (hn : st ≠ .normal) : q = .inside st := by
  cases q with
  | outside => exact absurd h hn
  | inside st' => rw [h.1]
  | escaped st' => exact h.elim
  | quote st' => exact absurd h.1 hn

/-- A character that opens a comment stands outside literals. -/
theorem Quoting.Matches.outside {q : Quoting} {c : Char} {cs : List Char} (h : q.Matches .normal)
    (hc : OpensComment c cs) : q.Outside (some c) := by
  cases q with
  | outside => trivial
  | inside st => exact absurd h.1.symm h.2
  | escaped st => exact h.elim
  | quote st =>
    intro heq
    rw [Option.some.inj heq] at hc
    exact not_opensComment_quote h.2 cs hc

theorem stripScan_of_commentFreeFrom (st : LexState) (s : List Char) {q : Quoting}
    (hq : q.Matches st) (h : commentFreeFrom q s) : (stripScan st s).1 = s := by
  induction st, s using scan_induct generalizing q with
  | nil st => rw [stripScan]
  | unclosed c cs hc _ =>
    exact absurd (openerAt_of_opensComment hc) (h 0 (Nat.succ_pos _) (hq.outside hc))
  | comment c cs rest hc _ _ =>
    exact absurd (openerAt_of_opensComment hc) (h 0 (Nat.succ_pos _) (hq.outside hc))
  | plain c cs hc ih =>
    rw [stripScan_plain hc]
    exact congrArg (c :: ·) (ih (hq.step_normal c) h.tail)
  | escapeEnd st hn hb => rw [(Lexes.escapeEnd hn hb).stripScan_eq]
  | escape st n cs hn hb ih =>
    obtain rfl := hq.eq_inside hn
    have hstep : ((Quoting.inside st).step '\\').step n = .inside st := by
      rw [Quoting.step, if_pos ⟨rfl, hb⟩]
      rfl
    have htail := h.tail.tail
    rw [hstep] at htail
    rw [stripScan_escape hn hb]
    exact congrArg ('\\' :: n :: ·) (ih (q := .inside st) ⟨rfl, hn⟩ htail)
  | close st cs hn ih =>
    obtain rfl := hq.eq_inside hn
    have hstep : (Quoting.inside st).step st.quote = .quote st := by
      rw [Quoting.step, if_neg fun h => quote_ne_backslash hn h.1, if_pos rfl]
    have htail := h.tail
    rw [hstep] at htail
    rw [stripScan_close hn]
    exact congrArg (st.quote :: ·) (ih (q := .quote st) ⟨rfl, hn⟩ htail)
  | inside st c cs hn hc hb ih =>
    obtain rfl := hq.eq_inside hn
    have hstep : (Quoting.inside st).step c = .inside st := by
      rw [Quoting.step, if_neg fun h => h.2 (hb h.1), if_neg hc]
    have htail := h.tail
    rw [hstep] at htail
    rw [stripScan_inside hn hc hb]
    exact congrArg (c :: ·) (ih (q := .inside st) ⟨rfl, hn⟩ htail)

/-- **A text without comments is kept**, whatever its literals hold. -/
theorem stripComments_of_commentFree {s : List Char} (h : CommentFree s) : stripComments s = s :=
  stripScan_of_commentFreeFrom .normal s (q := .outside) rfl h

/-- **Comment removal keeps everything else.** It does nothing the second time, a text is classified
as it is without its comments, and a text with no comment opener outside its quoted literals is left
as it is. -/
theorem stripComments_preserves (s : List Char) :
    stripComments (stripComments s) = stripComments s ∧ classify (stripComments s) = classify s ∧
      (CommentFree s → stripComments s = s) := by
  have hidem : stripComments (stripComments s) = stripComments s := stripScan_stripScan .normal s
  refine ⟨hidem, ?_, stripComments_of_commentFree⟩
  rw [classify, classify, statements, hidem]
  rfl

/-- Openers inside literals of all three kinds, with escapes. -/
theorem stripComments_preserves_literals :
    CommentFree "SELECT '-- \\'/*', \"#\"\"--\", \x60/*\x60 - 1".toList ∧
      stripComments "SELECT '-- \\'/*', \"#\"\"--\", \x60/*\x60 - 1".toList =
        "SELECT '-- \\'/*', \"#\"\"--\", \x60/*\x60 - 1".toList :=
  ⟨by decide +kernel, (stripComments_preserves _).2.2 (by decide +kernel)⟩

end DBMesh.Routing
