import DBMesh.Routing.Lexing

/-!
# Passes that do not see comments

A pass over a text goes from state to state, one character at a time, and its outcome is read off
the state it ends in. Where a text has comments, `strip_comments` puts a blank in the place of each.
The outcome is the same with and without comments if every comment leaves the pass in the state in
which a blank would leave it. And if two states of the pass can be told apart by what follows, then
a comment for which that is not so can be followed by a text with another outcome.

This holds for a pass of any kind; the states and the outcomes are parameters.

## Main definitions

* `DBMesh.Routing.Comment` — a text that is one comment
* `DBMesh.Routing.CommentAt`, `comments` — the comments of a text with what stands around them
* `DBMesh.Routing.Blind` — every comment leaves the pass where a blank would

## Main results

* `DBMesh.Routing.result_stripScan_of_blind` — then the outcome is the same without comments
* `DBMesh.Routing.forall_result_comment_iff` — one more comment
-/

namespace DBMesh.Routing

instance (c : Char) (cs : List Char) : Decidable (OpensComment c cs) :=
  inferInstanceAs (Decidable (_ ∨ _))

/-! ### The text of a comment -/

/-- The characters that begin a comment. -/
def Opener (c : Char) : Prop := c = '#' ∨ c = '-' ∨ c = '/'

theorem OpensComment.opener {c : Char} {cs : List Char} (h : OpensComment c cs) : Opener c := by
  obtain h | h | h := h
  · exact .inl h
  · exact .inr (.inl h.1)
  · exact .inr (.inr h.1)

/-- The text of a comment that begins with `c`, where `rest` follows it. -/
def commentText (c : Char) (cs rest : List Char) : List Char :=
  (c :: cs).take ((c :: cs).length - rest.length)

/-- A text that is one comment. -/
def Comment (w : List Char) : Prop :=
  ∃ c cs, w = c :: cs ∧ OpensComment c cs ∧ afterComment c cs = some []

theorem commentText_append {c : Char} {cs rest : List Char} (h : afterComment c cs = some rest) :
    commentText c cs rest ++ rest = c :: cs := by
  obtain ⟨w, hw⟩ := (afterComment_suffix h).trans (List.suffix_cons c cs)
  have hlen : (c :: cs).length - rest.length = w.length := by
    rw [← hw, List.length_append]
    omega
  rw [commentText, hlen, ← hw, List.take_left]

theorem commentText_congr {c : Char} {cs rest : List Char} (hc : OpensComment c cs)
    (h : afterComment c cs = some rest) (y : List Char) :
    commentText c (cs ++ y) (rest ++ y) = commentText c cs rest := by
  refine (List.append_left_inj (rest ++ y)).mp ?_
  rw [commentText_append (afterComment_append hc h y), ← List.append_assoc, commentText_append h]
  rfl

theorem commentText_nil {c : Char} {cs : List Char} (h : afterComment c cs = some []) :
    commentText c cs [] = c :: cs := by
  have := commentText_append h
  rwa [List.append_nil] at this

/-- A comment that ends ends with a line end or a slash. -/
theorem commentText_eq_concat {c : Char} {cs rest : List Char}
    (h : afterComment c cs = some rest) :
    ∃ x d, commentText c cs rest = c :: (x ++ [d]) ∧ (d = '\n' ∨ d = '/') := by
  have htext := commentText_append h
  have hlast : ∃ x d, cs = x ++ d :: rest ∧ (d = '\n' ∨ d = '/') := by
    rw [afterComment] at h
    split_ifs at h
    · obtain ⟨body, hbody⟩ := exists_of_skipBlock h
      cases cs with
      | nil => exact absurd hbody (by simp)
      | cons e cs =>
        rw [List.tail_cons] at hbody
        exact ⟨e :: (body ++ ['*']), '/', by rw [hbody]; simp, .inr rfl⟩
    · obtain ⟨line, hline⟩ := exists_of_skipLine h
      exact ⟨line, '\n', hline, .inl rfl⟩
  obtain ⟨x, d, rfl, hd⟩ := hlast
  refine ⟨x, d, ?_, hd⟩
  refine (List.append_left_inj rest).mp (htext.trans ?_)
  simp

theorem Comment.eq_concat {w : List Char} (h : Comment w) :
    ∃ x d, w = x ++ [d] ∧ (d = '\n' ∨ d = '/') := by
  obtain ⟨c, cs, rfl, -, hrest⟩ := h
  obtain ⟨x, d, htext, hd⟩ := commentText_eq_concat hrest
  rw [commentText_nil hrest] at htext
  exact ⟨c :: x, d, htext, hd⟩

/-- A comment after a text that ends outside literals and comments is replaced by a blank. -/
theorem stripComments_comment {u out w : List Char} (hu : Lexes .normal u out .normal)
    (hw : Comment w) (hj : NoJoin u w) (v : List Char) :
    stripComments (u ++ w ++ v) = out ++ ' ' :: stripComments v := by
  obtain ⟨c, cs, rfl, hc, hrest⟩ := hw
  have hj' : NoJoin u (c :: (cs ++ v)) := hj
  rw [List.append_assoc, List.cons_append, hu.stripComments_append hj', stripComments,
    stripScan_comment (hc.append v) (afterComment_append hc hrest v)]
  rfl

/-! ### The comments of a text -/

/-- A comment of a text: what stands before it, its own text, and what follows it if it ends. -/
structure CommentAt where
  before : List Char
  text : List Char
  after : Option (List Char)
  deriving DecidableEq, Repr

/-- The comments that `strip_comments` finds from a state on, in a text with `u` before it. -/
def comments (u : List Char) (st : LexState) : List Char → List CommentAt
  | [] => []
  | c :: cs =>
    if st = .normal then
      if OpensComment c cs then
        match _h : afterComment c cs with
        | none => [⟨u, c :: cs, none⟩]
        | some rest =>
          ⟨u, commentText c cs rest, some rest⟩ ::
            comments (u ++ commentText c cs rest) .normal rest
      else comments (u ++ [c]) (opened c) cs
    else if c = '\\' ∧ st ≠ .btick then comments (u ++ (c :: cs).take 2) st cs.tail
    else if c = st.quote then comments (u ++ [c]) .normal cs
    else comments (u ++ [c]) st cs
termination_by s => s.length
decreasing_by
  all_goals try simp only [List.length_cons, List.length_tail]
  all_goals try omega
  exact length_of_afterComment _h

section

variable {u : List Char} {st : LexState} {c : Char} {cs rest : List Char}

theorem comments_nil : comments u st [] = [] := by rw [comments]

theorem comments_unclosed (hc : OpensComment c cs) (hrest : afterComment c cs = none) :
    comments u .normal (c :: cs) = [⟨u, c :: cs, none⟩] := by
  rw [comments, if_pos rfl, if_pos hc]
  split
  · rfl
  · next h => exact absurd (hrest.symm.trans h) (by simp)

theorem comments_comment (hc : OpensComment c cs) (hrest : afterComment c cs = some rest) :
    comments u .normal (c :: cs) =
      ⟨u, commentText c cs rest, some rest⟩ ::
        comments (u ++ commentText c cs rest) .normal rest := by
  rw [comments, if_pos rfl, if_pos hc]
  split
  · next h => exact absurd (hrest.symm.trans h) (by simp)
  · next rest' h =>
    obtain rfl := Option.some.inj (hrest.symm.trans h)
    rfl

theorem comments_plain (hc : ¬ OpensComment c cs) :
    comments u .normal (c :: cs) = comments (u ++ [c]) (opened c) cs := by
  rw [comments, if_pos rfl, if_neg hc]

theorem comments_escapeEnd (hn : st ≠ .normal) (hb : st ≠ .btick) :
    comments u st ['\\'] = [] := by
  rw [comments, if_neg hn, if_pos ⟨rfl, hb⟩]
  exact comments_nil

theorem comments_escape (hn : st ≠ .normal) (hb : st ≠ .btick) (n : Char) (cs : List Char) :
    comments u st ('\\' :: n :: cs) = comments (u ++ ['\\', n]) st cs := by
  rw [comments, if_neg hn, if_pos ⟨rfl, hb⟩]
  rfl

theorem comments_close (hn : st ≠ .normal) (cs : List Char) :
    comments u st (st.quote :: cs) = comments (u ++ [st.quote]) .normal cs := by
  rw [comments, if_neg hn, if_neg fun h => quote_ne_backslash hn h.1, if_pos rfl]

theorem comments_inside (hn : st ≠ .normal) (hq : c ≠ st.quote) (hb : c = '\\' → st = .btick)
    (cs : List Char) : comments u st (c :: cs) = comments (u ++ [c]) st cs := by
  rw [comments, if_neg hn, if_neg fun h => h.2 (hb h.1), if_neg hq]

/-- The comments of two texts, where the second begins outside literals and comments. -/
theorem comments_append {x out y : List Char} (h : Lexes st x out .normal) (hj : NoJoin x y) :
    comments u st (x ++ y) =
      (comments u st x).map (fun k => { k with after := k.after.map (· ++ y) }) ++
        comments (u ++ x) .normal y := by
  generalize hend : LexState.normal = st' at h
  induction h generalizing u with
  | @nil st =>
    subst hend
    rw [comments_nil, List.append_nil]
    rfl
  | @comment c cs rest out st' hc hrest _ ih =>
    have hsuf : rest <:+ c :: cs := (afterComment_suffix hrest).trans (List.suffix_cons c cs)
    have hu : u ++ commentText c cs rest ++ rest = u ++ c :: cs := by
      rw [List.append_assoc, commentText_append hrest]
    rw [List.cons_append, comments_comment (hc.append y) (afterComment_append hc hrest y),
      comments_comment hc hrest, commentText_congr hc hrest, ih (hj.of_suffix hsuf) hend, hu]
    rfl
  | @plain c cs out st' hc _ ih =>
    rw [List.cons_append, comments_plain (not_opensComment_append hc hj), comments_plain hc,
      ih (hj.of_suffix (List.suffix_cons c cs)) hend, List.append_assoc u]
    rfl
  | @escape st n cs out st' hn hb _ ih =>
    rw [List.cons_append, List.cons_append, comments_escape hn hb, comments_escape hn hb,
      ih (hj.of_suffix ⟨['\\', n], rfl⟩) hend, List.append_assoc u]
    rfl
  | escapeEnd hn _ => exact absurd hend.symm hn
  | @close st cs out st' hn _ ih =>
    rw [List.cons_append, comments_close hn, comments_close hn,
      ih (hj.of_suffix (List.suffix_cons _ cs)) hend, List.append_assoc u]
    rfl
  | @inside st c cs out st' hn hq hb _ ih =>
    rw [List.cons_append, comments_inside hn hq hb, comments_inside hn hq hb,
      ih (hj.of_suffix (List.suffix_cons c cs)) hend, List.append_assoc u]
    rfl

end

/-! ### Passes -/

section

variable {σ τ : Type} (step : σ → Char → σ) (result : σ → τ)

/-- The comment leaves the pass in the state in which a blank would. Of a comment that does not end
only the outcome matters. -/
def CommentAt.Unseen (p : σ) (k : CommentAt) : Prop :=
  let q := k.before.foldl step p
  if k.after.isSome then k.text.foldl step q = step q ' '
  else result (k.text.foldl step q) = result (step q ' ')

/-- Every comment of the text is unseen. -/
def Blind (p : σ) (s : List Char) : Prop := ∀ k ∈ comments [] .normal s, k.Unseen step result p

variable {step result} {p : σ} {st : LexState}

theorem result_stripScan_of_unseen {u s : List Char}
    (h : ∀ k ∈ comments u st s, k.Unseen step result p) :
    result (s.foldl step (u.foldl step p)) =
        result ((stripScan st s).1.foldl step (u.foldl step p)) ∧
      ((stripScan st s).2.isSome →
        s.foldl step (u.foldl step p) = (stripScan st s).1.foldl step (u.foldl step p)) := by
  have hone : ∀ (u : List Char) (c : Char), step (u.foldl step p) c = (u ++ [c]).foldl step p :=
    fun u c => (List.foldl_concat step p c u).symm
  induction st, s using scan_induct generalizing u with
  | nil st =>
    rw [stripScan]
    exact ⟨rfl, fun _ => rfl⟩
  | unclosed c cs hc hrest =>
    rw [comments_unclosed hc hrest, List.forall_mem_singleton] at h
    rw [stripScan_unclosed hc hrest]
    exact ⟨h, fun hsome => absurd hsome (by simp)⟩
  | comment c cs rest hc hrest ih =>
    rw [comments_comment hc hrest, List.forall_mem_cons] at h
    obtain ⟨hblank, h⟩ := h
    have hblank : (commentText c cs rest).foldl step (u.foldl step p) =
        step (u.foldl step p) ' ' := hblank
    have hrest' := ih h
    rw [List.foldl_append, hblank] at hrest'
    rw [stripScan_comment hc hrest, ← commentText_append hrest, List.foldl_append, hblank]
    exact hrest'
  | plain c cs hc ih =>
    rw [comments_plain hc] at h
    have hcs := ih h
    rw [← hone] at hcs
    rw [stripScan_plain hc]
    exact hcs
  | escapeEnd st hn hb =>
    rw [(Lexes.escapeEnd hn hb).stripScan_eq]
    exact ⟨rfl, fun _ => rfl⟩
  | escape st n cs hn hb ih =>
    rw [comments_escape hn hb] at h
    have hcs := ih h
    rw [List.foldl_append] at hcs
    rw [stripScan_escape hn hb]
    exact hcs
  | close st cs hn ih =>
    rw [comments_close hn] at h
    have hcs := ih h
    rw [← hone] at hcs
    rw [stripScan_close hn]
    exact hcs
  | inside st c cs hn hq hb ih =>
    rw [comments_inside hn hq hb] at h
    have hcs := ih h
    rw [← hone] at hcs
    rw [stripScan_inside hn hq hb]
    exact hcs

/-- **A pass that sees no comment comes out as without comments.** If the text does not end inside a
comment, it ends in the same state. -/
theorem result_stripScan_of_blind {s : List Char} (h : Blind step result p s) :
    result (s.foldl step p) = result ((stripComments s).foldl step p) ∧
      ((stripScan .normal s).2.isSome → s.foldl step p = (stripComments s).foldl step p) :=
  result_stripScan_of_unseen (u := []) h

theorem blind_append_comment {u out w : List Char} (hu : Lexes .normal u out .normal)
    (hw : Comment w) (hj : NoJoin u w) :
    Blind step result p (u ++ w) ↔ Blind step result p u ∧
      (u ++ w).foldl step p = step (u.foldl step p) ' ' := by
  obtain ⟨c, cs, rfl, hc, hrest⟩ := hw
  rw [Blind, comments_append hu hj, comments_comment hc hrest, commentText_nil hrest, comments_nil,
    List.forall_mem_append, List.forall_mem_map, List.forall_mem_singleton, List.foldl_append]
  refine and_congr (forall₂_congr fun k _ => ?_) Iff.rfl
  rw [CommentAt.Unseen, CommentAt.Unseen, Option.isSome_map]

/-- **One more comment.** After a text whose comments are not seen, a comment is not seen exactly if
the outcome is the same without comments for every text that may follow and has none, provided that
such texts tell apart the state after the comment and the state after a blank. -/
theorem forall_result_comment_iff (Follows : List Char → Prop) {s w : List Char}
    (hs : Blind step result p s) (hend : (stripScan .normal s).2 = some .normal)
    (hw : Comment w) (hj : NoJoin s w)
    (hsep : (∀ v, stripComments v = v → Follows v →
        result (v.foldl step ((s ++ w).foldl step p)) =
          result (v.foldl step (step (s.foldl step p) ' '))) →
      (s ++ w).foldl step p = step (s.foldl step p) ' ') :
    (∀ v, stripComments v = v → Follows v →
        result ((s ++ w ++ v).foldl step p) =
          result ((stripComments (s ++ w ++ v)).foldl step p)) ↔
      Blind step result p (s ++ w) := by
  have hlex := lexes_of_stripScan hend
  have hstate : s.foldl step p = (stripComments s).foldl step p := by
    refine (result_stripScan_of_blind hs).2 ?_
    rw [hend]
    rfl
  -- both sides are passes over `v`, from the state after the comment and from the one after a blank
  have hrun : ∀ v, stripComments v = v →
      (result ((s ++ w ++ v).foldl step p) =
          result ((stripComments (s ++ w ++ v)).foldl step p) ↔
        result (v.foldl step ((s ++ w).foldl step p)) =
          result (v.foldl step (step (s.foldl step p) ' '))) := by
    intro v hv
    have hblank : (stripComments (s ++ w ++ v)).foldl step p =
        v.foldl step (step (s.foldl step p) ' ') := by
      rw [stripComments_comment hlex hw hj, hv, List.foldl_append, hstate]
      rfl
    rw [hblank, List.foldl_append]
  rw [blind_append_comment hlex hw hj, and_iff_right hs]
  constructor
  · exact fun h => hsep fun v hv hf => (hrun v hv).mp (h v hv hf)
  · intro h v hv _
    rw [hrun v hv, h]

end

end DBMesh.Routing
