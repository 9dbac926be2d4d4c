import DBMesh.Routing.CommentBlind
import DBMesh.Routing.SchemaText

/-!
# Comments and the schema

`RoutingEngine::plan` classifies a text without its comments, but the schema extractor reads the
text with them. A keyword, a qualified name or an apostrophe in a comment, or a comment in the
middle of a qualified name, so changes the schema that is found.

The schema is the same as without comments where none of this happens. The two scans then stand at
the same place, except that a comment behind a keyword, a name or a dot takes the one over the text
out of the name, which makes no difference where the name does not go on.

## Scope

The condition is on the text and looks at one comment at a time. It is sufficient for every text,
and it is free of the comments behind a schema that has been found. A text can break it and have the
same schema all the same: a comment may have two apostrophes, or a keyword that nothing follows. To
leave these out a condition would have to read the comment as the scan does. What is exact in these
terms is said for a single comment: it does not matter, whatever follows, exactly if it leaves the
scan at the place at which a blank leaves it.

## Main definitions

* `DBMesh.Routing.CommentAt.Harmless`, `CommentsApart` — no comment is read as part of the statement

## Main results

* `DBMesh.Routing.extract_stripComments` — when comments do not matter
* `DBMesh.Routing.Place.decode_run` — the places after a comment can be told apart
* `DBMesh.Routing.extract_comment_iff` — when a further comment does not matter
-/

namespace DBMesh.Routing

open Place

/-! ### Comments that are not read as part of the statement -/

/-- Whitespace and comments, and then a character of `P`. -/
inductive Begins (P : Char → Prop) : List Char → Prop
  | here {c : Char} {s : List Char} (hc : P c) : Begins P (c :: s)
  | space {c : Char} {s : List Char} (hc : isSpace c = true) (h : Begins P s) : Begins P (c :: s)
  | comment {c : Char} {cs rest : List Char} (hc : OpensComment c cs)
    (hrest : afterComment c cs = some rest) (h : Begins P rest) : Begins P (c :: cs)

abbrev BeginsName : List Char → Prop := Begins fun c => isIdent c = true ∨ NameQuote c

abbrev BeginsDot : List Char → Prop := Begins (· = '.')

/-- The comment is not read as part of the statement. -/
structure CommentAt.Harmless (k : CommentAt) : Prop where
  not_inName : ¬ InName k.before
  /-- A comment that does not end holds no keyword with a qualified name behind it. -/
  unclosed : k.after = none → ∀ a w b, k.text = a ++ (w ++ b) → KeywordAt a w b → ¬ Qualified b
  keywordFree : k.after ≠ none → KeywordFree k.text
  no_apostrophe : k.after ≠ none → '\'' ∉ k.text
  /-- It does not stand between a keyword or a dot and a name. -/
  before_name : ∀ v ∈ k.after, AfterKeyword k.before ∨ AfterDot k.before → ¬ BeginsName v
  /-- It does not stand between a name behind a keyword and a dot. -/
  before_dot : ∀ v ∈ k.after, AfterName k.before → ¬ BeginsDot v

/-- No comment of the text is read as part of the statement. -/
def CommentsApart (s : List Char) : Prop := ∀ k ∈ comments [] .normal s, k.Harmless

theorem Begins.of_head {P : Char → Prop} {c : Char} {s : List Char} (h : Begins P (c :: s))
    (hs : isSpace c = false) (hc : ¬ OpensComment c s) : P c := by
  cases h with
  | here hP => exact hP
  | space hc' _ => exact absurd (hs.symm.trans hc') (by decide)
  | comment hc' _ _ => exact absurd hc' hc

/-! ### A comment and a blank -/

/-- Where the first character of a comment behind `u` leads to, and where a blank does. -/
inductive AtComment (u : List Char) : Place → Place → Prop
  | gap : AtComment u .gap .gap
  | literal : AtComment u .literal .literal
  | found {n : SchemaName} : AtComment u (.found n) (.found n)
  | name (h : AfterKeyword u) : AtComment u .gap .name
  | dot {n : SchemaName} (h : AfterName u) : AtComment u .gap (.dot n)
  | table {n : SchemaName} (h : AfterDot u) : AtComment u .gap (.table n)

theorem atComment {u : List Char} (hu : ¬ InName u) {c : Char} (hc : Opener c) :
    AtComment u ((gap.run u).step c) ((gap.run u).step ' ') := by
  have hplain : isIdent c = false ∧ isSpace c = false ∧ c ≠ '\'' ∧ c ≠ '\\' ∧ c ≠ '.' ∧
      ¬ (c = '\x60' ∨ c = '"') := by
    obtain rfl | rfl | rfl := hc <;> decide
  obtain ⟨hi, hs, hquote, hescape, hdot, hname⟩ := hplain
  have hgap : fromGap c = gap := by simp [fromGap, hquote, hi]
  have hfromName : fromName c = gap := by simp [fromName, hs, hname, hi, hgap]
  have hfromDot : ∀ n, fromDot n c = gap := fun n => by simp [fromDot, hs, hdot, hgap]
  have hquotes : ∀ {q d : Char}, NameQuote q → d = q → d = '\x60' ∨ d = '"' := by
    rintro q d hq rfl
    exact hq
  have hbehind := behind_run u
  generalize gap.run u = p at hbehind
  cases p with
  | gap =>
    rw [step, hgap]
    exact .gap
  | word w =>
    obtain ⟨a, x, rfl, ha, hend, ⟨-, hx⟩, rfl⟩ := hbehind
    have hspace : isSpace ' ' = true := by decide
    rw [step_word_of_isSpace _ hspace, step, hi, if_neg Bool.false_ne_true, hfromName, hgap,
      ite_self]
    split_ifs with hkw
    · exact .name ⟨ha.word hx, a, x, [], by simp, hend, hkw, blank_nil⟩
    · exact .gap
  | literal =>
    rw [step, if_neg hescape, if_neg hquote]
    exact .literal
  | escape => exact .literal
  | name =>
    rw [step, hfromName]
    exact .name hbehind.1
  | bare n =>
    obtain ⟨-, k, rfl, hk, hend, hn⟩ := hbehind
    rw [step, hi, if_neg Bool.false_ne_true, hfromDot]
    refine .dot ⟨k, .bare, n, [], ?_, hk, fun _ => hend, hn, blank_nil⟩
    rw [List.append_nil]
    rfl
  | quoted q n =>
    obtain ⟨k, rfl, hk, hq⟩ := hbehind
    exact absurd ⟨k, q, n, rfl, hk, hq⟩ hu
  | closing q n =>
    obtain ⟨k, rfl, hk, hq⟩ := hbehind
    rw [step, if_neg fun h => hname (hquotes hq h), hgap, hfromDot, ite_self, step,
      if_neg fun h => absurd (hquotes hq h) (by decide)]
    split_ifs with hn
    · exact .gap
    · refine .dot ⟨k, .quoted q, n, [], ?_, hk, ?_, ⟨hq, hn⟩, blank_nil⟩
      · rw [List.append_nil]
      · exact fun h => absurd h (by simp)
  | dot n =>
    rw [step, hfromDot]
    exact .dot hbehind.1
  | table n =>
    rw [step, hs, if_neg Bool.false_ne_true, if_neg hname, hi, if_neg Bool.false_ne_true, hgap]
    exact .table hbehind.1
  | tableQuoted q n =>
    rw [step, if_neg fun h => hname (hquotes hbehind.2 h), step,
      if_neg fun h => absurd (hquotes hbehind.2 h) (by decide)]
    exact .found
  | tableClosing q n =>
    rw [step, if_neg fun h => hname (hquotes hbehind.2.2 h), hgap, step,
      if_neg fun h => absurd (hquotes hbehind.2.2 h) (by decide)]
    exact .gap
  | found n => exact .found

/-! ### The text of a comment -/

theorem run_literal_of_no_apostrophe {w : List Char} (h : '\'' ∉ w) {d : Char} (hd : d ≠ '\\')
    (hquote : d ≠ '\'') : literal.run (w ++ [d]) = literal := by
  have hboth : literal.run w = literal ∨ literal.run w = escape := by
    induction w using List.reverseRecOn with
    | nil => exact .inl rfl
    | append_singleton w c ih =>
      rw [List.mem_append, not_or, List.mem_singleton] at h
      rw [run_concat]
      obtain hrun | hrun := ih h.1
      · rw [hrun, step]
        split_ifs with _ hc
        · exact .inr rfl
        · exact absurd hc.symm h.2
        · exact .inl rfl
      · exact .inl (by rw [hrun]; rfl)
  rw [run_concat]
  obtain hrun | hrun := hboth
  · rw [hrun, step, if_neg hd, if_neg hquote]
  · rw [hrun]
    rfl

/-- The places at which a name is due, and what follows has none. -/
inductive Masked : Place → List Char → Prop
  | name {s : List Char} (h : ¬ BeginsName s) : Masked .name s
  | dot {n : SchemaName} {s : List Char} (h : ¬ BeginsDot s) : Masked (.dot n) s
  | table {n : SchemaName} {s : List Char} (h : ¬ BeginsName s) : Masked (.table n) s

/-- A comment that ends leaves the scan where a blank would, or takes it out of a name that does not
go on. -/
theorem run_harmless {u : List Char} {c : Char} {cs rest : List Char} (hc : OpensComment c cs)
    (hrest : afterComment c cs = some rest)
    (h : CommentAt.Harmless ⟨u, commentText c cs rest, some rest⟩) :
    gap.run (u ++ commentText c cs rest) = (gap.run u).step ' ' ∨
      gap.run (u ++ commentText c cs rest) = gap ∧ Masked ((gap.run u).step ' ') rest := by
  have hfree := h.keywordFree (by simp)
  have hquote := h.no_apostrophe (by simp)
  have hname := h.before_name rest rfl
  have hdot := h.before_dot rest rfl
  obtain ⟨x, d, htext, hd⟩ := commentText_eq_concat hrest
  dsimp only at hfree hquote hname hdot
  rw [htext] at hfree hquote ⊢
  have hplain : isIdent d = false ∧ d ≠ '\\' ∧ d ≠ '\'' := by
    obtain rfl | rfl := hd <;> decide
  have hgap : gap.run (x ++ [d]) = gap := by
    have hrun := run_gap_eq_gap hfree hquote (endsNot_concat hplain.1 (c :: x))
    have hstep : gap.step c = gap := by
      obtain rfl | rfl | rfl := hc.opener <;> decide
    rwa [run_cons, hstep] at hrun
  have hliteral : literal.run (x ++ [d]) = literal :=
    run_literal_of_no_apostrophe (fun hx => hquote (by simp [hx])) hplain.2.1 hplain.2.2
  have hat := atComment h.not_inName hc.opener
  rw [run_append, run_cons]
  generalize (gap.run u).step c = p, (gap.run u).step ' ' = q at hat
  cases hat with
  | gap => exact .inl hgap
  | literal => exact .inl hliteral
  | found => exact .inl (run_found _ _)
  | name hu => exact .inr ⟨hgap, .name (hname (.inl hu))⟩
  | dot hu => exact .inr ⟨hgap, .dot (hdot hu)⟩
  | table hu => exact .inr ⟨hgap, .table (hname (.inr hu))⟩

/-- In a comment that does not end no schema is found. -/
theorem result_unclosed {u : List Char} {c : Char} {cs : List Char} (hc : OpensComment c cs)
    (h : CommentAt.Harmless ⟨u, c :: cs, none⟩) :
    ((gap.run u).run (c :: cs)).result = ((gap.run u).step ' ').result := by
  have hat := atComment h.not_inName hc.opener
  have hnone : Roaming ((gap.run u).step c) → (((gap.run u).step c).run cs).result = none := by
    intro hroam
    rw [← run_concat] at hroam ⊢
    rw [← run_append]
    by_contra hne
    obtain ⟨x, a, k, b, rfl, hx, -, hk, hb⟩ := exists_keyword_of_run hroam hne
    have hi : isIdent c = false := by
      obtain rfl | rfl | rfl := hc.opener <;> decide
    -- the keyword begins behind the first character of the comment
    have hsplit : ∃ z, a = u ++ c :: z ∧ x = z ++ k := by
      obtain ⟨z, rfl, rfl⟩ | ⟨z, hz, rfl⟩ := List.append_eq_append_iff.mp hx
      · exact ⟨z, by simp, rfl⟩
      · cases z using List.reverseRecOn with
        | nil =>
          rw [List.append_nil] at hz
          exact ⟨[], hz.symm, rfl⟩
        | append_singleton z e =>
          rw [← List.append_assoc] at hz
          obtain ⟨-, hce⟩ := List.append_inj' hz rfl
          obtain rfl := List.singleton_injective hce
          have hc' := (bareName_of_mem_tableKeywords hk.keyword).2 c (by simp)
          exact absurd (hi.symm.trans hc') (by decide)
    obtain ⟨z, rfl, rfl⟩ := hsplit
    refine h.unclosed rfl (c :: z) k b (by simp) ⟨?_, hk.keyword, hk.after⟩ hb
    intro e he
    refine hk.before e ?_
    rwa [List.getLast?_append_of_ne_nil u (List.cons_ne_nil c z)]
  rw [run_cons]
  generalize (gap.run u).step c = p, (gap.run u).step ' ' = q at hat hnone
  cases hat with
  | found =>
    rw [run_found]
  | _ => exact hnone trivial

/-! ### When comments do not matter -/

theorem Masked.result_eq {q : Place} {s : List Char} (h : Masked q s) : q.result = none := by
  cases h <;> rfl

/-- Outside the name, the next character leads the scan to the same place, unless it is
whitespace. -/
theorem Masked.step {q : Place} {c : Char} {s : List Char} (h : Masked q (c :: s)) :
    (isSpace c = true ∧ q.step c = q ∧ Masked q s) ∨ gap.step c = q.step c := by
  by_cases hs : isSpace c = true
  · refine .inl ⟨hs, ?_⟩
    cases h with
    | name h => exact ⟨if_pos hs, .name fun hb => h (.space hs hb)⟩
    | dot h => exact ⟨if_pos hs, .dot fun hb => h (.space hs hb)⟩
    | table h => exact ⟨if_pos hs, .table fun hb => h (.space hs hb)⟩
  · refine .inr ?_
    cases h with
    | name h =>
      have hname : ¬ (isIdent c = true ∨ NameQuote c) := fun hc => h (.here hc)
      rw [not_or] at hname
      show fromGap c = fromName c
      rw [fromName, if_neg hs, if_neg hname.2, if_neg hname.1]
    | dot h =>
      have hdot : c ≠ '.' := fun hc => h (.here hc)
      show fromGap c = fromDot _ c
      rw [fromDot, if_neg hs, if_neg hdot]
    | table h =>
      have hname : ¬ (isIdent c = true ∨ NameQuote c) := fun hc => h (.here hc)
      rw [not_or] at hname
      rw [Place.step, Place.step, if_neg hs, if_neg hname.2, if_neg hname.1]

theorem Masked.comment {q : Place} {c : Char} {cs rest : List Char} (h : Masked q (c :: cs))
    (hc : OpensComment c cs) (hrest : afterComment c cs = some rest) :
    q.step ' ' = q ∧ Masked q rest := by
  cases h with
  | name h => exact ⟨rfl, .name fun hb => h (.comment hc hrest hb)⟩
  | dot h => exact ⟨rfl, .dot fun hb => h (.comment hc hrest hb)⟩
  | table h => exact ⟨rfl, .table fun hb => h (.comment hc hrest hb)⟩

/-- The scan over the text, at `p` with `s` to come, and the scan without comments, at `q`. -/
def InStep (p q : Place) (st : LexState) (s : List Char) : Prop :=
  p = q ∨ st = .normal ∧ p = gap ∧ Masked q s

/-- **The two scans find the same.** -/
theorem InStep.result_eq {u s : List Char} {st : LexState} {q : Place}
    (h : ∀ k ∈ comments u st s, k.Harmless) (hq : InStep (gap.run u) q st s) :
    ((gap.run u).run s).result = (q.run (stripScan st s).1).result := by
  induction st, s using scan_induct generalizing u q with
  | nil st =>
    rw [stripScan]
    obtain rfl | ⟨-, hgap, hmask⟩ := hq
    · rfl
    · rw [hgap]
      exact hmask.result_eq.symm
  | unclosed c cs hc hrest =>
    rw [comments_unclosed hc hrest, List.forall_mem_singleton] at h
    rw [stripScan_unclosed hc hrest, result_unclosed hc h]
    obtain rfl | ⟨-, hgap, hmask⟩ := hq
    · rfl
    · rw [hgap]
      show _ = (q.step ' ').result
      cases hmask <;> rfl
  | comment c cs rest hc hrest ih =>
    rw [comments_comment hc hrest, List.forall_mem_cons] at h
    have hrun := run_harmless hc hrest h.1
    have hnext : InStep (gap.run (u ++ commentText c cs rest)) (q.step ' ') .normal rest := by
      obtain rfl | ⟨-, hgap, hmask⟩ := hq
      · exact hrun.imp_right fun hrun => ⟨rfl, hrun⟩
      · obtain ⟨hstay, hmask⟩ := hmask.comment hc hrest
        rw [hgap] at hrun
        refine .inr ⟨rfl, hrun.elim id And.left, ?_⟩
        rwa [hstay]
    have hcs := ih h.2 hnext
    rw [run_append, ← run_append _ _ rest, commentText_append hrest] at hcs
    rw [stripScan_comment hc hrest]
    exact hcs
  | plain c cs hc ih =>
    rw [comments_plain hc] at h
    have hnext : InStep (gap.run (u ++ [c])) (q.step c) (opened c) cs := by
      rw [run_concat]
      obtain rfl | ⟨-, hgap, hmask⟩ := hq
      · exact .inl rfl
      · rw [hgap]
        obtain ⟨hs, hstay, hmask⟩ | hstep := hmask.step
        · refine .inr ⟨opened_of_isSpace hs, step_gap_of_isSpace hs, ?_⟩
          rwa [hstay]
        · exact .inl hstep
    have hcs := ih h hnext
    rw [run_concat] at hcs
    rw [stripScan_plain hc]
    exact hcs
  | escapeEnd st hn hb =>
    obtain rfl := hq.resolve_right fun hq => hn hq.1
    rw [(Lexes.escapeEnd hn hb).stripScan_eq]
  | escape st n cs hn hb ih =>
    obtain rfl := hq.resolve_right fun hq => hn hq.1
    rw [comments_escape hn hb] at h
    have hcs := ih h (.inl rfl)
    rw [run_append] at hcs
    rw [stripScan_escape hn hb]
    exact hcs
  | close st cs hn ih =>
    obtain rfl := hq.resolve_right fun hq => hn hq.1
    rw [comments_close hn] at h
    have hcs := ih h (.inl rfl)
    rw [run_concat] at hcs
    rw [stripScan_close hn]
    exact hcs
  | inside st c cs hn hq' hb ih =>
    obtain rfl := hq.resolve_right fun hq => hn hq.1
    rw [comments_inside hn hq' hb] at h
    have hcs := ih h (.inl rfl)
    rw [run_concat] at hcs
    rw [stripScan_inside hn hq' hb]
    exact hcs

/-- A schema that has been found is not changed by what follows. -/
theorem extract_append {s : List Char} {n : SchemaName} (h : extract s = some n) (v : List Char) :
    extract (s ++ v) = some n := by
  rw [extract_eq_result] at h
  have hfound : gap.run s = found n := by
    cases hrun : gap.run s with
    | found m =>
      rw [hrun] at h
      exact congrArg found (Option.some.inj h)
    | _ =>
      rw [hrun] at h
      exact absurd h (by simp [result])
  rw [extract_eq_result, run_append, hfound, run_found]
  rfl

theorem extract_stripComments_of_commentsApart {s : List Char} (h : CommentsApart s) :
    extract s = extract (stripComments s) := by
  rw [extract_eq_result, extract_eq_result]
  exact InStep.result_eq (u := []) h (.inl rfl)

/-- **When comments do not matter.** Where no comment is read as part of the statement the schema is
found as without comments, and where one has been found it stays the schema, whatever comments
follow. -/
theorem extract_stripComments (s : List Char) (h : CommentsApart s) :
    extract s = extract (stripComments s) ∧
    ∀ v n, (stripScan .normal s).2 = some .normal → NoJoin s v → extract s = some n →
      extract (s ++ v) = extract (stripComments (s ++ v)) := by
  have hsame := extract_stripComments_of_commentsApart h
  refine ⟨hsame, fun v n hend hj hn => ?_⟩
  rw [(lexes_of_stripScan hend).stripComments_append hj, extract_append hn]
  exact (extract_append (hsame.symm.trans hn) (stripComments v)).symm

/-- A comment behind the name of a table. -/
theorem extract_stripComments_table :
    extract "SELECT a FROM t -- all\n, u JOIN x.y".toList =
      extract (stripComments "SELECT a FROM t -- all\n, u JOIN x.y".toList) := by
  have hcomments : comments [] .normal "SELECT a FROM t -- all\n, u JOIN x.y".toList =
      [⟨"SELECT a FROM t ".toList, "-- all\n".toList, some ", u JOIN x.y".toList⟩] := by
    decide +kernel
  have hcomma : ∀ P : Char → Prop, ¬ P ',' → ¬ Begins P ", u JOIN x.y".toList := by
    intro P hP h
    exact hP (h.of_head (by decide) (by decide))
  refine (extract_stripComments _ fun k hk => ?_).1
  rw [hcomments, List.mem_singleton] at hk
  subst hk
  constructor
  · rintro ⟨u, q, n, hu, -, hq⟩
    have hmem : q ∈ "SELECT a FROM t ".toList := by
      have h : "SELECT a FROM t ".toList = u ++ q :: doubled q n := hu
      rw [h]
      simp
    obtain rfl | rfl := hq
    · exact absurd hmem (by decide)
    · exact absurd hmem (by decide)
  · exact fun h => absurd h (by simp)
  · exact fun _ => by decide +kernel
  · exact fun _ => by decide
  · rintro v hv -
    obtain rfl := Option.some.inj hv
    exact hcomma _ (by decide)
  · rintro v hv -
    obtain rfl := Option.some.inj hv
    exact hcomma _ (by decide)

/-- A qualified name in a comment is taken for the schema of the statement, an apostrophe hides it,
and so does a comment in front of it or in it. -/
theorem extract_in_comment :
    extract "SELECT 1 /* from a.b */".toList = some ['a'] ∧
      extract (stripComments "SELECT 1 /* from a.b */".toList) = none ∧
      extract "SELECT 1 -- don't\n FROM a.b".toList = none ∧
      extract (stripComments "SELECT 1 -- don't\n FROM a.b".toList) = some ['a'] ∧
      extract "SELECT 1 FROM /* x */ a.b".toList = none ∧
      extract (stripComments "SELECT 1 FROM /* x */ a.b".toList) = some ['a'] ∧
      extract "SELECT 1 FROM a/**/.b".toList = none ∧
      extract (stripComments "SELECT 1 FROM a/**/.b".toList) = some ['a'] := by
  decide +kernel

/-! ### The places after a comment -/

namespace Place

/-- The places at which a blank, a line end or a slash can leave the scan. -/
def Settled : Place → Prop
  | .gap | .literal | .name | .dot _ | .table _ | .found _ => True
  | .quoted q n => (q = '\x60' ∨ q = '"') ∧ n ≠ []
  | _ => False

theorem settled_step {p : Place} (h : p.WellQuoted) {c : Char}
    (hc : c = ' ' ∨ c = '\n' ∨ c = '/') : (p.step c).Settled := by
  have hplain : c ≠ '\'' ∧ isIdent c = false ∧ c ≠ '\\' ∧ c ≠ '.' ∧ c ≠ '\x60' ∧ c ≠ '"' := by
    obtain rfl | rfl | rfl := hc <;> decide
  obtain ⟨hquote, hi, hescape, hdot, hback, hdouble⟩ := hplain
  have hne : ∀ q : Char, q = '\x60' ∨ q = '"' → c ≠ q := by
    rintro q (rfl | rfl)
    · exact hback
    · exact hdouble
  have hgap : (fromGap c).Settled := by simp [fromGap, hquote, hi, Settled]
  have hname : (fromName c).Settled := by
    rw [fromName]
    split_ifs with _ hq hi'
    · trivial
    · exact absurd rfl (hne c hq)
    · exact absurd (hi.symm.trans hi') (by simp)
    · exact hgap
  have hfromDot : ∀ n, (fromDot n c).Settled := by
    intro n
    rw [fromDot, if_neg hdot]
    split_ifs
    · trivial
    · exact hgap
  cases p with
  | gap => exact hgap
  | word w =>
    rw [step, hi, if_neg Bool.false_ne_true]
    split_ifs
    · exact hname
    · exact hgap
  | literal =>
    rw [step, if_neg hescape, if_neg hquote]
    trivial
  | escape => trivial
  | name => exact hname
  | bare n =>
    rw [step, hi, if_neg Bool.false_ne_true]
    exact hfromDot n
  | quoted q n =>
    rw [step, if_neg (hne q h)]
    exact ⟨h, List.append_ne_nil_of_right_ne_nil _ (List.cons_ne_nil _ _)⟩
  | closing q n =>
    rw [step, if_neg (hne q h)]
    split_ifs
    · exact hgap
    · exact hfromDot n
  | dot n => exact hfromDot n
  | table n =>
    rw [step, if_neg fun hq => hne c hq rfl, hi, if_neg Bool.false_ne_true]
    split_ifs
    · trivial
    · exact hgap
  | tableQuoted q n =>
    rw [step, if_neg (hne q h)]
    trivial
  | tableClosing q n =>
    rw [step, if_neg (hne q h)]
    exact hgap
  | found n => trivial

/-- Reads a settled place off what is found from there in seven texts. -/
def decode (f : List Char → Option SchemaName) : Place :=
  match f [], f ['b'], f ['.', 'b'], f ['\x60', '.', 'b'], f ['"', '.', 'b'] with
  | some n, _, _, _, _ => .found n
  | none, some n, _, _, _ => .table n
  | none, none, some n, _, _ => .dot n
  | none, none, none, some n, _ => .quoted '\x60' n
  | none, none, none, none, some n => .quoted '"' n
  | none, none, none, none, none =>
    if f "a.b".toList ≠ none then .name
    else if f " from a.b".toList ≠ none then .gap
    else .literal

/-- **Settled places can be told apart** by what follows. -/
theorem decode_run {p : Place} (h : p.Settled) : decode (fun v => (p.run v).result) = p := by
  cases p with
  | gap => decide +kernel
  | literal => decide +kernel
  | name => decide +kernel
  | dot n => rfl
  | table n => rfl
  | found n => rfl
  | quoted q n =>
    obtain ⟨hq, hn⟩ := h
    cases n with
    | nil => exact absurd rfl hn
    | cons d n =>
      obtain rfl | rfl := hq
      · rfl
      · rfl
  | word w => exact absurd h (by simp [Settled])
  | escape => exact absurd h (by simp [Settled])
  | bare n => exact absurd h (by simp [Settled])
  | closing q n => exact absurd h (by simp [Settled])
  | tableQuoted q n => exact absurd h (by simp [Settled])
  | tableClosing q n => exact absurd h (by simp [Settled])

/-- The texts that tell settled places apart have no comments. -/
theorem eq_of_forall_result {p p' : Place} (hp : p.Settled) (hp' : p'.Settled)
    (h : ∀ v, stripComments v = v → (p.run v).result = (p'.run v).result) : p = p' := by
  rw [← decode_run hp, ← decode_run hp', decode, decode, h [] (by decide +kernel),
    h ['b'] (by decide +kernel), h ['.', 'b'] (by decide +kernel),
    h ['\x60', '.', 'b'] (by decide +kernel), h ['"', '.', 'b'] (by decide +kernel),
    h "a.b".toList (by decide +kernel), h " from a.b".toList (by decide +kernel)]

end Place

theorem Comment.settled_run {u w : List Char} (h : Comment w) : (gap.run (u ++ w)).Settled := by
  obtain ⟨x, d, rfl, hd⟩ := h.eq_concat
  rw [← List.append_assoc, run_append]
  exact settled_step (wellQuoted_run _) (.inr hd)

/-- **One more comment.** Behind a text of which every comment leaves the scan where a blank would,
a further comment makes no difference to the schema, whatever follows that has no comments, exactly
if it leaves the scan where a blank would too. -/
theorem extract_comment_iff (s w : List Char) (hs : Blind Place.step Place.result .gap s)
    (hw : Comment w) (hend : (stripScan .normal s).2 = some .normal) (hj : NoJoin s w) :
    (∀ v, stripComments v = v → extract (s ++ w ++ v) = extract (stripComments (s ++ w ++ v))) ↔
      gap.run (s ++ w) = gap.run (s ++ [' ']) := by
  have hafter : (gap.run (s ++ w)).Settled := hw.settled_run
  have hblank : ((gap.run s).step ' ').Settled := settled_step (wellQuoted_run s) (.inl rfl)
  have hiff := forall_result_comment_iff (fun _ => True) hs hend hw hj (by
    intro h
    refine eq_of_forall_result hafter hblank ?_
    intro v hv
    exact h v hv trivial)
  rw [blind_append_comment (lexes_of_stripScan hend) hw hj, and_iff_right hs] at hiff
  simp only [extract_eq_result, run_concat]
  refine Iff.trans ?_ hiff
  exact forall₂_congr fun _ _ => (forall_const True).symm

/-- Behind a keyword a comment is not what a blank is. -/
theorem extract_comment_iff_keyword :
    ¬ ∀ v, stripComments v = v → extract ("SELECT 1 FROM".toList ++ "/* x */".toList ++ v) =
      extract (stripComments ("SELECT 1 FROM".toList ++ "/* x */".toList ++ v)) := by
  have hblind : Blind Place.step Place.result .gap "SELECT 1 FROM".toList := by
    have hnone : comments [] .normal "SELECT 1 FROM".toList = [] := by decide +kernel
    intro k hk
    rw [hnone] at hk
    exact absurd hk List.not_mem_nil
  have hcomment : Comment "/* x */".toList := ⟨'/', "* x */".toList, rfl, by decide, by decide⟩
  have hjoin : NoJoin "SELECT 1 FROM".toList "/* x */".toList := by
    intro c hc d _
    obtain rfl : 'M' = c := by simpa using hc
    simp
  rw [extract_comment_iff _ _ hblind hcomment (by decide +kernel) hjoin]
  decide +kernel

end DBMesh.Routing
