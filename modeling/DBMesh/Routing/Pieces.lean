import DBMesh.Routing.Lexing

/-!
# Pieces of a statement

A statement reaches `classify_cte` through three scanners: comment removal, splitting, and the scan
for a keyword itself. A `Piece` is a stretch of text all three pass over independently of what
follows it; pieces put side by side make a piece. Gaps, parenthesised text, quoted names and commas
are pieces, and so is a word in front of a piece that does not continue it.

## Main definitions

* `DBMesh.Routing.Gap`, `Literal`, `Nested`, `Body` — whitespace and comments, the inside of a
  literal, text with balanced parentheses and closed literals
* `DBMesh.Routing.Piece` — what the three scanners make of a stretch of text

## Main results

* `DBMesh.Routing.Piece.append`
* `DBMesh.Routing.Gap.piece`, `Body.piece`, `Literal.piece`, `Piece.word`
-/

namespace DBMesh.Routing

/-! ### Kinds of text -/

/-- Whitespace and comments that end. -/
inductive Gap : List Char → Prop
  | nil : Gap []
  | space {c : Char} {g : List Char} (hc : isSpace c = true) (h : Gap g) : Gap (c :: g)
  | comment {c : Char} {cs rest : List Char} (hc : OpensComment c cs)
      (hrest : afterComment c cs = some rest) (h : Gap rest) : Gap (c :: cs)

/-- What may stand between the quotes of a literal. -/
inductive Literal (st : LexState) : List Char → Prop
  | nil : Literal st []
  | escape {n : Char} {cs : List Char} (hb : st ≠ .btick) (h : Literal st cs) :
      Literal st ('\\' :: n :: cs)
  | double {cs : List Char} (h : Literal st cs) : Literal st (st.quote :: st.quote :: cs)
  | inside {c : Char} {cs : List Char} (hq : c ≠ st.quote) (hb : c = '\\' → st = .btick)
      (h : Literal st cs) : Literal st (c :: cs)

/-- Text without comments in which parentheses are balanced and literals closed, with no `;` outside
literals. -/
inductive Nested : List Char → Prop
  | nil : Nested []
  | char {c : Char} {cs : List Char} (ho : opened c = .normal) (hc : c ≠ '(' ∧ c ≠ ')' ∧ c ≠ ';')
      (h : Nested cs) : Nested (c :: cs)
  | literal {st : LexState} {x cs : List Char} (hst : st ≠ .normal) (hx : Literal st x)
      (h : Nested cs) : Nested (st.quote :: (x ++ st.quote :: cs))
  | paren {x cs : List Char} (hx : Nested x) (h : Nested cs) : Nested ('(' :: (x ++ ')' :: cs))

/-- Text in which parentheses are balanced and literals closed; what stands in a comment that ends
need not be read. -/
inductive Balanced : List Char → Prop
  | nil : Balanced []
  | char {c : Char} {cs : List Char} (ho : opened c = .normal) (hc : c ≠ '(' ∧ c ≠ ')')
    (h : Balanced cs) : Balanced (c :: cs)
  | literal {st : LexState} {x cs : List Char} (hst : st ≠ .normal) (hx : Literal st x)
    (h : Balanced cs) : Balanced (st.quote :: (x ++ st.quote :: cs))
  | paren {x cs : List Char} (hx : Balanced x) (h : Balanced cs) :
    Balanced ('(' :: (x ++ ')' :: cs))
  | comment {c : Char} {cs rest : List Char} (hc : OpensComment c cs)
    (hrest : afterComment c cs = some rest) (h : Balanced rest) : Balanced (c :: cs)

/-- Text in which literals and comments are closed and, outside them, parentheses are balanced. -/
def Body (b : List Char) : Prop := ∃ out, Lexes .normal b out .normal ∧ Nested out

theorem Literal.append {st : LexState} {x y : List Char} (hx : Literal st x) (hy : Literal st y) :
    Literal st (x ++ y) := by
  induction hx with
  | nil => exact hy
  | escape hb _ ih => exact .escape hb ih
  | double _ ih => exact .double ih
  | inside hq hb _ ih => exact .inside hq hb ih

theorem Balanced.of_all {x : List Char}
    (h : x.all (fun c => opened c = .normal ∧ c ≠ '(' ∧ c ≠ ')') = true) : Balanced x := by
  induction x with
  | nil => exact .nil
  | cons c x ih =>
    rw [List.all_cons, Bool.and_eq_true, decide_eq_true_eq] at h
    exact .char h.1.1 h.1.2 (ih h.2)

/-! ### Characters of a word -/

theorem isWord_ne {c d : Char} (hc : isWord c = true) (hd : isWord d = false) : c ≠ d := by
  rintro rfl
  exact absurd (hc.symm.trans hd) (by decide)

theorem not_opensComment_of_isWord {c : Char} (hc : isWord c = true) (cs : List Char) :
    ¬ OpensComment c cs :=
  not_opensComment ⟨isWord_ne hc (by decide), isWord_ne hc (by decide), isWord_ne hc (by decide)⟩ cs

theorem opened_of_isWord {c : Char} (hc : isWord c = true) : opened c = .normal := by
  rw [opened, if_neg (isWord_ne hc (by decide)), if_neg (isWord_ne hc (by decide)),
    if_neg (isWord_ne hc (by decide))]

theorem isWord_of_isAlpha {c : Char} (hc : c.isAlpha = true) : isWord c = true := by
  simp [isWord, Char.isAlphanum, hc]

theorem isSpace_cases {c : Char} (hc : isSpace c = true) :
    c = ' ' ∨ c = '\t' ∨ c = '\n' ∨ c = '\x0b' ∨ c = '\x0c' ∨ c = '\r' := by
  simpa [isSpace, or_assoc] using hc

theorem isSpace_ne {c d : Char} (hc : isSpace c = true) (hd : isSpace d = false) : c ≠ d := by
  rintro rfl
  exact absurd (hc.symm.trans hd) (by decide)

theorem isWord_of_isSpace {c : Char} (hc : isSpace c = true) : isWord c = false := by
  obtain rfl | rfl | rfl | rfl | rfl | rfl := isSpace_cases hc <;> decide

theorem isSpace_of_isWord {c : Char} (hc : isWord c = true) : isSpace c = false := by
  cases hs : isSpace c with
  | false => rfl
  | true => exact absurd (hc.symm.trans (isWord_of_isSpace hs)) (by decide)

theorem opened_of_isSpace {c : Char} (hc : isSpace c = true) : opened c = .normal := by
  obtain rfl | rfl | rfl | rfl | rfl | rfl := isSpace_cases hc <;> decide

theorem not_opensComment_of_isSpace {c : Char} (hc : isSpace c = true) (cs : List Char) :
    ¬ OpensComment c cs :=
  not_opensComment
    ⟨isSpace_ne hc (by decide), isSpace_ne hc (by decide), isSpace_ne hc (by decide)⟩ cs

/-! ### Steps of the scan for a keyword -/

theorem cteScan_quote {c : Char} (hc : opened c ≠ .normal) (d : ℕ) (cs : List Char) :
    cteScan .normal d (c :: cs) = cteScan (opened c) d cs := by
  rw [cteScan, if_neg (by simp), if_pos hc]

theorem cteScan_open (d : ℕ) (cs : List Char) :
    cteScan .normal d ('(' :: cs) = cteScan .normal (d + 1) cs := by
  rw [cteScan]
  rfl

theorem cteScan_close (d : ℕ) (cs : List Char) :
    cteScan .normal (d + 1) (')' :: cs) = cteScan .normal d cs := by
  rw [cteScan]
  rfl

theorem cteScan_other {c : Char} (ho : opened c = .normal) (hc : c ≠ '(' ∧ c ≠ ')') {d : ℕ}
    (hd : ¬ (d = 0 ∧ c.isAlpha = true)) (cs : List Char) :
    cteScan .normal d (c :: cs) = cteScan .normal d cs := by
  rw [cteScan, if_neg (by simp), if_neg (by simp [ho]), if_neg hc.1, if_neg hc.2, dif_neg hd]

theorem cteScan_alpha {c : Char} (hc : c.isAlpha = true) (cs : List Char) :
    cteScan .normal 0 (c :: cs) =
      (cteKeyword ((c :: cs).takeWhile isWord)).getD
        (cteScan .normal 0 ((c :: cs).dropWhile isWord)) := by
  have hw := isWord_of_isAlpha hc
  rw [cteScan, if_neg (by simp), if_neg (by simp [opened_of_isWord hw]),
    if_neg (isWord_ne hw (by decide)), if_neg (isWord_ne hw (by decide)), dif_pos ⟨rfl, hc⟩]
  cases cteKeyword ((c :: cs).takeWhile isWord) with
  | none => rfl
  | some t => rfl

theorem cteScan_literal {st : LexState} (hst : st ≠ .normal) {x : List Char} (hx : Literal st x)
    (d : ℕ) (y : List Char) : cteScan st d (x ++ st.quote :: y) = cteScan .normal d y := by
  have hclose : ∀ z, cteScan st d (st.quote :: z) = cteScan .normal d z := by
    intro z
    rw [cteScan, if_pos hst, if_neg fun h => quote_ne_backslash hst h.1, if_pos rfl]
  induction hx with
  | nil => exact hclose y
  | escape hb _ ih =>
    rw [List.cons_append, List.cons_append, cteScan, if_pos hst, if_pos ⟨rfl, hb⟩, List.tail_cons,
      ih]
  | double _ ih =>
    have hopen : opened st.quote ≠ .normal := by rwa [opened_quote hst]
    rw [List.cons_append, List.cons_append, hclose, cteScan_quote hopen, opened_quote hst, ih]
  | inside hq hb _ ih =>
    rw [List.cons_append, cteScan, if_pos hst, if_neg fun h => h.2 (hb h.1), if_neg hq, ih]

/-- Inside parentheses nothing is read as a keyword. -/
theorem cteScan_nested {x : List Char} (hx : Nested x) (d : ℕ) (y : List Char) :
    cteScan .normal (d + 1) (x ++ y) = cteScan .normal (d + 1) y := by
  induction hx generalizing d y with
  | nil => rfl
  | char ho hc _ ih =>
    rw [List.cons_append, cteScan_other ho ⟨hc.1, hc.2.1⟩ (fun h => absurd h.1 (by omega)), ih]
  | @literal st x cs hst hx _ ih =>
    have hopen : opened st.quote ≠ .normal := by rwa [opened_quote hst]
    rw [List.cons_append, List.append_assoc, List.cons_append, cteScan_quote hopen,
      opened_quote hst, cteScan_literal hst hx, ih]
  | paren _ _ ihx ih =>
    rw [List.cons_append, List.append_assoc, List.cons_append, cteScan_open, ihx, cteScan_close, ih]

/-! ### Steps of the splitter -/

/-- Put text in front of the first segment. -/
def appendHead (o : List Char) : List (List Char) → List (List Char)
  | [] => [o]
  | x :: xs => (o ++ x) :: xs

theorem consHead_eq_appendHead (c : Char) (xs : List (List Char)) :
    consHead c xs = appendHead [c] xs := by
  cases xs with
  | nil => rfl
  | cons x xs => rfl

theorem appendHead_append (o o' : List Char) (xs : List (List Char)) :
    appendHead (o ++ o') xs = appendHead o (appendHead o' xs) := by
  cases xs with
  | nil => rfl
  | cons x xs => simp [appendHead]

theorem segments_literal {st : LexState} (hst : st ≠ .normal) {x : List Char} (hx : Literal st x)
    (y : List Char) :
    segments st (x ++ st.quote :: y) = appendHead (x ++ [st.quote]) (segments .normal y) := by
  have hopen : ∀ z, segments .normal (st.quote :: z) = consHead st.quote (segments st z) := by
    intro z
    rw [segments_plain (quote_ne_of_opened hst rfl), opened_quote hst]
  induction hx with
  | nil => rw [List.nil_append, segments_close hst, consHead_eq_appendHead]; rfl
  | escape hb _ ih =>
    rw [List.cons_append, List.cons_append, segments_escape hst hb, ih, consHead_eq_appendHead,
      consHead_eq_appendHead, ← appendHead_append, ← appendHead_append]
    rfl
  | double _ ih =>
    rw [List.cons_append, List.cons_append, segments_close hst, hopen, ih, consHead_eq_appendHead,
      consHead_eq_appendHead, ← appendHead_append, ← appendHead_append]
    rfl
  | inside hq hb _ ih =>
    rw [List.cons_append, segments_inside hst hq hb, ih, consHead_eq_appendHead,
      ← appendHead_append]
    rfl

theorem stripScan_literal {st : LexState} (hst : st ≠ .normal) {x : List Char} (hx : Literal st x)
    (y : List Char) :
    stripScan st (x ++ st.quote :: y) = emit (x ++ [st.quote]) (stripScan .normal y) := by
  induction hx with
  | nil => exact stripScan_close hst y
  | escape hb _ ih => rw [List.cons_append, List.cons_append, stripScan_escape hst hb, ih]; rfl
  | double _ ih =>
    rw [List.cons_append, List.cons_append, stripScan_close hst,
      stripScan_plain (not_opensComment_quote hst _), opened_quote hst, ih]
    rfl
  | inside hq hb _ ih => rw [List.cons_append, stripScan_inside hst hq hb, ih]; rfl

/-! ### Pieces -/

/-- Comment removal turns `x` into `o`, whatever follows. -/
def Passes (x o : List Char) : Prop :=
  ∀ y, stripScan .normal (x ++ y) = emit o (stripScan .normal y)

/-- The splitter does not split inside `o`, and is outside literals after it. -/
def Unsplit (o : List Char) : Prop :=
  ∀ y, segments .normal (o ++ y) = appendHead o (segments .normal y)

/-- The scan for a keyword finds `r` in `o`, or else goes on after it. -/
def Reads (o : List Char) (r : Option QueryType) : Prop :=
  ∀ y, cteScan .normal 0 (o ++ y) = r.getD (cteScan .normal 0 y)

structure Piece (x o : List Char) (r : Option QueryType) : Prop where
  passes : Passes x o
  unsplit : Unsplit o
  reads : Reads o r

theorem Passes.append {x x' o o' : List Char} (h : Passes x o) (h' : Passes x' o') :
    Passes (x ++ x') (o ++ o') := by
  intro y
  rw [List.append_assoc, h, h', emit, emit, emit, List.append_assoc]

theorem Unsplit.append {o o' : List Char} (h : Unsplit o) (h' : Unsplit o') :
    Unsplit (o ++ o') := by
  intro y
  rw [List.append_assoc, h, h', appendHead_append]

theorem Unsplit.char {c : Char} (ho : opened c = .normal) (hc : c ≠ ';') : Unsplit [c] := by
  intro y
  rw [List.singleton_append, segments_plain hc, ho, consHead_eq_appendHead]

theorem Unsplit.of_forall {o : List Char} (h : ∀ c ∈ o, opened c = .normal ∧ c ≠ ';') :
    Unsplit o := by
  induction o with
  | nil =>
    intro y
    rw [List.nil_append]
    cases hy : segments .normal y with
    | nil => exact absurd hy (segments_ne_nil _ _)
    | cons x xs => rfl
  | cons c o ih =>
    rw [List.forall_mem_cons] at h
    exact (Unsplit.char h.1.1 h.1.2).append (ih h.2)

theorem Piece.nil : Piece [] [] none where
  passes _ := rfl
  unsplit := Unsplit.of_forall (by simp)
  reads _ := rfl

/-- **Pieces side by side make a piece**; the first keyword found counts. -/
theorem Piece.append {x x' o o' : List Char} {r r' : Option QueryType} (h : Piece x o r)
    (h' : Piece x' o' r') : Piece (x ++ x') (o ++ o') (r.or r') where
  passes := h.passes.append h'.passes
  unsplit := h.unsplit.append h'.unsplit
  reads y := by
    rw [List.append_assoc, h.reads, h'.reads]
    cases r with
    | none => rfl
    | some t => rfl

/-- A character that none of the scanners takes notice of. -/
theorem Piece.char {c : Char} (hw : isWord c = false) (hc : c ≠ '(' ∧ c ≠ ')' ∧ c ≠ ';')
    (ho : opened c = .normal) (hcom : ∀ cs, ¬ OpensComment c cs) : Piece [c] [c] none where
  passes y := by
    rw [List.singleton_append, stripScan_plain (hcom y), ho]
  unsplit := Unsplit.char ho hc.2.2
  reads y := by
    refine cteScan_other ho ⟨hc.1, hc.2.1⟩ (fun h => ?_) y
    exact absurd ((isWord_of_isAlpha h.2).symm.trans hw) (by decide)

theorem Piece.space {c : Char} (hc : isSpace c = true) : Piece [c] [c] none :=
  .char (isWord_of_isSpace hc)
    ⟨isSpace_ne hc (by decide), isSpace_ne hc (by decide), isSpace_ne hc (by decide)⟩
    (opened_of_isSpace hc) (not_opensComment_of_isSpace hc)

theorem Piece.comma : Piece [','] [','] none :=
  .char (by decide) (by decide) (by decide) (not_opensComment (by decide))

/-- A gap comes out as whitespace. -/
theorem Gap.piece {g : List Char} (h : Gap g) :
    ∃ o, Piece g o none ∧ (∀ c ∈ o, isSpace c = true) ∧ (g ≠ [] → o ≠ []) := by
  induction h with
  | nil => exact ⟨[], .nil, by simp, fun h => absurd rfl h⟩
  | @space c g hc _ ih =>
    obtain ⟨o, ho, hsp, -⟩ := ih
    exact ⟨c :: o, (Piece.space hc).append ho, List.forall_mem_cons.mpr ⟨hc, hsp⟩,
      fun _ => List.cons_ne_nil _ _⟩
  | @comment c cs rest hc hrest _ ih =>
    obtain ⟨o, ho, hsp, -⟩ := ih
    have hspace : isSpace ' ' = true := by decide
    have hcat := (Piece.space hspace).append ho
    refine ⟨' ' :: o, ⟨fun y => ?_, hcat.unsplit, hcat.reads⟩,
      List.forall_mem_cons.mpr ⟨hspace, hsp⟩, fun _ => List.cons_ne_nil _ _⟩
    rw [List.cons_append, stripScan_comment (hc.append y) (afterComment_append hc hrest y),
      ho.passes]
    rfl

theorem Literal.piece {st : LexState} (hst : st ≠ .normal) {x : List Char} (hx : Literal st x) :
    Piece (st.quote :: (x ++ [st.quote])) (st.quote :: (x ++ [st.quote])) none where
  passes y := by
    rw [List.cons_append, List.append_assoc, List.singleton_append,
      stripScan_plain (not_opensComment_quote hst _), opened_quote hst, stripScan_literal hst hx]
    rfl
  unsplit y := by
    rw [List.cons_append, List.append_assoc, List.singleton_append,
      segments_plain (quote_ne_of_opened hst rfl), opened_quote hst, segments_literal hst hx,
      consHead_eq_appendHead, ← appendHead_append]
    rfl
  reads y := by
    have hopen : opened st.quote ≠ .normal := by rwa [opened_quote hst]
    rw [List.cons_append, List.append_assoc, List.singleton_append, cteScan_quote hopen,
      opened_quote hst, cteScan_literal hst hx]
    rfl

theorem Nested.unsplit {x : List Char} (hx : Nested x) : Unsplit x := by
  induction hx with
  | nil => exact Unsplit.of_forall (by simp)
  | char ho hc _ ih => exact (Unsplit.char ho hc.2.2).append ih
  | @literal st x cs hst hx _ ih =>
    have hcat := (hx.piece hst).unsplit.append ih
    rwa [List.cons_append, List.append_assoc, List.singleton_append] at hcat
  | @paren x cs _ _ ihx ih =>
    have hopen : Unsplit ['('] := .char (by decide) (by decide)
    have hclose : Unsplit [')'] := .char (by decide) (by decide)
    exact hopen.append (ihx.append (hclose.append ih))

/-- Text in parentheses is passed over. -/
theorem Body.piece {b : List Char} (h : Body b) :
    ∃ o, Piece ('(' :: (b ++ [')'])) ('(' :: o) none := by
  obtain ⟨out, hlex, hnest⟩ := h
  have hopen : ∀ cs, ¬ OpensComment '(' cs := not_opensComment (by decide)
  have hclose : ∀ cs, ¬ OpensComment ')' cs := not_opensComment (by decide)
  have hun : Unsplit (['('] ++ (out ++ [')'])) :=
    (Unsplit.char (by decide) (by decide)).append
      (hnest.unsplit.append (Unsplit.char (by decide) (by decide)))
  refine ⟨out ++ [')'], fun y => ?_, hun, fun y => ?_⟩
  · have hj : NoJoin b (')' :: y) := by
      intro c _ d hd
      obtain rfl : ')' = d := by simpa using hd
      exact ⟨fun h => absurd h.2 (by decide), fun h => absurd h.2 (by decide)⟩
    rw [List.cons_append, List.append_assoc, List.singleton_append, stripScan_plain (hopen _),
      show opened '(' = .normal by decide, hlex.stripScan_append hj, stripScan_plain (hclose y),
      show opened ')' = .normal by decide]
    simp [emit]
  · rw [List.cons_append, List.append_assoc, List.singleton_append, cteScan_open,
      cteScan_nested hnest, cteScan_close]
    rfl

/-! ### Words -/

/-- The text does not begin with a character of `p`. -/
def StartsNot (p : Char → Bool) (y : List Char) : Prop := ∀ c ∈ y.head?, p c = false

instance (p : Char → Bool) (y : List Char) : Decidable (StartsNot p y) :=
  Option.decidableForallMem (p := fun c => p c = false) y.head?

/-- The text does not end with a character of `p`. -/
def EndsNot (p : Char → Bool) (y : List Char) : Prop := ∀ c ∈ y.getLast?, p c = false

instance (p : Char → Bool) (y : List Char) : Decidable (EndsNot p y) :=
  Option.decidableForallMem (p := fun c => p c = false) y.getLast?

theorem endsNot_concat {p : Char → Bool} {c : Char} (hc : p c = false) (u : List Char) :
    EndsNot p (u ++ [c]) := by
  intro d hd
  rw [List.getLast?_concat] at hd
  obtain rfl : c = d := by simpa using hd
  exact hc

/-- All ways to cut a text twice. -/
theorem forall_cut (P : List Char → List Char → List Char → Prop) (p : List Char) :
    (∀ i < p.length + 1, ∀ j < i + 1, P ((p.take i).take j) ((p.take i).drop j) (p.drop i)) ↔
      ∀ a w b, p = a ++ w ++ b → P a w b := by
  constructor
  · rintro h a w b rfl
    have hcut := h (a ++ w).length (by simp only [List.length_append]; omega) a.length
      (by simp only [List.length_append]; omega)
    rwa [List.take_left, List.drop_left, List.take_left, List.drop_left] at hcut
  · intro h i _ j _
    exact h _ _ _ (by rw [List.take_append_drop, List.take_append_drop])

/-- A word that stands in front of the text ends there. -/
abbrev Boundary (y : List Char) : Prop := StartsNot isWord y

theorem StartsNot.append {p : Char → Bool} {o : List Char} (h : StartsNot p o) (hne : o ≠ [])
    (y : List Char) : StartsNot p (o ++ y) := by
  cases o with
  | nil => exact absurd rfl hne
  | cons c o => exact h

/-- A word as the scan for a keyword sees it: from its first letter on. -/
def wordKeyword (w : List Char) : Option QueryType := cteKeyword (w.dropWhile fun c => !c.isAlpha)

theorem takeWhile_isWord {w y : List Char} (hw : ∀ c ∈ w, isWord c = true) (hy : Boundary y) :
    (w ++ y).takeWhile isWord = w ∧ (w ++ y).dropWhile isWord = y := by
  rw [List.takeWhile_append_of_pos hw, List.dropWhile_append_of_pos hw]
  cases y with
  | nil => exact ⟨List.append_nil w, rfl⟩
  | cons c y =>
    have hc : isWord c = false := hy c rfl
    simp [hc]

theorem cteScan_word {w y : List Char} (hw : ∀ c ∈ w, isWord c = true) (hy : Boundary y) :
    cteScan .normal 0 (w ++ y) = (wordKeyword w).getD (cteScan .normal 0 y) := by
  induction w with
  | nil => rfl
  | cons c w ih =>
    have hc := List.forall_mem_cons.mp hw
    cases halpha : c.isAlpha with
    | true =>
      obtain ⟨htake, hdrop⟩ := takeWhile_isWord hw hy
      rw [List.cons_append] at htake hdrop
      have hword : wordKeyword (c :: w) = cteKeyword (c :: w) := by
        rw [wordKeyword, List.dropWhile_cons, halpha]
        rfl
      rw [List.cons_append, cteScan_alpha halpha, htake, hdrop, hword]
    | false =>
      have hword : wordKeyword (c :: w) = wordKeyword w := by
        rw [wordKeyword, List.dropWhile_cons, halpha]
        rfl
      rw [List.cons_append, cteScan_other (opened_of_isWord hc.1)
        ⟨isWord_ne hc.1 (by decide), isWord_ne hc.1 (by decide)⟩ (by simp [halpha]), ih hc.2, hword]

/-- Words and whitespace stay as they are. -/
theorem Passes.of_forall {x : List Char} (hx : ∀ c ∈ x, isWord c = true ∨ isSpace c = true) :
    Passes x x := by
  intro y
  induction x with
  | nil => rfl
  | cons c x ih =>
    rw [List.forall_mem_cons] at hx
    have hc : ¬ OpensComment c (x ++ y) ∧ opened c = .normal :=
      hx.1.elim (fun h => ⟨not_opensComment_of_isWord h _, opened_of_isWord h⟩)
        fun h => ⟨not_opensComment_of_isSpace h _, opened_of_isSpace h⟩
    rw [List.cons_append, stripScan_plain hc.1, hc.2, ih hx.2]
    rfl

theorem Passes.word {w : List Char} (hw : ∀ c ∈ w, isWord c = true) : Passes w w :=
  .of_forall fun c hc => .inl (hw c hc)

theorem Unsplit.word {w : List Char} (hw : ∀ c ∈ w, isWord c = true) : Unsplit w :=
  .of_forall fun c hc => ⟨opened_of_isWord (hw c hc), isWord_ne (hw c hc) (by decide)⟩

/-- A word in front of a piece that does not continue it. -/
theorem Piece.word {w x o : List Char} {r : Option QueryType} (hw : ∀ c ∈ w, isWord c = true)
    (h : Piece x o r) (ho : Boundary o) (hne : o ≠ []) :
    Piece (w ++ x) (w ++ o) ((wordKeyword w).or r) where
  passes := (Passes.word hw).append h.passes
  unsplit := (Unsplit.word hw).append h.unsplit
  reads y := by
    rw [List.append_assoc, cteScan_word hw (ho.append hne y), h.reads]
    cases wordKeyword w with
    | none => rfl
    | some t => rfl

/-! ### The first keyword -/

theorem isSpace_of_isAlpha {c : Char} (hc : c.isAlpha = true) : isSpace c = false :=
  isSpace_of_isWord (isWord_of_isAlpha hc)

theorem Boundary.startsNot_isAlpha {y : List Char} (hy : Boundary y) :
    StartsNot Char.isAlpha y := by
  intro c hc
  cases ha : c.isAlpha with
  | false => rfl
  | true => exact absurd ((isWord_of_isAlpha ha).symm.trans (hy c hc)) (by decide)

/-- The first keyword of a statement that begins with letters. -/
theorem firstKeyword_append {w y : List Char} (hw : ∀ c ∈ w, c.isAlpha = true) (hne : w ≠ [])
    (hy : StartsNot Char.isAlpha y) :
    skipOpen (w ++ y) = w ++ y ∧
      firstKeyword (w ++ y) = if 16 < w.length then [] else w.map lower := by
  have hskip : skipOpen (w ++ y) = w ++ y := by
    cases w with
    | nil => exact absurd rfl hne
    | cons c w =>
      have hc : c.isAlpha = true := hw c (List.mem_cons_self ..)
      have hp : c ≠ '(' := isWord_ne (isWord_of_isAlpha hc) (by decide)
      rw [skipOpen, List.cons_append, List.dropWhile_cons]
      simp [isSpace_of_isAlpha hc, hp]
  have htake : (w ++ y).takeWhile Char.isAlpha = w := by
    rw [List.takeWhile_append_of_pos hw]
    cases y with
    | nil => exact List.append_nil w
    | cons c y =>
      have hc : c.isAlpha = false := hy c rfl
      simp [hc]
  exact ⟨hskip, by rw [firstKeyword, hskip, htake]⟩

/-! ### The first statement of a text -/

theorem StartsNot.strip {p : Char → Bool} (hp : p ' ' = false) {y : List Char}
    (hy : StartsNot p y) : StartsNot p (stripComments y) := by
  cases y with
  | nil =>
    rw [stripComments, stripScan]
    exact hy
  | cons c cs =>
    rw [stripComments]
    by_cases hc : OpensComment c cs
    · cases hrest : afterComment c cs with
      | none =>
        rw [stripScan]
        split
        · intro d hd
          obtain rfl : ' ' = d := by simpa using hd
          exact hp
        · next h => exact absurd ((stripStep_eq_none hc hrest).symm.trans h) (by simp)
      | some rest =>
        rw [stripScan_comment hc hrest]
        intro d hd
        obtain rfl : ' ' = d := by simpa [emit] using hd
        exact hp
    · rw [stripScan_plain hc]
      exact hy

theorem StartsNot.of_segments {p : Char → Bool} {y h : List Char} {t : List (List Char)}
    (hy : StartsNot p y) (hseg : segments .normal y = h :: t) : StartsNot p h := by
  cases y with
  | nil =>
    rw [segments_nil] at hseg
    obtain ⟨rfl, -⟩ := List.cons.inj hseg
    exact hy
  | cons c cs =>
    by_cases hc : c = ';'
    · subst hc
      rw [segments_semicolon] at hseg
      obtain ⟨rfl, -⟩ := List.cons.inj hseg
      exact fun _ h => absurd h (by simp)
    · rw [segments_plain hc] at hseg
      cases hs : segments (opened c) cs with
      | nil => exact absurd hs (segments_ne_nil _ _)
      | cons x xs =>
        rw [hs] at hseg
        obtain ⟨rfl, -⟩ := List.cons.inj hseg
        exact hy

theorem StartsNot.of_isPrefix {p : Char → Bool} {x y : List Char} (hx : x <+: y)
    (hy : StartsNot p y) : StartsNot p x := by
  obtain ⟨z, rfl⟩ := hx
  cases x with
  | nil => exact fun _ h => absurd h (by simp)
  | cons c x => exact hy

/-- Trimming a text between whitespace and whatever follows. -/
theorem trim_append {w p h : List Char} (hw : ∀ c ∈ w, isSpace c = true)
    (hp : ∀ c ∈ p.head?, isSpace c = false) (hl : ∀ c ∈ p.getLast?, isSpace c = false)
    (hne : p ≠ []) : trim (w ++ (p ++ h)) = p ++ h.rdropWhile isSpace := by
  have hdrop : (p ++ h).dropWhile isSpace = p ++ h := by
    cases p with
    | nil => exact absurd rfl hne
    | cons c p => rw [List.cons_append, List.dropWhile_cons, hp c rfl]; rfl
  have hrev : p.reverse.dropWhile isSpace = p.reverse := by
    cases hr : p.reverse with
    | nil => rfl
    | cons c q =>
      have hc : isSpace c = false := hl c (by rw [← List.head?_reverse, hr]; rfl)
      rw [List.dropWhile_cons, hc]
      rfl
  rw [trim, List.dropWhile_append_of_pos hw, hdrop, List.rdropWhile, List.reverse_append,
    List.dropWhile_append, hrev, List.rdropWhile]
  split_ifs with hnil
  · rw [List.isEmpty_iff.mp hnil]
    simp
  · simp

/-- **The first statement of a text** that begins, after a gap, with a stretch the scanners pass
over: it begins with what is left of the stretch, and a `;` that ends it comes later. -/
theorem statements_of_lead {lead x o y : List Char} (hlead : Gap lead) (hx : Passes x o)
    (ho : Unsplit o) (hhead : ∀ c ∈ o.head?, isSpace c = false)
    (hlast : ∀ c ∈ o.getLast?, isSpace c = false) (hne : o ≠ []) :
    ∃ h t, segments .normal (stripComments y) = h :: t ∧
      statements (lead ++ (x ++ y)) =
        (o ++ h.rdropWhile isSpace) :: (t.map trim).filter (· ≠ []) := by
  obtain ⟨w, hw, hsp, -⟩ := hlead.piece
  cases hseg : segments .normal (stripComments y) with
  | nil => exact absurd hseg (segments_ne_nil _ _)
  | cons h t =>
    refine ⟨h, t, rfl, ?_⟩
    have hstrip : stripComments (lead ++ (x ++ y)) = w ++ (o ++ stripComments y) := by
      rw [stripComments, hw.passes, hx]
      rfl
    have htrim := trim_append (h := h) hsp hhead hlast hne
    rw [statements, hstrip, splitStatements, hw.unsplit, ho, hseg, appendHead, appendHead,
      List.map_cons, htrim, List.filter_cons, if_pos (by simp [hne])]

theorem Gap.of_forall {g : List Char} (h : ∀ c ∈ g, isSpace c = true) : Gap g := by
  induction g with
  | nil => exact .nil
  | cons c g ih =>
    rw [List.forall_mem_cons] at h
    exact .space h.1 (ih h.2)

/-- The first statement of a text that begins, after whitespace, with words. -/
theorem statements_of_words {p : Char → Bool} (hp : p ' ' = false) {ws x y : List Char}
    (hws : ∀ c ∈ ws, isSpace c = true) (hx : ∀ c ∈ x, isWord c = true ∨ isSpace c = true)
    (hhead : ∀ c ∈ x.head?, isSpace c = false) (hlast : ∀ c ∈ x.getLast?, isSpace c = false)
    (hne : x ≠ []) (hy : StartsNot p y) :
    ∃ h rest, StartsNot p h ∧ statements (ws ++ (x ++ y)) = (x ++ h) :: rest := by
  have hsplit : Unsplit x := .of_forall fun c hc => (hx c hc).elim
    (fun h => ⟨opened_of_isWord h, isWord_ne h (by decide)⟩)
    fun h => ⟨opened_of_isSpace h, isSpace_ne h (by decide)⟩
  obtain ⟨h, t, hseg, hstmts⟩ := statements_of_lead (y := y) (Gap.of_forall hws)
    (Passes.of_forall hx) hsplit hhead hlast hne
  exact ⟨_, _, ((hy.strip hp).of_segments hseg).of_isPrefix (List.rdropWhile_prefix _ _), hstmts⟩

theorem statements_of_word {p : Char → Bool} (hp : p ' ' = false) {ws w y : List Char}
    (hws : ∀ c ∈ ws, isSpace c = true) (hw : ∀ c ∈ w, isWord c = true) (hne : w ≠ [])
    (hy : StartsNot p y) :
    ∃ h rest, StartsNot p h ∧ statements (ws ++ (w ++ y)) = (w ++ h) :: rest :=
  statements_of_words hp hws (fun c hc => .inl (hw c hc))
    (fun c hc => isSpace_of_isWord (hw c (List.mem_of_head? hc)))
    (fun c hc => isSpace_of_isWord (hw c (List.mem_of_getLast? hc))) hne hy

end DBMesh.Routing
