import Mathlib
import DBMesh.Routing.Pieces

/-!
# Common table expressions

A statement `WITH [RECURSIVE] n₁ [(cols)] AS (b₁), …, nₖ [(cols)] AS (bₖ) K tail` is classified by
`classify_cte`, which looks for the keyword `K` among the words outside parentheses. The names of
the tables are such words too: a bare name that reads like a keyword once the digits, `_` and `$` in
front of its first letter are dropped is taken for `K`.

Two scanners run before `classify_cte`, and each can take the statement from it. Comment removal
sees a comment at two minus signs, whether or not they are one to the server, and drops the rest of
the line, with parentheses and `K` on it. The splitter splits at a `;` inside the parentheses of a
body, and what comes first is then a statement without `K`.

## Scope

The statements are all those of the form above. What stands in parentheses is balanced and has its
literals closed, and is arbitrary otherwise; so is the tail. `CteStatement.Plain` says of a text, on
its characters, that neither scanner takes anything from it. Among plain statements the condition on
the names is exact. Beyond them it is not looked for: what is split off or read behind a lost
parenthesis can be any text, `K` may be classified rightly there by chance, and no condition on the
characters tells these texts from the others.

## Implementation notes

`Mathlib` is imported whole: the lemmas on the case of ASCII letters are in no smaller module of it.

## Main definitions

* `DBMesh.Routing.Cte`, `CteStatement` — the statements, with whitespace or comments between their
  parts
* `DBMesh.Routing.Contained`, `NoSecond`, `CteStatement.Plain` — no comment leaves the part it
  begins in, and no `;` outside literals and comments splits the text
* `DBMesh.Routing.Name.keyword` — what a name is taken for

## Main results

* `DBMesh.Routing.CteStatement.classify_eq` — the first name taken for a keyword decides, else `K`
* `DBMesh.Routing.classify_cte_iff` — which statements are classified by `K`
-/

namespace DBMesh.Routing

/-! ### The grammar -/

/-- The name of a table: in backticks, or a bare word. -/
inductive Name
  | quoted (x : List Char) (hx : Literal .btick x)
  | bare (w : List Char) (hw : ∀ c ∈ w, isWord c = true) (hne : w ≠ [])

def Name.text : Name → List Char
  | .quoted x _ => '\x60' :: (x ++ ['\x60'])
  | .bare w _ _ => w

def Name.Quoted : Name → Prop
  | .quoted _ _ => True
  | .bare _ _ _ => False

/-- What `classify_cte` takes a name for. -/
def Name.keyword : Name → Option QueryType
  | .quoted _ _ => none
  | .bare w _ _ => wordKeyword w

/-- The word `w` in any letter case. -/
def IsKeyword (w : List Char) (kw : String) : Prop := w.map lower = kw.toList

instance (w : List Char) (kw : String) : Decidable (IsKeyword w kw) :=
  inferInstanceAs (Decidable (_ = _))

/-- A column list with the gap after it. -/
structure Columns where
  columns : List Char
  gap : List Char
  body_columns : Balanced columns
  gap_gap : Gap gap

def columnsText : Option Columns → List Char
  | none => []
  | some c => '(' :: (c.columns ++ [')']) ++ c.gap

/-- `name [(columns)] AS (body)` -/
structure Cte where
  name : Name
  gapName : List Char
  columns : Option Columns
  as : List Char
  gapAs : List Char
  body : List Char
  gap_gapName : Gap gapName
  isKeyword_as : IsKeyword as "as"
  gap_gapAs : Gap gapAs
  body_body : Balanced body
  /-- A bare name does not run into `AS`. -/
  sep : gapName = [] → columns = none → name.Quoted

def Cte.text (c : Cte) : List Char :=
  c.name.text ++ (c.gapName ++ (columnsText c.columns ++
    (c.as ++ (c.gapAs ++ '(' :: (c.body ++ [')'])))))

/-- `, cte` -/
structure NextCte where
  gapComma : List Char
  gapNext : List Char
  cte : Cte
  gap_gapComma : Gap gapComma
  gap_gapNext : Gap gapNext

def NextCte.text (c : NextCte) : List Char := c.gapComma ++ ([','] ++ (c.gapNext ++ c.cte.text))

/-- The keyword `RECURSIVE` with the gap after it. -/
structure Recursive where
  word : List Char
  gap : List Char
  isKeyword_word : IsKeyword word "recursive"
  gap_gap : Gap gap

def recursiveText : Option Recursive → List Char
  | none => []
  | some r => r.word ++ r.gap

/-- The keywords of a main statement. -/
def mainKeywords : List (String × QueryType) :=
  [("select", .select), ("insert", .insert), ("replace", .insert), ("update", .update),
    ("delete", .delete)]

/-- `WITH [RECURSIVE] cte, …, cte K tail` -/
structure CteStatement where
  lead : List Char
  with_ : List Char
  gapWith : List Char
  recursive : Option Recursive
  first : Cte
  more : List NextCte
  gapMain : List Char
  main : List Char
  kind : QueryType
  tail : List Char
  gap_lead : Gap lead
  isKeyword_with : IsKeyword with_ "with"
  gap_gapWith : Gap gapWith
  gap_gapMain : Gap gapMain
  isKeyword_main : ∃ p ∈ mainKeywords, IsKeyword main p.1 ∧ kind = p.2
  /-- The keywords do not run into what follows them. -/
  sepWith : gapWith = [] → recursive = none ∧ first.name.Quoted
  sepRecursive : ∀ r ∈ recursive, r.gap = [] → first.name.Quoted
  boundary_tail : Boundary tail

def CteStatement.text (S : CteStatement) : List Char :=
  S.lead ++ (S.with_ ++ (S.gapWith ++ (recursiveText S.recursive ++ (S.first.text ++
    (S.more.flatMap NextCte.text ++ (S.gapMain ++ (S.main ++ S.tail)))))))

def CteStatement.names (S : CteStatement) : List Name :=
  S.first.name :: S.more.map fun c => c.cte.name

/-! ### Plain statements -/

/-- Balanced text in which every comment ends inside the parentheses it begins in, where `--`, `#`
and `/*` outside literals begin one, and no `;` stands outside literals and comments. -/
inductive Contained : List Char → Prop
  | nil : Contained []
  | char {c : Char} {cs : List Char} (ho : opened c = .normal) (hc : c ≠ '(' ∧ c ≠ ')' ∧ c ≠ ';')
    (hcom : ¬ OpensComment c cs) (h : Contained cs) : Contained (c :: cs)
  | literal {st : LexState} {x cs : List Char} (hst : st ≠ .normal) (hx : Literal st x)
    (h : Contained cs) : Contained (st.quote :: (x ++ st.quote :: cs))
  | paren {x cs : List Char} (hx : Contained x) (h : Contained cs) :
    Contained ('(' :: (x ++ ')' :: cs))
  | comment {c : Char} {cs rest : List Char} (hc : OpensComment c cs)
    (hrest : afterComment c cs = some rest) (h : Contained rest) : Contained (c :: cs)

/-- Whitespace, comments and `;`. -/
inductive Void : List Char → Prop
  | nil : Void []
  | space {c : Char} {cs : List Char} (hc : isSpace c = true) (h : Void cs) : Void (c :: cs)
  | semicolon {cs : List Char} (h : Void cs) : Void (';' :: cs)
  | comment {c : Char} {cs rest : List Char} (hc : OpensComment c cs)
    (hrest : afterComment c cs = some rest) (h : Void rest) : Void (c :: cs)
  | unclosed {c : Char} {cs : List Char} (hc : OpensComment c cs)
    (hrest : afterComment c cs = none) : Void (c :: cs)

/-- No second statement begins in the text, which starts in a literal of kind `st` or outside: there
is no `;` outside literals and comments with anything but whitespace, comments and `;` behind it. -/
inductive NoSecond : LexState → List Char → Prop
  | nil (st : LexState) : NoSecond st []
  | semicolon {cs : List Char} (h : Void cs) : NoSecond .normal (';' :: cs)
  | char {c : Char} {cs : List Char} (hc : c ≠ ';') (hcom : ¬ OpensComment c cs)
    (h : NoSecond (opened c) cs) : NoSecond .normal (c :: cs)
  | comment {c : Char} {cs rest : List Char} (hc : OpensComment c cs)
    (hrest : afterComment c cs = some rest) (h : NoSecond .normal rest) :
    NoSecond .normal (c :: cs)
  | unclosed {c : Char} {cs : List Char} (hc : OpensComment c cs)
    (hrest : afterComment c cs = none) : NoSecond .normal (c :: cs)
  | escape {st : LexState} {n : Char} {cs : List Char} (hn : st ≠ .normal) (hb : st ≠ .btick)
    (h : NoSecond st cs) : NoSecond st ('\\' :: n :: cs)
  | escapeEnd {st : LexState} (hn : st ≠ .normal) (hb : st ≠ .btick) : NoSecond st ['\\']
  | close {st : LexState} {cs : List Char} (hn : st ≠ .normal) (h : NoSecond .normal cs) :
    NoSecond st (st.quote :: cs)
  | inside {st : LexState} {c : Char} {cs : List Char} (hn : st ≠ .normal) (hq : c ≠ st.quote)
    (hb : c = '\\' → st = .btick) (h : NoSecond st cs) : NoSecond st (c :: cs)

/-- What a table has in parentheses is contained. -/
def Cte.Contained (c : Cte) : Prop :=
  Routing.Contained c.body ∧ ∀ cols ∈ c.columns, Routing.Contained cols.columns

/-- Comment removal and the splitter leave the statement whole. -/
structure CteStatement.Plain (S : CteStatement) : Prop where
  first : S.first.Contained
  more : ∀ c ∈ S.more, c.cte.Contained
  tail : NoSecond .normal S.tail

theorem Literal.lexes {st : LexState} (hst : st ≠ .normal) {x : List Char} (hx : Literal st x)
    {cs out : List Char} {st' : LexState} (h : Lexes .normal cs out st') :
    Lexes st (x ++ st.quote :: cs) (x ++ st.quote :: out) st' := by
  induction hx with
  | nil => exact .close hst h
  | escape hb _ ih => exact .escape hst hb ih
  | double _ ih =>
    refine .close hst (.plain (not_opensComment_quote hst _) ?_)
    rw [opened_quote hst]
    exact ih
  | inside hq hb _ ih => exact .inside hst hq hb ih

/-- No comment begins across a closing parenthesis. -/
theorem noJoin_close (x cs : List Char) : NoJoin x (')' :: cs) := by
  intro c _ d hd
  obtain rfl : ')' = d := by simpa using hd
  exact ⟨fun h => absurd h.2 (by decide), fun h => absurd h.2 (by decide)⟩

/-- **Contained text comes out of comment removal nested**, and outside literals. -/
theorem Contained.body {b : List Char} (h : Contained b) : Body b := by
  induction h with
  | nil => exact ⟨[], .nil, .nil⟩
  | @char c cs ho hc hcom _ ih =>
    obtain ⟨out, hlex, hnest⟩ := ih
    refine ⟨c :: out, .plain hcom ?_, .char ho hc hnest⟩
    rwa [ho]
  | @literal st x cs hst hx _ ih =>
    obtain ⟨out, hlex, hnest⟩ := ih
    refine ⟨_, .plain (not_opensComment_quote hst _) ?_, .literal hst hx hnest⟩
    rw [opened_quote hst]
    exact hx.lexes hst hlex
  | @paren x cs _ _ ihx ih =>
    obtain ⟨ox, hlexx, hnestx⟩ := ihx
    obtain ⟨out, hlex, hnest⟩ := ih
    refine ⟨'(' :: (ox ++ ')' :: out), .plain (not_opensComment (by decide) _) ?_,
      .paren hnestx hnest⟩
    have hclose : Lexes .normal (')' :: cs) (')' :: out) .normal :=
      .plain (not_opensComment (by decide) _) hlex
    refine stripScan_eq_iff.mp ?_
    rw [show opened '(' = .normal by decide, hlexx.stripScan_append (noJoin_close x cs),
      hclose.stripScan_eq]
    rfl
  | comment hc hrest _ ih =>
    obtain ⟨out, hlex, hnest⟩ := ih
    exact ⟨' ' :: out, .comment hc hrest hlex, .char (by decide) (by decide) hnest⟩

theorem tail_consHead (c : Char) {xs : List (List Char)} (hne : xs ≠ []) :
    (consHead c xs).tail = xs.tail := by
  cases xs with
  | nil => exact absurd rfl hne
  | cons x xs => rfl

/-- All of these segments are whitespace. -/
def AllSpace (xs : List (List Char)) : Prop := ∀ x ∈ xs, ∀ c ∈ x, isSpace c = true

theorem AllSpace.consHead {c : Char} (hc : isSpace c = true) {xs : List (List Char)}
    (h : AllSpace xs) (hne : xs ≠ []) : AllSpace (consHead c xs) := by
  cases xs with
  | nil => exact absurd rfl hne
  | cons x xs =>
    obtain ⟨hx, hxs⟩ := List.forall_mem_cons.mp h
    exact List.forall_mem_cons.mpr ⟨List.forall_mem_cons.mpr ⟨hc, hx⟩, hxs⟩

theorem Void.allSpace {s : List Char} (h : Void s) :
    AllSpace (segments .normal (stripScan .normal s).1) := by
  have hblank : isSpace ' ' = true := by decide
  have hone : AllSpace (segments .normal [' ']) := by
    rw [segments_plain (by decide), segments_nil]
    exact AllSpace.consHead hblank (by simp [AllSpace]) (List.cons_ne_nil _ _)
  induction h with
  | nil =>
    rw [stripScan, segments_nil]
    simp [AllSpace]
  | @space c cs hc _ ih =>
    rw [stripScan_plain (not_opensComment_of_isSpace hc cs), opened_of_isSpace hc]
    show AllSpace (segments .normal (c :: _))
    rw [segments_plain (isSpace_ne hc (by decide)), opened_of_isSpace hc]
    exact ih.consHead hc (segments_ne_nil _ _)
  | @semicolon cs _ ih =>
    rw [stripScan_plain (not_opensComment (by decide) cs), show opened ';' = .normal by decide]
    show AllSpace (segments .normal (';' :: _))
    rw [segments_semicolon]
    exact List.forall_mem_cons.mpr ⟨by simp, ih⟩
  | comment hc hrest _ ih =>
    rw [stripScan_comment hc hrest]
    show AllSpace (segments .normal (' ' :: _))
    rw [segments_plain (by decide)]
    exact ih.consHead hblank (segments_ne_nil _ _)
  | unclosed hc hrest =>
    rw [stripScan_unclosed hc hrest]
    exact hone

/-- **Behind the first segment of such a text is nothing but whitespace.** -/
theorem NoSecond.allSpace {st : LexState} {s : List Char} (h : NoSecond st s) :
    AllSpace (segments st (stripScan st s).1).tail := by
  have hnone : AllSpace [] := List.forall_mem_nil _
  induction h with
  | nil st =>
    rw [stripScan, segments_nil]
    exact hnone
  | @semicolon cs h =>
    rw [stripScan_plain (not_opensComment (by decide) cs), show opened ';' = .normal by decide]
    show AllSpace (segments .normal (';' :: _)).tail
    rw [segments_semicolon]
    exact h.allSpace
  | @char c cs hc hcom _ ih =>
    rw [stripScan_plain hcom]
    show AllSpace (segments .normal (c :: _)).tail
    rw [segments_plain hc, tail_consHead c (segments_ne_nil _ _)]
    exact ih
  | comment hc hrest _ ih =>
    rw [stripScan_comment hc hrest]
    show AllSpace (segments .normal (' ' :: _)).tail
    rw [segments_plain (by decide), tail_consHead ' ' (segments_ne_nil _ _)]
    exact ih
  | unclosed hc hrest =>
    rw [stripScan_unclosed hc hrest, segments_plain (by decide), segments_nil]
    exact hnone
  | @escape st n cs hn hb _ ih =>
    rw [stripScan_escape hn hb]
    show AllSpace (segments st ('\\' :: n :: _)).tail
    rw [segments_escape hn hb, tail_consHead _ (consHead_ne_nil _ _),
      tail_consHead n (segments_ne_nil _ _)]
    exact ih
  | @escapeEnd st hn hb =>
    rw [(Lexes.escapeEnd hn hb).stripScan_eq, segments, if_neg hn, if_pos ⟨rfl, hb⟩]
    exact hnone
  | @close st cs hn _ ih =>
    rw [stripScan_close hn]
    show AllSpace (segments st (st.quote :: _)).tail
    rw [segments_close hn, tail_consHead _ (segments_ne_nil _ _)]
    exact ih
  | @inside st c cs hn hq hb _ ih =>
    rw [stripScan_inside hn hq hb]
    show AllSpace (segments st (c :: _)).tail
    rw [segments_inside hn hq hb, tail_consHead c (segments_ne_nil _ _)]
    exact ih

theorem trim_eq_nil {x : List Char} (h : ∀ c ∈ x, isSpace c = true) : trim x = [] := by
  rw [trim, List.dropWhile_eq_nil_iff.mpr h]
  rfl

/-! ### Keywords in any letter case -/

theorem IsKeyword.isAlpha {w : List Char} {kw : String} (h : IsKeyword w kw)
    (hkw : kw.toList.all Char.isAlpha = true) : ∀ c ∈ w, c.isAlpha = true := by
  intro c hc
  rw [← Char.isAlpha_toLower_eq_isAlpha]
  refine List.all_eq_true.mp hkw _ ?_
  rw [← h]
  exact List.mem_map_of_mem hc

theorem cteKeyword_of_isKeyword {w : List Char} {kw : String} (h : IsKeyword w kw)
    (hkw : kw.toList.map lower = kw.toList) : cteKeyword w = cteKeyword kw.toList := by
  have hlen : w.length = kw.toList.length := by rw [← h, List.length_map]
  rw [cteKeyword, cteKeyword, h, hlen, hkw]

theorem dropWhile_of_isAlpha {w : List Char} (h : ∀ c ∈ w, c.isAlpha = true) :
    w.dropWhile (fun c => !c.isAlpha) = w := by
  cases w with
  | nil => rfl
  | cons c w =>
    have hc : c.isAlpha = true := h c (List.mem_cons_self ..)
    simp [hc]

/-- A keyword of the grammar as the scan for a keyword reads it. -/
theorem wordKeyword_of_isKeyword {w : List Char} {kw : String} (h : IsKeyword w kw)
    (hkw : kw.toList.all Char.isAlpha = true ∧ kw.toList.map lower = kw.toList) :
    wordKeyword w = cteKeyword kw.toList := by
  rw [wordKeyword, dropWhile_of_isAlpha (h.isAlpha hkw.1), cteKeyword_of_isKeyword h hkw.2]

theorem isWord_of_isKeyword {w : List Char} {kw : String} (h : IsKeyword w kw)
    (hkw : kw.toList.all Char.isAlpha = true) : ∀ c ∈ w, isWord c = true :=
  fun c hc => isWord_of_isAlpha (h.isAlpha hkw c hc)

/-! ### The parts are pieces -/

/-- What stands in front of a text that does not begin with a character of a word. -/
theorem boundary_append_of_space {o : List Char} (ho : ∀ c ∈ o, isSpace c = true) {y : List Char}
    (h : o ≠ [] ∨ Boundary y) : Boundary (o ++ y) := by
  cases o with
  | nil => exact h.resolve_left fun hne => hne rfl
  | cons c o =>
    intro d hd
    obtain rfl : c = d := by simpa using hd
    exact isWord_of_isSpace (ho c (List.mem_cons_self ..))

theorem Name.Quoted.piece {n : Name} (hn : n.Quoted) :
    ∃ o, Piece n.text o none ∧ Boundary o ∧ o ≠ [] := by
  cases n with
  | quoted x hx =>
    refine ⟨_, hx.piece (by decide), fun c hc => ?_, List.cons_ne_nil _ _⟩
    obtain rfl : LexState.btick.quote = c := by simpa using hc
    decide
  | bare w hw hne => exact hn.elim

/-- A name in front of a piece; a bare name must not run into it. -/
theorem Name.piece (n : Name) {x o : List Char} (h : Piece x o none) (hne : o ≠ [])
    (ho : ¬ n.Quoted → Boundary o) :
    ∃ o', Piece (n.text ++ x) o' n.keyword ∧ (n.Quoted → Boundary o' ∧ o' ≠ []) := by
  cases n with
  | quoted x hx =>
    obtain ⟨o₁, h₁, hb, hne₁⟩ := Name.Quoted.piece (n := .quoted x hx) trivial
    exact ⟨o₁ ++ o, h₁.append h, fun _ => ⟨hb.append hne₁ o, by simp [hne₁]⟩⟩
  | bare w hw hw0 =>
    have hp := h.word hw (ho id) hne
    rw [Option.or_none] at hp
    exact ⟨w ++ o, hp, fun hq => hq.elim⟩

theorem Columns.piece {c : Columns} (hc : Contained c.columns) :
    ∃ o, Piece (columnsText (some c)) ('(' :: o) none := by
  obtain ⟨o₁, h₁⟩ := hc.body.piece
  obtain ⟨o₂, h₂, -⟩ := c.gap_gap.piece
  exact ⟨o₁ ++ o₂, h₁.append h₂⟩

theorem boundary_paren (o : List Char) : Boundary ('(' :: o) := by
  intro c hc
  obtain rfl : '(' = c := by simpa using hc
  decide

/-- `AS (body)` -/
theorem Cte.piece_as {c : Cte} (hc : c.Contained) :
    ∃ o, o ≠ [] ∧ Piece (c.as ++ (c.gapAs ++ '(' :: (c.body ++ [')']))) o none := by
  obtain ⟨o₁, h₁⟩ := hc.1.body.piece
  obtain ⟨o₂, h₂, hsp, -⟩ := c.gap_gapAs.piece
  have hword := isWord_of_isKeyword c.isKeyword_as (by decide)
  have hp := (h₂.append h₁).word hword (boundary_append_of_space hsp (.inr (boundary_paren o₁)))
    (by simp)
  rw [wordKeyword_of_isKeyword c.isKeyword_as (by decide)] at hp
  exact ⟨_, by simp, hp⟩

theorem Cte.piece {c : Cte} (hcont : c.Contained) :
    ∃ o, Piece c.text o c.name.keyword ∧ (c.name.Quoted → Boundary o ∧ o ≠ []) := by
  obtain ⟨o₁, hne₁, h₁⟩ := Cte.piece_as hcont
  obtain ⟨o₂, h₂, hsp, hne₂⟩ := c.gap_gapName.piece
  cases hc : c.columns with
  | none =>
    have hp := h₂.append h₁
    obtain ⟨o, h, hq⟩ := c.name.piece hp (by simp [hne₁]) fun hbare =>
      boundary_append_of_space hsp (.inl (hne₂ fun hg => hbare (c.sep hg hc)))
    rw [Cte.text, hc]
    exact ⟨o, h, hq⟩
  | some cols =>
    obtain ⟨o₃, h₃⟩ := Columns.piece (hcont.2 cols hc)
    have hp := h₂.append (h₃.append h₁)
    obtain ⟨o, h, hq⟩ := c.name.piece hp (by simp) fun _ =>
      boundary_append_of_space hsp (.inr (boundary_paren (o₃ ++ o₁)))
    rw [Cte.text, hc]
    exact ⟨o, h, hq⟩

theorem NextCte.piece {c : NextCte} (hc : c.cte.Contained) :
    ∃ o, Piece c.text o c.cte.name.keyword := by
  obtain ⟨o₁, h₁, -⟩ := c.gap_gapComma.piece
  obtain ⟨o₂, h₂, -⟩ := c.gap_gapNext.piece
  obtain ⟨o₃, h₃, -⟩ := Cte.piece hc
  exact ⟨_, h₁.append (Piece.comma.append (h₂.append h₃))⟩

theorem findSome?_keyword_cons (n : Name) (ns : List Name) :
    (n :: ns).findSome? Name.keyword = n.keyword.or (ns.findSome? Name.keyword) := by
  rw [List.findSome?_cons]
  cases n.keyword with
  | none => rfl
  | some t => rfl

theorem piece_more {more : List NextCte} (h : ∀ c ∈ more, c.cte.Contained) :
    ∃ o, Piece (more.flatMap NextCte.text) o
      ((more.map fun c => c.cte.name).findSome? Name.keyword) := by
  induction more with
  | nil => exact ⟨[], .nil⟩
  | cons c more ih =>
    rw [List.forall_mem_cons] at h
    obtain ⟨o₁, h₁⟩ := NextCte.piece h.1
    obtain ⟨o₂, h₂⟩ := ih h.2
    rw [List.flatMap_cons, List.map_cons, findSome?_keyword_cons]
    exact ⟨o₁ ++ o₂, h₁.append h₂⟩

/-- The tables, up to the main statement. -/
theorem CteStatement.piece_tables {S : CteStatement} (hplain : S.Plain) :
    ∃ o, Piece (S.first.text ++ (S.more.flatMap NextCte.text ++ S.gapMain)) o
      (S.names.findSome? Name.keyword) ∧ (S.first.name.Quoted → Boundary o ∧ o ≠ []) := by
  obtain ⟨o₁, h₁, hq⟩ := Cte.piece hplain.first
  obtain ⟨o₂, h₂⟩ := piece_more hplain.more
  obtain ⟨o₃, h₃, -⟩ := S.gap_gapMain.piece
  have hp := h₁.append (h₂.append h₃)
  rw [Option.or_none, ← findSome?_keyword_cons] at hp
  refine ⟨_, hp, fun h => ?_⟩
  obtain ⟨hb, hne⟩ := hq h
  exact ⟨hb.append hne _, by simp [hne]⟩

/-- Everything between `WITH` and the main statement. -/
theorem CteStatement.piece {S : CteStatement} (hplain : S.Plain) :
    ∃ o, Piece (S.gapWith ++ (recursiveText S.recursive ++ (S.first.text ++
      (S.more.flatMap NextCte.text ++ S.gapMain)))) o (S.names.findSome? Name.keyword) ∧
      Boundary o ∧ o ≠ [] := by
  obtain ⟨o₁, h₁, hq⟩ := CteStatement.piece_tables hplain
  obtain ⟨o₂, h₂, hsp, hne₂⟩ := S.gap_gapWith.piece
  cases hr : S.recursive with
  | none =>
    refine ⟨o₂ ++ o₁, h₂.append h₁, ?_⟩
    by_cases hg : S.gapWith = []
    · obtain ⟨hb, hne⟩ := hq (S.sepWith hg).2
      exact ⟨boundary_append_of_space hsp (.inr hb), by simp [hne]⟩
    · exact ⟨boundary_append_of_space hsp (.inl (hne₂ hg)), by simp [hne₂ hg]⟩
  | some r =>
    obtain ⟨o₃, h₃, hsp₃, hne₃⟩ := r.gap_gap.piece
    have hrest : Boundary (o₃ ++ o₁) ∧ o₃ ++ o₁ ≠ [] := by
      by_cases hg : r.gap = []
      · obtain ⟨hb, hne⟩ := hq (S.sepRecursive r hr hg)
        exact ⟨boundary_append_of_space hsp₃ (.inr hb), by simp [hne]⟩
      · exact ⟨boundary_append_of_space hsp₃ (.inl (hne₃ hg)), by simp [hne₃ hg]⟩
    have hword := isWord_of_isKeyword r.isKeyword_word (by decide)
    have hp := h₂.append ((h₃.append h₁).word hword hrest.1 hrest.2)
    rw [wordKeyword_of_isKeyword r.isKeyword_word (by decide)] at hp
    have hg : S.gapWith ≠ [] := fun hg => absurd (hr.symm.trans (S.sepWith hg).1) (by simp)
    refine ⟨o₂ ++ (r.word ++ (o₃ ++ o₁)), ?_, boundary_append_of_space hsp (.inl (hne₂ hg)),
      by simp [hne₂ hg]⟩
    rw [recursiveText, List.append_assoc]
    exact hp

/-! ### The statement as a whole -/

theorem mainKeywords_spec : ∀ p ∈ mainKeywords, p.1.toList.all Char.isAlpha = true ∧
    p.1.toList.map lower = p.1.toList ∧ p.1.toList ≠ [] ∧ cteKeyword p.1.toList = some p.2 := by
  decide

theorem IsKeyword.ne_nil {w : List Char} {kw : String} (h : IsKeyword w kw) (hkw : kw.toList ≠ []) :
    w ≠ [] := by
  rintro rfl
  exact hkw h.symm

/-- Once only the main keyword is in front of the scan, it decides. -/
theorem classifyOne_cte {w o m h : List Char} {r : Option QueryType} {p : String × QueryType}
    (hw : IsKeyword w "with") (hread : Reads (w ++ o) r) (hb : Boundary o) (hne : o ≠ [])
    (hp : p ∈ mainKeywords) (hm : IsKeyword m p.1) (hh : Boundary h) :
    classifyOne ((w ++ o) ++ m ++ h) = r.getD p.2 := by
  obtain ⟨halpha, hlower, -, htype⟩ := mainKeywords_spec p hp
  have hlen : w.length = 4 := by
    rw [← List.length_map lower, hw]
    rfl
  obtain ⟨hskip, hkw⟩ := firstKeyword_append (y := o ++ (m ++ h)) (hw.isAlpha (by decide))
    (hw.ne_nil (by decide)) (Boundary.startsNot_isAlpha (hb.append hne _))
  rw [if_neg (by omega)] at hkw
  have hscan : cteScan .normal 0 ((w ++ o) ++ (m ++ h)) = r.getD p.2 := by
    rw [hread, cteScan_word (isWord_of_isKeyword hm halpha) hh,
      wordKeyword_of_isKeyword hm ⟨halpha, hlower⟩, htype]
    rfl
  simp only [List.append_assoc] at hscan ⊢
  rw [classifyOne, hkw, hw, if_neg (by decide), if_pos rfl, hskip, classifyCte, hscan]

/-- A plain statement is the only one of its text, and is classified by the first name taken for a
keyword or by the keyword of the main statement. -/
theorem CteStatement.exists_statement {S : CteStatement} (hplain : S.Plain) :
    ∃ stmt, statements S.text = [stmt] ∧
      classifyOne stmt = (S.names.findSome? Name.keyword).getD S.kind := by
  obtain ⟨o, hp, hb, hne⟩ := CteStatement.piece hplain
  obtain ⟨p, hmem, hmain, hkind⟩ := S.isKeyword_main
  obtain ⟨halpha, -, hkw, -⟩ := mainKeywords_spec p hmem
  have hpiece := hp.word (isWord_of_isKeyword S.isKeyword_with (by decide)) hb hne
  rw [wordKeyword_of_isKeyword S.isKeyword_with (by decide)] at hpiece
  have hmainWord := isWord_of_isKeyword hmain halpha
  have hmainNe := hmain.ne_nil hkw
  have hhead : ∀ c ∈ (S.with_ ++ o ++ S.main).head?, isSpace c = false := by
    intro c hc
    refine isSpace_of_isAlpha (S.isKeyword_with.isAlpha (by decide) c (List.mem_of_head? ?_))
    rwa [List.append_assoc,
      List.head?_append_of_ne_nil _ (S.isKeyword_with.ne_nil (by decide))] at hc
  have hlast : ∀ c ∈ (S.with_ ++ o ++ S.main).getLast?, isSpace c = false := by
    intro c hc
    refine isSpace_of_isAlpha (hmain.isAlpha halpha c (List.mem_of_getLast? ?_))
    rwa [List.getLast?_append_of_ne_nil _ hmainNe] at hc
  obtain ⟨h, t, hseg, hstmts⟩ := statements_of_lead (y := S.tail) S.gap_lead
    (hpiece.passes.append (Passes.word hmainWord))
    (hpiece.unsplit.append (Unsplit.word hmainWord)) hhead hlast (by simp [hmainNe])
  have htext : S.text = S.lead ++ ((S.with_ ++ (S.gapWith ++ (recursiveText S.recursive ++
      (S.first.text ++ (S.more.flatMap NextCte.text ++ S.gapMain)))) ++ S.main) ++ S.tail) := by
    simp [CteStatement.text]
  have hbound : Boundary (h.rdropWhile isSpace) :=
    ((StartsNot.strip (by decide) S.boundary_tail).of_segments hseg).of_isPrefix
      (List.rdropWhile_prefix _ _)
  -- behind the first `;` there is nothing left to be a statement
  have hspace : AllSpace t := by
    have hall := hplain.tail.allSpace
    rwa [show (stripScan .normal S.tail).1 = stripComments S.tail from rfl, hseg] at hall
  have hrest : (t.map trim).filter (· ≠ []) = [] := by
    refine List.filter_eq_nil_iff.mpr fun x hx => ?_
    obtain ⟨y, hy, rfl⟩ := List.mem_map.mp hx
    simp [trim_eq_nil (hspace y hy)]
  rw [hrest] at hstmts
  refine ⟨_, htext ▸ hstmts, ?_⟩
  rw [hkind]
  exact classifyOne_cte S.isKeyword_with hpiece.reads hb hne hmem hmain hbound

/-- **What a plain CTE is classified as**: the first table name taken for a keyword decides, else
the keyword of the main statement. -/
theorem CteStatement.classify_eq {S : CteStatement} (hplain : S.Plain) :
    classify S.text = (S.names.findSome? Name.keyword).getD S.kind := by
  obtain ⟨stmt, hstmts, hone⟩ := CteStatement.exists_statement hplain
  rw [classify, hstmts]
  exact hone

/-- No table name is taken for a keyword of another type before one that is taken for a keyword of
the type of `K`. -/
def CteStatement.NamesAgree (S : CteStatement) : Prop :=
  ∀ t, S.names.findSome? Name.keyword = some t → t = S.kind

/-- **A CTE is classified by its main statement** if it is plain and its names agree; and of the
plain statements only those are whose names agree. -/
theorem classify_cte_iff (S : CteStatement) :
    (S.Plain ∧ S.NamesAgree → classify S.text = S.kind) ∧
      (S.Plain → classify S.text = S.kind → S.NamesAgree) := by
  have hiff : S.Plain → (classify S.text = S.kind ↔ S.NamesAgree) := by
    intro hplain
    rw [CteStatement.classify_eq hplain, CteStatement.NamesAgree]
    cases S.names.findSome? Name.keyword with
    | none => exact iff_of_true rfl fun t h => absurd h (by simp)
    | some t => exact ⟨fun h t' ht' => Option.some.inj ht' ▸ h, fun h => h t rfl⟩
  refine ⟨?_, ?_⟩
  · rintro ⟨hplain, hnames⟩
    exact (hiff hplain).mpr hnames
  · intro hplain
    exact (hiff hplain).mp

/-! ### Statements that are not classified by `K` -/

theorem ordinary_of_all {x : List Char} (h : x.all (fun c => isWord c || isSpace c) = true) :
    ∀ c ∈ x, opened c = .normal ∧ (c ≠ '(' ∧ c ≠ ')' ∧ c ≠ ';') ∧ ∀ cs, ¬ OpensComment c cs := by
  intro c hc
  rcases Bool.or_eq_true_iff.mp (List.all_eq_true.mp h c hc) with hw | hs
  · exact ⟨opened_of_isWord hw,
      ⟨isWord_ne hw (by decide), isWord_ne hw (by decide), isWord_ne hw (by decide)⟩,
      not_opensComment_of_isWord hw⟩
  · exact ⟨opened_of_isSpace hs,
      ⟨isSpace_ne hs (by decide), isSpace_ne hs (by decide), isSpace_ne hs (by decide)⟩,
      not_opensComment_of_isSpace hs⟩

/-- Words and whitespace are contained. -/
theorem Contained.of_words {x : List Char} (h : x.all (fun c => isWord c || isSpace c) = true) :
    Contained x := by
  have hx := ordinary_of_all h
  clear h
  induction x with
  | nil => exact .nil
  | cons c x ih =>
    obtain ⟨⟨ho, hc, hcom⟩, hx⟩ := List.forall_mem_cons.mp hx
    exact .char ho hc (hcom x) (ih hx)

theorem NoSecond.of_words {x : List Char} (h : x.all (fun c => isWord c || isSpace c) = true) :
    NoSecond .normal x := by
  have hx := ordinary_of_all h
  clear h
  induction x with
  | nil => exact .nil _
  | cons c x ih =>
    obtain ⟨⟨ho, hc, hcom⟩, hx⟩ := List.forall_mem_cons.mp hx
    refine .char hc.2.2 (hcom x) ?_
    rw [ho]
    exact ih hx

theorem gap_space : Gap [' '] := .space (by decide) .nil

/-- A bare name. -/
def Name.ofWord (w : String) (hw : w.toList.all isWord = true ∧ w.toList ≠ []) : Name :=
  .bare w.toList (List.all_eq_true.mp hw.1) hw.2

/-- `WITH n AS (body) DELETE FROM t` -/
def deleteWith (n : Name) (body : String) (hbody : Balanced body.toList) : CteStatement where
  lead := []
  with_ := "WITH".toList
  gapWith := [' ']
  recursive := none
  first :=
    { name := n
      gapName := [' ']
      columns := none
      as := "AS".toList
      gapAs := [' ']
      body := body.toList
      gap_gapName := gap_space
      isKeyword_as := by decide
      gap_gapAs := gap_space
      body_body := hbody
      sep := fun h => absurd h (by simp) }
  more := []
  gapMain := [' ']
  main := "DELETE".toList
  kind := .delete
  tail := " FROM t".toList
  gap_lead := .nil
  isKeyword_with := by decide
  gap_gapWith := gap_space
  gap_gapMain := gap_space
  isKeyword_main := ⟨("delete", .delete), by decide, by decide, rfl⟩
  sepWith := fun h => absurd h (by simp)
  sepRecursive := fun _ h => absurd h (by simp)
  boundary_tail := by
    intro c hc
    obtain rfl : ' ' = c := by simpa using hc
    decide

/-- A table named `selected`. -/
theorem classify_cte_selected :
    classify (deleteWith (.ofWord "selected" (by decide)) "SELECT 1" (.of_all (by decide))).text =
      .delete := by
  refine (classify_cte_iff (deleteWith (.ofWord "selected" (by decide)) "SELECT 1"
    (.of_all (by decide)))).1 ⟨⟨⟨?_, ?_⟩, ?_, ?_⟩, ?_⟩
  · exact .of_words (by decide)
  · exact fun cols h => absurd h (by simp [deleteWith])
  · exact fun c h => absurd h (by simp [deleteWith])
  · exact .of_words (by decide)
  · exact fun t h => absurd h (by decide +kernel +revert)

/-- A table named `_select`, a `;` in a body, and a body in which two minus signs are taken for a
comment that does not end there: each `DELETE` is classified as a `SELECT`. -/
theorem classify_cte_not_delete :
    classify (deleteWith (.ofWord "_select" (by decide)) "SELECT 1"
        (.of_all (by decide))).text ≠ .delete ∧
      classify (deleteWith (.ofWord "a" (by decide)) "SELECT 1; SELECT 2"
        (.of_all (by decide))).text ≠ .delete ∧
      classify (deleteWith (.ofWord "a" (by decide)) "SELECT 5--1"
        (.of_all (by decide))).text ≠ .delete := by
  decide +kernel

end DBMesh.Routing
