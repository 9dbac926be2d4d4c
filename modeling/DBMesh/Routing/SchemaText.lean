import DBMesh.Routing.QuotedNames

/-!
# What the scan for a schema has read

Where the scan for a schema stands in a text says what the text before it ends with: a keyword, a
keyword with a name behind it, a name with a dot, the beginning of a quoted name or of a literal.
The converse fails where the scan reads quotes otherwise than they are meant. So a condition on
these patterns is one on the text alone, and what the scan can do wrong is found under it.

The same is said of the text in front of the scan: it finds a schema behind a keyword exactly if a
qualified name stands there, which is a name, a dot and the beginning of another name.

## Main definitions

* `DBMesh.Routing.Outside` — a text can be read so as to end outside `'…'` literals
* `DBMesh.Routing.AfterKeyword`, `AfterName`, `AfterDot`, `InName` — what it can end with there
* `DBMesh.Routing.Qualified` — a text begins with a qualified name

## Main results

* `DBMesh.Routing.behind_run` — what stands behind a place of the scan
* `DBMesh.Routing.unqualified_iff` — a name without a schema is one that is not qualified
* `DBMesh.Routing.exists_keyword_of_extract` — a schema is found behind a keyword
-/

namespace DBMesh.Routing

open Place

/-! ### What a text ends with -/

def Blank (g : List Char) : Prop := ∀ c ∈ g, isSpace c = true

/-- The quotes of a name. -/
abbrev NameQuote (q : Char) : Prop := q = '\x60' ∨ q = '"'

/-- One of the five words as a whole word, with nothing but whitespace behind it. -/
def KeywordBefore (u : List Char) : Prop :=
  ∃ a k g, u = a ++ (k ++ g) ∧ EndsNot isIdent a ∧ k.map lower ∈ tableKeywords ∧ Blank g

/-- The text can be read so as to end outside `'…'` literals. A quoted name behind a keyword is read
as a whole. -/
inductive Outside : List Char → Prop
  | nil : Outside []
  | char {u : List Char} {c : Char} (h : Outside u) (hc : c ≠ '\'') : Outside (u ++ [c])
  | literal {u x : List Char} (h : Outside u) (hx : Literal .squote x) :
    Outside (u ++ '\'' :: (x ++ ['\'']))
  | name {u n : List Char} {q : Char} (h : Outside u) (hk : KeywordBefore u) (hq : NameQuote q) :
    Outside (u ++ (Spelling.quoted q).write n)

def AfterKeyword (u : List Char) : Prop := Outside u ∧ KeywordBefore u

/-- A name behind a keyword, with nothing but whitespace behind it. -/
def AfterName (u : List Char) : Prop :=
  ∃ k sp n g, u = k ++ (Spelling.write sp n ++ g) ∧ AfterKeyword k ∧
    (sp = .bare → EndsNot isIdent k) ∧ sp.Writes n ∧ Blank g

/-- A name behind a keyword, a dot, and nothing but whitespace behind it. -/
def AfterDot (u : List Char) : Prop := ∃ k g, u = k ++ '.' :: g ∧ AfterName k ∧ Blank g

/-- A quoted name behind a keyword that is not closed. -/
def InName (u : List Char) : Prop :=
  ∃ k q n, u = k ++ q :: doubled q n ∧ AfterKeyword k ∧ NameQuote q

theorem blank_nil : Blank [] := fun _ hc => absurd hc List.not_mem_nil

theorem Blank.concat {g : List Char} {c : Char} (hg : Blank g) (hc : isSpace c = true) :
    Blank (g ++ [c]) := by
  intro d hd
  obtain hd | hd := List.mem_append.mp hd
  · exact hg d hd
  · rwa [List.mem_singleton.mp hd]

theorem NameQuote.facts {q : Char} (hq : NameQuote q) :
    isIdent q = false ∧ isSpace q = false ∧ q ≠ '\'' ∧ q ≠ '.' := by
  obtain rfl | rfl := hq <;> decide

theorem KeywordBefore.space {u : List Char} {c : Char} (h : KeywordBefore u)
    (hc : isSpace c = true) : KeywordBefore (u ++ [c]) := by
  obtain ⟨a, k, g, rfl, ha, hk, hg⟩ := h
  exact ⟨a, k, g ++ [c], by simp, ha, hk, hg.concat hc⟩

theorem AfterKeyword.space {u : List Char} {c : Char} (h : AfterKeyword u)
    (hc : isSpace c = true) : AfterKeyword (u ++ [c]) :=
  ⟨h.1.char (isSpace_ne hc (by decide)), h.2.space hc⟩

theorem AfterName.space {u : List Char} {c : Char} (h : AfterName u) (hc : isSpace c = true) :
    AfterName (u ++ [c]) := by
  obtain ⟨k, sp, n, g, rfl, hk, hbare, hn, hg⟩ := h
  exact ⟨k, sp, n, g ++ [c], by simp, hk, hbare, hn, hg.concat hc⟩

theorem AfterDot.space {u : List Char} {c : Char} (h : AfterDot u) (hc : isSpace c = true) :
    AfterDot (u ++ [c]) := by
  obtain ⟨k, g, rfl, hk, hg⟩ := h
  exact ⟨k, g ++ [c], by simp, hk, hg.concat hc⟩

theorem doubled_concat (q c : Char) (n : List Char) :
    doubled q (n ++ [c]) = doubled q n ++ if c = q then [q, q] else [c] := by
  rw [doubled, List.flatMap_append, List.flatMap_singleton]
  rfl

theorem bareName_singleton {c : Char} (hc : isIdent c = true) : BareName [c] := by
  refine ⟨List.cons_ne_nil c [], fun d hd => ?_⟩
  rwa [List.mem_singleton.mp hd]

theorem BareName.concat {x : List Char} {c : Char} (hx : ∀ d ∈ x, isIdent d = true)
    (hc : isIdent c = true) : BareName (x ++ [c]) := by
  refine ⟨by simp, fun d hd => ?_⟩
  obtain hd | hd := List.mem_append.mp hd
  · exact hx d hd
  · rwa [List.mem_singleton.mp hd]

theorem Outside.word {a x : List Char} (ha : Outside a) (hx : ∀ c ∈ x, isIdent c = true) :
    Outside (a ++ x) := by
  induction x using List.reverseRecOn with
  | nil => rwa [List.append_nil]
  | append_singleton x c ih =>
    have hx' := List.forall_mem_append.mp hx
    rw [← List.append_assoc]
    exact (ih hx'.1).char (isWord_ne (hx'.2 c List.mem_cons_self) (by decide))

/-! ### What stands behind a place -/

/-- What the text before a place of the scan ends with. -/
def Behind (u : List Char) : Place → Prop
  | .gap => Outside u ∧ EndsNot isIdent u
  | .word w => ∃ a x, u = a ++ x ∧ Outside a ∧ EndsNot isIdent a ∧ BareName x ∧ w = x.map lower
  | .literal => ∃ a x, u = a ++ '\'' :: x ∧ Outside a ∧ Literal .squote x
  | .escape => ∃ a x, u = a ++ '\'' :: (x ++ ['\\']) ∧ Outside a ∧ Literal .squote x
  | .name => AfterKeyword u ∧ EndsNot isIdent u
  | .bare n => Outside u ∧ ∃ k, u = k ++ n ∧ AfterKeyword k ∧ EndsNot isIdent k ∧ BareName n
  | .quoted q n => ∃ k, u = k ++ q :: doubled q n ∧ AfterKeyword k ∧ NameQuote q
  | .closing q n => ∃ k, u = k ++ (Spelling.quoted q).write n ∧ AfterKeyword k ∧ NameQuote q
  | .dot _ => AfterName u ∧ Outside u ∧ EndsNot isIdent u
  | .table _ => AfterDot u ∧ Outside u ∧ EndsNot isIdent u
  | .tableQuoted q _ => Outside u ∧ NameQuote q
  | .tableClosing q _ => Outside u ∧ EndsNot isIdent u ∧ NameQuote q
  | .found _ => True

section

variable {u : List Char} {c : Char}

theorem behind_fromGap (hu : Outside u) (hword : isIdent c = true → EndsNot isIdent u) :
    Behind (u ++ [c]) (fromGap c) := by
  rw [fromGap]
  split_ifs with hquote hi
  · subst hquote
    exact ⟨u, [], rfl, hu, .nil⟩
  · exact ⟨u, [c], rfl, hu, hword hi, bareName_singleton hi, rfl⟩
  · exact ⟨hu.char hquote, endsNot_concat (Bool.eq_false_iff.mpr hi) u⟩

theorem behind_fromName (hu : AfterKeyword u) (hword : isIdent c = true → EndsNot isIdent u) :
    Behind (u ++ [c]) (fromName c) := by
  rw [fromName]
  split_ifs with hs hq hi
  · exact ⟨hu.space hs, endsNot_concat (isWord_of_isSpace hs) u⟩
  · exact ⟨u, rfl, hu, hq⟩
  · exact ⟨hu.1.char (isWord_ne hi (by decide)), u, rfl, hu, hword hi,
      bareName_singleton hi⟩
  · exact behind_fromGap hu.1 hword

theorem behind_fromDot (n : SchemaName) (hname : AfterName u) (hu : Outside u)
    (hword : isIdent c = true → EndsNot isIdent u) : Behind (u ++ [c]) (fromDot n c) := by
  rw [fromDot]
  split_ifs with hs hdot
  · exact ⟨hname.space hs, hu.char (isSpace_ne hs (by decide)),
      endsNot_concat (isWord_of_isSpace hs) u⟩
  · subst hdot
    exact ⟨⟨u, [], rfl, hname, blank_nil⟩, hu.char (by decide), endsNot_concat (by decide) u⟩
  · exact behind_fromGap hu hword

/-- **One character further.** -/
theorem Behind.step {p : Place} (h : Behind u p) (c : Char) : Behind (u ++ [c]) (p.step c) := by
  cases p with
  | gap => exact behind_fromGap h.1 fun _ => h.2
  | word w =>
    obtain ⟨a, x, rfl, ha, hend, ⟨-, hx⟩, rfl⟩ := h
    have hu : Outside (a ++ x) := ha.word hx
    rw [Place.step]
    split_ifs with hi hkw
    · exact ⟨a, x ++ [c], List.append_assoc a x [c], ha, hend, BareName.concat hx hi, by simp⟩
    · refine behind_fromName ⟨hu, a, x, [], by simp, hend, hkw, blank_nil⟩ fun hi' => ?_
      exact absurd hi' hi
    · exact behind_fromGap hu fun hi' => absurd hi' hi
  | literal =>
    obtain ⟨a, x, rfl, ha, hx⟩ := h
    rw [Place.step]
    split_ifs with hescape hquote
    · subst hescape
      exact ⟨a, x, by simp, ha, hx⟩
    · subst hquote
      refine ⟨?_, endsNot_concat (by decide) _⟩
      have hout := ha.literal hx
      rwa [← List.cons_append, ← List.append_assoc] at hout
    · refine ⟨a, x ++ [c], by simp, ha, hx.append ?_⟩
      exact .inside hquote (fun hc => absurd hc hescape) .nil
  | escape =>
    obtain ⟨a, x, rfl, ha, hx⟩ := h
    exact ⟨a, x ++ ['\\', c], by simp, ha, hx.append (.escape (by decide) .nil)⟩
  | name => exact behind_fromName h.1 fun _ => h.2
  | bare n =>
    obtain ⟨hu, k, rfl, hk, hend, ⟨hne, hn⟩⟩ := h
    rw [Place.step]
    split_ifs with hi
    · exact ⟨hu.char (isWord_ne hi (by decide)), k, List.append_assoc k n [c], hk, hend,
        BareName.concat hn hi⟩
    · refine behind_fromDot n ⟨k, .bare, n, [], ?_, hk, fun _ => hend, ⟨hne, hn⟩, blank_nil⟩ hu
        fun hi' => absurd hi' hi
      rw [List.append_nil]
      rfl
  | quoted q n =>
    obtain ⟨k, rfl, hk, hq⟩ := h
    rw [Place.step]
    split_ifs with hc
    · subst hc
      exact ⟨k, by simp [Spelling.write], hk, hq⟩
    · refine ⟨k, ?_, hk, hq⟩
      rw [doubled_concat, if_neg hc]
      simp
  | closing q n =>
    obtain ⟨k, rfl, hk, hq⟩ := h
    have hout : Outside (k ++ (Spelling.quoted q).write n) := hk.1.name hk.2 hq
    have hend : EndsNot isIdent (k ++ (Spelling.quoted q).write n) := by
      have hwrite : k ++ (Spelling.quoted q).write n = k ++ q :: doubled q n ++ [q] := by
        simp [Spelling.write]
      rw [hwrite]
      exact endsNot_concat hq.facts.1 _
    rw [Place.step]
    split_ifs with hc hn
    · subst hc
      refine ⟨k, ?_, hk, hq⟩
      rw [doubled_concat, if_pos rfl]
      simp [Spelling.write]
    · exact behind_fromGap hout fun _ => hend
    · refine behind_fromDot n ⟨k, .quoted q, n, [], ?_, hk, ?_, ⟨hq, hn⟩, blank_nil⟩ hout
        fun _ => hend
      · rw [List.append_nil]
      · exact fun h => absurd h (by simp)
  | dot n => exact behind_fromDot n h.1 h.2.1 fun _ => h.2.2
  | table n =>
    obtain ⟨hdot, hu, hend⟩ := h
    rw [Place.step]
    split_ifs with hs hq hi
    · exact ⟨hdot.space hs, hu.char (isSpace_ne hs (by decide)),
        endsNot_concat (isWord_of_isSpace hs) u⟩
    · exact ⟨hu.char (NameQuote.facts hq).2.2.1, hq⟩
    · trivial
    · exact behind_fromGap hu fun _ => hend
  | tableQuoted q n =>
    obtain ⟨hu, hq⟩ := h
    rw [Place.step]
    split_ifs with hc
    · subst hc
      exact ⟨hu.char hq.facts.2.2.1, endsNot_concat hq.facts.1 u, hq⟩
    · trivial
  | tableClosing q n =>
    rw [Place.step]
    split_ifs
    · trivial
    · exact behind_fromGap h.1 fun _ => h.2.1
  | found n => trivial

end

/-- **What stands behind a place** to which the scan of a text comes. -/
theorem behind_run (u : List Char) : Behind u (gap.run u) := by
  induction u using List.reverseRecOn with
  | nil => exact ⟨.nil, fun c hc => absurd hc (by simp)⟩
  | append_singleton u c ih =>
    rw [run_append]
    exact ih.step c

/-! ### Qualified names -/

/-- The text begins with a name, of which the first character is there. -/
inductive StartsName : List Char → Prop
  | bare {c : Char} {r : List Char} (hc : isIdent c = true) : StartsName (c :: r)
  | quoted {q c : Char} {r : List Char} (hq : NameQuote q) : StartsName (q :: (doubled q [c] ++ r))

/-- The text begins with a name, a dot and the beginning of another name. -/
def Qualified (b : List Char) : Prop :=
  ∃ sp n g g₁ g₂ t, b = g ++ (Spelling.write sp n ++ (g₁ ++ '.' :: (g₂ ++ t))) ∧ Blank g ∧
    sp.Writes n ∧ Blank g₁ ∧ Blank g₂ ∧ StartsName t

theorem readQuoted_ne_nil_iff {q : Char} {s : List Char} :
    (readQuoted q s).1 ≠ [] ↔ ∃ c r, s = doubled q [c] ++ r := by
  have hone : ∀ c, doubled q [c] = if c = q then [q, q] else [c] := fun c => List.append_nil _
  constructor
  · intro h
    fun_cases readQuoted q s with
    | case1 => exact absurd (by rw [readQuoted]) h
    | case2 cs' r =>
      refine ⟨q, cs', ?_⟩
      rw [hone, if_pos rfl]
      rfl
    | case3 n cs' hn => exact absurd (by simp [readQuoted, hn]) h
    | case4 => exact absurd (by simp [readQuoted]) h
    | case5 c cs hc r =>
      refine ⟨c, cs, ?_⟩
      rw [hone, if_neg hc]
      rfl
  · rintro ⟨c, r, rfl⟩
    rw [hone]
    split_ifs with hc
    · simp [readQuoted]
    · rw [List.singleton_append, readQuoted.eq_def]
      simp [hc]

/-- A quoted name that is closed. -/
theorem eq_of_readQuoted {q : Char} {s : List Char} (h : (readQuoted q s).2 ≠ []) :
    s = doubled q (readQuoted q s).1 ++ q :: (readQuoted q s).2 := by
  fun_induction readQuoted q s with
  | case1 => exact absurd rfl h
  | case2 cs' r ih =>
    rw [doubled_cons, if_pos rfl]
    exact congrArg (q :: q :: ·) (ih h)
  | case3 n cs' hn => rfl
  | case4 => exact absurd rfl h
  | case5 c cs hc r ih =>
    rw [doubled_cons, if_neg hc]
    exact congrArg (c :: ·) (ih h)

theorem exists_blank (s : List Char) : ∃ g, s = g ++ s.dropWhile isSpace ∧ Blank g :=
  ⟨s.takeWhile isSpace, List.takeWhile_append_dropWhile.symm, fun _ hc => List.mem_takeWhile_imp hc⟩

/-- A name is read where one begins. -/
theorem readIdent_ne_nil_iff {s : List Char} :
    (readIdent s).1 ≠ [] ↔ ∃ g t, s = g ++ t ∧ Blank g ∧ StartsName t := by
  constructor
  · intro h
    obtain ⟨g, hg, hblank⟩ := exists_blank s
    refine ⟨g, _, hg, hblank, ?_⟩
    rcases readIdent_cases s with ⟨-, hread⟩ | ⟨c, cs, hs, -, hcases⟩
    · exact absurd (by rw [hread]) h
    · rw [hs]
      rcases hcases with ⟨hq, hread⟩ | ⟨-, hi, -⟩ | ⟨-, -, hread⟩
      · rw [hread] at h
        obtain ⟨d, r, rfl⟩ := readQuoted_ne_nil_iff.mp h
        exact .quoted hq
      · exact .bare hi
      · exact absurd (by rw [hread]) h
  · rintro ⟨g, t, rfl, hg, ht⟩
    rw [readIdent, List.dropWhile_append_of_pos hg]
    cases ht with
    | @bare c r hc =>
      have hquote : ¬ (c = '\x60' ∨ c = '"') := fun hq =>
        absurd (hc.symm.trans (NameQuote.facts hq).1) (by decide)
      have hspace : ¬ isSpace c = true := by simp [isSpace_of_isWord hc]
      rw [List.dropWhile_cons_of_neg hspace]
      dsimp only
      rw [if_neg hquote, List.takeWhile_cons_of_pos hc]
      exact List.cons_ne_nil c _
    | @quoted q c r hq =>
      have hspace : ¬ isSpace q = true := by simp [hq.facts.2.1]
      rw [List.dropWhile_cons_of_neg hspace]
      dsimp only
      rw [if_pos hq]
      exact readQuoted_ne_nil_iff.mpr ⟨c, r, rfl⟩

/-- A name that something follows is written in one of the two ways. -/
theorem exists_of_readIdent {s : List Char} (hne : (readIdent s).1 ≠ [])
    (hr : (readIdent s).2 ≠ []) :
    ∃ sp g, s = g ++ (Spelling.write sp (readIdent s).1 ++ (readIdent s).2) ∧ Blank g ∧
      sp.Writes (readIdent s).1 := by
  obtain ⟨g, hg, hblank⟩ := exists_blank s
  rcases readIdent_cases s with ⟨-, hread⟩ | ⟨c, cs, hs, -, hcases⟩
  · exact absurd (by rw [hread]) hne
  · rw [hs] at hg
    rcases hcases with ⟨hq, hread⟩ | ⟨-, hi, hread⟩ | ⟨-, -, hread⟩
    · rw [hread] at hne hr ⊢
      refine ⟨.quoted c, g, ?_, hblank, hq, hne⟩
      rw [hg, Spelling.write, List.cons_append, List.append_assoc, List.singleton_append,
        ← eq_of_readQuoted hr]
    · rw [hread]
      refine ⟨.bare, g, ?_, hblank, List.cons_ne_nil c _, ?_⟩
      · rw [Spelling.write, List.cons_append, List.takeWhile_append_dropWhile, ← hg]
      · intro d hd
        obtain rfl | hd := List.mem_cons.mp hd
        · exact hi
        · exact List.mem_takeWhile_imp hd
    · exact absurd (by rw [hread]) hne

/-- **A name without a schema** is one that is not qualified. -/
theorem unqualified_iff (b : List Char) : Unqualified b ↔ ¬ Qualified b := by
  rw [Unqualified]
  constructor
  · rintro h ⟨sp, n, g, g₁, g₂, t, rfl, hg, hn, hg₁, hg₂, ht⟩
    have hsecond := readIdent_ne_nil_iff.mpr ⟨g₂, t, rfl, hg₂, ht⟩
    rw [readQualifiedSchema_dot hg hg₁ hn, if_neg hsecond] at h
    exact hn.ne_nil h
  · intro h
    by_contra hne
    refine h ?_
    rw [readQualifiedSchema] at hne
    by_cases hfirst : (readIdent b).1 = []
    · exact absurd (by rw [if_pos hfirst]) hne
    · rw [if_neg hfirst] at hne
      split at hne
      · next cs hdot =>
        have hsecond : (readIdent cs).1 ≠ [] := fun hnil => hne (if_pos hnil)
        have hrest : (readIdent b).2 ≠ [] := by
          intro hnil
          rw [hnil] at hdot
          exact absurd hdot (by simp)
        obtain ⟨sp, g, hb, hg, hn⟩ := exists_of_readIdent hfirst hrest
        obtain ⟨g₁, hg₁, hblank⟩ := exists_blank (readIdent b).2
        obtain ⟨g₂, t, rfl, hg₂, ht⟩ := readIdent_ne_nil_iff.mp hsecond
        refine ⟨sp, _, g, g₁, g₂, t, ?_, hg, hn, hblank, hg₂, ht⟩
        rw [← hdot, ← hg₁]
        exact hb
      · exact absurd rfl hne

instance (b : List Char) : Decidable (Qualified b) :=
  decidable_of_iff (¬ Unqualified b) (by rw [unqualified_iff, not_not])

/-! ### Keywords -/

/-- One of the five words, as a whole word between `a` and `b`. -/
structure KeywordAt (a k b : List Char) : Prop where
  before : EndsNot isIdent a
  keyword : k.map lower ∈ tableKeywords
  after : StartsNot isIdent b

theorem keywordAt_of_run {u w b : List Char} (hw : w ∈ tableKeywords) (hrun : gap.run u = word w)
    (hb : StartsNot isIdent b) : ∃ a k, u = a ++ k ∧ Outside a ∧ KeywordAt a k b := by
  have hbehind := behind_run u
  rw [hrun] at hbehind
  obtain ⟨a, k, hu, hout, ha, -, rfl⟩ := hbehind
  exact ⟨a, k, hu, hout, ha, hw, hb⟩

/-- **A schema is found behind a keyword** in front of a qualified name. -/
theorem exists_keyword_of_run {u s : List Char} (hu : Roaming (gap.run u))
    (h : (gap.run (u ++ s)).result ≠ none) :
    ∃ x a k b, s = x ++ b ∧ u ++ x = a ++ k ∧ Outside a ∧ KeywordAt a k b ∧ Qualified b := by
  rw [run_append] at h
  obtain ⟨x, b, rfl, ⟨w, hw, hrun⟩, hb, hqual⟩ := finds_of_result s hu h
  rw [unqualified_iff, not_not] at hqual
  rw [← run_append] at hrun
  obtain ⟨a, k, hx, hout, hk⟩ := keywordAt_of_run hw hrun hb
  exact ⟨x, a, k, b, rfl, hx, hout, hk, hqual⟩

theorem exists_keyword_of_extract {s : List Char} (h : extract s ≠ none) :
    ∃ a k b, s = a ++ k ++ b ∧ Outside a ∧ KeywordAt a k b ∧ Qualified b := by
  rw [Ne, extract_eq_none_iff] at h
  by_contra hnone
  refine h fun u b hs hread => ?_
  obtain ⟨⟨w, hw, hrun⟩, hb⟩ := hread
  obtain ⟨a, k, rfl, hout, hk⟩ := keywordAt_of_run hw hrun hb
  rw [unqualified_iff]
  exact fun hqual => hnone ⟨a, k, b, hs, hout, hk, hqual⟩

end DBMesh.Routing
