import DBMesh.Routing.Reading

/-!
# What `classify_one` has read

Where the pass of `classify_one` stands says what it has read: a part of the first keyword, or the
text of a CTE with so many parentheses open. Behind one of the words that decide, outside literals
and parentheses, it has decided. And a text without quotes, parentheses and such words leaves it
where it is.

## Main definitions

* `DBMesh.Routing.InCte` — the first keyword is `WITH`
* `DBMesh.Routing.Depth`, `HasMain` — the open parentheses of a text, and its main keyword
* `DBMesh.Routing.QuietWords` — no word of a text decides

## Main results

* `DBMesh.Routing.Reading.passed_run` — what has been read at a reading
* `DBMesh.Routing.Reading.run_of_hasMain` — behind the main keyword the pass has decided
* `DBMesh.Routing.Reading.run_plain`, `result_run_quiet` — texts that decide nothing
-/

namespace DBMesh.Routing

open Reading

/-! ### The text of a CTE -/

/-- The first keyword is `WITH`. -/
def InCte (u : List Char) : Prop := firstKeyword u = "with".toList

instance (u : List Char) : Decidable (InCte u) := inferInstanceAs (Decidable (_ = _))

/-- The text ends outside literals with `d` parentheses open. One that closes nothing is passed
over. -/
inductive Depth : List Char → ℕ → Prop
  | nil : Depth [] 0
  | char {u : List Char} {d : ℕ} {c : Char} (h : Depth u d) (ho : opened c = .normal)
    (hc : c ≠ '(' ∧ c ≠ ')') : Depth (u ++ [c]) d
  | lparen {u : List Char} {d : ℕ} (h : Depth u d) : Depth (u ++ ['(']) (d + 1)
  | rparen {u : List Char} {d : ℕ} (h : Depth u d) : Depth (u ++ [')']) (d - 1)
  | literal {u x : List Char} {d : ℕ} {st : LexState} (h : Depth u d) (hst : st ≠ .normal)
    (hx : Literal st x) : Depth (u ++ st.quote :: (x ++ [st.quote])) d

/-- One of the words that decide stands outside literals and parentheses. Digits, `_` and `$` in
front of its first letter do not count. -/
def HasMain (y : List Char) : Prop :=
  ∃ x k z, y = x ++ (k ++ z) ∧ Depth x 0 ∧ EndsNot isWord x ∧ StartsNot isWord z ∧
    (∀ c ∈ k, isWord c = true) ∧ wordKeyword k ≠ none

/-- None of the words that decide stands in the text. -/
def QuietWords (w : List Char) : Prop :=
  ∀ a k b, w = a ++ k ++ b → EndsNot isWord a → StartsNot isWord b → (∀ c ∈ k, isWord c = true) →
    wordKeyword k = none

instance (w : List Char) : Decidable (QuietWords w) :=
  decidable_of_iff (∀ i < w.length + 1, ∀ j < i + 1,
      ¬ (EndsNot isWord ((w.take i).take j) ∧ StartsNot isWord (w.drop i) ∧
        ((w.take i).drop j).all isWord = true ∧ wordKeyword ((w.take i).drop j) ≠ none)) <| by
    refine (forall_cut (fun a k b => ¬ (EndsNot isWord a ∧ StartsNot isWord b ∧
      k.all isWord = true ∧ wordKeyword k ≠ none)) w).trans ?_
    simp only [QuietWords, not_and, not_not, List.all_eq_true]

theorem Depth.word {u w : List Char} {d : ℕ} (h : Depth u d) (hw : ∀ c ∈ w, isWord c = true) :
    Depth (u ++ w) d := by
  induction w using List.reverseRecOn with
  | nil => rwa [List.append_nil]
  | append_singleton w c ih =>
    have hw' := List.forall_mem_append.mp hw
    have hc := hw'.2 c List.mem_cons_self
    rw [← List.append_assoc]
    exact (ih hw'.1).char (opened_of_isWord hc)
      ⟨isWord_ne hc (by decide), isWord_ne hc (by decide)⟩

theorem skipOpen_append {u : List Char} (h : skipOpen u ≠ []) (v : List Char) :
    skipOpen (u ++ v) = skipOpen u ++ v := by
  rw [skipOpen, List.dropWhile_append, if_neg]
  · rfl
  · rwa [List.isEmpty_iff]

theorem skipOpen_append_of_nil {u : List Char} (h : skipOpen u = []) (v : List Char) :
    skipOpen (u ++ v) = skipOpen v := by
  rw [skipOpen] at h
  rw [skipOpen, List.dropWhile_append, h]
  rfl

theorem inCte_of_eq {u k r : List Char} (hu : skipOpen u = k ++ r)
    (hk : ∀ c ∈ k, c.isAlpha = true) (hwith : k.map lower = "with".toList)
    (hr : StartsNot Char.isAlpha r) : InCte u := by
  have htake : (skipOpen u).takeWhile Char.isAlpha = k := by
    rw [hu, List.takeWhile_append_of_pos hk]
    cases r with
    | nil => exact List.append_nil k
    | cons c r => rw [List.takeWhile_cons_of_neg (by simp [hr c rfl]), List.append_nil]
  have hlen : ¬ 16 < k.length := by
    have hlen := congrArg List.length hwith
    rw [List.length_map] at hlen
    rw [hlen]
    decide
  rw [InCte, firstKeyword, htake, if_neg hlen, hwith]

theorem InCte.exists_eq {u : List Char} (h : InCte u) :
    ∃ k r, skipOpen u = k ++ r ∧ (∀ c ∈ k, c.isAlpha = true) ∧ k.map lower = "with".toList := by
  refine ⟨(skipOpen u).takeWhile Char.isAlpha, (skipOpen u).dropWhile Char.isAlpha,
    List.takeWhile_append_dropWhile.symm, fun c hc => List.mem_takeWhile_imp hc, ?_⟩
  rw [InCte, firstKeyword] at h
  split_ifs at h with hlen
  · exact absurd h (by decide)
  · exact h

/-! ### What has been read -/

namespace Reading

/-- The text begins with the keyword `WITH` and goes on. -/
def AfterWith (y : List Char) : Prop :=
  ∃ k c r, y = k ++ c :: r ∧ (∀ d ∈ k, d.isAlpha = true) ∧ k.map lower = "with".toList ∧
    c.isAlpha = false

theorem AfterWith.inCte {u : List Char} (h : AfterWith (skipOpen u)) : InCte u := by
  obtain ⟨k, c, r, hu, hk, hwith, hc⟩ := h
  refine inCte_of_eq hu hk hwith fun d hd => ?_
  obtain rfl : c = d := by simpa using hd
  exact hc

theorem AfterWith.append {y : List Char} (h : AfterWith y) (v : List Char) :
    AfterWith (y ++ v) := by
  obtain ⟨k, c, r, rfl, hk, hwith, hc⟩ := h
  exact ⟨k, c, r ++ v, by simp, hk, hwith, hc⟩

/-- What the pass has read when it comes to a reading, without the leading whitespace and
parentheses. -/
def Passed (y : List Char) : Reading → Prop
  | .lead => y = []
  | .keyword z => y = z ∧ z ≠ [] ∧ ∀ c ∈ z, c.isAlpha = true
  | .scan st d => AfterWith y ∧
    (st = .normal → Depth y d) ∧
    (st ≠ .normal → ∃ x z, y = x ++ st.quote :: z ∧ Depth x d ∧ Literal st z)
  | .escape st d => AfterWith y ∧ st ≠ .normal ∧ st ≠ .btick ∧
    ∃ x z, y = x ++ st.quote :: (z ++ ['\\']) ∧ Depth x d ∧ Literal st z
  | .word _ => AfterWith y ∧ Depth y 0
  | .decided _ => True

theorem quote_opened {c : Char} (h : opened c ≠ .normal) : (opened c).quote = c := by
  rw [opened] at h ⊢
  split_ifs at h ⊢ with h₁ h₂ h₃
  · exact h₁.symm
  · exact h₂.symm
  · exact h₃.symm
  · exact absurd rfl h

section

variable {y : List Char} {c : Char}

theorem passed_fromScan {d : ℕ} (hw : AfterWith (y ++ [c])) (hy : Depth y d) :
    Passed (y ++ [c]) (fromScan d c) := by
  rw [fromScan]
  split_ifs with ho hopen hclose hword
  · refine ⟨hw, fun h => absurd h ho, fun _ => ⟨y, [], ?_, hy, .nil⟩⟩
    rw [quote_opened ho]
  · subst hopen
    exact ⟨hw, fun _ => hy.lparen, fun h => absurd rfl h⟩
  · subst hclose
    exact ⟨hw, fun _ => hy.rparen, fun h => absurd rfl h⟩
  · obtain ⟨rfl, -⟩ := hword
    exact ⟨hw, hy.char (not_not.mp ho) ⟨hopen, hclose⟩⟩
  · exact ⟨hw, fun _ => hy.char (not_not.mp ho) ⟨hopen, hclose⟩, fun h => absurd rfl h⟩

theorem passed_fromWord (w : List Char) (hw : AfterWith (y ++ [c])) (hy : Depth y 0) :
    Passed (y ++ [c]) (fromWord w c) := by
  rw [fromWord]
  split_ifs with hc
  · refine ⟨hw, hy.word fun d hd => ?_⟩
    rwa [List.mem_singleton.mp hd]
  · cases cteKeyword w with
    | some t => trivial
    | none => exact passed_fromScan hw hy

/-- **One character further.** -/
theorem Passed.step {p : Reading} (hp : p ≠ .lead) (h : Passed y p) (c : Char) :
    Passed (y ++ [c]) (p.step c) := by
  cases p with
  | lead => exact absurd rfl hp
  | keyword z =>
    obtain ⟨rfl, hne, hz⟩ := h
    rw [Reading.step]
    split_ifs with hc hwith
    · refine ⟨rfl, by simp, fun d hd => ?_⟩
      obtain hd | hd := List.mem_append.mp hd
      · exact hz d hd
      · rwa [List.mem_singleton.mp hd]
    · refine passed_fromWord _ ⟨y, c, [], rfl, hz, hwith, Bool.eq_false_iff.mpr hc⟩ ?_
      exact Depth.nil.word fun d hd => isWord_of_isAlpha (hz d hd)
    · trivial
  | scan st d =>
    obtain ⟨hw, hnormal, hliteral⟩ := h
    rw [Reading.step]
    split_ifs with hst hescape hquote
    · exact passed_fromScan (hw.append [c]) (hnormal hst)
    · obtain ⟨rfl, hb⟩ := hescape
      obtain ⟨x, z, rfl, hx, hz⟩ := hliteral hst
      exact ⟨hw.append _, hst, hb, x, z, by simp, hx, hz⟩
    · subst hquote
      obtain ⟨x, z, rfl, hx, hz⟩ := hliteral hst
      refine ⟨hw.append _, fun _ => ?_, fun h => absurd rfl h⟩
      have hdepth := hx.literal hst hz
      rwa [← List.cons_append, ← List.append_assoc] at hdepth
    · obtain ⟨x, z, rfl, hx, hz⟩ := hliteral hst
      refine ⟨hw.append _, fun h => absurd h hst, fun _ => ⟨x, z ++ [c], by simp, hx, ?_⟩⟩
      refine hz.append (.inside hquote (fun hc => ?_) .nil)
      by_contra hb
      exact hescape ⟨hc, hb⟩
  | escape st d =>
    obtain ⟨hw, hst, hb, x, z, rfl, hx, hz⟩ := h
    refine ⟨hw.append _, fun h => absurd h hst, fun _ => ⟨x, z ++ ['\\', c], by simp, hx, ?_⟩⟩
    exact hz.append (.escape hb .nil)
  | word w => exact passed_fromWord w (h.1.append [c]) h.2
  | decided t => trivial

/-- **What has been read** when the pass over a text comes to a reading. -/
theorem passed_run (u : List Char) : Passed (skipOpen u) (lead.run u) := by
  induction u using List.reverseRecOn with
  | nil => rfl
  | append_singleton u c ih =>
    rw [run_append, run_cons, run_nil]
    by_cases hlead : lead.run u = lead
    · rw [hlead] at ih ⊢
      have hu : skipOpen u = [] := ih
      rw [skipOpen_append_of_nil hu, step]
      split_ifs with hc hletter
      · exact List.dropWhile_cons_of_pos hc
      · have hskip : skipOpen [c] = [c] := List.dropWhile_cons_of_neg hc
        rw [hskip]
        refine ⟨rfl, List.cons_ne_nil c [], fun d hd => ?_⟩
        rwa [List.mem_singleton.mp hd]
      · trivial
    · by_cases hnil : skipOpen u = []
      · -- nothing has been read before the first reading only
        have hwith : ¬ AfterWith [] := by
          rintro ⟨k, d, r, h, -⟩
          exact absurd h (by simp)
        rw [hnil] at ih
        generalize lead.run u = p at ih hlead
        cases p with
        | lead => exact absurd rfl hlead
        | keyword z => exact absurd ih.1.symm ih.2.1
        | scan st d => exact absurd ih.1 hwith
        | escape st d => exact absurd ih.1 hwith
        | word w => exact absurd ih.1 hwith
        | decided t => trivial
      · rw [skipOpen_append hnil]
        exact ih.step hlead c

end

/-! ### The main keyword -/

/-- Where the pass is behind a text with `d` parentheses open that begins at the first keyword. -/
def Outer (x : List Char) (d : ℕ) : Reading → Prop
  | .lead => x = [] ∧ d = 0
  | .keyword _ | .word _ => d = 0 ∧ ¬ EndsNot isWord x
  | .scan st d' => st = .normal ∧ d' = d
  | .escape _ _ => False
  | .decided _ => True

theorem not_endsNot {c : Char} (hc : isWord c = true) (x : List Char) :
    ¬ EndsNot isWord (x ++ [c]) := by
  intro h
  exact absurd (hc.symm.trans (h c (List.getLast?_concat ..))) (by decide)

theorem outer_fromScan {x : List Char} {d : ℕ} {c : Char} (ho : opened c = .normal)
    (hc : c ≠ '(' ∧ c ≠ ')') : Outer (x ++ [c]) d (fromScan d c) := by
  rw [fromScan, if_neg (not_not.mpr ho), if_neg hc.1, if_neg hc.2]
  split_ifs with hword
  · exact ⟨hword.1, not_endsNot (isWord_of_isAlpha hword.2) x⟩
  · exact ⟨rfl, rfl⟩

/-- A character that is no part of a word decides, or is read in the scan of the CTE. -/
theorem Outer.boundary {x : List Char} {d : ℕ} {p : Reading} {c : Char} (h : Outer x d p)
    (hc : isWord c = false) (hlead : x = [] → isSpace c = false ∧ c ≠ '(') :
    (∃ t, p.step c = decided t) ∨ p.step c = fromScan d c := by
  have halpha : ¬ c.isAlpha = true := fun h =>
    absurd (hc.symm.trans (isWord_of_isAlpha h)) (by decide)
  have hword : ∀ w, (∃ t, fromWord w c = decided t) ∨ fromWord w c = fromScan 0 c := by
    intro w
    rw [fromWord, hc, if_neg Bool.false_ne_true]
    cases cteKeyword w with
    | some t => exact .inl ⟨t, rfl⟩
    | none => exact .inr rfl
  cases p with
  | lead =>
    obtain ⟨hspace, hopen⟩ := hlead h.1
    rw [step, if_neg (by simp [hspace, hopen]), if_neg halpha]
    exact .inl ⟨_, rfl⟩
  | keyword w =>
    obtain ⟨rfl, -⟩ := h
    rw [step, if_neg halpha]
    split_ifs
    · exact hword w
    · exact .inl ⟨_, rfl⟩
  | scan st d' =>
    obtain ⟨rfl, rfl⟩ := h
    exact .inr rfl
  | escape st d' => exact h.elim
  | word w =>
    obtain ⟨rfl, -⟩ := h
    exact hword w
  | decided t => exact .inl ⟨t, rfl⟩

/-- A character of a word goes on with one, or begins one. -/
theorem Outer.isWord {x : List Char} {d : ℕ} {p : Reading} {c : Char} (h : Outer x d p)
    (hc : isWord c = true) : Outer (x ++ [c]) d (p.step c) := by
  have hend := not_endsNot hc x
  cases p with
  | lead =>
    rw [step]
    split_ifs with hopen halpha
    · exfalso
      rw [isSpace_of_isWord hc, Bool.false_or, beq_iff_eq] at hopen
      exact isWord_ne hc (by decide) hopen
    · exact ⟨h.2, hend⟩
    · trivial
  | keyword w =>
    rw [step]
    split_ifs
    · exact ⟨h.1, hend⟩
    · rw [fromWord, if_pos hc]
      exact ⟨h.1, hend⟩
    · trivial
  | scan st d' =>
    obtain ⟨rfl, rfl⟩ := h
    exact outer_fromScan (opened_of_isWord hc) ⟨isWord_ne hc (by decide), isWord_ne hc (by decide)⟩
  | escape st d' => exact h.elim
  | word w =>
    rw [step, fromWord, if_pos hc]
    exact ⟨h.1, hend⟩
  | decided t => trivial

theorem run_literal_close {st : LexState} (hst : st ≠ .normal) {x : List Char}
    (hx : Literal st x) (d : ℕ) : (scan st d).run (x ++ [st.quote]) = scan .normal d := by
  have hclose : (scan st d).step st.quote = scan .normal d := by
    rw [step, if_neg hst, if_neg fun h => quote_ne_backslash hst h.1, if_pos rfl]
  induction hx with
  | nil => exact hclose
  | @escape n cs hb _ ih =>
    have hescape : (scan st d).step '\\' = escape st d := by
      rw [step, if_neg hst, if_pos ⟨rfl, hb⟩]
    rw [List.cons_append, List.cons_append, run_cons, hescape, run_cons]
    exact ih
  | @double cs _ ih =>
    have hopen : (scan .normal d).step st.quote = scan st d := by
      rw [step, if_pos rfl, fromScan, opened_quote hst, if_pos hst]
    rw [List.cons_append, List.cons_append, run_cons, hclose, run_cons, hopen, ih]
  | @inside c cs hq hb _ ih =>
    rw [List.cons_append, run_cons, step, if_neg hst, if_neg fun h => h.2 (hb h.1), if_neg hq, ih]

theorem fromScan_quote {st : LexState} (hst : st ≠ .normal) (d : ℕ) :
    fromScan d st.quote = scan st d := by
  rw [fromScan, opened_quote hst, if_pos hst]

/-- **The pass knows the depth**, unless it has decided. -/
theorem outer_run {x : List Char} {d : ℕ} (h : Depth x d)
    (hhead : ∀ c ∈ x.head?, isSpace c = false ∧ c ≠ '(') : Outer x d (lead.run x) := by
  have hfront : ∀ {u v : List Char}, (∀ c ∈ (u ++ v).head?, isSpace c = false ∧ c ≠ '(') →
      ∀ c ∈ u.head?, isSpace c = false ∧ c ≠ '(' := by
    intro u v h c hc
    refine h c ?_
    rw [List.head?_append, hc]
    rfl
  induction h with
  | nil => exact ⟨rfl, rfl⟩
  | @char u d c _ ho hc ih =>
    have hu := ih (hfront hhead)
    rw [run_append, run_cons, run_nil]
    cases hw : isWord c with
    | true => exact hu.isWord hw
    | false =>
      obtain ⟨t, ht⟩ | hscan := hu.boundary hw fun hnil => hhead c (by rw [hnil]; rfl)
      · rw [ht]
        trivial
      · rw [hscan]
        exact outer_fromScan ho hc
  | @lparen u d _ ih =>
    have hu := ih (hfront hhead)
    rw [run_append, run_cons, run_nil]
    obtain ⟨t, ht⟩ | hscan := hu.boundary (c := '(') (by decide) fun hnil =>
      hhead '(' (by rw [hnil]; rfl)
    · rw [ht]
      trivial
    · rw [hscan]
      exact ⟨rfl, rfl⟩
  | @rparen u d _ ih =>
    have hu := ih (hfront hhead)
    rw [run_append, run_cons, run_nil]
    obtain ⟨t, ht⟩ | hscan := hu.boundary (c := ')') (by decide) fun hnil =>
      hhead ')' (by rw [hnil]; rfl)
    · rw [ht]
      trivial
    · rw [hscan]
      exact ⟨rfl, rfl⟩
  | @literal u x d st _ hst hx ih =>
    have hu := ih (hfront hhead)
    have hquote : isWord st.quote = false := by
      cases st with
      | normal => exact absurd rfl hst
      | squote | dquote | btick => decide
    rw [run_append, run_cons]
    obtain ⟨t, ht⟩ | hscan := hu.boundary hquote fun hnil => hhead st.quote (by rw [hnil]; rfl)
    · rw [ht, run_decided]
      trivial
    · rw [hscan, fromScan_quote hst, run_literal_close hst hx]
      exact ⟨rfl, rfl⟩

theorem run_wordKeyword {k : List Char} (hk : ∀ c ∈ k, isWord c = true)
    (hne : wordKeyword k ≠ none) :
    ∃ w, (scan .normal 0).run k = word w ∧ cteKeyword w = wordKeyword k := by
  have hrun : ∀ (k w : List Char), (∀ c ∈ k, isWord c = true) → (word w).run k = word (w ++ k) := by
    intro k
    induction k with
    | nil => exact fun w _ => congrArg word (List.append_nil w).symm
    | cons c k ih =>
      intro w hk
      obtain ⟨hc, hk⟩ := List.forall_mem_cons.mp hk
      rw [run_cons, step, fromWord, if_pos hc, ih _ hk, List.append_assoc]
      rfl
  induction k with
  | nil => exact absurd (by decide) hne
  | cons c k ih =>
    obtain ⟨hc, hk⟩ := List.forall_mem_cons.mp hk
    cases halpha : c.isAlpha with
    | true =>
      refine ⟨c :: k, ?_, ?_⟩
      · rw [run_scan_alpha halpha, hrun k [c] hk]
        rfl
      · rw [wordKeyword, List.dropWhile_cons_of_neg (by simp [halpha])]
    | false =>
      have hword : wordKeyword (c :: k) = wordKeyword k := by
        rw [wordKeyword, List.dropWhile_cons_of_pos (by simp [halpha])]
        rfl
      have hstep : (scan .normal 0).step c = scan .normal 0 := by
        rw [step, if_pos rfl, fromScan, if_neg (not_not.mpr (opened_of_isWord hc)),
          if_neg (isWord_ne hc (by decide)), if_neg (isWord_ne hc (by decide)),
          if_neg (by simp [halpha])]
      rw [hword] at hne ⊢
      rw [run_cons, hstep]
      exact ih hk hne

/-- A word that begins as `WITH` does not decide. -/
theorem wordKeyword_of_with {k r : List Char} (hk : ∀ c ∈ k, c.isAlpha = true)
    (hwith : k.map lower = "with".toList) : wordKeyword (k ++ r) = none := by
  cases k with
  | nil => exact absurd hwith (by decide)
  | cons c k =>
    have hc : lower c = 'w' := (List.cons.inj hwith).1
    have halpha : c.isAlpha = true := hk c List.mem_cons_self
    rw [List.cons_append, wordKeyword, List.dropWhile_cons_of_neg (by simp [halpha]), cteKeyword]
    simp [hc]

/-- **Behind the main keyword the pass has decided**, or is at the end of the word that does. -/
theorem run_of_hasMain {u : List Char} (hcte : InCte u) (h : HasMain (skipOpen u)) :
    (∃ t, lead.run u = decided t) ∨ ∃ w, lead.run u = word w ∧ cteKeyword w ≠ none := by
  obtain ⟨x, k, z, hu, hx, hend, hz, hk, hword⟩ := h
  have hhead : ∀ c ∈ x.head?, isSpace c = false ∧ c ≠ '(' := by
    intro c hc
    have hskip : skipOpen u = c :: (x.tail ++ (k ++ z)) := by
      rw [hu, ← List.cons_append, List.cons_head?_tail hc]
    have h := head?_skipOpen hskip
    simpa using h
  have houter := outer_run hx hhead
  rw [← run_skipOpen, hu, run_append]
  have hscan : lead.run x = scan .normal 0 ∨ ∃ t, lead.run x = decided t := by
    generalize lead.run x = p at houter
    cases p with
    | lead =>
      -- the first word is the one that begins as `WITH`
      obtain ⟨rfl, -⟩ := houter
      obtain ⟨k', r, hk', halpha, hwith⟩ := hcte.exists_eq
      have hletters : ∀ c ∈ k', isWord c = true := fun c hc => isWord_of_isAlpha (halpha c hc)
      have htake : (k ++ z).takeWhile isWord = k' ++ r.takeWhile isWord := by
        rw [← List.nil_append (k ++ z), ← hu, hk', List.takeWhile_append_of_pos hletters]
      rw [(takeWhile_isWord hk hz).1] at htake
      rw [htake] at hword
      exact absurd (wordKeyword_of_with halpha hwith) hword
    | keyword w => exact absurd hend houter.2
    | scan st d => exact .inl (by rw [houter.1, houter.2])
    | escape st d => exact houter.elim
    | word w => exact absurd hend houter.2
    | decided t => exact .inr ⟨t, rfl⟩
  obtain hscan | ⟨t, ht⟩ := hscan
  · obtain ⟨w, hrun, hw⟩ := run_wordKeyword hk hword
    rw [hscan, run_append, hrun]
    cases z with
    | nil => exact .inr ⟨w, rfl, by rwa [hw]⟩
    | cons c z =>
      have hc : isWord c = false := hz c rfl
      rw [← hw] at hword
      obtain ⟨t, ht⟩ := Option.ne_none_iff_exists'.mp hword
      refine .inl ⟨t, ?_⟩
      rw [run_cons, step, fromWord, hc, if_neg Bool.false_ne_true, ht, run_decided]
  · exact .inl ⟨t, by rw [ht, run_decided]⟩

/-! ### The text of a comment in a CTE -/

/-- Where the pass can be behind `x` in a text without words that decide: the last word of `x` is
read from its first letter on. -/
def Unread (x : List Char) : Reading → Prop
  | .scan st d => st = .normal → d = 0 →
    ∃ a g, x = a ++ g ∧ EndsNot isWord a ∧ ∀ c ∈ g, isWord c = true ∧ c.isAlpha = false
  | .escape st _ => st ≠ .normal
  | .word z => ∃ a g, x = a ++ (g ++ z) ∧ EndsNot isWord a ∧
    (∀ c ∈ g, isWord c = true ∧ c.isAlpha = false) ∧ (∀ c ∈ z, isWord c = true) ∧
    ∃ e z', z = e :: z' ∧ e.isAlpha = true
  | _ => False

theorem unread_fromScan {x : List Char} {d : ℕ} {c : Char}
    (h : d = 0 → isWord c = true →
      ∃ a g, x = a ++ g ∧ EndsNot isWord a ∧ ∀ e ∈ g, isWord e = true ∧ e.isAlpha = false) :
    Unread (x ++ [c]) (fromScan d c) := by
  have hreset : isWord c = false → ∃ a g, x ++ [c] = a ++ g ∧ EndsNot isWord a ∧
      ∀ e ∈ g, isWord e = true ∧ e.isAlpha = false := fun hc =>
    ⟨x ++ [c], [], (List.append_nil _).symm, endsNot_concat hc x, fun e he => absurd he (by simp)⟩
  rw [fromScan]
  split_ifs with ho hopen hclose hword
  · exact fun hn => absurd hn ho
  · exact fun _ hd => absurd hd (Nat.succ_ne_zero d)
  · subst hclose
    exact fun _ _ => hreset (by decide)
  · have hc := isWord_of_isAlpha hword.2
    obtain ⟨a, g, rfl, ha, hg⟩ := h hword.1 hc
    refine ⟨a, g, List.append_assoc a g [c], ha, hg, fun e he => ?_, c, [], rfl, hword.2⟩
    rwa [List.mem_singleton.mp he]
  · intro _ hd
    cases hc : isWord c with
    | false => exact hreset hc
    | true =>
      have halpha : c.isAlpha = false := Bool.eq_false_iff.mpr fun h => hword ⟨hd, h⟩
      obtain ⟨a, g, rfl, ha, hg⟩ := h hd hc
      refine ⟨a, g ++ [c], List.append_assoc a g [c], ha, fun e he => ?_⟩
      obtain he | he := List.mem_append.mp he
      · exact hg e he
      · rw [List.mem_singleton.mp he]
        exact ⟨hc, halpha⟩

theorem wordKeyword_of_unread {g z : List Char}
    (hg : ∀ c ∈ g, isWord c = true ∧ c.isAlpha = false)
    (hz : ∃ e z', z = e :: z' ∧ e.isAlpha = true) : wordKeyword (g ++ z) = cteKeyword z := by
  obtain ⟨e, z', rfl, he⟩ := hz
  rw [wordKeyword, List.dropWhile_append_of_pos fun c hc => by simp [(hg c hc).2],
    List.dropWhile_cons_of_neg (by simp [he])]

theorem cteKeyword_of_quiet {w a g z b : List Char} (hw : QuietWords w)
    (hsplit : w = a ++ (g ++ z) ++ b) (ha : EndsNot isWord a)
    (hg : ∀ c ∈ g, isWord c = true ∧ c.isAlpha = false) (hz : ∀ c ∈ z, isWord c = true)
    (hhead : ∃ e z', z = e :: z' ∧ e.isAlpha = true) (hb : StartsNot isWord b) :
    cteKeyword z = none := by
  rw [← wordKeyword_of_unread hg hhead]
  refine hw a (g ++ z) b hsplit ha hb fun c hc => ?_
  obtain hc | hc := List.mem_append.mp hc
  · exact (hg c hc).1
  · exact hz c hc

/-- **One character further.** -/
theorem Unread.step {w x v : List Char} {c : Char} {p : Reading} (hw : QuietWords w)
    (hsplit : w = x ++ c :: v) (h : Unread x p) : Unread (x ++ [c]) (p.step c) := by
  cases p with
  | lead => exact h.elim
  | keyword z => exact h.elim
  | scan st d =>
    rw [Reading.step]
    split_ifs with hst hescape hquote
    · exact unread_fromScan fun hd _ => h hst hd
    · exact hst
    · subst hquote
      have hquote : isWord st.quote = false := by
        cases st with
        | normal => exact absurd rfl hst
        | squote | dquote | btick => decide
      exact fun _ _ => ⟨x ++ [st.quote], [], (List.append_nil _).symm, endsNot_concat hquote x,
        fun e he => absurd he (by simp)⟩
    · exact fun hn => absurd hn hst
  | escape st d => exact fun hn => absurd hn h
  | word z =>
    obtain ⟨a, g, rfl, ha, hg, hz, hhead⟩ := h
    rw [Reading.step, fromWord]
    split_ifs with hc
    · obtain ⟨e, z', rfl, he⟩ := hhead
      refine ⟨a, g, by simp, ha, hg, fun d hd => ?_, e, z' ++ [c], rfl, he⟩
      obtain hd | hd := List.mem_append.mp hd
      · exact hz d hd
      · rwa [List.mem_singleton.mp hd]
    · -- the word ends here, so it would be one that decides
      have hc : isWord c = false := Bool.eq_false_iff.mpr hc
      have hnone : cteKeyword z = none := by
        refine cteKeyword_of_quiet hw hsplit ha hg hz hhead fun d hd => ?_
        obtain rfl : c = d := by simpa using hd
        exact hc
      rw [hnone]
      exact unread_fromScan fun _ hc' => absurd (hc.symm.trans hc') (by decide)
  | decided t => exact h.elim

theorem unread_run {w : List Char} (hw : QuietWords w) (d : ℕ) (x v : List Char)
    (hsplit : w = x ++ v) : Unread x ((scan .normal d).run x) := by
  induction x using List.reverseRecOn generalizing v with
  | nil => exact fun _ _ => ⟨[], [], rfl, fun c hc => absurd hc (by simp), fun c hc => absurd hc
      (by simp)⟩
  | append_singleton x c ih =>
    have hsplit' : w = x ++ c :: v := by rw [hsplit, List.append_assoc, List.singleton_append]
    rw [run_append]
    exact (ih (c :: v) hsplit').step hw hsplit'

/-- In a text without words that decide nothing is found. -/
theorem result_run_quiet {w : List Char} (hw : QuietWords w) (d : ℕ) :
    ((scan .normal d).run w).result = .select := by
  have h := unread_run hw d w [] (List.append_nil w).symm
  generalize (scan .normal d).run w = p at h
  cases p with
  | scan st d' => rfl
  | escape st d' => rfl
  | word z =>
    obtain ⟨a, g, hsplit, ha, hg, hz, hhead⟩ := h
    have hnone : cteKeyword z = none :=
      cteKeyword_of_quiet hw (by rw [hsplit, List.append_nil]) ha hg hz hhead fun c hc =>
        absurd hc (by simp)
    show (cteKeyword z).getD .select = .select
    rw [hnone]
    rfl
  | lead => exact h.elim
  | keyword z => exact h.elim
  | decided t => exact h.elim

/-- Nor is anything found in parentheses that are not closed. -/
theorem result_run_inner {w : List Char} (hw : ')' ∉ w) {d : ℕ} (hd : d ≠ 0) :
    ((scan .normal d).run w).result = .select := by
  have hdeep : ∃ st d', d' ≠ 0 ∧
      ((scan .normal d).run w = scan st d' ∨ (scan .normal d).run w = escape st d') := by
    induction w using List.reverseRecOn with
    | nil => exact ⟨.normal, d, hd, .inl rfl⟩
    | append_singleton w c ih =>
      rw [List.mem_append, not_or, List.mem_singleton] at hw
      obtain ⟨st, d', hd', hrun⟩ := ih hw.1
      rw [run_append, run_cons, run_nil]
      obtain hrun | hrun := hrun
      · rw [hrun, step]
        split_ifs with hst
        · rw [fromScan, if_neg (Ne.symm hw.2)]
          split_ifs with _ _ hword
          · exact ⟨_, d', hd', .inl rfl⟩
          · exact ⟨_, d' + 1, Nat.succ_ne_zero d', .inl rfl⟩
          · exact absurd hword.1 hd'
          · exact ⟨_, d', hd', .inl rfl⟩
        · exact ⟨st, d', hd', .inr rfl⟩
        · exact ⟨.normal, d', hd', .inl rfl⟩
        · exact ⟨st, d', hd', .inl rfl⟩
      · rw [hrun]
        exact ⟨st, d', hd', .inl rfl⟩
  obtain ⟨st, d', -, hrun | hrun⟩ := hdeep
  · rw [hrun]
    rfl
  · rw [hrun]
    rfl

/-- A text without quotes and parentheses leaves the pass where it is, unless a word decides. -/
theorem run_plain {w : List Char} (hw : ∀ c ∈ w, opened c = .normal ∧ c ≠ '(' ∧ c ≠ ')')
    (hend : EndsNot isWord w) {d : ℕ} (hquiet : d = 0 → QuietWords w) :
    (scan .normal d).run w = scan .normal d := by
  have hrun : ∀ x v : List Char, w = x ++ v → (scan .normal d).run x = scan .normal d ∨
      d = 0 ∧ ∃ z, (scan .normal d).run x = word z ∧ ¬ EndsNot isWord x := by
    intro x
    induction x using List.reverseRecOn with
    | nil => exact fun _ _ => .inl rfl
    | append_singleton x c ih =>
      intro v hsplit
      have hsplit' : w = x ++ c :: v := by rw [hsplit, List.append_assoc, List.singleton_append]
      obtain ⟨ho, hopen, hclose⟩ := hw c (by rw [hsplit']; simp)
      rw [run_append, run_cons, run_nil]
      have hscan : fromScan d c = scan .normal d ∨
          d = 0 ∧ ∃ z, fromScan d c = word z ∧ ¬ EndsNot isWord (x ++ [c]) := by
        rw [fromScan, if_neg (not_not.mpr ho), if_neg hopen, if_neg hclose]
        split_ifs with hword
        · exact .inr ⟨hword.1, [c], rfl, not_endsNot (isWord_of_isAlpha hword.2) x⟩
        · exact .inl rfl
      obtain hx | ⟨rfl, z, hx, -⟩ := ih (c :: v) hsplit'
      · rw [hx]
        exact hscan
      · have hunread := unread_run (hquiet rfl) 0 (x ++ [c]) v hsplit
        rw [run_append, run_cons, run_nil, hx] at hunread
        rw [hx]
        rw [step, fromWord] at hunread ⊢
        cases hc : isWord c with
        | true =>
          rw [if_pos rfl]
          exact .inr ⟨rfl, z ++ [c], rfl, not_endsNot hc x⟩
        | false =>
          rw [hc, if_neg Bool.false_ne_true] at hunread
          rw [if_neg Bool.false_ne_true]
          cases hz : cteKeyword z with
          | some t =>
            rw [hz] at hunread
            exact hunread.elim
          | none => exact hscan
  obtain h | ⟨-, z, -, hnot⟩ := hrun w [] (List.append_nil w).symm
  · exact h
  · exact absurd hend hnot

end Reading

end DBMesh.Routing
