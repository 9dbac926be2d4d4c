import DBMesh.Routing.TableReferences

/-!
# Quoted names

A name behind a keyword is written as it is, if it is a word, or between backticks or double quotes,
where each quote inside the name is doubled. The loop of `read_ident` inverts that for every name:
with dots, spaces, keywords and quotes of either kind in it, at either end or all along. So the
schema of a qualified name is read back as it is, whatever stands in front of the keyword that the
scan does not take for something else.

## Main definitions

* `DBMesh.Routing.Spelling` — how a name is written
* `DBMesh.Routing.KeywordFree` — none of the five words stands in a text

## Main results

* `DBMesh.Routing.readIdent_write` — a name is read back
* `DBMesh.Routing.run_gap_eq_gap` — the scan passes over a text without keywords
* `DBMesh.Routing.extract_write` — the schema of a qualified name is read back
-/

namespace DBMesh.Routing

open Place

/-! ### Writing names -/

/-- A name with its quotes doubled. -/
def doubled (q : Char) (n : List Char) : List Char :=
  n.flatMap fun c => if c = q then [q, q] else [c]

theorem doubled_cons (q c : Char) (n : List Char) :
    doubled q (c :: n) = (if c = q then [q, q] else [c]) ++ doubled q n := rfl

/-- How a name is written: as it is, or between quotes. -/
inductive Spelling
  | bare
  | quoted (q : Char)
  deriving DecidableEq, Repr

namespace Spelling

def write : Spelling → List Char → List Char
  | .bare, n => n
  | .quoted q, n => q :: (doubled q n ++ [q])

/-- The names that can be written so. -/
def Writes : Spelling → List Char → Prop
  | .bare, n => BareName n
  | .quoted q, n => (q = '\x60' ∨ q = '"') ∧ n ≠ []

/-- What follows is no part of the name. -/
def Ends : Spelling → List Char → Prop
  | .bare, r => StartsNot isIdent r
  | .quoted q, r => StartsNot (· == q) r

instance : (sp : Spelling) → (r : List Char) → Decidable (sp.Ends r)
  | .bare, r => inferInstanceAs (Decidable (StartsNot isIdent r))
  | .quoted q, r => inferInstanceAs (Decidable (StartsNot (· == q) r))

theorem Writes.ne_nil {sp : Spelling} {n : List Char} (h : sp.Writes n) : n ≠ [] := by
  cases sp with
  | bare => exact h.1
  | quoted q => exact h.2

/-- Neither whitespace nor a dot continues a name. -/
theorem Writes.ends {sp : Spelling} {n : List Char} (h : sp.Writes n) {c : Char}
    (hc : isSpace c = true ∨ c = '.') (r : List Char) : sp.Ends (c :: r) := by
  have hhead : ∀ {P : Char → Bool}, P c = false → StartsNot P (c :: r) := by
    intro P hP d hd
    obtain rfl : c = d := by simpa using hd
    exact hP
  cases sp with
  | bare =>
    refine hhead ?_
    obtain hc | rfl := hc
    · exact isWord_of_isSpace hc
    · decide
  | quoted q =>
    refine hhead (beq_eq_false_iff_ne.mpr ?_)
    obtain ⟨rfl | rfl, -⟩ := h
    all_goals
      obtain hc | rfl := hc
      · exact isSpace_ne hc (by decide)
      · decide

end Spelling

/-! ### Reading names -/

/-- **The loop inverts the doubling**: it stops at the first quote that is not doubled. -/
theorem readQuoted_doubled (q : Char) (n : List Char) {r : List Char} (hr : StartsNot (· == q) r) :
    readQuoted q (doubled q n ++ q :: r) = (n, r) := by
  induction n with
  | nil =>
    cases r with
    | nil => simp [doubled, readQuoted]
    | cons c r =>
      have hc : c ≠ q := beq_eq_false_iff_ne.mp (hr c rfl)
      simp [doubled, readQuoted, hc]
  | cons c n ih =>
    by_cases hc : c = q
    · subst hc
      simp [doubled_cons, readQuoted, ih]
    · rw [doubled_cons, if_neg hc, List.singleton_append, List.cons_append, readQuoted.eq_def]
      simp [ih, hc]

/-- **A name is read back**, with whitespace in front of it. -/
theorem readIdent_write {sp : Spelling} {g n r : List Char} (hg : ∀ c ∈ g, isSpace c = true)
    (hn : sp.Writes n) (hr : sp.Ends r) : readIdent (g ++ (sp.write n ++ r)) = (n, r) := by
  rw [readIdent, List.dropWhile_append_of_pos hg]
  cases sp with
  | bare =>
    obtain ⟨hne, hn⟩ := hn
    cases n with
    | nil => exact absurd rfl hne
    | cons c n =>
      have hc := hn c List.mem_cons_self
      have hspace : isSpace c = false := isSpace_of_isWord hc
      have hquote : ¬ (c = '\x60' ∨ c = '"') := by
        rintro (rfl | rfl) <;> exact absurd hc (by decide)
      have hread := takeWhile_isWord hn hr
      rw [Spelling.write, List.cons_append, List.dropWhile_cons_of_neg (by simp [hspace])]
      dsimp only
      rw [if_neg hquote]
      exact Prod.ext hread.1 hread.2
  | quoted q =>
    have hspace : isSpace q = false := by
      obtain ⟨rfl | rfl, -⟩ := hn
      · decide
      · decide
    rw [Spelling.write, List.cons_append, List.dropWhile_cons_of_neg (by simp [hspace])]
    dsimp only
    rw [if_pos hn.1, List.append_assoc, List.singleton_append, readQuoted_doubled q n hr]

/-- Behind a name and a dot another name decides whether the first is a schema. -/
theorem readQualifiedSchema_dot {sp : Spelling} {g g₁ s : List Char}
    (hg : ∀ c ∈ g, isSpace c = true) (hg₁ : ∀ c ∈ g₁, isSpace c = true) (hs : sp.Writes s)
    (y : List Char) :
    readQualifiedSchema (g ++ (sp.write s ++ (g₁ ++ '.' :: y))) =
      (if (readIdent y).1 = [] then [] else s, (readIdent y).2) := by
  have hends : sp.Ends (g₁ ++ '.' :: y) := by
    cases g₁ with
    | nil => exact hs.ends (.inr rfl) _
    | cons c g₁ => exact hs.ends (.inl (hg₁ c List.mem_cons_self)) _
  have hfirst := readIdent_write hg hs hends
  have hdot : (g₁ ++ '.' :: y).dropWhile isSpace = '.' :: y := by
    rw [List.dropWhile_append_of_pos hg₁, List.dropWhile_cons_of_neg (by decide)]
  simp only [readQualifiedSchema, hfirst, if_neg hs.ne_nil, hdot]

/-- The schema of a qualified name is read back, with whitespace around the dot. -/
theorem readQualifiedSchema_write {sp sp' : Spelling} {g g₁ g₂ s t r : List Char}
    (hg : ∀ c ∈ g, isSpace c = true) (hg₁ : ∀ c ∈ g₁, isSpace c = true)
    (hg₂ : ∀ c ∈ g₂, isSpace c = true) (hs : sp.Writes s) (ht : sp'.Writes t) (hr : sp'.Ends r) :
    readQualifiedSchema (g ++ (sp.write s ++ (g₁ ++ '.' :: (g₂ ++ (sp'.write t ++ r))))) =
      (s, r) := by
  rw [readQualifiedSchema_dot hg hg₁ hs, readIdent_write hg₂ ht hr, if_neg ht.ne_nil]

/-! ### In front of the keyword -/

/-- None of the keywords stands in the text as a whole word. -/
def KeywordFree (p : List Char) : Prop :=
  ∀ a w b, p = a ++ w ++ b → EndsNot isIdent a → StartsNot isIdent b →
    w.map lower ∉ tableKeywords

instance (p : List Char) : Decidable (KeywordFree p) :=
  decidable_of_iff (∀ i < p.length + 1, ∀ j < i + 1,
      ¬ (EndsNot isIdent ((p.take i).take j) ∧ StartsNot isIdent (p.drop i) ∧
        ((p.take i).drop j).map lower ∈ tableKeywords)) <| by
    refine (forall_cut (fun a w b => ¬ (EndsNot isIdent a ∧ StartsNot isIdent b ∧
      w.map lower ∈ tableKeywords)) p).trans ?_
    simp only [KeywordFree, not_and]

/-- Where the scan is behind `u`, unless a keyword or a literal has begun: at the end of a word, or
outside words. -/
def AtWord (u : List Char) : Place → Prop
  | .gap => EndsNot isIdent u
  | .word w => ∃ a v, u = a ++ v ∧ EndsNot isIdent a ∧ BareName v ∧
      w = v.map lower
  | _ => False

theorem atWord_fromGap {u : List Char} {c : Char} (hu : EndsNot isIdent u)
    (hc : c ≠ '\'') : AtWord (u ++ [c]) (fromGap c) := by
  rw [fromGap, if_neg hc]
  cases hi : isIdent c with
  | true =>
    refine ⟨u, [c], rfl, hu, ⟨List.cons_ne_nil _ _, fun d hd => ?_⟩, rfl⟩
    rwa [List.mem_singleton.mp hd]
  | false => exact endsNot_concat hi u

/-- One character further. -/
theorem AtWord.step {p u v : List Char} {c : Char} {pl : Place} (hp : KeywordFree p)
    (hsplit : p = u ++ c :: v) (hc : c ≠ '\'') (h : AtWord u pl) :
    AtWord (u ++ [c]) (pl.step c) := by
  cases pl with
  | gap => exact atWord_fromGap h hc
  | word w =>
    obtain ⟨a, x, rfl, ha, ⟨hne, hx⟩, rfl⟩ := h
    rw [Place.step]
    split_ifs with hi hkw
    · refine ⟨a, x ++ [c], List.append_assoc _ _ _, ha, ⟨by simp, fun d hd => ?_⟩, by simp⟩
      obtain hd | hd := List.mem_append.mp hd
      · exact hx d hd
      · rwa [List.mem_singleton.mp hd]
    · -- the word ends here, so it would be one of the keywords
      refine absurd hkw (hp a x (c :: v) hsplit ha fun d hd => ?_)
      obtain rfl : c = d := by simpa using hd
      exact Bool.eq_false_iff.mpr hi
    · have hi : isIdent c = false := Bool.eq_false_iff.mpr hi
      rw [fromGap, if_neg hc, hi, if_neg Bool.false_ne_true]
      exact endsNot_concat hi _
  | _ => exact h.elim

theorem atWord_run {p : List Char} (hp : KeywordFree p) (hquote : '\'' ∉ p) (u v : List Char)
    (hsplit : p = u ++ v) : AtWord u (gap.run u) := by
  induction u using List.reverseRecOn generalizing v with
  | nil => exact fun c hc => absurd hc (by simp)
  | append_singleton u c ih =>
    have hsplit' : p = u ++ c :: v := by rw [hsplit, List.append_assoc, List.singleton_append]
    have hc : c ≠ '\'' := by
      rintro rfl
      exact hquote (by rw [hsplit']; simp)
    rw [run_append]
    exact (ih (c :: v) hsplit').step hp hsplit' hc

/-- **The scan passes over a text without keywords**, if it does not end in a word. -/
theorem run_gap_eq_gap {p : List Char} (hp : KeywordFree p) (hquote : '\'' ∉ p)
    (hend : EndsNot isIdent p) : gap.run p = gap := by
  have hat := atWord_run hp hquote p [] (List.append_nil p).symm
  cases hrun : gap.run p with
  | gap => rfl
  | word w =>
    rw [hrun] at hat
    obtain ⟨a, v, rfl, -, ⟨hne, hv⟩, -⟩ := hat
    have hlast : v.getLast hne ∈ (a ++ v).getLast? := by
      rw [List.getLast?_append, List.getLast?_eq_some_getLast hne]
      rfl
    have hword := hend _ hlast
    exact absurd (hv _ (List.getLast_mem hne)) (by simp [hword])
  | _ =>
    rw [hrun] at hat
    exact hat.elim

/-- A word whose letters are those of a keyword. -/
theorem bareName_of_mem_tableKeywords {k : List Char} (hk : k.map lower ∈ tableKeywords) :
    BareName k := by
  have hall : tableKeywords.all (fun w => w ≠ []) = true := by decide
  have hne := of_decide_eq_true (List.all_eq_true.mp hall _ hk)
  refine ⟨fun hnil => hne (by rw [hnil]; rfl), fun c hc => ?_⟩
  exact isIdent_of_lower_mem hk (List.mem_map_of_mem hc)

/-- **The schema of a qualified name is read back.** Behind a text without keywords and literals,
empty or with whitespace at its end, and one of the keywords in any letter case. -/
theorem extract_write (sp sp' : Spelling) (p k g₁ g₂ s t r : List Char)
    (hp : KeywordFree p) (hquote : '\'' ∉ p) (hend : ∀ c ∈ p.getLast?, isSpace c = true)
    (hk : k.map lower ∈ tableKeywords) (hs : sp.Writes s) (hg₁ : ∀ c ∈ g₁, isSpace c = true)
    (hg₂ : ∀ c ∈ g₂, isSpace c = true) (ht : sp'.Writes t) (hr : sp'.Ends r) :
    extract (p ++ k ++ ' ' :: (sp.write s ++ (g₁ ++ '.' :: (g₂ ++ (sp'.write t ++ r))))) =
      some s := by
  have hread : readQualifiedSchema
      (' ' :: (sp.write s ++ (g₁ ++ '.' :: (g₂ ++ (sp'.write t ++ r))))) = (s, r) := by
    refine readQualifiedSchema_write (g := [' ']) (fun c hc => ?_) hg₁ hg₂ hs ht hr
    rw [List.mem_singleton.mp hc]
    decide
  have hkey : ReadsKeyword (p ++ k)
      (' ' :: (sp.write s ++ (g₁ ++ '.' :: (g₂ ++ (sp'.write t ++ r))))) := by
    refine ⟨⟨k.map lower, hk, ?_⟩, fun c hc => ?_⟩
    · rw [run_append, run_gap_eq_gap hp hquote fun c hc => isWord_of_isSpace (hend c hc)]
      exact outsideWords_gap.run (bareName_of_mem_tableKeywords hk)
    · obtain rfl : ' ' = c := by simpa using hc
      decide
  have hqual : ¬ Unqualified
      (' ' :: (sp.write s ++ (g₁ ++ '.' :: (g₂ ++ (sp'.write t ++ r))))) := by
    rw [Unqualified, hread]
    exact hs.ne_nil
  rw [extract_of_readsKeyword hkey hqual, hread]

/-- A name with a quote and a dot in it, behind a word that only begins like a keyword. -/
theorem extract_write_quoted :
    extract "SELECT fromage from \x60a\x60\x60.b\x60\t. \"t\", u".toList =
      some "a\x60.b".toList := by
  have hspaces : ∀ g : List Char, g.all isSpace = true → ∀ c ∈ g, isSpace c = true :=
    fun _ => List.all_eq_true.mp
  have hend : ∀ c ∈ "SELECT fromage ".toList.getLast?, isSpace c = true := by
    intro c hc
    obtain rfl : ' ' = c := by simpa using hc
    decide
  exact extract_write (.quoted '\x60') (.quoted '"') "SELECT fromage ".toList "from".toList
    ['\t'] [' '] "a\x60.b".toList ['t'] ", u".toList (by decide +kernel)
    (by decide +kernel) hend (by decide +kernel) ⟨.inl rfl, by decide⟩ (hspaces _ (by decide))
    (hspaces _ (by decide)) ⟨.inr rfl, by decide⟩ (by decide)

end DBMesh.Routing
