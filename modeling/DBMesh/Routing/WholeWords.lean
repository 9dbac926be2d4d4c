import DBMesh.Routing.LetterCase

/-!
# Whole words

`first_keyword` reads letters only, while `classify_cte` reads words with their digits, `_` and `$`.
So the keyword of a statement is compared with the letters at the beginning of its first word, and a
word that continues a keyword with a character that is no letter is taken for that keyword.

## Main definitions

* `DBMesh.Routing.MatchesWholeWord` — a statement is classified by its first word as a whole
* `DBMesh.Routing.ExtendsKeyword` — a word that continues a keyword with another character

## Main results

* `DBMesh.Routing.matchesWholeWord_iff` — when a statement is classified by its first word
-/

namespace DBMesh.Routing

/-- The words that make a statement known. -/
def knownWords : List (List Char) := "with".toList :: keywordMap.map Prod.fst

/-- The first word of a statement, in lower case, decides its type as a whole. -/
def MatchesWholeWord (stmt : List Char) : Prop :=
  (leadingWord (skipOpen stmt) ∉ knownWords → classifyOne stmt = .unknown) ∧
    ∀ t, (leadingWord (skipOpen stmt), t) ∈ keywordMap → classifyOne stmt = t

/-- The word is a keyword and something behind it that does not begin with a letter. -/
def ExtendsKeyword (w : List Char) : Prop :=
  ∃ kw c rest, w = kw ++ c :: rest ∧ c.isAlpha = false ∧ kw ∈ knownWords

/-! ### The letters a word begins with -/

/-- What `first_keyword` compares: the letters a statement begins with, in lower case. -/
def leadingLetters (stmt : List Char) : List Char :=
  ((skipOpen stmt).takeWhile Char.isAlpha).map lower

theorem isAlpha_of_mem_leadingLetters {stmt : List Char} {c : Char} (hc : c ∈ leadingLetters stmt) :
    c.isAlpha = true := by
  obtain ⟨d, hd, rfl⟩ := List.mem_map.mp hc
  rw [isAlpha_lower]
  exact List.mem_takeWhile_imp hd

/-- The first word begins with these letters, and is continued by no letter. -/
theorem leadingWord_split (stmt : List Char) : ∃ rest, StartsNot Char.isAlpha rest ∧
    leadingWord (skipOpen stmt) = leadingLetters stmt ++ rest := by
  set w := (skipOpen stmt).takeWhile isWord with hw
  have hletters : w.takeWhile Char.isAlpha = (skipOpen stmt).takeWhile Char.isAlpha := by
    have hand : (fun c => decide (c.isAlpha = true ∧ isWord c = true)) = Char.isAlpha := by
      funext c
      cases hc : c.isAlpha with
      | true => simp [isWord_of_isAlpha hc]
      | false => simp
    rw [hw, List.takeWhile_takeWhile, hand]
  refine ⟨(w.dropWhile Char.isAlpha).map lower, ?_, ?_⟩
  · intro c hc
    rw [List.head?_map, Option.mem_def, Option.map_eq_some_iff] at hc
    obtain ⟨d, hd, rfl⟩ := hc
    rw [isAlpha_lower]
    exact startsNot_dropWhile Char.isAlpha w d hd
  · rw [leadingLetters, ← hletters, ← List.map_append, List.takeWhile_append_dropWhile]
    rfl

theorem isAlpha_of_mem_knownWords {kw : List Char} (hkw : kw ∈ knownWords) :
    ∀ c ∈ kw, c.isAlpha = true := by
  have hall : knownWords.all (fun kw => kw.all Char.isAlpha) = true := by decide +kernel
  exact List.all_eq_true.mp (List.all_eq_true.mp hall kw hkw)

theorem length_of_mem_knownWords {kw : List Char} (hkw : kw ∈ knownWords) :
    kw ≠ [] ∧ kw.length ≤ 16 := by
  have hall : knownWords.all (fun kw => kw ≠ [] ∧ kw.length ≤ 16) = true := by decide +kernel
  exact of_decide_eq_true (List.all_eq_true.mp hall kw hkw)

theorem mem_knownWords_of_mem {kw : List Char} {t : QueryType} (h : (kw, t) ∈ keywordMap) :
    kw ∈ knownWords := List.mem_cons_of_mem _ (List.mem_map_of_mem h)

/-- Words that begin with the same letters up to another character have these letters in common. -/
theorem eq_of_append_eq {a b x y : List Char} (ha : ∀ c ∈ a, c.isAlpha = true)
    (hb : ∀ c ∈ b, c.isAlpha = true) (hx : StartsNot Char.isAlpha x)
    (hy : StartsNot Char.isAlpha y) (h : a ++ x = b ++ y) : a = b := by
  have hstop : ∀ {z : List Char}, StartsNot Char.isAlpha z → z.takeWhile Char.isAlpha = [] := by
    intro z hz
    cases z with
    | nil => rfl
    | cons c z => exact List.takeWhile_cons_of_neg (by rw [hz c rfl]; decide)
  have htake := congrArg (List.takeWhile Char.isAlpha) h
  rwa [List.takeWhile_append_of_pos ha, List.takeWhile_append_of_pos hb, hstop hx, hstop hy,
    List.append_nil, List.append_nil] at htake

theorem extendsKeyword_iff {a rest : List Char} (ha : ∀ c ∈ a, c.isAlpha = true)
    (hrest : StartsNot Char.isAlpha rest) :
    ExtendsKeyword (a ++ rest) ↔ rest ≠ [] ∧ a ∈ knownWords := by
  constructor
  · rintro ⟨kw, c, rest', heq, hc, hkw⟩
    have hstart : StartsNot Char.isAlpha (c :: rest') := by
      intro d hd
      obtain rfl : c = d := by simpa using hd
      exact hc
    obtain rfl := eq_of_append_eq ha (isAlpha_of_mem_knownWords hkw) hrest hstart heq
    refine ⟨?_, hkw⟩
    rw [(List.append_right_inj a).mp heq]
    exact List.cons_ne_nil c rest'
  · rintro ⟨hne, hkw⟩
    cases rest with
    | nil => exact absurd rfl hne
    | cons c rest => exact ⟨a, c, rest, rfl, hrest c rfl, hkw⟩

/-! ### The type of a statement -/

theorem cteKeyword_ne_unknown (w : List Char) : cteKeyword w ≠ some .unknown := by
  simp only [cteKeyword]
  split_ifs <;> decide

theorem cteScan_ne_unknown (st : LexState) (depth : ℕ) (s : List Char) :
    cteScan st depth s ≠ .unknown := by
  fun_induction cteScan st depth s with
  | case1 => decide
  | case8 st depth c cs _ _ _ _ _ t ht =>
    rintro rfl
    exact cteKeyword_ne_unknown _ ht
  | case2 _ _ _ _ _ _ ih => exact ih
  | case3 _ _ _ _ _ ih => exact ih
  | case4 _ _ _ _ _ _ _ ih => exact ih
  | case5 _ _ _ _ _ _ ih => exact ih
  | case6 _ _ _ _ _ ih => exact ih
  | case7 _ _ _ _ _ _ ih => exact ih
  | case9 _ _ _ _ _ _ _ _ _ _ ih => exact ih
  | case10 _ _ _ _ _ _ _ _ _ ih => exact ih

theorem firstKeyword_of_mem {stmt : List Char} (h : leadingLetters stmt ∈ knownWords) :
    firstKeyword stmt = leadingLetters stmt := by
  have hlen := (length_of_mem_knownWords h).2
  rw [leadingLetters, List.length_map] at hlen
  exact if_neg (Nat.not_lt.mpr hlen)

/-- Each keyword has one type, which is known, and is not the one of a CTE. -/
theorem lookup_keywordMap {kw : List Char} {t : QueryType} (h : (kw, t) ∈ keywordMap) :
    keywordMap.lookup kw = some t ∧ t ≠ .unknown ∧ kw ≠ "with".toList := by
  have hall : keywordMap.all (fun e => keywordMap.lookup e.1 = some e.2 ∧ e.2 ≠ .unknown ∧
      e.1 ≠ "with".toList) = true := by decide +kernel
  exact of_decide_eq_true (List.all_eq_true.mp hall _ h)

theorem classifyOne_of_mem {stmt : List Char} {t : QueryType}
    (h : (leadingLetters stmt, t) ∈ keywordMap) : classifyOne stmt = t := by
  have hkw := mem_knownWords_of_mem h
  obtain ⟨hlookup, -, hwith⟩ := lookup_keywordMap h
  rw [classifyOne, firstKeyword_of_mem hkw, if_neg (length_of_mem_knownWords hkw).1, if_neg hwith,
    hlookup]
  rfl

/-- **A statement is known by the letters it begins with.** -/
theorem classifyOne_eq_unknown_iff (stmt : List Char) :
    classifyOne stmt = .unknown ↔ leadingLetters stmt ∉ knownWords := by
  constructor
  · intro hunknown hmem
    obtain hwith | hmap := List.mem_cons.mp hmem
    · have hkw : firstKeyword stmt = "with".toList := (firstKeyword_of_mem hmem).trans hwith
      rw [classifyOne, hkw] at hunknown
      exact cteScan_ne_unknown _ _ _ hunknown
    · obtain ⟨⟨kw, t⟩, h, heq⟩ := List.mem_map.mp hmap
      obtain rfl : kw = leadingLetters stmt := heq
      exact (lookup_keywordMap h).2.1 ((classifyOne_of_mem h).symm.trans hunknown)
  · intro hmem
    have hlookup : ∀ kw, kw ∉ knownWords → keywordMap.lookup kw = none := by
      intro kw hkw
      refine List.lookup_eq_none_iff.mpr fun e he => ?_
      refine bne_iff_ne.mpr fun heq => hkw ?_
      rw [heq]
      exact mem_knownWords_of_mem (t := e.2) he
    rw [classifyOne]
    by_cases hlong : firstKeyword stmt = []
    · rw [if_pos hlong]
    · have hkw : firstKeyword stmt = leadingLetters stmt := by
        rw [firstKeyword] at hlong ⊢
        split_ifs at hlong ⊢
        · exact absurd rfl hlong
        · rfl
      have hwith : leadingLetters stmt ≠ "with".toList := fun h => hmem (h ▸ List.mem_cons_self)
      rw [if_neg hlong, hkw, if_neg hwith, hlookup _ hmem]
      rfl

/-- **When the first word counts as a whole.** A statement is classified by its first word, whatever
follows it, exactly if that word is not a keyword continued by a character that is no letter. -/
theorem matchesWholeWord_iff (stmt : List Char) :
    MatchesWholeWord stmt ↔ ¬ ExtendsKeyword (leadingWord (skipOpen stmt)) := by
  obtain ⟨rest, hrest, hword⟩ := leadingWord_split stmt
  have hletters : ∀ c ∈ leadingLetters stmt, c.isAlpha = true :=
    fun _ => isAlpha_of_mem_leadingLetters
  rw [MatchesWholeWord, hword, extendsKeyword_iff hletters hrest, not_and]
  cases rest with
  | nil =>
    -- the letters are the word
    rw [List.append_nil]
    refine iff_of_true ⟨fun h => (classifyOne_eq_unknown_iff stmt).mpr h, ?_⟩
      fun h => absurd rfl h
    exact fun t ht => classifyOne_of_mem ht
  | cons c rest =>
    have hmem : leadingLetters stmt ++ c :: rest ∉ knownWords := by
      intro h
      have halpha := isAlpha_of_mem_knownWords h c (List.mem_append_right _ List.mem_cons_self)
      exact absurd (halpha.symm.trans (hrest c rfl)) (by decide)
    have hmap : ∀ t, (leadingLetters stmt ++ c :: rest, t) ∉ keywordMap :=
      fun t h => hmem (mem_knownWords_of_mem h)
    rw [← classifyOne_eq_unknown_iff]
    constructor
    · exact fun h _ => h.1 hmem
    · exact fun h => ⟨fun _ => h (List.cons_ne_nil c rest), fun t ht => absurd ht (hmap t)⟩

/-- A word that only begins with a keyword is taken for it. -/
theorem not_matchesWholeWord : ¬ MatchesWholeWord "select_x".toList := by
  intro h
  exact absurd (h.1 (by decide +kernel)) (by decide +kernel)

end DBMesh.Routing
