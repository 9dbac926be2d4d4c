import DBMesh.Routing.LetterCase

/-!
# Table references

The schema extractor takes a qualified name behind `FROM`, `INTO`, `UPDATE`, `JOIN` or `TABLE` for a
table with its schema, whatever these words mean where they stand. So it finds a schema exactly if a
word that it reads as one of the five is followed by a qualified name. A word that stands between
the keyword and the name, as in `UPDATE IGNORE s.t`, is read as the name, so that the schema is
missed.

## Main definitions

* `DBMesh.Routing.ReadsKeyword` — where the scan reads one of the five words
* `DBMesh.Routing.Unqualified` — no qualified name follows
* `DBMesh.Routing.Head` — statements up to the name of their table, with their optional words

## Main results

* `DBMesh.Routing.extract_eq_none_iff` — when no schema is found
* `DBMesh.Routing.schema_not_hidden_iff` — when optional words do not hide the schema
-/

namespace DBMesh.Routing

open Place

/-- The scan of a text that begins with `u` reads a keyword at its end, with `post` behind it. -/
def ReadsKeyword (u post : List Char) : Prop :=
  (∃ w ∈ tableKeywords, gap.run u = word w) ∧ StartsNot isIdent post

/-- No qualified name stands at the beginning of the text. -/
def Unqualified (post : List Char) : Prop := (readQualifiedSchema post).1 = []

instance (post : List Char) : Decidable (Unqualified post) := inferInstanceAs (Decidable (_ = _))

/-! ### Where a schema is found -/

/-- A keyword behind which a qualified name stands, in what is left of a text from a place on. -/
def Finds (p : Place) (s : List Char) : Prop :=
  ∃ u post, s = u ++ post ∧ (∃ w ∈ tableKeywords, p.run u = word w) ∧ StartsNot isIdent post ∧
    ¬ Unqualified post

/-- A place at which no name is read. -/
def Roaming : Place → Prop
  | .gap | .word _ | .literal | .escape => True
  | _ => False

theorem roaming_fromGap (c : Char) : Roaming (fromGap c) := by
  rw [fromGap]
  split_ifs <;> trivial

theorem Roaming.result_eq {p : Place} (h : Roaming p) : p.result = none := by
  cases p with
  | found n => exact h.elim
  | _ => rfl

/-- Only behind a keyword is a name read. -/
theorem Roaming.step {p : Place} (h : Roaming p) (c : Char) :
    Roaming (p.step c) ∨ ∃ w ∈ tableKeywords, p = word w ∧ isIdent c = false ∧
      p.step c = name.step c := by
  cases p with
  | gap => exact .inl (roaming_fromGap c)
  | word w =>
    rw [Place.step]
    split_ifs with hi hw
    · exact .inl trivial
    · exact .inr ⟨w, hw, rfl, Bool.eq_false_iff.mpr hi, rfl⟩
    · exact .inl (roaming_fromGap c)
  | literal =>
    rw [Place.step]
    split_ifs <;> exact .inl trivial
  | escape => exact .inl trivial
  | _ => exact h.elim

theorem Finds.cons {p : Place} {c : Char} {s : List Char} (h : Finds (p.step c) s) :
    Finds p (c :: s) := by
  obtain ⟨u, post, rfl, hword, hpost⟩ := h
  exact ⟨c :: u, post, rfl, hword, hpost⟩

/-- Behind a keyword without a qualified name the scan goes on behind that name. -/
theorem Finds.of_unqualified {w : List Char} {c : Char} {cs : List Char}
    (hqual : Unqualified (c :: cs)) (hstep : (word w).step c = name.step c)
    (hname : ¬ Roaming (name.step c)) (h : (name.run (c :: cs)).result ≠ none)
    (ih : ∀ rest : List Char, rest.length < (c :: cs).length → (gap.run rest).result ≠ none →
      Finds gap rest) : Finds (word w) (c :: cs) := by
  have hleads := leads_qualified (c :: cs)
  rw [Unqualified] at hqual
  rw [if_pos hqual] at hleads
  rw [hleads.result_eq] at h
  obtain ⟨front, hfront, -, hnext⟩ := hleads
  generalize (readQualifiedSchema (c :: cs)).2.dropWhile isSpace = rest at hfront hnext h
  cases front with
  | nil =>
    -- the keyword is followed by no name at all
    rw [List.nil_append] at hfront
    rw [run_nil] at hnext
    refine absurd ?_ hname
    rw [hnext c (by rw [← hfront]; rfl)]
    exact roaming_fromGap c
  | cons d front =>
    rw [List.cons_append] at hfront
    obtain ⟨rfl, hcs⟩ := List.cons.inj hfront
    have hlen : rest.length < (c :: cs).length := by
      rw [hcs, List.length_cons, List.length_append]
      omega
    obtain ⟨u, post, rfl, ⟨w', hw', hrun⟩, hpost⟩ := ih rest hlen h
    have hu : u ≠ [] := by
      rintro rfl
      exact absurd hrun (by simp)
    refine ⟨c :: front ++ u, post, by rw [hcs]; simp, ⟨w', hw', ?_⟩, hpost⟩
    rw [← hrun, ← Leads.run_eq hnext hu rfl, List.cons_append, run_cons, hstep, run_cons]

/-- **A schema is found behind a keyword.** -/
theorem finds_of_result (s : List Char) {p : Place} (hp : Roaming p) (h : (p.run s).result ≠ none) :
    Finds p s := by
  induction hn : s.length using Nat.strongRecOn generalizing s p with
  | ind n ih =>
    subst hn
    cases s with
    | nil => exact absurd hp.result_eq h
    | cons c cs =>
      rw [run_cons] at h
      by_cases hroam : Roaming (p.step c)
      · exact (ih _ (Nat.lt_succ_self _) cs hroam h rfl).cons
      · obtain ⟨w, hw, rfl, hc, hstep⟩ := (hp.step c).resolve_left hroam
        by_cases hqual : Unqualified (c :: cs)
        · rw [hstep] at hroam h
          refine Finds.of_unqualified hqual hstep hroam h fun rest hlen hrest => ?_
          exact ih _ hlen rest trivial hrest rfl
        · refine ⟨[], c :: cs, rfl, ⟨w, hw, rfl⟩, fun d hd => ?_, hqual⟩
          obtain rfl : c = d := by simpa using hd
          exact hc

/-- Behind a keyword the qualified name gives the schema. -/
theorem extract_of_readsKeyword {u post : List Char} (h : ReadsKeyword u post)
    (hqual : ¬ Unqualified post) : extract (u ++ post) = some (readQualifiedSchema post).1 := by
  obtain ⟨⟨w, hw, hrun⟩, hpost⟩ := h
  have hname : ((word w).run post).result = (name.run post).result := by
    cases post with
    | nil => exact absurd rfl hqual
    | cons c post =>
      have hstep : (word w).step c = name.step c := by
        rw [step, hpost c rfl, if_neg Bool.false_ne_true, if_pos hw]
        rfl
      rw [run_cons, run_cons, hstep]
  rw [Unqualified] at hqual
  rw [extract_eq_result, run_append, hrun, hname, result_run_name_eq, if_neg hqual]

/-- **When no schema is found**: no keyword that the scan reads is followed by a qualified name. -/
theorem extract_eq_none_iff (s : List Char) :
    extract s = none ↔ ∀ u post, s = u ++ post → ReadsKeyword u post → Unqualified post := by
  constructor
  · rintro h u post rfl hread
    by_contra hqual
    rw [extract_of_readsKeyword hread hqual] at h
    exact absurd h (by simp)
  · intro h
    by_contra hne
    rw [extract_eq_result] at hne
    obtain ⟨u, post, hs, hword, hpost, hqual⟩ := finds_of_result s (p := gap) trivial hne
    exact hqual (h u post hs ⟨hword, hpost⟩)

/-! ### Words in front of the name -/

/-- A name without quotes. -/
def BareName (n : List Char) : Prop := n ≠ [] ∧ ∀ c ∈ n, isIdent c = true

instance (n : List Char) : Decidable (BareName n) :=
  @instDecidableAnd _ _ _ (List.decidableBAll (fun c => isIdent c = true) n)

/-- Words in any letter case, each with whitespace behind it. -/
inductive Phrase : List (List Char) → List Char → Prop
  | nil : Phrase [] []
  | cons {w u g x : List Char} {ws : List (List Char)} (hu : u.map lower = w) (hg : g ≠ [])
      (hs : ∀ c ∈ g, isSpace c = true) (h : Phrase ws x) : Phrase (w :: ws) (u ++ (g ++ x))

/-- The statements that name a table behind one of the keywords, up to the name. -/
inductive Head
  | update (lowPriority ignore : Bool)
  | create (temporary ifNotExists : Bool)
  | drop (temporary ifExists : Bool)

/-- Words that may be left out. -/
def optional (there : Bool) (ws : List String) : List (List Char) :=
  if there then ws.map String.toList else []

namespace Head

def before : Head → List (List Char)
  | .update _ _ => []
  | .create temporary _ => "create".toList :: optional temporary ["temporary"]
  | .drop temporary _ => "drop".toList :: optional temporary ["temporary"]

def keyword : Head → List Char
  | .update _ _ => "update".toList
  | .create _ _ => "table".toList
  | .drop _ _ => "table".toList

/-- The words between the keyword and the name. -/
def between : Head → List (List Char)
  | .update lowPriority ignore =>
    optional lowPriority ["low_priority"] ++ optional ignore ["ignore"]
  | .create _ ifNotExists => optional ifNotExists ["if", "not", "exists"]
  | .drop _ ifExists => optional ifExists ["if", "exists"]

def words (h : Head) : List (List Char) := h.before ++ h.keyword :: h.between

end Head

/-- A place from which a word is read as such. -/
def OutsideWords (p : Place) : Prop := ∀ c, isIdent c = true → p.step c = word [lower c]

theorem outsideWords_gap : OutsideWords gap := by
  intro c hc
  rw [step, fromGap, if_neg (isWord_ne hc (by decide)), if_pos hc]

theorem outsideWords_dot (n : SchemaName) : OutsideWords (dot n) := by
  intro c hc
  rw [← outsideWords_gap c hc]
  show fromDot n c = fromGap c
  rw [fromDot, isSpace_of_isWord hc, if_neg Bool.false_ne_true, if_neg (isWord_ne hc (by decide))]

theorem OutsideWords.run {p : Place} (h : OutsideWords p) {u : List Char} (hu : BareName u) :
    p.run u = word (u.map lower) := by
  obtain ⟨hne, hu⟩ := hu
  cases u with
  | nil => exact absurd rfl hne
  | cons c u =>
    obtain ⟨hc, hu⟩ := List.forall_mem_cons.mp hu
    rw [run_cons, h c hc, run_word _ hu]
    rfl

theorem run_name_bareName {n : List Char} (hn : BareName n) : name.run n = bare n := by
  obtain ⟨hne, hn⟩ := hn
  cases n with
  | nil => exact absurd rfl hne
  | cons c n =>
    obtain ⟨hc, hn⟩ := List.forall_mem_cons.mp hn
    have hquote : ¬ (c = '\x60' ∨ c = '"') := by
      rintro (rfl | rfl) <;> exact absurd hc (by decide)
    have hstep : name.step c = bare [c] := by
      rw [step, fromName, isSpace_of_isWord hc, if_neg Bool.false_ne_true, if_neg hquote, if_pos hc]
    rw [run_cons, hstep, run_bare _ hn]
    rfl

/-- Whitespace leads from `p` to `p'`. -/
theorem run_spaces {p p' : Place} (hp : ∀ c, isSpace c = true → p.step c = p')
    (hp' : ∀ c, isSpace c = true → p'.step c = p') {g : List Char} (hne : g ≠ [])
    (hg : ∀ c ∈ g, isSpace c = true) : p.run g = p' := by
  have hstay : ∀ {g : List Char}, (∀ c ∈ g, isSpace c = true) → p'.run g = p' := by
    intro g hg
    induction g with
    | nil => rfl
    | cons c g ih =>
      obtain ⟨hc, hg⟩ := List.forall_mem_cons.mp hg
      rw [run_cons, hp' c hc, ih hg]
  cases g with
  | nil => exact absurd rfl hne
  | cons c g =>
    obtain ⟨hc, hg⟩ := List.forall_mem_cons.mp hg
    rw [run_cons, hp c hc, hstay hg]

theorem step_word_of_isSpace (w : List Char) {c : Char} (hc : isSpace c = true) :
    (word w).step c = if w ∈ tableKeywords then name else gap := by
  have hname : fromName c = name := if_pos hc
  have hgap : fromGap c = gap := step_gap_of_isSpace hc
  have hi : isIdent c = false := isWord_of_isSpace hc
  rw [step, hi, if_neg Bool.false_ne_true, hname, hgap]

theorem BareName.of_map_lower {u : List Char} (h : BareName (u.map lower)) : BareName u := by
  refine ⟨fun hnil => h.1 (by rw [hnil]; rfl), fun c hc => ?_⟩
  exact (isWord_lower c).symm.trans (h.2 _ (List.mem_map_of_mem hc))

/-- A word that is no keyword, and whitespace. -/
theorem OutsideWords.run_word_spaces {p : Place} (h : OutsideWords p) {u g : List Char}
    (hu : BareName (u.map lower)) (hne : g ≠ []) (hg : ∀ c ∈ g, isSpace c = true) :
    p.run (u ++ g) = if u.map lower ∈ tableKeywords then name else gap := by
  rw [run_append, h.run hu.of_map_lower]
  refine run_spaces (fun c hc => step_word_of_isSpace _ hc) (fun c hc => ?_) hne hg
  split_ifs
  · exact if_pos hc
  · exact step_gap_of_isSpace hc

theorem Phrase.outsideWords {ws : List (List Char)} {x : List Char} (hx : Phrase ws x) {p : Place}
    (hp : OutsideWords p) (hws : ∀ w ∈ ws, BareName w ∧ w ∉ tableKeywords) :
    OutsideWords (p.run x) := by
  induction hx generalizing p with
  | nil => exact hp
  | @cons w u g x ws hu hg hs _ ih =>
    obtain ⟨⟨hw, hkw⟩, hrest⟩ := List.forall_mem_cons.mp hws
    subst hu
    rw [← List.append_assoc, run_append, hp.run_word_spaces hw hg hs, if_neg hkw]
    exact ih outsideWords_gap hrest

theorem Phrase.split (ws : List (List Char)) {ws' : List (List Char)} {x : List Char}
    (hx : Phrase (ws ++ ws') x) :
    ∃ a b, x = a ++ b ∧ Phrase ws a ∧ Phrase ws' b := by
  induction ws generalizing x with
  | nil => exact ⟨[], x, rfl, .nil, hx⟩
  | cons w ws ih =>
    rw [List.cons_append] at hx
    cases hx with
    | @cons _ u g x _ hu hg hs h =>
      obtain ⟨a, b, rfl, ha, hb⟩ := ih h
      exact ⟨u ++ (g ++ a), b, by simp only [List.append_assoc], .cons hu hg hs ha, hb⟩

/-- A qualified name behind the keyword gives its schema. -/
theorem run_name_qualified {s t : List Char} (hs : BareName s) (ht : BareName t) (y : List Char) :
    name.run (s ++ '.' :: (t ++ y)) = found s := by
  obtain ⟨hne, ht⟩ := ht
  cases t with
  | nil => exact absurd rfl hne
  | cons c t =>
    have hc := ht c List.mem_cons_self
    have hquote : ¬ (c = '\x60' ∨ c = '"') := by
      rintro (rfl | rfl) <;> exact absurd hc (by decide)
    have htable : (table s).step c = found s := by
      rw [step, isSpace_of_isWord hc, if_neg Bool.false_ne_true, if_neg hquote, if_pos hc]
    have hdot : (bare s).step '.' = table s := rfl
    rw [run_append, run_name_bareName hs, run_cons, hdot, List.cons_append, run_cons, htable,
      run_found]

/-- Anywhere else it is two words. -/
theorem OutsideWords.run_qualified {p : Place} (h : OutsideWords p) {s t : List Char}
    (hs : BareName s) (ht : BareName t) :
    p.run (s ++ '.' :: t) = word (t.map lower) := by
  have hdot : (word (s.map lower)).step '.' = gap := by
    rw [step, if_neg (by decide), show fromName '.' = gap from rfl, show fromGap '.' = gap from rfl,
      ite_self]
  rw [run_append, h.run hs, run_cons, hdot, outsideWords_gap.run ht]

/-- Behind the keyword there is a place for a name, which is gone after any other word. -/
theorem run_between {ws : List (List Char)} {x : List Char} (hx : Phrase ws x)
    (hws : ∀ w ∈ ws, BareName w ∧ w ∉ tableKeywords) (hne : ws ≠ []) :
    OutsideWords (name.run x) := by
  cases hx with
  | nil => exact absurd rfl hne
  | @cons w u g x ws hu hg hs h =>
    obtain ⟨⟨hw, -⟩, hrest⟩ := List.forall_mem_cons.mp hws
    subst hu
    have hdot : (bare u).run g = dot u := by
      refine run_spaces (fun c hc => ?_) (fun c hc => ?_) hg hs
      · have hi : isIdent c = false := isWord_of_isSpace hc
        rw [step, hi, if_neg Bool.false_ne_true]
        exact if_pos hc
      · exact if_pos hc
    rw [run_append, run_name_bareName hw.of_map_lower, run_append, hdot]
    exact h.outsideWords (outsideWords_dot u) hrest

namespace Head

theorem bareName_before (h : Head) : ∀ w ∈ h.before, BareName w ∧ w ∉ tableKeywords := by
  cases h with
  | update lowPriority ignore => exact fun _ hw => absurd hw (by simp [before])
  | create temporary ifNotExists => cases temporary <;> decide +kernel +revert
  | drop temporary ifExists => cases temporary <;> decide +kernel +revert

theorem bareName_keyword (h : Head) : BareName h.keyword ∧ h.keyword ∈ tableKeywords := by
  have hall : ∀ w ∈ ["update".toList, "table".toList], BareName w ∧ w ∈ tableKeywords := by
    decide +kernel
  cases h with
  | update lowPriority ignore => exact hall _ List.mem_cons_self
  | create temporary ifNotExists => exact hall _ (List.mem_cons_of_mem _ List.mem_cons_self)
  | drop temporary ifExists => exact hall _ (List.mem_cons_of_mem _ List.mem_cons_self)

theorem bareName_between (h : Head) : ∀ w ∈ h.between, BareName w ∧ w ∉ tableKeywords := by
  cases h with
  | update lowPriority ignore => cases lowPriority <;> cases ignore <;> decide +kernel
  | create temporary ifNotExists => cases ifNotExists <;> decide +kernel +revert
  | drop temporary ifExists => cases ifExists <;> decide +kernel +revert

end Head

/-- **When the schema is not hidden.** The schema of the table is found, whatever follows, in any
letter case and with any whitespace between the words, exactly if no word stands between the keyword
and the name. -/
theorem schema_not_hidden_iff (h : Head) (x s t : List Char) (hx : Phrase h.words x)
    (hs : BareName s) (ht : BareName t) :
    (∀ y, extract (x ++ (s ++ '.' :: (t ++ y))) = some s) ↔ h.between = [] := by
  obtain ⟨a, b, rfl, ha, hb⟩ := Phrase.split h.before hx
  obtain ⟨hkey, hmem⟩ := h.bareName_keyword
  have hout : OutsideWords (gap.run a) := ha.outsideWords outsideWords_gap h.bareName_before
  cases hb with
  | @cons _ u g b _ hu hg hsp hb =>
    rw [← hu] at hkey hmem
    have hname : gap.run (a ++ (u ++ (g ++ b))) = name.run b := by
      rw [run_append, ← List.append_assoc, run_append, hout.run_word_spaces hkey hg hsp,
        if_pos hmem]
    simp only [extract_eq_result, run_append _ (a ++ _), hname]
    constructor
    · intro hall
      by_contra hne
      have hnil := hall []
      rw [List.append_nil, (run_between hb h.bareName_between hne).run_qualified hs ht] at hnil
      exact absurd hnil (by simp [result])
    · intro hbetween y
      rw [hbetween] at hb
      cases hb with
      | nil =>
        rw [run_nil, run_name_qualified hs ht]
        rfl

/-- `TEMPORARY` stands in front of the keyword and does no harm. -/
theorem schema_not_hidden_temporary :
    extract "CREATE  temporary\tTable s.t (id INT)".toList = some ['s'] := by
  have hspaces : ∀ g : List Char, g.all isSpace = true → ∀ c ∈ g, isSpace c = true :=
    fun _ => List.all_eq_true.mp
  have hwords : Phrase (Head.create true false).words "CREATE  temporary\tTable ".toList :=
    .cons (u := "CREATE".toList) (g := [' ', ' ']) (by decide) (by decide) (hspaces _ (by decide))
      (.cons (u := "temporary".toList) (g := ['\t']) (by decide) (by decide) (hspaces _ (by decide))
        (.cons (u := "Table".toList) (g := [' ']) (by decide) (by decide) (hspaces _ (by decide))
          .nil))
  exact (schema_not_hidden_iff (.create true false) _ ['s'] ['t'] hwords (by decide)
    (by decide)).mpr rfl " (id INT)".toList

/-- Behind another word the name is not read as a table. -/
theorem schema_hidden :
    extract "UPDATE IGNORE s.t SET c = 1".toList = none ∧
      extract "CREATE TABLE IF NOT EXISTS s.t (id INT)".toList = none ∧
      extract "DROP TABLE IF EXISTS s.t".toList = none := by
  decide +kernel

end DBMesh.Routing
