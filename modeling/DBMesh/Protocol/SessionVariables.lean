import DBMesh.Protocol.ComQuery
import DBMesh.Routing.QuotedNames

/-!
# Session variables

Two statements that `handle_com_query` answers itself change what later statements are planned with:
`SET autocommit` and `USE`. Both are recognised in the collapsed prefix of the text, and both take
their argument from a place where it need not be.

* The value of `autocommit` is looked for in the prefix, which is cut at sixteen characters. That is
  just enough for `SET AUTOCOMMIT=0`, so the value is not seen if there is whitespace on either side
  of the equals sign, and `autocommit` is taken to be on.
* The schema of `USE` is taken from the text itself, from its fourth character on. So whitespace
  before `USE`, other whitespace than blanks and tabs behind it, backticks around the name and a
  semicolon at the end become part of the name.

## Main definitions

* `DBMesh.Protocol.setAutocommit`, `useSchema` — the texts of the two statements
* `DBMesh.Protocol.handleComInitDb` — the command that does what `USE` does
* `DBMesh.Protocol.SelectsSchema` — later statements are planned with the named schema

## Main results

* `DBMesh.Protocol.autocommit_tracked_iff` — when `autocommit` is what it was set to
* `DBMesh.Protocol.use_selects_iff` — when `USE` selects the named schema
-/

namespace DBMesh.Protocol

open DBMesh.Routing

/-- Whitespace. -/
def Spaces (g : List Char) : Prop := ∀ c ∈ g, isSpace c = true

instance (g : List Char) : Decidable (Spaces g) := List.decidableBAll (isSpace · = true) g

/-! ### Collapsing a text -/

theorem collapse_true_spaces {g : List Char} (hg : Spaces g) (r : List Char) :
    collapse true (g ++ r) = collapse true r := by
  induction g with
  | nil => rfl
  | cons c g ih =>
    obtain ⟨hc, hg⟩ := List.forall_mem_cons.mp hg
    rw [List.cons_append, collapse, if_pos hc, if_pos rfl, ih hg]

theorem collapse_false_spaces {g : List Char} (hg : Spaces g) (hne : g ≠ []) (r : List Char) :
    collapse false (g ++ r) = ' ' :: collapse true r := by
  cases g with
  | nil => exact absurd rfl hne
  | cons c g =>
    obtain ⟨hc, hg⟩ := List.forall_mem_cons.mp hg
    rw [List.cons_append, collapse, if_pos hc, if_neg Bool.false_ne_true,
      collapse_true_spaces hg]

/-- A word is kept, in upper case. -/
theorem collapse_word {w : List Char} (hw : ∀ c ∈ w, isSpace c = false) (hne : w ≠ []) (b : Bool)
    (r : List Char) : collapse b (w ++ r) = w.map Char.toUpper ++ collapse false r := by
  induction w generalizing b with
  | nil => exact absurd rfl hne
  | cons c w ih =>
    obtain ⟨hc, hw⟩ := List.forall_mem_cons.mp hw
    rw [List.cons_append, collapse, hc, if_neg Bool.false_ne_true, List.map_cons, List.cons_append]
    cases w with
    | nil => rfl
    | cons d w => rw [ih hw (List.cons_ne_nil d w)]

/-- The letters of a keyword are no whitespace. -/
theorem isSpace_of_map_toUpper {w : List Char} {kw : String} (h : w.map Char.toUpper = kw.toList)
    (hkw : kw.toList.all Char.isAlpha = true) : ∀ c ∈ w, isSpace c = false := by
  intro c hc
  have hmem : c.toUpper ∈ kw.toList := by
    rw [← h]
    exact List.mem_map_of_mem hc
  have halpha := List.all_eq_true.mp hkw _ hmem
  rw [Char.isAlpha_toUpper_eq_isAlpha] at halpha
  exact isSpace_of_isWord (isWord_of_isAlpha halpha)

/-! ### Autocommit -/

/-- `SET autocommit = v`, with the whitespace around its parts. -/
def setAutocommit (lead set g₁ name g₂ g₃ : List Char) (v : Bool) : List Char :=
  lead ++ (set ++ (g₁ ++ (name ++ (g₂ ++ '=' :: (g₃ ++ [if v then '1' else '0'])))))

/-- What is left of whitespace when it is collapsed. -/
def blank (g : List Char) : List Char := if g = [] then [] else [' ']

theorem collapse_blank {g : List Char} (hg : Spaces g) {c : Char} (hc : isSpace c = false)
    (r : List Char) :
    collapse false (g ++ c :: r) = blank g ++ c.toUpper :: collapse false r := by
  have hcons : ∀ b, collapse b (c :: r) = c.toUpper :: collapse false r := by
    intro b
    rw [collapse, hc, if_neg Bool.false_ne_true]
  rw [blank]
  split
  · next hnil => rw [hnil, List.nil_append, hcons, List.nil_append]
  · next hne => rw [collapse_false_spaces hg hne, hcons, List.singleton_append]

/-- The prefix holds two characters behind the name of the variable. -/
theorem normalisePrefix_setAutocommit {lead set g₁ name g₂ g₃ : List Char} (v : Bool)
    (hlead : Spaces lead) (hset : set.map Char.toUpper = "SET".toList) (hg₁ : Spaces g₁)
    (hne : g₁ ≠ []) (hname : name.map Char.toUpper = "AUTOCOMMIT".toList) (hg₂ : Spaces g₂)
    (hg₃ : Spaces g₃) :
    normalisePrefix (setAutocommit lead set g₁ name g₂ g₃ v) =
      ("SET AUTOCOMMIT".toList ++ (blank g₂ ++ '=' :: (blank g₃ ++
        [if v then '1' else '0']))).take 16 := by
  have hword : ∀ {w : List Char} {kw : String}, w.map Char.toUpper = kw.toList →
      kw.toList ≠ [] → w ≠ [] := by
    rintro _ _ h hkw rfl
    exact hkw h.symm
  have hdigit : isSpace (if v then '1' else '0') = false := by cases v <;> decide
  have hupper : (if v then '1' else '0').toUpper = if v then '1' else '0' := by
    cases v <;> decide
  rw [normalisePrefix_eq, setAutocommit, collapse_true_spaces hlead,
    collapse_word (isSpace_of_map_toUpper hset (by decide)) (hword hset (by decide)),
    collapse_false_spaces hg₁ hne,
    collapse_word (isSpace_of_map_toUpper hname (by decide)) (hword hname (by decide)),
    collapse_blank hg₂ (by decide), collapse_blank hg₃ hdigit, hset, hname, hupper]
  rfl

/-- **When autocommit is what it was set to.** In any letter case, with any whitespace in front and
behind `SET`, and from every session: if it was switched on, or if there is no whitespace on either
side of the equals sign. -/
theorem autocommit_tracked_iff (session : Session) (lead set g₁ name g₂ g₃ : List Char) (v : Bool)
    (hlead : Spaces lead) (hset : set.map Char.toUpper = "SET".toList) (hg₁ : Spaces g₁)
    (hne : g₁ ≠ []) (hname : name.map Char.toUpper = "AUTOCOMMIT".toList) (hg₂ : Spaces g₂)
    (hg₃ : Spaces g₃) :
    (handleComQuery session (setAutocommit lead set g₁ name g₂ g₃ v)).2.autocommit = v ↔
      v = true ∨ (g₂ = [] ∧ g₃ = []) := by
  have hcut := normalisePrefix_setAutocommit v hlead hset hg₁ hne hname hg₂ hg₃
  have hset' : startsWith (normalisePrefix (setAutocommit lead set g₁ name g₂ g₃ v)) "SET " =
      true := by
    rw [hcut]
    rfl
  have hname' : contains (normalisePrefix (setAutocommit lead set g₁ name g₂ g₃ v))
      "AUTOCOMMIT" = true := by
    rw [hcut]
    exact decide_eq_true ⟨"SET ".toList, (blank g₂ ++ '=' :: (blank g₃ ++
      [if v then '1' else '0'])).take 2, rfl⟩
  rw [handleComQuery, if_pos hset', if_pos hname']
  dsimp only
  rw [hcut, blank, blank]
  by_cases h₂ : g₂ = []
  · by_cases h₃ : g₃ = []
    · cases v <;> simp [h₂, h₃] <;> decide
    · cases v <;> simp [h₂, h₃] <;> decide
  · cases v <;> simp [h₂] <;> decide

/-- Whitespace in front and behind `SET` does no harm. -/
theorem autocommit_tracked_tight :
    (handleComQuery ⟨[], true, true⟩ "\n set\t\t AutoCommit=0".toList).2.autocommit = false :=
  (autocommit_tracked_iff ⟨[], true, true⟩ "\n ".toList "set".toList "\t\t ".toList
    "AutoCommit".toList [] [] false (by decide) (by decide) (by decide) (by decide) (by decide)
    (by decide) (by decide)).mpr (.inr ⟨rfl, rfl⟩)

/-- With blanks around the equals sign `autocommit` is taken to be on. -/
theorem autocommit_missed :
    (handleComQuery ⟨[], false, true⟩ "SET autocommit = 0".toList).2.autocommit = true ∧
      (handleComQuery ⟨[], false, false⟩ "SET autocommit = 0".toList).2.autocommit = true ∧
      (handleComQuery ⟨[], false, true⟩ "SET autocommit= 0".toList).2.autocommit = true := by
  decide +kernel

/-! ### The schema of the session -/

/-- `MySqlConnection::handle_com_init_db`, which answers with an OK packet. -/
def handleComInitDb (session : Session) (payload : Bytes) : Session :=
  if 1 < payload.length then { session with currentDb := charsOf (payload.drop 1) } else session

/-- `USE` with a name, and the whitespace around its parts. -/
def useSchema (lead use gap : List Char) (sp : Spelling) (s trail : List Char) (semicolon : Bool) :
    List Char :=
  lead ++ (use ++ (gap ++ (sp.write s ++ (trail ++ if semicolon then [';'] else []))))

/-- The statement makes `s` the schema of the session. So a statement without a schema of its own is
planned just as after the command for `s`, with the entry that a name qualified with `s` leads to
also. -/
def SelectsSchema (session : Session) (text : List Char) (s : SchemaName) : Prop :=
  (handleComQuery session text).2.currentDb = s ∧
    ∀ (eng : RoutingEngine) (sql : List Char), extract sql = none →
      (∀ payload, charsOf (payload.drop 1) = s → ∀ reg ctx draw,
        eng.plan reg sql (handleComQuery session text).2.view ctx draw =
          eng.plan reg sql (handleComInitDb session payload).view ctx draw) ∧
      ∀ qualified other, extract qualified = some s →
        eng.schemas.lookup (extractOr sql (handleComQuery session text).2.currentDb) =
          eng.schemas.lookup (extractOr qualified other)

/-- Everything follows from the schema of the session. -/
theorem selectsSchema_iff {session : Session} {text : List Char} {s : SchemaName} (hs : s ≠ [])
    (hanswer : ∃ db, handleComQuery session text = (.ok, { session with currentDb := db })) :
    SelectsSchema session text s ↔ (handleComQuery session text).2.currentDb = s := by
  refine ⟨fun h => h.1, fun hdb => ⟨hdb, fun eng sql hsql => ⟨?_, ?_⟩⟩⟩
  · intro payload hpayload reg ctx draw
    obtain ⟨db, hdb'⟩ := hanswer
    rw [hdb'] at hdb ⊢
    have hlen : 1 < payload.length := by
      by_contra hshort
      rw [List.drop_eq_nil_of_le (Nat.not_lt.mp hshort)] at hpayload
      exact hs hpayload.symm
    rw [handleComInitDb, if_pos hlen, hpayload, ← hdb]
  · intro qualified other hqual
    rw [extractOr, hsql, hdb, extractOr, hqual]
    rfl

/-! ### What `USE` takes for the name -/

/-- `" \t"`, what `find_first_not_of` skips. -/
def isBlank (c : Char) : Bool := c == ' ' || c == '\t'

theorem isSpace_of_isBlank {c : Char} (h : isBlank c = true) : isSpace c = true := by
  rw [isBlank, Bool.or_eq_true, beq_iff_eq, beq_iff_eq] at h
  exact isSpace_of_blank h

/-- What stands in front of a text that does not begin with `p` is dropped by itself. -/
theorem dropWhile_append_cons {p : Char → Bool} {c : Char} (hc : p c = false) (x y : List Char) :
    (x ++ c :: y).dropWhile p = x.dropWhile p ++ c :: y := by
  rw [List.dropWhile_append, List.dropWhile_cons_of_neg (by simp [hc])]
  split
  · next hnil => rw [List.isEmpty_iff.mp hnil, List.nil_append]
  · rfl

theorem rdropWhile_append_cons {p : Char → Bool} {c : Char} (hc : p c = false) (x y : List Char) :
    (x ++ c :: y).rdropWhile p = x ++ c :: y.rdropWhile p := by
  rw [List.rdropWhile, List.rdropWhile, List.reverse_append, List.reverse_cons, List.append_assoc,
    List.singleton_append, dropWhile_append_cons hc]
  simp

theorem rdropWhile_spaces {g : List Char} (hg : Spaces g) : g.rdropWhile isSpace = [] :=
  List.rdropWhile_eq_nil_iff.mpr hg

variable {lead use gap : List Char} {sp : Spelling} {s trail : List Char}

/-- A written name begins and ends with a character that is no whitespace. -/
theorem write_ends (hs : sp.Writes s) :
    (∃ c r, sp.write s = c :: r ∧ isSpace c = false) ∧
      ∃ r c, sp.write s = r ++ [c] ∧ isSpace c = false := by
  cases sp with
  | bare =>
    obtain ⟨hne, hs⟩ := hs
    constructor
    · obtain ⟨c, r, rfl⟩ := List.exists_cons_of_ne_nil hne
      exact ⟨c, r, rfl, isSpace_of_isWord (hs c List.mem_cons_self)⟩
    · refine ⟨s.dropLast, s.getLast hne, (List.dropLast_append_getLast hne).symm, ?_⟩
      exact isSpace_of_isWord (hs _ (List.getLast_mem hne))
  | quoted q =>
    have hq : isSpace q = false := by
      obtain ⟨rfl | rfl, -⟩ := hs
      · decide
      · decide
    exact ⟨⟨q, doubled q s ++ [q], rfl, hq⟩, q :: doubled q s, q, rfl, hq⟩

theorem length_le_doubled (q : Char) (s : List Char) : s.length ≤ (doubled q s).length := by
  induction s with
  | nil => exact Nat.le_refl _
  | cons c s ih =>
    rw [doubled_cons, List.length_append, List.length_cons]
    split
    · rw [List.length_cons, List.length_cons]
      omega
    · rw [List.length_cons, List.length_nil]
      omega

/-- What stands in front of the name, from the fourth character of the text on. -/
def useFront (lead use gap : List Char) : List Char :=
  ((lead ++ (use ++ gap)).drop 3).dropWhile isBlank

/-- **What `USE` takes for the name.** -/
theorem useName_useSchema (huse : use.map Char.toUpper = "USE".toList) (hs : sp.Writes s)
    (htrail : Spaces trail) (semicolon : Bool) :
    useName (useSchema lead use gap sp s trail semicolon) =
      some (useFront lead use gap ++
        (sp.write s ++ if semicolon then trail ++ [';'] else [])) := by
  have hlen : use.length = 3 := by simpa using congrArg List.length huse
  obtain ⟨⟨c, r, hhead, hc⟩, r', c', hlast, hc'⟩ := write_ends hs
  have hblank : isBlank c = false := by
    rw [Bool.eq_false_iff]
    intro h
    exact absurd (isSpace_of_isBlank h) (by simp [hc])
  have hdrop : (useSchema lead use gap sp s trail semicolon).drop 3 =
      (lead ++ (use ++ gap)).drop 3 ++
        (sp.write s ++ (trail ++ if semicolon then [';'] else [])) := by
    rw [useSchema, ← List.drop_append_of_le_length]
    · simp only [List.append_assoc]
    · simp only [List.length_append, hlen]
      omega
  have hfront : ((useSchema lead use gap sp s trail semicolon).drop 3).dropWhile isBlank =
      useFront lead use gap ++ (sp.write s ++ (trail ++ if semicolon then [';'] else [])) := by
    rw [hdrop, hhead, List.cons_append, dropWhile_append_cons hblank]
    rfl
  have hend : ∀ x : List Char,
      (x ++ (sp.write s ++ (trail ++ if semicolon then [';'] else []))).rdropWhile isSpace =
        x ++ (sp.write s ++ if semicolon then trail ++ [';'] else []) := by
    intro x
    cases semicolon with
    | true =>
      have hconcat : x ++ (sp.write s ++ (trail ++ [';'])) =
          (x ++ (sp.write s ++ trail)) ++ [';'] := by
        simp only [List.append_assoc]
      rw [if_pos rfl, if_pos rfl, hconcat, List.rdropWhile_concat_neg _ _ _ (by decide)]
    | false =>
      have hconcat : x ++ (sp.write s ++ (trail ++ [])) = (x ++ r') ++ c' :: trail := by
        rw [hlast]
        simp only [List.append_assoc, List.append_nil, List.singleton_append]
      rw [if_neg Bool.false_ne_true, if_neg Bool.false_ne_true, hconcat,
        rdropWhile_append_cons hc', rdropWhile_spaces htrail, hlast]
      simp only [List.append_assoc, List.append_nil]
  rw [useName, show (fun c => c == ' ' || c == '\t') = isBlank from rfl, hfront]
  split
  · next hnil =>
    rw [hhead] at hnil
    exact absurd hnil (by simp)
  · rw [hend]

/-- Nothing stands in front of the name if the text begins with `USE` and goes on with blanks. -/
theorem useFront_eq_nil_iff (huse : use.map Char.toUpper = "USE".toList) :
    useFront lead use gap = [] ↔ lead = [] ∧ ∀ c ∈ gap, isBlank c = true := by
  rw [useFront, List.dropWhile_eq_nil_iff]
  have hletter := isSpace_of_map_toUpper huse (by decide)
  obtain ⟨u, t, e, rfl⟩ : ∃ u t e, use = [u, t, e] :=
    List.length_eq_three.mp (by simpa using congrArg List.length huse)
  cases lead with
  | nil => exact ⟨fun h => ⟨rfl, h⟩, fun h => h.2⟩
  | cons c l =>
    refine iff_of_false (fun h => ?_) fun h => absurd h.1 (List.cons_ne_nil c l)
    -- the last letter of `USE` is behind the third character
    have hmem : e ∈ (c :: l ++ ([u, t, e] ++ gap)).drop 3 := by
      have hsplit : c :: l ++ ([u, t, e] ++ gap) = (c :: l ++ [u, t]) ++ e :: gap := by simp
      rw [hsplit, List.drop_append_of_le_length (by simp)]
      exact List.mem_append_right _ List.mem_cons_self
    have hblank := isSpace_of_isBlank (h e hmem)
    exact absurd hblank (by simp [hletter e (by simp)])

theorem length_le_write (sp : Spelling) (s : List Char) : s.length ≤ (sp.write s).length := by
  cases sp with
  | bare => exact Nat.le_refl _
  | quoted q =>
    have hdoubled := length_le_doubled q s
    rw [Spelling.write, List.length_cons, List.length_append]
    omega

theorem write_eq_iff (sp : Spelling) (s r : List Char) :
    sp.write s ++ r = s ↔ sp = .bare ∧ r = [] := by
  cases sp with
  | bare =>
    rw [Spelling.write, List.append_right_eq_self]
    exact (and_iff_right rfl).symm
  | quoted q =>
    refine iff_of_false (fun h => ?_) fun h => by cases h.1
    have hlen := congrArg List.length h
    have hdoubled := length_le_doubled q s
    rw [Spelling.write] at hlen
    simp only [List.length_append, List.length_cons, List.length_nil] at hlen
    omega

/-- The statement is recognised, whatever the whitespace. -/
theorem handleComQuery_useSchema (session : Session) (hlead : Spaces lead)
    (huse : use.map Char.toUpper = "USE".toList) (hgap : Spaces gap) (hne : gap ≠ [])
    (hs : sp.Writes s) (htrail : Spaces trail) (semicolon : Bool) :
    handleComQuery session (useSchema lead use gap sp s trail semicolon) =
      (.ok, { session with currentDb := useFront lead use gap ++
        (sp.write s ++ if semicolon then trail ++ [';'] else []) }) := by
  have hname : useName (useSchema lead use gap sp s trail semicolon) = _ :=
    useName_useSchema huse hs htrail semicolon
  have hopens : OpensSpaced "USE"
      ((useSchema lead use gap sp s trail semicolon).dropWhile isSpace) := by
    have hletter := isSpace_of_map_toUpper huse (by decide)
    obtain ⟨u, t, e, rfl⟩ : ∃ u t e, use = [u, t, e] :=
      List.length_eq_three.mp (by simpa using congrArg List.length huse)
    obtain ⟨c, g, rfl⟩ := List.exists_cons_of_ne_nil hne
    rw [useSchema, List.dropWhile_append_of_pos hlead, List.cons_append,
      List.dropWhile_cons_of_neg (by simp [hletter u List.mem_cons_self])]
    refine ⟨huse, ?_⟩
    show isSpace c = true
    exact hgap c List.mem_cons_self
  obtain ⟨hset, -⟩ | ⟨-, hnone, -⟩ | ⟨-, db, hdb, h⟩ | ⟨hb, -⟩ | ⟨he, -⟩ | ⟨-, huse', -⟩ :=
    handleComQuery_cases session (useSchema lead use gap sp s trail semicolon)
  · exact absurd hopens.1 (hset.1.not_opens (by decide))
  · exact absurd (hnone.symm.trans hname) nofun
  · rw [h, Option.some.inj (hdb.symm.trans hname)]
  · exact absurd hb (not_opensBegin_of_opens hopens.1 (by decide)).1
  · exact absurd he (not_opensBegin_of_opens hopens.1 (by decide)).2
  · exact absurd hopens huse'

/-- **When `USE` selects the named schema.** The name is a word or stands in quotes, and a semicolon
may follow. Later statements are planned with it exactly if nothing stands in front of `USE`, only
blanks and tabs stand behind it, and the name has neither quotes nor a semicolon. -/
theorem use_selects_iff (session : Session) (lead use gap : List Char) (sp : Spelling)
    (s trail : List Char) (semicolon : Bool) (hlead : Spaces lead)
    (huse : use.map Char.toUpper = "USE".toList) (hgap : Spaces gap) (hne : gap ≠ [])
    (hs : sp.Writes s) (htrail : Spaces trail) :
    SelectsSchema session (useSchema lead use gap sp s trail semicolon) s ↔
      lead = [] ∧ (∀ c ∈ gap, c = ' ' ∨ c = '\t') ∧ sp = .bare ∧ semicolon = false := by
  have hanswer := handleComQuery_useSchema session hlead huse hgap hne hs htrail semicolon
  rw [selectsSchema_iff hs.ne_nil ⟨_, hanswer⟩, hanswer]
  show useFront lead use gap ++ (sp.write s ++ _) = s ↔ _
  have hblank : (∀ c ∈ gap, isBlank c = true) ↔ ∀ c ∈ gap, c = ' ' ∨ c = '\t' := by
    simp only [isBlank, Bool.or_eq_true, beq_iff_eq]
  have htail : (if semicolon then trail ++ [';'] else []) = [] ↔ semicolon = false := by
    cases semicolon <;> simp
  constructor
  · intro h
    have hfront : useFront lead use gap = [] := by
      have hlen := congrArg List.length h
      have hwrite := length_le_write sp s
      rw [List.length_append, List.length_append] at hlen
      exact List.length_eq_zero_iff.mp (by omega)
    rw [hfront, List.nil_append, write_eq_iff, htail] at h
    obtain ⟨hnil, hgap'⟩ := (useFront_eq_nil_iff huse).mp hfront
    exact ⟨hnil, hblank.mp hgap', h⟩
  · rintro ⟨hnil, hgap', h⟩
    rw [(useFront_eq_nil_iff huse).mpr ⟨hnil, hblank.mpr hgap'⟩, List.nil_append, write_eq_iff,
      htail]
    exact h

/-- A name behind `USE` and tabs. -/
theorem use_selects_bare : SelectsSchema ⟨[], false, true⟩ "use \tsales\n".toList "sales".toList :=
  (use_selects_iff ⟨[], false, true⟩ [] "use".toList [' ', '\t'] .bare "sales".toList ['\n'] false
    (by decide) (by decide) (by decide) (by decide) (show BareName "sales".toList by decide)
    (by decide)).mpr ⟨rfl, by simp, rfl, rfl⟩

/-- Backticks, a semicolon, a newline and a blank in front all become part of the name. -/
theorem use_misread :
    (handleComQuery ⟨[], false, true⟩ "USE \x60sales\x60".toList).2.currentDb =
        "\x60sales\x60".toList ∧
      (handleComQuery ⟨[], false, true⟩ "USE sales;".toList).2.currentDb = "sales;".toList ∧
      (handleComQuery ⟨[], false, true⟩ "USE\nsales".toList).2.currentDb = "\nsales".toList ∧
      (handleComQuery ⟨[], false, true⟩ " USE sales".toList).2.currentDb = "E sales".toList ∧
      ¬ SelectsSchema ⟨[], false, true⟩ "USE \x60sales\x60".toList "sales".toList := by
  refine ⟨by decide +kernel, by decide +kernel, by decide +kernel, by decide +kernel, fun h => ?_⟩
  exact absurd h.1 (by decide +kernel)

end DBMesh.Protocol
