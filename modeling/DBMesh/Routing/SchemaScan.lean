import DBMesh.Routing.Pieces
import DBMesh.Routing.SchemaExtractor
import Mathlib

/-!
# The schema extractor, one character at a time

`extract` moves back and forth: it looks ahead for a keyword, reads on for a name, and resumes
behind what it has read. What it finds is nevertheless decided by one pass over the text, which at
each character only needs to know the place it is in.

## Implementation notes

`Mathlib` is imported whole: the lemmas on the case of ASCII letters are in no smaller module of it.

## Main definitions

* `DBMesh.Routing.Place` — where the scan is
* `DBMesh.Routing.Place.step`, `run`, `result` — the pass over the text

## Main results

* `DBMesh.Routing.extract_eq_result` — the pass finds what `extract` finds
-/

namespace DBMesh.Routing

/-- Where the scan for a schema is. A name `n` is the part of the name that has been read. -/
inductive Place
  | gap
  | word (w : List Char)
  | literal
  | escape
  | name
  | bare (n : SchemaName)
  | quoted (q : Char) (n : SchemaName)
  | closing (q : Char) (n : SchemaName)
  | dot (n : SchemaName)
  | table (n : SchemaName)
  | tableQuoted (q : Char) (n : SchemaName)
  | tableClosing (q : Char) (n : SchemaName)
  | found (n : SchemaName)
  deriving DecidableEq, Repr

namespace Place

def fromGap (c : Char) : Place :=
  if c = '\'' then .literal else if isIdent c then .word [lower c] else .gap

/-- After a keyword. -/
def fromName (c : Char) : Place :=
  if isSpace c then .name
  else if c = '\x60' ∨ c = '"' then .quoted c []
  else if isIdent c then .bare [c]
  else fromGap c

/-- After a name that may be the schema. -/
def fromDot (n : SchemaName) (c : Char) : Place :=
  if isSpace c then .dot n else if c = '.' then .table n else fromGap c

def step : Place → Char → Place
  | .gap, c => fromGap c
  | .word w, c =>
    if isIdent c then .word (w ++ [lower c])
    else if w ∈ tableKeywords then fromName c
    else fromGap c
  | .literal, c => if c = '\\' then .escape else if c = '\'' then .gap else .literal
  | .escape, _ => .literal
  | .name, c => fromName c
  | .bare n, c => if isIdent c then .bare (n ++ [c]) else fromDot n c
  | .quoted q n, c => if c = q then .closing q n else .quoted q (n ++ [c])
  -- the quote closes the name, unless it is doubled
  | .closing q n, c =>
    if c = q then .quoted q (n ++ [q]) else if n = [] then fromGap c else fromDot n c
  | .dot n, c => fromDot n c
  | .table n, c =>
    if isSpace c then .table n
    else if c = '\x60' ∨ c = '"' then .tableQuoted c n
    else if isIdent c then .found n
    else fromGap c
  | .tableQuoted q n, c => if c = q then .tableClosing q n else .found n
  | .tableClosing q n, c => if c = q then .found n else fromGap c
  | .found n, _ => .found n

def run (p : Place) (s : List Char) : Place := s.foldl step p

def result : Place → Option SchemaName
  | .found n => some n
  | _ => none

@[simp] theorem run_nil (p : Place) : p.run [] = p := rfl

@[simp] theorem run_cons (p : Place) (c : Char) (s : List Char) :
    p.run (c :: s) = (p.step c).run s := rfl

theorem run_append (p : Place) (s t : List Char) : p.run (s ++ t) = (p.run s).run t :=
  List.foldl_append

@[simp] theorem run_found (n : SchemaName) (s : List Char) : (found n).run s = found n := by
  induction s with
  | nil => rfl
  | cons c s ih => exact ih

theorem run_concat (p : Place) (s : List Char) (c : Char) : p.run (s ++ [c]) = (p.run s).step c :=
  List.foldl_concat step p c s

/-- Two places that the next character cannot tell apart. -/
theorem result_run_congr {p p' : Place} {s : List Char} (hp : p.result = p'.result)
    (h : ∀ c ∈ s.head?, p.step c = p'.step c) : (p.run s).result = (p'.run s).result := by
  cases s with
  | nil => exact hp
  | cons c s => rw [run_cons, run_cons, h c rfl]

theorem run_dropWhile_isSpace {p : Place} (h : ∀ c, isSpace c = true → p.step c = p)
    (s : List Char) : p.run (s.dropWhile isSpace) = p.run s := by
  induction s with
  | nil => rfl
  | cons c s ih =>
    rw [List.dropWhile_cons]
    split
    · next hc => rw [ih, run_cons, h c hc]
    · rfl

theorem run_word (w : List Char) {s : List Char} (hs : ∀ c ∈ s, isIdent c = true) :
    (word w).run s = word (w ++ s.map lower) := by
  induction s generalizing w with
  | nil => rw [List.map_nil, List.append_nil, run_nil]
  | cons c s ih =>
    obtain ⟨hc, hs⟩ := List.forall_mem_cons.mp hs
    rw [run_cons, step, if_pos hc, ih _ hs, List.map_cons, List.append_assoc]
    rfl

theorem run_bare (n : SchemaName) {s : List Char} (hs : ∀ c ∈ s, isIdent c = true) :
    (bare n).run s = bare (n ++ s) := by
  induction s generalizing n with
  | nil => rw [List.append_nil, run_nil]
  | cons c s ih =>
    obtain ⟨hc, hs⟩ := List.forall_mem_cons.mp hs
    rw [run_cons, step, if_pos hc, ih _ hs, List.append_assoc]
    rfl

/-- From `p` the scan comes through `s` to where it goes on with `rest` as it would from `p'`. -/
def Leads (p : Place) (s : List Char) (p' : Place) (rest : List Char) : Prop :=
  ∃ front, s = front ++ rest ∧ (p.run front).result = p'.result ∧
    ∀ c ∈ rest.head?, (p.run front).step c = p'.step c

namespace Leads

variable {p p' p'' : Place} {s rest rest' : List Char}

theorem of_step (hp : p.result = p'.result) (h : ∀ c ∈ s.head?, p.step c = p'.step c) :
    Leads p s p' s := ⟨[], rfl, hp, h⟩

theorem refl (p : Place) (s : List Char) : Leads p s p s := of_step rfl fun _ _ => rfl

theorem of_run (front : List Char) (h : Leads (p.run front) s p' rest) :
    Leads p (front ++ s) p' rest := by
  obtain ⟨front', rfl, hres, hstep⟩ := h
  rw [← run_append] at hres
  simp only [← run_append] at hstep
  exact ⟨front ++ front', (List.append_assoc _ _ _).symm, hres, hstep⟩

theorem cons {c : Char} (h : Leads (p.step c) s p' rest) : Leads p (c :: s) p' rest :=
  of_run [c] h

/-- Behind the first character the two places are the same. -/
theorem run_eq {front : List Char} (h : ∀ c ∈ rest.head?, (p.run front).step c = p'.step c)
    {u v : List Char} (hu : u ≠ []) (hrest : rest = u ++ v) : p.run (front ++ u) = p'.run u := by
  cases u with
  | nil => exact absurd rfl hu
  | cons c u => rw [run_append, run_cons, h c (by rw [hrest]; rfl), run_cons]

theorem trans (h : Leads p s p' rest) (h' : Leads p' rest p'' rest') : Leads p s p'' rest' := by
  obtain ⟨front, rfl, hres, hstep⟩ := h
  obtain ⟨front', rfl, hres', hstep'⟩ := h'
  refine ⟨front ++ front', (List.append_assoc _ _ _).symm, ?_⟩
  cases front' with
  | nil =>
    rw [List.append_nil]
    exact ⟨hres.trans hres', fun c hc => (hstep c hc).trans (hstep' c hc)⟩
  | cons c front' =>
    rw [run_eq hstep (List.cons_ne_nil c front') rfl]
    exact ⟨hres', hstep'⟩

theorem result_eq (h : Leads p s p' rest) : (p.run s).result = (p'.run rest).result := by
  obtain ⟨front, rfl, hres, hstep⟩ := h
  rw [run_append]
  exact result_run_congr hres hstep

theorem dropWhile_isSpace (h : ∀ c, isSpace c = true → p.step c = p) (s : List Char) :
    Leads p s p (s.dropWhile isSpace) := by
  induction s with
  | nil => exact refl p []
  | cons c s ih =>
    rw [List.dropWhile_cons]
    split
    · next hc =>
      refine cons ?_
      rwa [h c hc]
    · exact refl p (c :: s)

theorem found {n : SchemaName} (h : rest <:+ s) : Leads (.found n) s (.found n) rest := by
  obtain ⟨front, rfl⟩ := h
  refine of_run front ?_
  rw [run_found]
  exact refl _ _

end Leads

end Place

open Place

/-! ### Reading a name -/

theorem startsNot_readQuoted (q : Char) (s : List Char) :
    StartsNot (· == q) (readQuoted q s).2 := by
  fun_induction readQuoted q s with
  | case1 => exact fun c hc => absurd hc (by simp)
  | case2 cs' r ih => exact ih
  | case3 n cs' hn =>
    intro c hc
    obtain rfl : n = c := by simpa using hc
    exact beq_eq_false_iff_ne.mpr hn
  | case4 => exact fun c hc => absurd hc (by simp)
  | case5 c cs hc r ih => exact ih

theorem readQuoted_end (q : Char) (s : List Char) :
    (readQuoted q s).2 = [] ∨ ∃ pre, s = pre ++ q :: (readQuoted q s).2 := by
  fun_induction readQuoted q s with
  | case1 => exact .inl rfl
  | case2 cs' r ih =>
    refine ih.imp_right ?_
    rintro ⟨pre, hpre⟩
    exact ⟨q :: q :: pre, by rw [hpre]; rfl⟩
  | case3 d cs' hd => exact .inr ⟨[], rfl⟩
  | case4 => exact .inl rfl
  | case5 c cs hc r ih =>
    refine ih.imp_right ?_
    rintro ⟨pre, hpre⟩
    exact ⟨c :: pre, by rw [hpre]; rfl⟩

theorem readQuoted_suffix (q : Char) (s : List Char) : (readQuoted q s).2 <:+ s := by
  obtain hend | ⟨pre, hpre⟩ := readQuoted_end q s
  · rw [hend]
    exact List.nil_suffix
  · exact ⟨pre ++ [q], by rw [List.append_assoc]; exact hpre.symm⟩

theorem leads_quoted (q : Char) (s : List Char) (n : SchemaName) :
    Leads (quoted q n) s (closing q (n ++ (readQuoted q s).1)) (readQuoted q s).2 := by
  fun_induction readQuoted q s generalizing n with
  | case1 => exact .of_step rfl fun _ hc => absurd hc (by simp)
  | case2 cs' r ih =>
    have hcons := ih (n ++ [q])
    rw [List.append_assoc] at hcons
    refine .cons (.cons ?_)
    rwa [step, if_pos rfl, step, if_pos rfl]
  | case3 d cs' hd =>
    refine .cons ?_
    rw [step, if_pos rfl, List.append_nil]
    exact .refl _ _
  | case4 =>
    refine .cons ?_
    rw [step, if_pos rfl, List.append_nil]
    exact .refl _ _
  | case5 c cs hc r ih =>
    have hcons := ih (n ++ [c])
    rw [List.append_assoc] at hcons
    refine .cons ?_
    rwa [step, if_neg hc]

theorem startsNot_dropWhile (p : Char → Bool) (s : List Char) : StartsNot p (s.dropWhile p) := by
  intro c hc
  have h := List.head?_dropWhile_not p s
  rwa [hc] at h

/-- Where a name has been read: it may be a schema, unless it is empty. -/
def afterName (n : SchemaName) : Place := if n = [] then gap else dot n

theorem afterName_of_ne {n : SchemaName} (h : n ≠ []) : afterName n = dot n := if_neg h

theorem leads_closing {q : Char} {n : SchemaName} {s : List Char} (hs : StartsNot (· == q) s) :
    Leads (closing q n) s (afterName n) s := by
  have hne : ∀ c ∈ s.head?, c ≠ q := fun c hc => beq_eq_false_iff_ne.mp (hs c hc)
  rw [afterName]
  split
  · next hn => exact .of_step rfl fun c hc => by simp [step, hne c hc, hn]
  · next hn => exact .of_step rfl fun c hc => by simp [step, hne c hc, hn]

/-- What `readIdent` can find: nothing, a quoted name, a bare name or another character. -/
theorem readIdent_cases (s : List Char) :
    (s.dropWhile isSpace = [] ∧ readIdent s = ([], [])) ∨
    ∃ c cs, s.dropWhile isSpace = c :: cs ∧ isSpace c = false ∧
      (((c = '\x60' ∨ c = '"') ∧ readIdent s = readQuoted c cs) ∨
        (¬ (c = '\x60' ∨ c = '"') ∧ isIdent c = true ∧
          readIdent s = (c :: cs.takeWhile isIdent, cs.dropWhile isIdent)) ∨
        (¬ (c = '\x60' ∨ c = '"') ∧ isIdent c = false ∧ readIdent s = ([], c :: cs))) := by
  have hspace := startsNot_dropWhile isSpace s
  rw [readIdent]
  cases hs : s.dropWhile isSpace with
  | nil => exact .inl ⟨rfl, rfl⟩
  | cons c cs =>
    refine .inr ⟨c, cs, rfl, hspace c (by rw [hs]; rfl), ?_⟩
    dsimp only
    by_cases hq : c = '\x60' ∨ c = '"'
    · exact .inl ⟨hq, if_pos hq⟩
    · cases hi : isIdent c with
      | true =>
        refine .inr (.inl ⟨hq, rfl, (if_neg hq).trans ?_⟩)
        rw [List.takeWhile_cons_of_pos hi, List.dropWhile_cons_of_pos hi]
      | false =>
        refine .inr (.inr ⟨hq, rfl, (if_neg hq).trans ?_⟩)
        rw [List.takeWhile_cons_of_neg (by simp [hi]), List.dropWhile_cons_of_neg (by simp [hi])]

/-- A bare name ends where the first other character stands. -/
theorem leads_bare (c : Char) (cs : List Char) :
    Leads (bare [c]) cs (dot (c :: cs.takeWhile isIdent)) (cs.dropWhile isIdent) := by
  have hfront := List.takeWhile_append_dropWhile (p := isIdent) (l := cs)
  refine ⟨cs.takeWhile isIdent, hfront.symm, ?_⟩
  rw [run_bare _ fun d hd => List.mem_takeWhile_imp hd]
  refine ⟨rfl, fun d hd => ?_⟩
  have hd' := startsNot_dropWhile isIdent cs d hd
  simp [step, hd']

/-- After a keyword: the name that is read, or what stands there if there is none. -/
theorem leads_name (s : List Char) : Leads name s (afterName (readIdent s).1) (readIdent s).2 := by
  refine (Leads.dropWhile_isSpace (p := name) (fun c hc => if_pos hc) s).trans ?_
  obtain ⟨hs, hread⟩ | ⟨c, cs, hs, hc, ⟨hq, hread⟩ | ⟨hq, hi, hread⟩ | ⟨hq, hi, hread⟩⟩ :=
    readIdent_cases s
  · rw [hs, hread]
    exact .of_step rfl fun _ hc => absurd hc (by simp)
  · have hstep : name.step c = quoted c [] := by simp [step, fromName, hc, hq]
    have hquoted := leads_quoted c cs []
    rw [hs, hread]
    refine .cons ?_
    rw [hstep]
    exact hquoted.trans (leads_closing (startsNot_readQuoted c cs))
  · have hstep : name.step c = bare [c] := by simp [step, fromName, hc, hq, hi]
    rw [hs, hread, afterName_of_ne (List.cons_ne_nil _ _)]
    refine .cons ?_
    rw [hstep]
    exact leads_bare c cs
  · rw [hs, hread]
    refine .of_step rfl fun d hd => ?_
    obtain rfl : c = d := by simpa using hd
    simp [step, fromName, hc, hq, hi, afterName]

/-- Where a second name has been read: the first one is the schema, unless the second is empty. -/
def afterTable (n m : SchemaName) : Place := if m = [] then gap else found n

theorem leads_tableQuoted (q : Char) (n : SchemaName) (s : List Char) :
    Leads (tableQuoted q n) s (afterTable n (readQuoted q s).1) (readQuoted q s).2 := by
  fun_cases readQuoted q s with
  | case1 => exact .of_step rfl fun _ hc => absurd hc (by simp)
  | case2 cs' r =>
    refine .cons (.cons ?_)
    rw [step, if_pos rfl, step, if_pos rfl]
    exact .found (readQuoted_suffix q cs')
  | case3 d cs' hd =>
    refine .cons (.of_step ?_ fun c hc => ?_)
    · rw [step, if_pos rfl]
      rfl
    · obtain rfl : d = c := by simpa using hc
      rw [step, if_pos rfl, step, if_neg hd]
      rfl
  | case4 =>
    refine .cons (.of_step ?_ fun _ hc => absurd hc (by simp))
    rw [step, if_pos rfl]
    rfl
  | case5 c cs hc r =>
    refine .cons ?_
    rw [step, if_neg hc]
    exact .found (readQuoted_suffix q cs)

/-- After the dot: the name is a schema if it is followed by a table. -/
theorem leads_table (n : SchemaName) (s : List Char) :
    Leads (table n) s (afterTable n (readIdent s).1) (readIdent s).2 := by
  refine (Leads.dropWhile_isSpace (p := table n) (fun c hc => if_pos hc) s).trans ?_
  obtain ⟨hs, hread⟩ | ⟨c, cs, hs, hc, ⟨hq, hread⟩ | ⟨hq, hi, hread⟩ | ⟨hq, hi, hread⟩⟩ :=
    readIdent_cases s
  · rw [hs, hread]
    exact .of_step rfl fun _ hc => absurd hc (by simp)
  · have hstep : (table n).step c = tableQuoted c n := by simp [step, hc, hq]
    rw [hs, hread]
    refine .cons ?_
    rw [hstep]
    exact leads_tableQuoted c n cs
  · have hstep : (table n).step c = found n := by simp [step, hc, hq, hi]
    rw [hs, hread]
    refine .cons ?_
    rw [hstep]
    exact .found (List.dropWhile_suffix _)
  · rw [hs, hread]
    refine .of_step rfl fun d hd => ?_
    obtain rfl : c = d := by simpa using hd
    simp [step, hc, hq, hi, afterTable]

theorem step_gap_of_isSpace {c : Char} (hc : isSpace c = true) : gap.step c = gap := by
  have hi : isIdent c = false := isWord_of_isSpace hc
  have hq : c ≠ '\'' := isSpace_ne hc (by decide)
  simp [step, fromGap, hi, hq]

theorem leads_dot {n : SchemaName} {s : List Char} (h : ∀ cs, s.dropWhile isSpace ≠ '.' :: cs) :
    Leads (dot n) s gap (s.dropWhile isSpace) := by
  refine (Leads.dropWhile_isSpace (p := dot n) (fun c hc => if_pos hc) s).trans ?_
  refine .of_step rfl fun c hc => ?_
  have hspace := startsNot_dropWhile isSpace s c hc
  have hdot : c ≠ '.' := by
    rintro rfl
    exact h _ (List.eq_cons_of_mem_head? hc)
  simp [step, fromDot, hspace, hdot]

/-- What `readQualifiedSchema` can find: no name, a name and a dot, or a name alone. -/
theorem readQualifiedSchema_cases (s : List Char) :
    ((readIdent s).1 = [] ∧ readQualifiedSchema s = ([], (readIdent s).2)) ∨
    ((readIdent s).1 ≠ [] ∧ ∃ cs, (readIdent s).2.dropWhile isSpace = '.' :: cs ∧
      readQualifiedSchema s =
        (if (readIdent cs).1 = [] then [] else (readIdent s).1, (readIdent cs).2)) ∨
    ((readIdent s).1 ≠ [] ∧ (∀ cs, (readIdent s).2.dropWhile isSpace ≠ '.' :: cs) ∧
      readQualifiedSchema s = ([], (readIdent s).2)) := by
  rw [readQualifiedSchema]
  by_cases hfirst : (readIdent s).1 = []
  · exact .inl ⟨hfirst, if_pos hfirst⟩
  · refine .inr ?_
    dsimp only
    rw [if_neg hfirst]
    split
    · next cs hdot => exact .inl ⟨hfirst, cs, hdot, rfl⟩
    · next hdot => exact .inr ⟨hfirst, hdot, rfl⟩

/-- After a keyword: the schema of the name, or what follows it if it has none. -/
theorem leads_qualified (s : List Char) :
    Leads name s (if (readQualifiedSchema s).1 = [] then gap else found (readQualifiedSchema s).1)
      ((readQualifiedSchema s).2.dropWhile isSpace) := by
  have hgap : ∀ t, Leads gap t gap (t.dropWhile isSpace) :=
    Leads.dropWhile_isSpace fun c hc => step_gap_of_isSpace hc
  refine (leads_name s).trans ?_
  obtain ⟨hfirst, hread⟩ | ⟨hfirst, cs, hdot, hread⟩ | ⟨hfirst, hdot, hread⟩ :=
    readQualifiedSchema_cases s
  · rw [hread, hfirst, if_pos rfl]
    exact hgap _
  · have htable : Leads (dot (readIdent s).1) (readIdent s).2 (table (readIdent s).1) cs := by
      refine (Leads.dropWhile_isSpace (p := dot (readIdent s).1) (fun c hc => if_pos hc) _).trans ?_
      rw [hdot]
      exact .cons (.refl _ _)
    rw [hread, afterName_of_ne hfirst]
    refine (htable.trans (leads_table _ cs)).trans ?_
    by_cases hsecond : (readIdent cs).1 = []
    · simp only [afterTable, hsecond, if_true]
      exact hgap _
    · simp only [afterTable, hsecond, if_false, hfirst]
      exact .found (List.dropWhile_suffix _)
  · rw [hread, afterName_of_ne hfirst, if_pos rfl]
    exact leads_dot hdot

theorem result_run_name_eq (s : List Char) :
    (name.run s).result =
      if (readQualifiedSchema s).1 = [] then (gap.run (readQualifiedSchema s).2).result
      else some (readQualifiedSchema s).1 := by
  rw [(leads_qualified s).result_eq]
  split
  · rw [run_dropWhile_isSpace fun c hc => step_gap_of_isSpace hc]
  · rw [run_found]
    rfl

/-! ### Resuming after a name -/

/-- A word that begins where `rest` does, behind `s`, begins there: it is not continued from `s`. -/
def Fresh (s rest : List Char) : Prop :=
  StartsNot isIdent rest ∨ ∃ pre q, s = pre ++ q :: rest ∧ isIdent q = false

theorem Fresh.of_suffix {s t rest : List Char} (h : Fresh t rest) (ht : t <:+ s) :
    Fresh s rest := by
  obtain ⟨x, rfl⟩ := ht
  obtain hrest | ⟨pre, q, rfl, hq⟩ := h
  · exact .inl hrest
  · exact .inr ⟨x ++ pre, q, (List.append_assoc _ _ _).symm, hq⟩

theorem startsNot_nil (p : Char → Bool) : StartsNot p [] := fun _ hc => absurd hc (by simp)

theorem isIdent_quote {q : Char} (hq : q = '\x60' ∨ q = '"') : isIdent q = false := by
  obtain rfl | rfl := hq
  · decide
  · decide

theorem fresh_readIdent (s : List Char) :
    Fresh s (readIdent s).2 ∧ (readIdent s).2 <:+ s := by
  have hsuf : s.dropWhile isSpace <:+ s := List.dropWhile_suffix _
  obtain ⟨hs, hread⟩ | ⟨c, cs, hs, hc, ⟨hq, hread⟩ | ⟨hq, hi, hread⟩ | ⟨hq, hi, hread⟩⟩ :=
    readIdent_cases s
  · rw [hread]
    exact ⟨.inl (startsNot_nil _), List.nil_suffix⟩
  · rw [hs] at hsuf
    rw [hread]
    obtain hend | ⟨pre, hpre⟩ := readQuoted_end c cs
    · rw [hend]
      exact ⟨.inl (startsNot_nil _), List.nil_suffix⟩
    · have hcs := readQuoted_suffix c cs
      refine ⟨?_, hcs.trans ((List.suffix_cons c cs).trans hsuf)⟩
      exact Fresh.of_suffix (.inr ⟨pre, c, hpre, isIdent_quote hq⟩)
        ((List.suffix_cons c cs).trans hsuf)
  · rw [hs] at hsuf
    rw [hread]
    exact ⟨.inl (startsNot_dropWhile isIdent cs),
      (List.dropWhile_suffix _).trans ((List.suffix_cons c cs).trans hsuf)⟩
  · rw [hread, ← hs]
    refine ⟨.inl ?_, hsuf⟩
    rw [hs]
    intro d hd
    obtain rfl : c = d := by simpa using hd
    exact hi

theorem fresh_readQualifiedSchema (s : List Char) : Fresh s (readQualifiedSchema s).2 := by
  obtain ⟨hfresh, hsuf⟩ := fresh_readIdent s
  obtain ⟨-, hread⟩ | ⟨-, cs, hdot, hread⟩ | ⟨-, -, hread⟩ := readQualifiedSchema_cases s
  · rwa [hread]
  · rw [hread]
    have hcs : cs <:+ (readIdent s).2 :=
      (List.suffix_cons '.' cs).trans (hdot ▸ List.dropWhile_suffix _)
    exact (fresh_readIdent cs).1.of_suffix (hcs.trans hsuf)
  · rwa [hread]

theorem charBefore_append (pre rest : List Char) (q : Char) :
    charBefore (pre ++ q :: rest) rest = some q := by
  have hlen : (pre ++ q :: rest).length - rest.length = (pre ++ [q]).length := by
    simp only [List.length_append, List.length_cons, List.length_nil]
    omega
  rw [charBefore, hlen, List.append_cons pre q rest, List.take_left, List.getLast?_concat]

/-- Where a character other than of a word stands, what stands before it does not matter. -/
theorem extractScan_of_startsNot {s : List Char} (hs : StartsNot isIdent s)
    (prev prev' : Option Char) :
    extractScan .normal prev s = extractScan .normal prev' s := by
  cases s with
  | nil => rw [extractScan, extractScan]
  | cons c cs =>
    have hi : isIdent c = false := hs c rfl
    have halpha : c.isAlpha = false := by
      cases h : c.isAlpha with
      | false => rfl
      | true => exact absurd (isWord_of_isAlpha h) (by simp [hi])
    rw [extractScan, extractScan]
    simp [halpha]

theorem extractScan_charBefore {s rest : List Char} (h : Fresh s rest) :
    extractScan .normal (charBefore s rest) rest = extractScan .normal none rest := by
  obtain hrest | ⟨pre, q, rfl, hq⟩ := h
  · exact extractScan_of_startsNot hrest _ _
  · rw [charBefore_append]
    cases rest with
    | nil => rw [extractScan, extractScan]
    | cons c cs =>
      rw [extractScan, extractScan]
      simp [hq]

/-! ### Keywords -/

/-- The word that a text begins with, in lower case. -/
def leadingWord (s : List Char) : List Char := (s.takeWhile isIdent).map lower

theorem split_leadingWord (s : List Char) :
    s.take (leadingWord s).length = s.takeWhile isIdent ∧
      s.drop (leadingWord s).length = s.dropWhile isIdent := by
  have htake : s.take (leadingWord s).length = s.takeWhile isIdent := by
    rw [leadingWord, List.length_map]
    exact (List.prefix_iff_eq_take.mp (List.takeWhile_prefix _)).symm
  refine ⟨htake, (List.append_right_inj (s.takeWhile isIdent)).mp ?_⟩
  rw [List.takeWhile_append_dropWhile, ← htake, List.take_append_drop]

theorem isIdent_of_lower_mem {kw : List Char} (hkw : kw ∈ tableKeywords) {c : Char}
    (hc : lower c ∈ kw) : isIdent c = true := by
  have hall : tableKeywords.all (fun kw => kw.all Char.isAlpha) = true := by decide
  have halpha : (lower c).isAlpha = true :=
    List.all_eq_true.mp (List.all_eq_true.mp hall kw hkw) _ hc
  refine isWord_of_isAlpha ?_
  rwa [lower, Char.isAlpha_toLower_eq_isAlpha] at halpha

/-- A keyword stands at a position if it is the word there. -/
theorem wordAt_iff {kw : List Char} (hkw : kw ∈ tableKeywords) (s : List Char) :
    wordAt s kw = true ↔ leadingWord s = kw := by
  rw [wordAt, Bool.and_eq_true, decide_eq_true_eq, leadingWord]
  constructor
  · rintro ⟨hlower, hend⟩
    have hword : ∀ c ∈ s.take kw.length, isIdent c = true := by
      intro c hc
      refine isIdent_of_lower_mem hkw ?_
      rw [← hlower]
      exact List.mem_map_of_mem hc
    have hstop : StartsNot isIdent (s.drop kw.length) := by
      intro c hc
      rw [hc] at hend
      simpa using hend
    have htake := (takeWhile_isWord hword hstop).1
    rw [List.take_append_drop] at htake
    rw [htake, hlower]
  · intro hword
    obtain ⟨htake, hdrop⟩ := split_leadingWord s
    rw [leadingWord, hword] at htake hdrop
    refine ⟨by rw [htake, hword], ?_⟩
    rw [hdrop]
    cases hhead : (s.dropWhile isIdent).head? with
    | none => rfl
    | some c =>
      have := startsNot_dropWhile isIdent s c hhead
      simp [this]

theorem find?_wordAt_eq_none {s : List Char} :
    tableKeywords.find? (wordAt s) = none ↔ leadingWord s ∉ tableKeywords := by
  rw [List.find?_eq_none]
  constructor
  · intro h hmem
    exact h _ hmem ((wordAt_iff hmem s).mpr rfl)
  · intro h kw hkw hword
    rw [wordAt_iff hkw] at hword
    exact h (hword ▸ hkw)

theorem find?_wordAt_eq_some {s kw : List Char} (h : tableKeywords.find? (wordAt s) = some kw) :
    kw ∈ tableKeywords ∧ leadingWord s = kw :=
  have hkw := List.mem_of_find?_eq_some h
  ⟨hkw, (wordAt_iff hkw s).mp (List.find?_some h)⟩

theorem leadingWord_cons {c : Char} (hc : isIdent c = true) (s : List Char) :
    leadingWord (c :: s) = lower c :: leadingWord s := by
  rw [leadingWord, List.takeWhile_cons_of_pos hc, List.map_cons]
  rfl

theorem leadingWord_of_startsNot {s : List Char} (h : StartsNot isIdent s) :
    leadingWord s = [] := by
  cases s with
  | nil => rfl
  | cons c s => rw [leadingWord, List.takeWhile_cons_of_neg (by simp [h c rfl]), List.map_nil]

/-- A keyword leads on to the name after it. -/
theorem result_run_keyword {s : List Char} {c : Char} (hkw : leadingWord (c :: s) ∈ tableKeywords)
    (hc : isIdent c = true) :
    (gap.run (c :: s)).result =
      (name.run ((c :: s).drop (leadingWord (c :: s)).length)).result := by
  have hquote : c ≠ '\'' := isWord_ne hc (by decide)
  have hgap : gap.step c = word [lower c] := by simp [step, fromGap, hquote, hc]
  have hrun : gap.run (c :: s) = (word (leadingWord (c :: s))).run (s.dropWhile isIdent) := by
    rw [run_cons, hgap, leadingWord_cons hc]
    conv_lhs => rw [← List.takeWhile_append_dropWhile (p := isIdent) (l := s)]
    rw [run_append, run_word _ fun d hd => List.mem_takeWhile_imp hd]
    rfl
  rw [hrun, (split_leadingWord (c :: s)).2, List.dropWhile_cons_of_pos hc]
  refine result_run_congr rfl fun d hd => ?_
  have hd' := startsNot_dropWhile isIdent s d hd
  simp [step, hd', hkw]

/-! ### The pass over the text -/

theorem cons_notMem_tableKeywords {c : Char} (hc : c.isAlpha = false) (w : List Char) :
    lower c :: w ∉ tableKeywords := by
  intro hmem
  have hall : tableKeywords.all (fun kw => kw.all Char.isAlpha) = true := by decide
  have halpha := List.all_eq_true.mp (List.all_eq_true.mp hall _ hmem) _ List.mem_cons_self
  rw [lower, Char.isAlpha_toLower_eq_isAlpha, hc] at halpha
  exact absurd halpha (by simp)

/-- Scan and automaton agree on a text, wherever the scan may stand before it: outside words, inside
a word that is no keyword, or inside a literal. -/
structure ScanAgrees (s : List Char) : Prop where
  outside : ∀ prev : Option Char, prev.all (fun p => !isIdent p) = true →
    extractScan .normal prev s = (gap.run s).result
  inWord : ∀ prev w, w ++ leadingWord s ∉ tableKeywords → prev.all (fun p => !isIdent p) = false →
    extractScan .normal prev s = ((word w).run s).result
  inLiteral : ∀ prev, extractScan .squote prev s = (literal.run s).result

theorem scanAgrees_nil : ScanAgrees [] := by
  refine ⟨fun prev _ => ?_, fun prev w _ _ => ?_, fun prev => ?_⟩
  all_goals
    rw [extractScan]
    rfl

section ConsStep

variable {c : Char} {cs : List Char}

/-- At a letter outside words: a keyword and the name behind it, or the beginning of a word. -/
theorem extractScan_letter (ih : ∀ t : List Char, t.length < (c :: cs).length → ScanAgrees t)
    {prev : Option Char} (hprev : prev.all (fun p => !isIdent p) = true) (hquote : c ≠ '\'')
    (halpha : c.isAlpha = true) :
    extractScan .normal prev (c :: cs) = (gap.run (c :: cs)).result := by
  have hi : isIdent c = true := isWord_of_isAlpha halpha
  rw [extractScan, if_neg (by simp), if_neg hquote, if_neg (by simp [halpha, hprev])]
  split
  · next hfind =>
    have hword := find?_wordAt_eq_none.mp hfind
    rw [leadingWord_cons hi] at hword
    rw [(ih cs (Nat.lt_succ_self _)).inWord _ [lower c] hword (by simp [hi]), run_cons]
    simp [step, fromGap, hquote, hi]
  · next kw hfind =>
    obtain ⟨hkw, rfl⟩ := find?_wordAt_eq_some hfind
    rw [result_run_keyword hkw hi, result_run_name_eq]
    set rest := (c :: cs).drop (leadingWord (c :: cs)).length
    have hlt : (readQualifiedSchema rest).2.length < (c :: cs).length :=
      Nat.lt_of_le_of_lt (length_readQualifiedSchema _)
        (length_drop_tableKeyword (List.cons_ne_nil c cs) hkw)
    have hfresh : Fresh (c :: cs) (readQualifiedSchema rest).2 :=
      (fresh_readQualifiedSchema rest).of_suffix (List.drop_suffix _ _)
    dsimp only
    rw [extractScan_charBefore hfresh, (ih _ hlt).outside none rfl, ite_not]

theorem extractScan_outside (ih : ∀ t : List Char, t.length < (c :: cs).length → ScanAgrees t)
    (prev : Option Char) (hprev : prev.all (fun p => !isIdent p) = true) :
    extractScan .normal prev (c :: cs) = (gap.run (c :: cs)).result := by
  have hcs := ih cs (Nat.lt_succ_self _)
  by_cases hquote : c = '\''
  · subst hquote
    rw [extractScan, if_neg (by simp), if_pos rfl, hcs.inLiteral]
    rfl
  · cases halpha : c.isAlpha with
    | true => exact extractScan_letter ih hprev hquote halpha
    | false =>
      rw [extractScan, if_neg (by simp), if_neg hquote, if_pos (by simp [halpha]), run_cons]
      cases hi : isIdent c with
      | false =>
        rw [hcs.outside _ (by simp [hi])]
        simp [step, fromGap, hquote, hi]
      | true =>
        rw [hcs.inWord _ [lower c] (cons_notMem_tableKeywords halpha _) (by simp [hi])]
        simp [step, fromGap, hquote, hi]

theorem extractScan_inWord (ih : ∀ t : List Char, t.length < (c :: cs).length → ScanAgrees t)
    (prev : Option Char) (w : List Char) (hw : w ++ leadingWord (c :: cs) ∉ tableKeywords)
    (hprev : prev.all (fun p => !isIdent p) = false) :
    extractScan .normal prev (c :: cs) = ((word w).run (c :: cs)).result := by
  cases hi : isIdent c with
  | true =>
    have hquote : c ≠ '\'' := isWord_ne hi (by decide)
    rw [leadingWord_cons hi, List.append_cons] at hw
    rw [extractScan, if_neg (by simp), if_neg hquote, if_pos (by simp [hprev]),
      (ih cs (Nat.lt_succ_self _)).inWord _ _ hw (by simp [hi]), run_cons, step, if_pos hi]
  | false =>
    -- the word ends here, so the scan is outside words again
    have hstart : StartsNot isIdent (c :: cs) := fun d hd => by
      obtain rfl : c = d := by simpa using hd
      exact hi
    rw [leadingWord_of_startsNot hstart, List.append_nil] at hw
    rw [extractScan_of_startsNot hstart prev none, extractScan_outside ih none rfl, run_cons,
      run_cons]
    simp [step, hi, hw]

theorem extractScan_inLiteral (ih : ∀ t : List Char, t.length < (c :: cs).length → ScanAgrees t)
    (prev : Option Char) :
    extractScan .squote prev (c :: cs) = (literal.run (c :: cs)).result := by
  by_cases hescape : c = '\\'
  · subst hescape
    rw [extractScan, if_pos (by simp), if_pos (by simp)]
    cases cs with
    | nil =>
      rw [List.tail_nil, extractScan]
      rfl
    | cons d ds =>
      rw [List.tail_cons, (ih ds (by simp only [List.length_cons]; omega)).inLiteral]
      rfl
  · have hcs := ih cs (Nat.lt_succ_self _)
    rw [extractScan, if_pos (by simp), if_neg (by simp [hescape])]
    by_cases hquote : c = '\''
    · subst hquote
      rw [if_pos (show '\'' = LexState.squote.quote from rfl), hcs.outside _ (by decide)]
      rfl
    · rw [if_neg (show ¬ c = LexState.squote.quote from hquote), hcs.inLiteral, run_cons]
      simp [step, hescape, hquote]

end ConsStep

theorem scanAgrees (s : List Char) : ScanAgrees s := by
  induction hn : s.length using Nat.strongRecOn generalizing s with
  | ind n ih =>
    subst hn
    have ih : ∀ t : List Char, t.length < s.length → ScanAgrees t :=
      fun t ht => ih t.length ht t rfl
    cases s with
    | nil => exact scanAgrees_nil
    | cons c cs =>
      exact ⟨extractScan_outside ih, extractScan_inWord ih, extractScan_inLiteral ih⟩

/-- **One pass decides.** -/
theorem extract_eq_result (s : List Char) : extract s = (gap.run s).result :=
  (scanAgrees s).outside none rfl

/-! ### Literals -/

/-- The scan leaves a literal where the literal ends. -/
theorem run_literal {x : List Char} (hx : Literal .squote x) (y : List Char) :
    literal.run (x ++ '\'' :: y) = gap.run y := by
  induction hx with
  | nil => rfl
  | escape _ _ ih => exact ih
  | double _ ih => exact ih
  | @inside c cs hq hb _ ih =>
    have hescape : c ≠ '\\' := fun h => absurd (hb h) (by decide)
    have hquote : c ≠ '\'' := hq
    rw [List.cons_append, run_cons, step, if_neg hescape, if_neg hquote, ih]

/-! ### The quotes of a name -/

namespace Place

/-- The quote of a name is one of the two. -/
def WellQuoted : Place → Prop
  | .quoted q _ | .closing q _ | .tableQuoted q _ | .tableClosing q _ => q = '\x60' ∨ q = '"'
  | _ => True

theorem wellQuoted_fromGap (c : Char) : (fromGap c).WellQuoted := by
  rw [fromGap]
  split_ifs <;> trivial

theorem wellQuoted_fromName (c : Char) : (fromName c).WellQuoted := by
  rw [fromName]
  split_ifs with _ hq
  · trivial
  · exact hq
  · trivial
  · exact wellQuoted_fromGap c

theorem wellQuoted_fromDot (n : SchemaName) (c : Char) : (fromDot n c).WellQuoted := by
  rw [fromDot]
  split_ifs
  · trivial
  · trivial
  · exact wellQuoted_fromGap c

theorem WellQuoted.step {p : Place} (h : p.WellQuoted) (c : Char) : (p.step c).WellQuoted := by
  cases p with
  | gap => exact wellQuoted_fromGap c
  | word w =>
    rw [Place.step]
    split_ifs
    · trivial
    · exact wellQuoted_fromName c
    · exact wellQuoted_fromGap c
  | literal =>
    rw [Place.step]
    split_ifs <;> trivial
  | escape => trivial
  | name => exact wellQuoted_fromName c
  | bare n =>
    rw [Place.step]
    split_ifs
    · trivial
    · exact wellQuoted_fromDot n c
  | quoted q n =>
    rw [Place.step]
    split_ifs <;> exact h
  | closing q n =>
    rw [Place.step]
    split_ifs
    · exact h
    · exact wellQuoted_fromGap c
    · exact wellQuoted_fromDot n c
  | dot n => exact wellQuoted_fromDot n c
  | table n =>
    rw [Place.step]
    split_ifs with _ hq
    · trivial
    · exact hq
    · trivial
    · exact wellQuoted_fromGap c
  | tableQuoted q n =>
    rw [Place.step]
    split_ifs
    · exact h
    · trivial
  | tableClosing q n =>
    rw [Place.step]
    split_ifs
    · trivial
    · exact wellQuoted_fromGap c
  | found n => trivial

theorem wellQuoted_run (s : List Char) : (gap.run s).WellQuoted := by
  have hrun : ∀ (s : List Char) (p : Place), p.WellQuoted → (p.run s).WellQuoted := by
    intro s
    induction s with
    | nil => exact fun _ h => h
    | cons c s ih => exact fun p h => ih _ (h.step c)
  exact hrun s gap trivial

end Place

end DBMesh.Routing
