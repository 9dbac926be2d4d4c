import DBMesh.Core.Types
import Mathlib.Data.List.DropRight

/-!
# The query classifier

`routing/src/query_classifier.cpp`: the hand-written scanners that remove comments, split a batch
into statements and find the keyword of a statement. A text is the list of its characters, one for
each byte; `isspace`, `isalpha`, `isalnum` and `tolower` are those of the C locale.

The scanners of the source walk an index through the text and look one character ahead. Here each
is a recursion on what is left of the text.

## Main definitions

* `DBMesh.Routing.stripScan`, `stripComments` — comment removal, with the state it ends in
* `DBMesh.Routing.segments`, `splitStatements` — splitting at `;`
* `DBMesh.Routing.firstKeyword`, `classifyCte`, `classifyOne`, `classify`
-/

namespace DBMesh.Routing

/-! ### Characters -/

/-- `std::isspace` -/
def isSpace (c : Char) : Bool :=
  c == ' ' || c == '\t' || c == '\n' || c == '\x0b' || c == '\x0c' || c == '\r'

/-- `std::isalnum`, `'_'` or `'$'` -/
def isWord (c : Char) : Bool := c.isAlphanum || c == '_' || c == '$'

def lower (c : Char) : Char := c.toLower

/-- The state of a scanner: outside literals, or inside one of the three kinds. -/
inductive LexState
  | normal
  | squote
  | dquote
  | btick
  deriving DecidableEq, Repr

/-- The character that closes a literal. -/
def LexState.quote : LexState → Char
  | .normal => '\x00'
  | .squote => '\''
  | .dquote => '"'
  | .btick => '\x60'

/-- The state after a character outside literals. -/
def opened (c : Char) : LexState :=
  if c = '\'' then .squote else if c = '"' then .dquote else if c = '\x60' then .btick else .normal

/-! ### Removing comments -/

/-- What follows the next line end. -/
def skipLine : List Char → Option (List Char)
  | [] => none
  | c :: cs => if c = '\n' then some cs else skipLine cs

/-- What follows the next end of a block comment. -/
def skipBlock : List Char → Option (List Char)
  | '*' :: '/' :: cs => some cs
  | _ :: cs => skipBlock cs
  | [] => none

/-- One iteration of the loop of `strip_comments` at the character `c`: what it appends to the
output, the state after it and what is left to scan. `none` is a comment that nothing ends. -/
def stripStep (st : LexState) (c : Char) (cs : List Char) :
    Option (List Char × LexState × List Char) :=
  if st = .normal then
    if c = '-' ∧ cs.head? = some '-' then
      (skipLine cs).map fun rest => ([' '], .normal, rest)
    else if c = '#' then
      (skipLine cs).map fun rest => ([' '], .normal, rest)
    else if c = '/' ∧ cs.head? = some '*' then
      (skipBlock cs.tail).map fun rest => ([' '], .normal, rest)
    else some ([c], opened c, cs)
  else if c = '\\' ∧ st ≠ .btick then
    -- an escape, unless nothing (or a NUL) follows
    match cs with
    | n :: cs' => if n ≠ '\x00' then some ([c, n], st, cs') else some ([c], st, cs)
    | [] => some ([c], st, [])
  else if c = st.quote then
    if cs.head? = some st.quote then some ([c, st.quote], st, cs.tail)
    else some ([c], .normal, cs)
  else some ([c], st, cs)

theorem exists_of_skipLine {cs rest : List Char} (h : skipLine cs = some rest) :
    ∃ line, cs = line ++ '\n' :: rest := by
  induction cs with
  | nil => exact absurd h (by simp [skipLine])
  | cons c cs ih =>
    rw [skipLine] at h
    split_ifs at h with hc
    · obtain rfl := Option.some.inj h
      exact ⟨[], by rw [hc, List.nil_append]⟩
    · obtain ⟨line, rfl⟩ := ih h
      exact ⟨c :: line, rfl⟩

theorem length_of_skipLine {cs rest : List Char} (h : skipLine cs = some rest) :
    rest.length < cs.length := by
  obtain ⟨line, rfl⟩ := exists_of_skipLine h
  rw [List.length_append, List.length_cons]
  omega

theorem skipBlock_cons {c : Char} {cs : List Char} (h : ∀ t, c = '*' → cs = '/' :: t → False) :
    skipBlock (c :: cs) = skipBlock cs := by
  rw [skipBlock]
  exact h

theorem exists_of_skipBlock {cs rest : List Char} (h : skipBlock cs = some rest) :
    ∃ body, cs = body ++ '*' :: '/' :: rest := by
  induction cs using skipBlock.induct with
  | case1 cs =>
    rw [skipBlock] at h
    obtain rfl := Option.some.inj h
    exact ⟨[], rfl⟩
  | case2 c cs hne ih =>
    rw [skipBlock_cons hne] at h
    obtain ⟨body, rfl⟩ := ih h
    exact ⟨c :: body, rfl⟩
  | case3 => exact absurd h (by simp [skipBlock])

theorem length_of_skipBlock {cs rest : List Char} (h : skipBlock cs = some rest) :
    rest.length < cs.length := by
  obtain ⟨body, rfl⟩ := exists_of_skipBlock h
  rw [List.length_append, List.length_cons, List.length_cons]
  omega

theorem length_of_stripStep {st st' : LexState} {c : Char} {cs out rest : List Char}
    (h : stripStep st c cs = some (out, st', rest)) : rest.length < (c :: cs).length := by
  have hskip : ∀ {f : List Char → Option (List Char)} {x : List Char} {o : List Char},
      (∀ rest, f x = some rest → rest.length < x.length) → x.length ≤ cs.length →
      (f x).map (fun rest => (o, LexState.normal, rest)) = some (out, st', rest) →
      rest.length < (c :: cs).length := by
    intro f x o hlt hle hmap
    obtain ⟨r, hr, heq⟩ := Option.map_eq_some_iff.mp hmap
    obtain ⟨-, -, rfl⟩ : o = out ∧ LexState.normal = st' ∧ r = rest := by simpa using heq
    exact Nat.lt_succ_of_lt (Nat.lt_of_lt_of_le (hlt r hr) hle)
  simp only [stripStep] at h
  split_ifs at h
  · exact hskip (fun _ => length_of_skipLine) (Nat.le_refl _) h
  · exact hskip (fun _ => length_of_skipLine) (Nat.le_refl _) h
  · exact hskip (fun _ => length_of_skipBlock) (by simp) h
  · obtain ⟨-, -, rfl⟩ : [c] = out ∧ opened c = st' ∧ cs = rest := by simpa using h
    exact Nat.lt_succ_self _
  · cases cs with
    | nil =>
      obtain ⟨-, -, rfl⟩ : [c] = out ∧ st = st' ∧ [] = rest := by simpa using h
      exact Nat.zero_lt_one
    | cons n cs =>
      simp only at h
      split_ifs at h
      · obtain ⟨-, -, rfl⟩ : [c, n] = out ∧ st = st' ∧ cs = rest := by simpa using h
        simp only [List.length_cons]
        omega
      · obtain ⟨-, -, rfl⟩ : [c] = out ∧ st = st' ∧ n :: cs = rest := by simpa using h
        exact Nat.lt_succ_self _
  · obtain ⟨-, -, rfl⟩ : [c, st.quote] = out ∧ st = st' ∧ cs.tail = rest := by simpa using h
    rw [List.length_tail, List.length_cons]
    omega
  · obtain ⟨-, -, rfl⟩ : [c] = out ∧ LexState.normal = st' ∧ cs = rest := by simpa using h
    exact Nat.lt_succ_self _
  · obtain ⟨-, -, rfl⟩ : [c] = out ∧ st = st' ∧ cs = rest := by simpa using h
    exact Nat.lt_succ_self _

/-- The loop of `strip_comments`: its output and the state it ends in, `none` inside a comment. -/
def stripScan (st : LexState) : List Char → List Char × Option LexState
  | [] => ([], some st)
  | c :: cs =>
    match _h : stripStep st c cs with
    | none => ([' '], none)
    | some (out, st', rest) =>
      let r := stripScan st' rest
      (out ++ r.1, r.2)
termination_by s => s.length
decreasing_by exact length_of_stripStep _h

def stripComments (s : List Char) : List Char := (stripScan .normal s).1

/-! ### Splitting a batch -/

/-- Put a character in front of the first segment. -/
def consHead (c : Char) : List (List Char) → List (List Char)
  | [] => [[c]]
  | x :: xs => (c :: x) :: xs

/-- The loop of `split_statements`: what stands between the `;` outside literals. -/
def segments (st : LexState) : List Char → List (List Char)
  | [] => [[]]
  | c :: cs =>
    if st = .normal then
      if c = ';' then [] :: segments .normal cs else consHead c (segments (opened c) cs)
    else if c = '\\' ∧ st ≠ .btick then
      match cs with
      | n :: cs' => consHead c (consHead n (segments st cs'))
      | [] => [[c]]
    else if c = st.quote then consHead c (segments .normal cs)
    else consHead c (segments st cs)

/-- Without the whitespace at both ends. -/
def trim (s : List Char) : List Char := (s.dropWhile isSpace).rdropWhile isSpace

def splitStatements (s : List Char) : List (List Char) :=
  ((segments .normal s).map trim).filter (· ≠ [])

/-! ### Classifying a statement -/

/-- The first keyword of a statement and its type; a CTE is handled apart. -/
def keywordMap : List (List Char × QueryType) :=
  [("select".toList, .select), ("insert".toList, .insert), ("update".toList, .update),
    ("delete".toList, .delete), ("replace".toList, .insert), ("create".toList, .ddl),
    ("drop".toList, .ddl), ("alter".toList, .ddl), ("truncate".toList, .ddl),
    ("rename".toList, .ddl), ("call".toList, .call), ("do".toList, .call),
    ("begin".toList, .begin), ("start".toList, .begin), ("commit".toList, .commit),
    ("rollback".toList, .rollback), ("set".toList, .set), ("use".toList, .use),
    ("show".toList, .select), ("explain".toList, .select), ("describe".toList, .select),
    ("desc".toList, .select), ("analyze".toList, .ddl), ("optimize".toList, .ddl),
    ("check".toList, .ddl), ("repair".toList, .ddl), ("lock".toList, .ddl),
    ("unlock".toList, .ddl), ("grant".toList, .ddl), ("revoke".toList, .ddl),
    ("load".toList, .insert), ("values".toList, .select), ("table".toList, .select)]

/-- Whitespace and `(` before the first keyword. -/
def skipOpen (s : List Char) : List Char := s.dropWhile fun c => isSpace c || c == '('

/-- The leading keyword in lower case; empty if it is longer than the buffer. -/
def firstKeyword (s : List Char) : List Char :=
  let w := (skipOpen s).takeWhile Char.isAlpha
  if 16 < w.length then [] else w.map lower

/-- What `classify_cte` makes of a word outside parentheses. -/
def cteKeyword (w : List Char) : Option QueryType :=
  let word := w.map lower
  if 16 < w.length then none
  else if word = "select".toList then some .select
  else if word = "insert".toList ∨ word = "replace".toList then some .insert
  else if word = "update".toList ∨ word = "merge".toList then some .update
  else if word = "delete".toList then some .delete
  else none

/-- The loop of `classify_cte`: the first such word decides. -/
def cteScan (st : LexState) (depth : ℕ) : List Char → QueryType
  | [] => .select
  | c :: cs =>
    if st ≠ .normal then
      if c = '\\' ∧ st ≠ .btick then cteScan st depth cs.tail
      else if c = st.quote then cteScan .normal depth cs
      else cteScan st depth cs
    else if opened c ≠ .normal then cteScan (opened c) depth cs
    else if c = '(' then cteScan .normal (depth + 1) cs
    else if c = ')' then cteScan .normal (depth - 1) cs
    else if _h : depth = 0 ∧ c.isAlpha then
      match cteKeyword ((c :: cs).takeWhile isWord) with
      | some t => t
      | none => cteScan .normal depth ((c :: cs).dropWhile isWord)
    else cteScan .normal depth cs
termination_by s => s.length
decreasing_by
  all_goals try simp only [List.length_cons, List.length_tail]
  all_goals try omega
  have hc : isWord c = true := by simp [isWord, Char.isAlphanum, _h.2]
  rw [List.dropWhile_cons, if_pos hc]
  exact Nat.lt_succ_of_le (List.length_dropWhile_le _ _)

def classifyCte (s : List Char) : QueryType := cteScan .normal 0 s

/-- `QueryClassifier::classify_one` -/
def classifyOne (stmt : List Char) : QueryType :=
  let kw := firstKeyword stmt
  if kw = [] then .unknown
  else if kw = "with".toList then classifyCte (skipOpen stmt)
  else (keywordMap.lookup kw).getD .unknown

/-- The loop of `classify`: the first write, else the first statement that is known. -/
def escalateLoop (firstKnown : Option QueryType) : List (List Char) → QueryType
  | [] => firstKnown.getD .unknown
  | st :: stmts =>
    let t := classifyOne st
    if t = .unknown then escalateLoop firstKnown stmts
    else if t.isWrite then t
    else escalateLoop (some (firstKnown.getD t)) stmts

def statements (sql : List Char) : List (List Char) := splitStatements (stripComments sql)

/-- `QueryClassifier::classify` -/
def classify (sql : List Char) : QueryType :=
  match statements sql with
  | [] => .unknown
  | [stmt] => classifyOne stmt
  | stmts => escalateLoop none stmts

end DBMesh.Routing
