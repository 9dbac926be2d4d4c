import DBMesh.Routing.QueryClassifier

/-!
# The schema extractor

`routing/src/schema_extractor.cpp`: the hand-written scanner that looks for `schema.table` after
`FROM`, `INTO`, `UPDATE`, `JOIN` or `TABLE`. As in `QueryClassifier` a position is what is left of
the text from there.

## Main definitions

* `DBMesh.Routing.readIdent`, `readQualifiedSchema` — the name at a position
* `DBMesh.Routing.extract`, `extractOr` — the scanner
-/

namespace DBMesh.Routing

/-- `std::isalnum`, `'_'` or `'$'`, as in the classifier. -/
abbrev isIdent : Char → Bool := isWord

/-- The loop of `read_ident` inside a quoted name; a doubled quote stands for itself. -/
def readQuoted (q : Char) : List Char → List Char × List Char
  | [] => ([], [])
  | c :: cs =>
    if c = q then
      match cs with
      | n :: cs' =>
        if n = q then
          let r := readQuoted q cs'
          (q :: r.1, r.2)
        else ([], n :: cs')
      | [] => ([], [])
    else
      let r := readQuoted q cs
      (c :: r.1, r.2)

/-- The identifier at a position, without its quotes, and what follows it. -/
def readIdent (s : List Char) : List Char × List Char :=
  match s.dropWhile isSpace with
  | [] => ([], [])
  | c :: cs =>
    if c = '\x60' ∨ c = '"' then readQuoted c cs
    else ((c :: cs).takeWhile isIdent, (c :: cs).dropWhile isIdent)

/-- The schema of the name at a position, empty if the name has none, and what follows it. -/
def readQualifiedSchema (s : List Char) : SchemaName × List Char :=
  let first := readIdent s
  if first.1 = [] then ([], first.2)
  else
    match first.2.dropWhile isSpace with
    | '.' :: cs =>
      let second := readIdent cs
      (if second.1 = [] then [] else first.1, second.2)
    | _ => ([], first.2)

/-- The word at a position is the keyword. -/
def wordAt (s kw : List Char) : Bool :=
  (s.take kw.length).map lower = kw && (s.drop kw.length).head?.all fun c => !isIdent c

/-- The keywords after which a table is named. -/
def tableKeywords : List (List Char) :=
  ["from".toList, "into".toList, "update".toList, "join".toList, "table".toList]

/-- `s[i - 1]`, where `rest` is what is left of `s` at `i`. -/
def charBefore (s rest : List Char) : Option Char := (s.take (s.length - rest.length)).getLast?

theorem length_readQuoted (q : Char) (s : List Char) : (readQuoted q s).2.length ≤ s.length := by
  fun_induction readQuoted q s with
  | case1 => exact Nat.le_refl _
  | case2 cs' r ih => exact Nat.le_succ_of_le (Nat.le_succ_of_le ih)
  | case3 n cs' hn => exact Nat.le_succ _
  | case4 => exact Nat.zero_le _
  | case5 c cs hc r ih => exact Nat.le_succ_of_le ih

theorem length_readIdent (s : List Char) : (readIdent s).2.length ≤ s.length := by
  have hspace : (s.dropWhile isSpace).length ≤ s.length := List.length_dropWhile_le _ _
  rw [readIdent]
  split
  · exact Nat.zero_le _
  · next c cs heq =>
    rw [heq] at hspace
    split
    · exact Nat.le_trans (length_readQuoted c cs) (Nat.le_of_succ_le hspace)
    · exact Nat.le_trans (List.length_dropWhile_le _ _) hspace

theorem length_readQualifiedSchema (s : List Char) :
    (readQualifiedSchema s).2.length ≤ s.length := by
  have hfirst := length_readIdent s
  rw [readQualifiedSchema]
  split
  · exact hfirst
  · split
    · next cs heq =>
      have hspace := List.length_dropWhile_le isSpace (readIdent s).2
      rw [heq, List.length_cons] at hspace
      have := length_readIdent cs
      show (readIdent cs).2.length ≤ _
      omega
    · exact hfirst

theorem length_drop_tableKeyword {s kw : List Char} (hs : s ≠ []) (hkw : kw ∈ tableKeywords) :
    (s.drop kw.length).length < s.length := by
  have hpos : 0 < kw.length := by
    have hall : tableKeywords.all (fun kw => 0 < kw.length) = true := by decide
    exact of_decide_eq_true (List.all_eq_true.mp hall kw hkw)
  have := List.length_pos_of_ne_nil hs
  rw [List.length_drop]
  omega

/-- The loop of `extract`, in a state of the scanner and after the character `prev`. Double quotes
and backticks may begin a name, so only a single quote opens a literal. -/
def extractScan (st : LexState) (prev : Option Char) : List Char → Option SchemaName
  | [] => none
  | c :: cs =>
    if st ≠ .normal then
      if c = '\\' ∧ st ≠ .btick then extractScan st cs.head? cs.tail
      else if c = st.quote then extractScan .normal (some c) cs
      else extractScan st (some c) cs
    else if c = '\'' then extractScan .squote (some c) cs
    else if !prev.all (fun p => !isIdent p) || !c.isAlpha then extractScan .normal (some c) cs
    else
      match _h : tableKeywords.find? (wordAt (c :: cs)) with
      | none => extractScan .normal (some c) cs
      | some kw =>
        let r := readQualifiedSchema ((c :: cs).drop kw.length)
        if r.1 ≠ [] then some r.1 else extractScan .normal (charBefore (c :: cs) r.2) r.2
termination_by s => s.length
decreasing_by
  all_goals try simp only [List.length_cons, List.length_tail]
  all_goals try omega
  exact Nat.lt_of_le_of_lt (length_readQualifiedSchema _)
    (length_drop_tableKeyword (List.cons_ne_nil c cs) (List.mem_of_find?_eq_some _h))

/-- `SchemaExtractor::extract` -/
def extract (s : List Char) : Option SchemaName := extractScan .normal none s

/-- `SchemaExtractor::extract_or` -/
def extractOr (sql : List Char) (sessionSchema : SchemaName) : SchemaName :=
  (extract sql).getD sessionSchema

end DBMesh.Routing
