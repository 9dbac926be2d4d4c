import DBMesh.Protocol.PayloadReader
import DBMesh.Protocol.Progress

/-!
# One response, as a client reads it

Where a response to a query ends is for the client to tell from the packets alone. A first packet
that begins like an OK packet, an ERR packet or a request for a file is the whole of it. Any other
is the column count of a result set: column definitions come next, up to an EOF packet, and then
rows, up to a second one. An ERR packet closes a result set wherever it comes.

`proxy_result` looks for the EOF packets only. So what it forwards, with the ERR packet that
`route_and_forward` puts after a response that is cut off, is one response as long as no packet
behind the first is an ERR packet, and otherwise it is not.

Nothing is said here about what the packets hold. That a backend's column count agrees with the
definitions, for instance, is not looked at, by the client's grammar or by the code.

## Main definitions

* `DBMesh.Protocol.IsResponse` — the grammar of a client, from the first packet to the last
* `DBMesh.Protocol.reply` — what the client gets of a query that has reached the backend

## Main results

* `DBMesh.Protocol.isResponse_payloads` — every answer of a server is one response
* `DBMesh.Protocol.isResponse_reply_iff` — when a forwarded answer is one
-/

namespace DBMesh.Protocol

open Checkout (Stage)

def isErrPacket (payload : Bytes) : Bool := payload.headD 0 == errPacket

/-! ### The grammar -/

/-- The rows of a result set, with the packet that ends them. -/
inductive Rows : List Bytes → Prop
  | eof {p : Bytes} (h : isEofPacket p = true) : Rows [p]
  | err {p : Bytes} (h : isErrPacket p = true) : Rows [p]
  | row {p : Bytes} {ps : List Bytes} (heof : isEofPacket p = false) (herr : isErrPacket p = false)
    (h : Rows ps) : Rows (p :: ps)

/-- The column definitions of a result set and what comes after them. -/
inductive Columns : List Bytes → Prop
  | eof {p : Bytes} {ps : List Bytes} (heof : isEofPacket p = true) (h : Rows ps) :
    Columns (p :: ps)
  | err {p : Bytes} (h : isErrPacket p = true) : Columns [p]
  | column {p : Bytes} {ps : List Bytes} (heof : isEofPacket p = false)
    (herr : isErrPacket p = false) (h : Columns ps) : Columns (p :: ps)

/-- The packets of exactly one response. -/
inductive IsResponse : List Bytes → Prop
  | single {p : Bytes} (h : singlePacket p = true) : IsResponse [p]
  | resultSet {p : Bytes} {ps : List Bytes} (hp : singlePacket p = false) (h : Columns ps) :
    IsResponse (p :: ps)

theorem isErrPacket_of_isEofPacket {p : Bytes} (h : isEofPacket p = true) :
    isErrPacket p = false := by
  cases p with
  | nil => exact absurd h Bool.false_ne_true
  | cons b bs =>
    obtain ⟨hb, -⟩ := Bool.and_eq_true_iff.mp h
    obtain rfl := beq_iff_eq.mp hb
    rfl

theorem singlePacket_of_isErrPacket {p : Bytes} (h : isErrPacket p = true) :
    singlePacket p = true := by
  have hb : (p.headD 0 == errPacket) = true := h
  rw [singlePacket, hb, Bool.or_true, Bool.true_or]

theorem isErrPacket_makeErr (code : ℕ) (state message : Bytes) :
    isErrPacket (makeErr code state message) = true := rfl

/-- Behind a packet that ends nothing, the rows go on. -/
theorem rows_cons_iff {p : Bytes} {ps : List Bytes} (heof : isEofPacket p = false) (hps : ps ≠ []) :
    Rows (p :: ps) ↔ isErrPacket p = false ∧ Rows ps := by
  constructor
  · intro h
    cases h with
    | eof h => exact absurd rfl hps
    | err h => exact absurd rfl hps
    | row _ herr h => exact ⟨herr, h⟩
  · rintro ⟨herr, h⟩
    exact .row heof herr h

theorem columns_cons_iff {p : Bytes} {ps : List Bytes} (heof : isEofPacket p = false)
    (hps : ps ≠ []) : Columns (p :: ps) ↔ isErrPacket p = false ∧ Columns ps := by
  constructor
  · intro h
    cases h with
    | eof h => exact absurd (heof.symm.trans h) Bool.false_ne_true
    | err h => exact absurd rfl hps
    | column _ herr h => exact ⟨herr, h⟩
  · rintro ⟨herr, h⟩
    exact .column heof herr h

/-- The EOF packet behind the column definitions. -/
theorem columns_eof_iff {p : Bytes} {ps : List Bytes} (heof : isEofPacket p = true)
    (hps : ps ≠ []) : Columns (p :: ps) ↔ Rows ps := by
  constructor
  · intro h
    cases h with
    | eof _ h => exact h
    | err h => exact absurd rfl hps
    | column h => exact absurd (h.symm.trans heof) Bool.false_ne_true
  · exact .eof heof

theorem isResponse_cons_iff {p : Bytes} {ps : List Bytes} (hp : singlePacket p = false) :
    IsResponse (p :: ps) ↔ Columns ps := by
  constructor
  · intro h
    cases h with
    | single h => exact absurd (hp.symm.trans h) Bool.false_ne_true
    | resultSet _ h => exact h
  · exact .resultSet hp

/-! ### The answers of a server -/

theorem rows_append {rows : List Bytes} (heof : ∀ p ∈ rows, isEofPacket p = false)
    (herr : ∀ p ∈ rows, isErrPacket p = false) {ps : List Bytes} (h : Rows ps) :
    Rows (rows ++ ps) := by
  induction rows with
  | nil => exact h
  | cons p rows ih =>
    rw [List.forall_mem_cons] at heof herr
    exact .row heof.1 herr.1 (ih heof.2 herr.2)

theorem columns_append {columns : List Bytes} (heof : ∀ p ∈ columns, isEofPacket p = false)
    (herr : ∀ p ∈ columns, isErrPacket p = false) {ps : List Bytes} (h : Columns ps) :
    Columns (columns ++ ps) := by
  induction columns with
  | nil => exact h
  | cons p columns ih =>
    rw [List.forall_mem_cons] at heof herr
    exact .column heof.1 herr.1 (ih heof.2 herr.2)

/-- No length-encoded integer begins with `0xFF`. -/
theorem isErrPacket_writeLenencStr (s more : Bytes) :
    isErrPacket (writeLenencStr [] s ++ more) = false := by
  obtain ⟨b, bs, hb, -, hFF, -⟩ := head?_writeLenencInt s.length
  rw [writeLenencStr, hb]
  exact beq_eq_false_iff_ne.mpr hFF

theorem isErrPacket_textRow {row : List (Option Bytes)} (h : row ≠ []) :
    isErrPacket (textRow row) = false := by
  cases row with
  | nil => exact absurd rfl h
  | cons v vs =>
    cases v with
    | none => rfl
    | some s => exact isErrPacket_writeLenencStr s (textRow vs)

theorem exists_foldl_writeLenencStr (buf : Bytes) (names : List Bytes) :
    ∃ more, names.foldl writeLenencStr buf = buf ++ more := by
  induction names generalizing buf with
  | nil => exact ⟨[], (List.append_nil buf).symm⟩
  | cons s names ih =>
    obtain ⟨more, hmore⟩ := ih (writeLenencStr buf s)
    refine ⟨writeLenencStr [] s ++ more, ?_⟩
    rw [List.foldl_cons, hmore, writeLenencStr_append, List.append_assoc]

theorem isErrPacket_columnDef (c : ColumnDef) : isErrPacket c.payload = false := by
  obtain ⟨more, hmore⟩ := exists_foldl_writeLenencStr (writeLenencStr [] c.catalog)
    [c.schema, c.table, c.orgTable, c.name, c.orgName]
  rw [ColumnDef.payload, List.foldl_cons, hmore]
  simp only [writeU8, writeU16Le, writeU32Le, List.append_assoc]
  exact isErrPacket_writeLenencStr c.catalog _

/-- **Every answer of a server is one response**: an OK packet, an ERR packet, or a result set,
whichever way it ends. -/
theorem isResponse_payloads (r : Response) : IsResponse r.payloads := by
  cases r with
  | ok body => exact .single rfl
  | err body => exact .single (singlePacket_of_isErrPacket rfl)
  | resultSet rs =>
    have hcount : singlePacket (makeColumnCount rs.columns.length) = false := by
      obtain ⟨b, bs, hb, h00, hFF, hFB⟩ :=
        makeColumnCount_head (List.length_pos_iff.mpr rs.columns_ne_nil)
      rw [hb]
      simp [singlePacket, h00, hFF, hFB]
    have hlast : Rows [rs.closing.payload] := by
      cases rs.closing with
      | eof warnings statusFlags => exact .eof (isEofPacket_makeEof _ _)
      | err body => exact .err rfl
    have hrow : ∀ row ∈ rs.rows, row ≠ [] := by
      intro row hmem hnil
      refine rs.columns_ne_nil (List.eq_nil_of_length_eq_zero ?_)
      rw [← rs.length_row row hmem, hnil, List.length_nil]
    refine .resultSet hcount (columns_append ?_ ?_ (.eof (isEofPacket_makeEof _ _)
      (rows_append ?_ ?_ hlast)))
    · exact List.forall_mem_map.mpr fun c _ => isEofPacket_columnDef c
    · exact List.forall_mem_map.mpr fun c _ => isErrPacket_columnDef c
    · exact List.forall_mem_map.mpr fun row hmem => isEofPacket_textRow (hrow row hmem)
    · exact List.forall_mem_map.mpr fun row hmem => isErrPacket_textRow (hrow row hmem)

/-! ### What is forwarded -/

/-- What the client gets of a query that has reached the backend: the packets that `proxy_result`
takes, and `err` behind them if they are not a whole response. -/
def reply (stage : Stage) (stream err : Bytes) : List Bytes :=
  (taken stage stream).1.map MySqlPacket.payload ++ if (taken stage stream).2 then [] else [err]

theorem reply_of_error (stage : Stage) (err : Bytes) {stream : Bytes} {e : IoError}
    (hread : readPacket stream = .error e) :
    (taken stage stream).1 = [] ∧ reply stage stream err = [err] := by
  have htaken : taken stage stream = ([], false) := by rw [taken_eq, hread]
  rw [reply, htaken]
  exact ⟨rfl, rfl⟩

theorem reply_of_last (stage : Stage) (err : Bytes) {stream rest : Bytes} {pkt : MySqlPacket}
    (hread : readPacket stream = .ok (pkt, rest)) (hnext : stage.next pkt.payload = none) :
    (taken stage stream).1 = [pkt] ∧ reply stage stream err = [pkt.payload] := by
  have htaken : taken stage stream = ([pkt], true) := by
    rw [taken_eq, hread]
    simp only [hnext]
  rw [reply, htaken]
  exact ⟨rfl, rfl⟩

theorem reply_of_next (stage stage' : Stage) (err : Bytes) {stream rest : Bytes} {pkt : MySqlPacket}
    (hread : readPacket stream = .ok (pkt, rest)) (hnext : stage.next pkt.payload = some stage') :
    (taken stage stream).1 = pkt :: (taken stage' rest).1 ∧
      reply stage stream err = pkt.payload :: reply stage' rest err := by
  have htaken : taken stage stream = (pkt :: (taken stage' rest).1, (taken stage' rest).2) := by
    rw [taken_eq, hread]
    simp only [hnext]
  rw [reply, htaken]
  exact ⟨rfl, rfl⟩

theorem reply_ne_nil (stage : Stage) (stream err : Bytes) : reply stage stream err ≠ [] := by
  cases hread : readPacket stream with
  | error e =>
    rw [(reply_of_error stage err hread).2]
    exact List.cons_ne_nil _ _
  | ok r =>
    obtain ⟨pkt, rest⟩ := r
    cases hnext : stage.next pkt.payload with
    | none =>
      rw [(reply_of_last stage err hread hnext).2]
      exact List.cons_ne_nil _ _
    | some stage' =>
      rw [(reply_of_next stage stage' err hread hnext).2]
      exact List.cons_ne_nil _ _

/-- None of these packets is an ERR packet. -/
def ErrFree (pkts : List MySqlPacket) : Prop := ∀ pkt ∈ pkts, isErrPacket pkt.payload = false

theorem errFree_cons {pkt : MySqlPacket} {pkts : List MySqlPacket} :
    ErrFree (pkt :: pkts) ↔ isErrPacket pkt.payload = false ∧ ErrFree pkts := List.forall_mem_cons

variable {err : Bytes}

/-- The loop over the rows: an ERR packet is passed on as if it were one of them. -/
theorem rows_reply_iff (herr : isErrPacket err = true) (stream : Bytes) :
    Rows (reply .rows stream err) ↔ ErrFree (taken .rows stream).1 := by
  induction hn : stream.length using Nat.strong_induction_on generalizing stream with
  | _ n ih =>
    subst hn
    cases hread : readPacket stream with
    | error e =>
      obtain ⟨htaken, hreply⟩ := reply_of_error .rows err hread
      rw [htaken, hreply]
      exact iff_of_true (.err herr) (List.forall_mem_nil _)
    | ok r =>
      obtain ⟨pkt, rest⟩ := r
      cases heof : isEofPacket pkt.payload with
      | true =>
        obtain ⟨htaken, hreply⟩ := reply_of_last .rows err hread
          (if_pos heof)
        rw [htaken, hreply]
        exact iff_of_true (.eof heof)
          (List.forall_mem_singleton.mpr (isErrPacket_of_isEofPacket heof))
      | false =>
        obtain ⟨htaken, hreply⟩ := reply_of_next .rows .rows err
          hread (if_neg (by simp [heof]))
        rw [htaken, hreply, rows_cons_iff heof (reply_ne_nil _ _ _), errFree_cons,
          ih rest.length (length_of_readPacket hread) rest rfl]

/-- The loop over the column definitions. -/
theorem columns_reply_iff (herr : isErrPacket err = true) (stream : Bytes) :
    Columns (reply .columns stream err) ↔ ErrFree (taken .columns stream).1 := by
  induction hn : stream.length using Nat.strong_induction_on generalizing stream with
  | _ n ih =>
    subst hn
    cases hread : readPacket stream with
    | error e =>
      obtain ⟨htaken, hreply⟩ := reply_of_error .columns err hread
      rw [htaken, hreply]
      exact iff_of_true (.err herr) (List.forall_mem_nil _)
    | ok r =>
      obtain ⟨pkt, rest⟩ := r
      cases heof : isEofPacket pkt.payload with
      | true =>
        obtain ⟨htaken, hreply⟩ := reply_of_next .columns .rows err
          hread (if_pos heof)
        rw [htaken, hreply, columns_eof_iff heof (reply_ne_nil _ _ _), errFree_cons,
          rows_reply_iff herr]
        exact (and_iff_right (isErrPacket_of_isEofPacket heof)).symm
      | false =>
        obtain ⟨htaken, hreply⟩ := reply_of_next .columns .columns err
          hread (if_neg (by simp [heof]))
        rw [htaken, hreply, columns_cons_iff heof (reply_ne_nil _ _ _), errFree_cons,
          ih rest.length (length_of_readPacket hread) rest rfl]

/-- **What is forwarded is one response** exactly when no packet behind the first is an ERR
packet. -/
theorem isResponse_reply_iff (herr : isErrPacket err = true) (stream : Bytes) :
    IsResponse (reply .first stream err) ↔ ErrFree (taken .first stream).1.tail := by
  cases hread : readPacket stream with
  | error e =>
    obtain ⟨htaken, hreply⟩ := reply_of_error .first err hread
    rw [htaken, hreply]
    exact iff_of_true (.single (singlePacket_of_isErrPacket herr)) (List.forall_mem_nil _)
  | ok r =>
    obtain ⟨pkt, rest⟩ := r
    cases hp : singlePacket pkt.payload with
    | true =>
      obtain ⟨htaken, hreply⟩ := reply_of_last .first err hread (if_pos hp)
      rw [htaken, hreply]
      exact iff_of_true (.single hp) (List.forall_mem_nil _)
    | false =>
      obtain ⟨htaken, hreply⟩ := reply_of_next .first .columns err
        hread (if_neg (by simp [hp]))
      rw [htaken, hreply, isResponse_cons_iff hp, List.tail_cons]
      exact columns_reply_iff herr rest

end DBMesh.Protocol
