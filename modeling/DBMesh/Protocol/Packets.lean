import DBMesh.Protocol.Codec

/-!
# Packets of a query response

The packets a server answers a query with: an OK packet, an ERR packet, or a text result set. The
packet builders are those of `protocol/mysql/include/dbmesh/protocol/mysql/packets.h`; a `Response`
is any answer of that shape, and `Response.payloads` the packets it is sent as.

## Main results

* `DBMesh.Protocol.isEofPacket_textRow`, `isEofPacket_columnDef` — nothing inside a result set looks
  like the EOF packet that ends it
-/

namespace DBMesh.Protocol

def okPacket : UInt8 := 0x00

def errPacket : UInt8 := 0xFF

def eofPacket : UInt8 := 0xFE

/-! ### Packet builders -/

def makeOk (affectedRows lastInsertId statusFlags warnings : ℕ) : Bytes :=
  let buf := writeLenencInt (writeLenencInt (writeU8 [] okPacket) affectedRows) lastInsertId
  writeU16Le (writeU16Le buf statusFlags) warnings

/-- The SQL state is cut or padded to five characters. -/
def makeErr (errorCode : ℕ) (sqlState message : Bytes) : Bytes :=
  let buf := writeU8 (writeU16Le (writeU8 [] errPacket) errorCode) 0x23
  writeBytes (writeBytes buf ((sqlState.take 5).rightpad 5 0x30)) message

def makeEof (warnings statusFlags : ℕ) : Bytes :=
  writeU16Le (writeU16Le (writeU8 [] eofPacket) warnings) statusFlags

def makeColumnCount (count : ℕ) : Bytes := writeLenencInt [] count

/-! ### Responses -/

/-- A column definition: six strings, the length of the fixed part, and its twelve bytes. -/
structure ColumnDef where
  catalog : Bytes
  schema : Bytes
  table : Bytes
  orgTable : Bytes
  name : Bytes
  orgName : Bytes
  charset : ℕ
  length : ℕ
  type : UInt8
  flags : ℕ
  decimals : UInt8

def ColumnDef.payload (c : ColumnDef) : Bytes :=
  let names := [c.catalog, c.schema, c.table, c.orgTable, c.name, c.orgName].foldl writeLenencStr []
  let buf := writeU32Le (writeU16Le (writeU8 names 0x0C) c.charset) c.length
  writeU16Le (writeU8 (writeU16Le (writeU8 buf c.type) c.flags) c.decimals) 0

/-- A value of a row: `NULL` or a string. -/
def valueBytes : Option Bytes → Bytes
  | none => [0xFB]
  | some s => writeLenencStr [] s

def textRow (values : List (Option Bytes)) : Bytes := values.flatMap valueBytes

/-- How a result set ends: with an EOF packet, or with an ERR packet if the query fails midway. -/
inductive Closing
  | eof (warnings statusFlags : ℕ)
  | err (body : Bytes)

def Closing.payload : Closing → Bytes
  | .eof warnings statusFlags => makeEof warnings statusFlags
  | .err body => errPacket :: body

structure ResultSet where
  columns : List ColumnDef
  warnings : ℕ
  statusFlags : ℕ
  rows : List (List (Option Bytes))
  closing : Closing
  columns_ne_nil : columns ≠ []
  length_row : ∀ row ∈ rows, row.length = columns.length

/-- The packets between the column count and the last packet of a result set. -/
def ResultSet.columnPayloads (rs : ResultSet) : List Bytes := rs.columns.map ColumnDef.payload

def ResultSet.rowPayloads (rs : ResultSet) : List Bytes := rs.rows.map textRow

inductive Response
  | ok (body : Bytes)
  | err (body : Bytes)
  | resultSet (rs : ResultSet)

def Response.payloads : Response → List Bytes
  | .ok body => [okPacket :: body]
  | .err body => [errPacket :: body]
  | .resultSet rs =>
    makeColumnCount rs.columns.length :: (rs.columnPayloads ++
      makeEof rs.warnings rs.statusFlags :: (rs.rowPayloads ++ [rs.closing.payload]))

/-- The query failed after the result set had begun. -/
def Response.FailsMidway : Response → Prop
  | .resultSet rs => ∃ body, rs.closing = .err body
  | _ => False

/-! ### Telling the packets apart -/

def isEofPacket (payload : Bytes) : Bool :=
  match payload with
  | [] => false
  | b :: bs => b == 0xFE && (b :: bs).length < 9

theorem isEofPacket_makeEof (warnings statusFlags : ℕ) :
    isEofPacket (makeEof warnings statusFlags) = true := rfl

theorem isEofPacket_err (body : Bytes) : isEofPacket (errPacket :: body) = false := rfl

theorem isEofPacket_of_length {payload : Bytes} (h : 9 ≤ payload.length) :
    isEofPacket payload = false := by
  cases payload with
  | nil => rfl
  | cons b bs =>
    have : ¬ (b :: bs).length < 9 := Nat.not_lt.mpr h
    simp only [isEofPacket, this, decide_false, Bool.and_false]

/-- Thirteen bytes follow the strings of a column definition. -/
theorem isEofPacket_columnDef (c : ColumnDef) : isEofPacket c.payload = false := by
  refine isEofPacket_of_length ?_
  simp only [ColumnDef.payload, writeU8, writeU16Le, writeU32Le, List.length_append,
    List.length_cons, List.length_nil]
  omega

theorem isEofPacket_valueBytes (v : Option Bytes) (more : Bytes) :
    isEofPacket (valueBytes v ++ more) = false := by
  cases v with
  | none => rfl
  | some s =>
    obtain ⟨b, bs, hb, -, -, -, hFE⟩ := head?_writeLenencInt s.length
    rw [valueBytes, writeLenencStr, hb]
    by_cases h : b = 0xFE
    · refine isEofPacket_of_length ?_
      simp only [List.length_append, List.length_cons, (hFE h).2]
      omega
    · simp only [List.cons_append, isEofPacket, beq_eq_false_iff_ne.mpr h, Bool.false_and]

/-- A row that begins with `0xFE` begins with a string of `2 ^ 24` bytes or more. -/
theorem isEofPacket_textRow {row : List (Option Bytes)} (h : row ≠ []) :
    isEofPacket (textRow row) = false := by
  cases row with
  | nil => exact absurd rfl h
  | cons v vs => exact isEofPacket_valueBytes v (textRow vs)

/-- The number of columns of a result set is not taken for the beginning of another response. -/
theorem makeColumnCount_head {n : ℕ} (h : 0 < n) :
    ∃ b bs, makeColumnCount n = b :: bs ∧ b ≠ okPacket ∧ b ≠ errPacket ∧ b ≠ 0xFB := by
  obtain ⟨b, bs, hb, hFB, hFF, h00, -⟩ := head?_writeLenencInt n
  refine ⟨b, bs, hb, fun h0 => ?_, hFF, hFB⟩
  have := h00 h0
  omega

end DBMesh.Protocol
