import Mathlib.Data.List.TakeWhile
import DBMesh.Lib.Json

/-!
# The lines of the log

`core/src/logger.cpp`: the entries of the log, their timestamps, and the two formats in which the
dispatcher writes them. A line is put together by `snprintf` in a buffer of 2048 bytes.

In the JSON format the component and the message go between quotes as they are. So the line is the
object it is meant to be exactly when neither of them has a character that JSON would escape and
the whole fits the buffer.

## Main definitions

* `LogEntry`, `formatTs`, `formatJson`, `formatText` — an entry and its lines
* `DecodesTo` — a line is one JSON object, with the fields of the entry and no others
* `PlainText` — a text in which JSON escapes nothing

## Main results

* `json_line_decodes_iff` — the lines that decode to their entry
-/

namespace DBMesh.Logger

open Json

inductive LogLevel
  | trace
  | debug
  | info
  | warn
  | error
  | fatal
  deriving DecidableEq, Repr

/-- The level as a number, as it is compared. -/
def LogLevel.toNat : LogLevel → Nat
  | trace => 0
  | debug => 1
  | info => 2
  | warn => 3
  | error => 4
  | fatal => 5

/-- Every name has five characters. -/
def logLevelStr : LogLevel → String
  | .trace => "TRACE"
  | .debug => "DEBUG"
  | .info => "INFO "
  | .warn => "WARN "
  | .error => "ERROR"
  | .fatal => "FATAL"

def parseLogLevel (s : String) : Except String LogLevel :=
  if s = "TRACE" then .ok .trace
  else if s = "DEBUG" then .ok .debug
  else if s = "INFO" then .ok .info
  else if s = "WARN" then .ok .warn
  else if s = "ERROR" then .ok .error
  else if s = "FATAL" then .ok .fatal
  else .error ("unknown log level: " ++ s)

/-- An entry: its texts are the bytes the caller handed over, its timestamp is a number of
nanoseconds since the epoch. -/
structure LogEntry where
  level : LogLevel
  component : List UInt8
  message : List UInt8
  timestamp : Int
  deriving DecidableEq, Repr

/-! ### Timestamps -/

/-- The broken-down time of `struct tm`: years since 1900, months from 0. -/
structure Tm where
  year : Int
  mon : Int
  mday : Int
  hour : Int
  min : Int
  sec : Int
  deriving DecidableEq, Repr

/-- `gmtime_r`: the date of a day is counted from the first of March of the year 0, so that the
leap day is the last day of a year. -/
def gmtimeR (t : Int) : Tm :=
  let day := t / 86400 + 719468
  let second := t % 86400
  let era := day / 146097
  let dayOfEra := day % 146097
  let yearOfEra :=
    (dayOfEra - dayOfEra / 1460 + dayOfEra / 36524 - dayOfEra / 146096) / 365
  let dayOfYear := dayOfEra - (365 * yearOfEra + yearOfEra / 4 - yearOfEra / 100)
  let fromMarch := (5 * dayOfYear + 2) / 153
  let mon := if fromMarch < 10 then fromMarch + 2 else fromMarch - 10
  { year := yearOfEra + era * 400 + (if mon < 2 then 1 else 0) - 1900
    mon := mon
    mday := dayOfYear - (153 * fromMarch + 2) / 5 + 1
    hour := second / 3600
    min := second / 60 % 60
    sec := second % 60 }

example : gmtimeR 951868799 = ⟨100, 1, 29, 23, 59, 59⟩ := by decide

/-- The conversion `%0wd` of `printf`. -/
def zeroPadded (width : Nat) (n : Int) : List Char :=
  let sign := if n < 0 then ['-'] else []
  let digits := Nat.toDigits 10 n.natAbs
  sign ++ List.replicate (width - sign.length - digits.length) '0' ++ digits

/-- Both the seconds and the milliseconds are cut towards zero. The characters are ASCII, so the
31 the buffer holds are as many bytes. -/
def formatTs (timestamp : Int) : List Char :=
  let tm := gmtimeR (timestamp.tdiv 1000000000)
  let ms := (timestamp.tdiv 1000000).tmod 1000
  (zeroPadded 4 (tm.year + 1900) ++ '-' :: zeroPadded 2 (tm.mon + 1) ++ '-' :: zeroPadded 2 tm.mday
    ++ 'T' :: zeroPadded 2 tm.hour ++ ':' :: zeroPadded 2 tm.min ++ ':' :: zeroPadded 2 tm.sec
    ++ '.' :: zeroPadded 3 ms ++ ['Z']).take 31

/-! ### Lines -/

/-- The bytes of a literal. -/
def bytes (s : String) : List UInt8 := encode s.toList

/-- What a `%s` takes of a string: the bytes before the first NUL. -/
def cStr (s : List UInt8) : List UInt8 := s.takeWhile (· ≠ 0)

/-- What `snprintf` leaves in a buffer of `n` bytes, the terminating NUL apart. -/
def snprintf (n : Nat) (pieces : List (List UInt8)) : List UInt8 := pieces.flatten.take (n - 1)

def formatJson (e : LogEntry) : List UInt8 :=
  snprintf 2048
    [bytes "\x7b\"ts\":\"", encode (formatTs e.timestamp), bytes "\",\"level\":\"",
      bytes (logLevelStr e.level), bytes "\",\"component\":\"", cStr e.component,
      bytes "\",\"msg\":\"", cStr e.message, bytes "\"\x7d"]

/-- The component is padded to ten bytes. -/
def formatText (e : LogEntry) : List UInt8 :=
  let component := cStr e.component
  snprintf 2048
    [encode (formatTs e.timestamp), bytes " [", bytes (logLevelStr e.level), bytes "] [",
      component ++ List.replicate (10 - component.length) 0x20, bytes "] ", cStr e.message]

/-! ### What a line decodes to -/

def fieldNames : List (List Char) := ["ts", "level", "component", "msg"].map String.toList

/-- The line is one JSON object: it has the four fields and no others, and its component and its
message are those of the entry. -/
def DecodesTo (line : List UInt8) (e : LogEntry) : Prop :=
  0x0a ∉ line ∧ ∃ text members component message,
    encode text = line ∧ Denotes text (.object members) ∧ members.map Prod.fst = fieldNames ∧
    ("component".toList, .string component) ∈ members ∧ encode component = e.component ∧
    ("msg".toList, .string message) ∈ members ∧ encode message = e.message

/-- UTF-8 text with no quote, no backslash and no control character. -/
def PlainText (s : List UInt8) : Prop := ∃ text, encode text = s ∧ ∀ c ∈ text, isPlain c

/-- The characters of the fields that the logger writes itself. -/
def IsClean (text : List Char) : Prop := ∀ c ∈ text, isPlain c ∧ c.utf8Size = 1

instance (text : List Char) : Decidable (IsClean text) :=
  List.decidableBAll (fun c : Char => isPlain c ∧ c.utf8Size = 1) text

theorem IsClean.append {s t : List Char} (hs : IsClean s) (ht : IsClean t) : IsClean (s ++ t) := by
  intro c hc
  rcases List.mem_append.mp hc with hc | hc
  · exact hs c hc
  · exact ht c hc

theorem IsClean.cons {c : Char} {t : List Char} (hc : isPlain c ∧ c.utf8Size = 1)
    (ht : IsClean t) : IsClean (c :: t) := by
  intro d hd
  rcases List.mem_cons.mp hd with rfl | hd
  · exact hc
  · exact ht d hd

theorem IsClean.take {t : List Char} (ht : IsClean t) (n : Nat) : IsClean (t.take n) :=
  fun c hc => ht c (List.mem_of_mem_take hc)

theorem clean_of_isDigit {c : Char} (h : c.isDigit) : isPlain c ∧ c.utf8Size = 1 := by
  rw [Char.isDigit, Bool.and_eq_true, decide_eq_true_eq, decide_eq_true_eq,
    ge_iff_le, UInt32.le_iff_toNat_le, UInt32.le_iff_toNat_le] at h
  have hlow : 48 ≤ c.toNat := h.1
  have hhigh : c.toNat ≤ 57 := h.2
  constructor
  · have hquote : c ≠ '"' := by
      rintro rfl
      exact absurd hlow (by decide)
    have hback : c ≠ '\\' := by
      rintro rfl
      exact absurd hhigh (by decide)
    simp only [isPlain, Bool.and_eq_true, bne_iff_ne, decide_eq_true_eq]
    exact ⟨⟨hquote, hback⟩, by omega⟩
  · rw [Char.utf8Size_eq_one_iff, UInt32.le_iff_toNat_le]
    show c.toNat ≤ 127
    omega

theorem zeroPadded_clean (width : Nat) (n : Int) : IsClean (zeroPadded width n) := by
  refine IsClean.append (IsClean.append ?_ ?_) ?_
  · split <;> decide
  · intro c hc
    obtain rfl := (List.mem_replicate.mp hc).2
    decide
  · intro c hc
    exact clean_of_isDigit (Nat.isDigit_of_mem_toDigits (by decide) (by decide) hc)

theorem formatTs_clean (timestamp : Int) : IsClean (formatTs timestamp) := by
  have hsep : ∀ {s t : List Char} (sep : Char), isPlain sep ∧ sep.utf8Size = 1 → IsClean s →
      IsClean t → IsClean (s ++ sep :: t) := fun _ hsep hs ht => hs.append (ht.cons hsep)
  rw [formatTs]
  refine IsClean.take ?_ 31
  refine IsClean.append ?_ (t := ['Z']) (by decide)
  refine hsep '.' (by decide) ?_ (zeroPadded_clean _ _)
  refine hsep ':' (by decide) ?_ (zeroPadded_clean _ _)
  refine hsep ':' (by decide) ?_ (zeroPadded_clean _ _)
  refine hsep 'T' (by decide) ?_ (zeroPadded_clean _ _)
  refine hsep '-' (by decide) ?_ (zeroPadded_clean _ _)
  exact hsep '-' (by decide) (zeroPadded_clean _ _) (zeroPadded_clean _ _)

theorem logLevelStr_clean (level : LogLevel) : IsClean (logLevelStr level).toList := by
  cases level <;> decide

theorem fieldNames_clean : ∀ name ∈ fieldNames, IsClean name := by decide

theorem length_formatTs_le (timestamp : Int) : (formatTs timestamp).length ≤ 31 :=
  List.length_take_le _ _

/-- What the line begins with, up to the opening quote of the third name. -/
def header (e : LogEntry) : List Char :=
  '\x7b' :: (member "ts".toList (formatTs e.timestamp) ++
    ',' :: (member "level".toList (logLevelStr e.level).toList ++ [',', '"']))

theorem IsClean.isPlain {t : List Char} (ht : IsClean t) : ∀ c ∈ t, isPlain c :=
  fun c hc => (ht c hc).1

theorem IsClean.isAscii {t : List Char} (ht : IsClean t) : IsAscii t :=
  fun c hc => (ht c hc).2

theorem header_append (e : LogEntry) (t : List Char) :
    header e ++ t = '\x7b' :: (member "ts".toList (formatTs e.timestamp) ++
      ',' :: (member "level".toList (logLevelStr e.level).toList ++ ',' :: '"' :: t)) := by
  rw [header, List.cons_append, List.append_assoc, List.cons_append, List.append_assoc]
  rfl

theorem header_ascii (e : LogEntry) : IsAscii (header e) := by
  have hts : IsAscii (member "ts".toList (formatTs e.timestamp)) :=
    isAscii_member (by decide) (formatTs_clean _).isAscii
  have hlevel : IsAscii (member "level".toList (logLevelStr e.level).toList) :=
    isAscii_member (by decide) (logLevelStr_clean _).isAscii
  simp only [header, isAscii_cons, isAscii_append]
  exact ⟨rfl, hts, rfl, hlevel, rfl, rfl, isAscii_nil⟩

theorem size_header (e : LogEntry) : size (header e) = (formatTs e.timestamp).length + 26 := by
  have hts : size (formatTs e.timestamp) = (formatTs e.timestamp).length :=
    (formatTs_clean _).isAscii.size_eq
  have hlevel : size (logLevelStr e.level).toList = 5 := by
    cases e.level <;> decide
  simp only [header, size_cons, size_append, size_member, hts, hlevel]
  simp +arith [size, Char.utf8Size]

theorem formatJson_eq (e : LogEntry) :
    formatJson e = (encode (header e) ++ (bytes "component\":\"" ++ (cStr e.component ++
      (bytes "\",\"msg\":\"" ++ (cStr e.message ++ bytes "\"\x7d"))))).take 2047 := by
  have hheader : header e = "\x7b\"ts\":\"".toList ++ (formatTs e.timestamp ++
      ("\",\"level\":\"".toList ++ ((logLevelStr e.level).toList ++ "\",\"".toList))) := by
    simp [header, member]
  have hcomponent : "\",\"component\":\"".toList = "\",\"".toList ++ "component\":\"".toList := by
    decide
  rw [formatJson, snprintf, hheader]
  simp only [bytes, hcomponent, encode_append, List.flatten_cons, List.flatten_nil,
    List.append_nil, List.append_assoc]

/-- The header goes into the buffer whatever the entry is, and the rest as far as there is room. -/
theorem exists_text_of_encode {e : LogEntry} {text : List Char} (h : encode text = formatJson e) :
    ∃ t, text = header e ++ t ∧
      size t ≤ (cStr e.component).length + (cStr e.message).length + 23 ∧
      size t + (formatTs e.timestamp).length ≤ 2021 := by
  have hheader := size_header e
  have hts := length_formatTs_le e.timestamp
  have hroom : (encode (header e)).length ≤ 2047 := by
    rw [length_encode]
    omega
  rw [formatJson_eq, List.take_append, List.take_of_length_le hroom] at h
  obtain ⟨t, ht, hrest⟩ := exists_eq_append_of_encode (header_ascii e) h
  have hsize := congrArg List.length hrest
  have hcomponent : (bytes "component\":\"").length = 12 := by decide
  have hmsg : (bytes "\",\"msg\":\"").length = 9 := by decide
  have hclose : (bytes "\"\x7d").length = 2 := by decide
  rw [length_encode, List.length_take, length_encode] at hsize
  simp only [List.length_append, hcomponent, hmsg, hclose] at hsize
  exact ⟨t, ht, by omega, by omega⟩

theorem length_cStr_le (s : List UInt8) : (cStr s).length ≤ s.length :=
  (List.takeWhile_sublist _).length_le

/-- The members of the header are read as they are. -/
theorem exists_of_denotes_header {e : LogEntry} {t : List Char}
    {members : List (List Char × Value)} (h : Denotes (header e ++ t) (.object members)) :
    ∃ fuel out rest, members = ("ts".toList, .string (formatTs e.timestamp)) ::
        ("level".toList, .string (logLevelStr e.level).toList) :: rest ∧
      readMembers fuel ('"' :: t) = some (rest, out) := by
  have hts := (fieldNames_clean "ts".toList (by decide)).isPlain
  have hlevel := (fieldNames_clean "level".toList (by decide)).isPlain
  rw [header_append] at h
  obtain ⟨fuel₁, out, hread⟩ := exists_of_denotes_object h
  obtain ⟨fuel₂, members₁, heq₁, hread⟩ := exists_of_readMembers_member hts
    (formatTs_clean e.timestamp).isPlain (skipSpace_member ..) hread
  obtain ⟨fuel₃, members₂, heq₂, hread⟩ := exists_of_readMembers_member hlevel
    (logLevelStr_clean e.level).isPlain rfl hread
  exact ⟨fuel₃, out, members₂, by rw [heq₁, heq₂], hread⟩

/-- The line has as many bytes as the object it is meant to be weighs. So if the object is there,
nothing in the line is an escape, and nothing has been cut off. -/
theorem plain_of_denotes {e : LogEntry} {text component message : List Char}
    {members : List (List Char × Value)} (htext : encode text = formatJson e)
    (hobject : Denotes text (.object members))
    (hcomponent : ("component".toList, .string component) ∈ members)
    (hc : encode component = e.component)
    (hmessage : ("msg".toList, .string message) ∈ members) (hm : encode message = e.message) :
    (∀ c ∈ component, isPlain c) ∧ (∀ c ∈ message, isPlain c) ∧
      (formatTs e.timestamp).length + e.component.length + e.message.length ≤ 1998 := by
  obtain ⟨t, ht, hroom, hbuffer⟩ := exists_text_of_encode htext
  rw [ht] at hobject
  obtain ⟨fuel, out, rest, hrest, hread⟩ := exists_of_denotes_header hobject
  have hskip : ∀ {k : List Char} {v : Value}, k ≠ "ts".toList → k ≠ "level".toList →
      (k, v) ∈ members → (k, v) ∈ rest := by
    intro k v hts hlevel hmem
    rw [hrest] at hmem
    rcases List.mem_cons.mp hmem with heq | hmem
    · exact absurd (Prod.mk.inj heq).1 hts
    · rcases List.mem_cons.mp hmem with heq | hmem
      · exact absurd (Prod.mk.inj heq).1 hlevel
      · exact hmem
  have hweight := (bounds fuel).2.2 hread
  have hboth := membersWeight_ge_of_mem_of_mem (by decide)
    (hskip (by decide) (by decide) hcomponent) (hskip (by decide) (by decide) hmessage)
  have hquote : size ('"' :: t) = 1 + size t := rfl
  have hnames : textCost "component".toList = 9 ∧ textCost "msg".toList = 3 := by decide
  rw [Value.weight, Value.weight, hnames.1, hnames.2] at hboth
  have hsize : e.component.length = size component := by rw [← hc, length_encode]
  have hsize' : e.message.length = size message := by rw [← hm, length_encode]
  have hlen := length_cStr_le e.component
  have hlen' := length_cStr_le e.message
  have hcost := size_le_textCost component
  have hcost' := size_le_textCost message
  exact ⟨isPlain_of_textCost_le (by omega), isPlain_of_textCost_le (by omega), by omega⟩

/-- The line of an entry, as the text it is meant to be. -/
def jsonText (e : LogEntry) (component message : List Char) : List Char :=
  '\x7b' :: (member "ts".toList (formatTs e.timestamp) ++
    ',' :: (member "level".toList (logLevelStr e.level).toList ++
    ',' :: (member "component".toList component ++
    ',' :: (member "msg".toList message ++ ['\x7d']))))

def jsonMembers (e : LogEntry) (component message : List Char) : List (List Char × Value) :=
  [("ts".toList, .string (formatTs e.timestamp)),
    ("level".toList, .string (logLevelStr e.level).toList),
    ("component".toList, .string component), ("msg".toList, .string message)]

section Plain

variable {e : LogEntry} {component message : List Char}

/-- Plain texts in the two fields are read back as they are. -/
theorem denotes_jsonText (hc : ∀ c ∈ component, isPlain c) (hm : ∀ c ∈ message, isPlain c) :
    Denotes (jsonText e component message) (.object (jsonMembers e component message)) := by
  have hts := (fieldNames_clean "ts".toList (by decide)).isPlain
  have hlevel := (fieldNames_clean "level".toList (by decide)).isPlain
  have hcomponent := (fieldNames_clean "component".toList (by decide)).isPlain
  have hmsg := (fieldNames_clean "msg".toList (by decide)).isPlain
  refine denotes_object (show readMembers 5 _ = _ from ?_)
  rw [readMembers_member_comma hts (formatTs_clean _).isPlain (skipSpace_member ..) 3,
    readMembers_member_comma hlevel (logLevelStr_clean _).isPlain (skipSpace_member ..) 2,
    readMembers_member_comma hcomponent hc (skipSpace_member ..) 1,
    readMembers_member_close hmsg hm]
  rfl

/-- Without control characters, the line has no line break in it. -/
theorem le_toNat_of_mem_jsonText (hc : ∀ c ∈ component, isPlain c)
    (hm : ∀ c ∈ message, isPlain c) : ∀ c ∈ jsonText e component message, 0x20 ≤ c.toNat := by
  have hname : ∀ name ∈ fieldNames, ∀ c ∈ name, isPlain c :=
    fun name h => (fieldNames_clean name h).isPlain
  simp only [jsonText, List.forall_mem_cons, List.forall_mem_append]
  exact ⟨by decide,
    le_toNat_of_mem_member (hname _ (by decide)) (formatTs_clean _).isPlain, by decide,
    le_toNat_of_mem_member (hname _ (by decide)) (logLevelStr_clean _).isPlain, by decide,
    le_toNat_of_mem_member (hname _ (by decide)) hc, by decide,
    le_toNat_of_mem_member (hname _ (by decide)) hm, by decide,
    fun _ h => absurd h List.not_mem_nil⟩

theorem cStr_of_isPlain {text : List Char} (h : ∀ c ∈ text, isPlain c) :
    cStr (encode text) = encode text := by
  refine List.takeWhile_eq_self_iff.mpr ?_
  intro b hb
  rw [decide_eq_true_eq]
  rintro rfl
  obtain ⟨c, hc, hzero⟩ := mem_of_mem_encode hb (by decide)
  have hplain := h c hc
  rw [isPlain, Bool.and_eq_true, decide_eq_true_eq, hzero] at hplain
  exact absurd hplain.2 (by decide)

theorem formatJson_of_plain (hcomponent : encode component = e.component)
    (hmessage : encode message = e.message) (hc : ∀ c ∈ component, isPlain c)
    (hm : ∀ c ∈ message, isPlain c)
    (hroom : (formatTs e.timestamp).length + e.component.length + e.message.length ≤ 1998) :
    formatJson e = encode (jsonText e component message) := by
  have htext : jsonText e component message = header e ++ ("component\":\"".toList ++
      (component ++ ("\",\"msg\":\"".toList ++ (message ++ "\"\x7d".toList)))) := by
    simp [jsonText, header, member]
  have hbytes : (encode (jsonText e component message)).length ≤ 2047 := by
    have hheader := size_header e
    have hnames : size "component\":\"".toList = 12 ∧ size "\",\"msg\":\"".toList = 9 ∧
        size "\"\x7d".toList = 2 := by decide
    rw [← hcomponent, ← hmessage, length_encode, length_encode] at hroom
    rw [length_encode, htext]
    simp only [size_append, hnames]
    omega
  rw [formatJson_eq, ← hcomponent, ← hmessage, cStr_of_isPlain hc, cStr_of_isPlain hm]
  simp only [bytes, ← encode_append]
  rw [← htext, List.take_of_length_le hbytes]

end Plain

/-- **The lines that decode to their entry.** The component and the message go into the line as
they are, so the line is the object it is meant to be exactly when both are plain text and the
whole line fits the buffer. -/
theorem json_line_decodes_iff (e : LogEntry) :
    DecodesTo (formatJson e) e ↔
      PlainText e.component ∧ PlainText e.message ∧
        (formatTs e.timestamp).length + e.component.length + e.message.length ≤ 1998 := by
  constructor
  · rintro ⟨-, text, members, component, message, htext, hobject, -, hcomponent, hc, hmessage, hm⟩
    obtain ⟨hcplain, hmplain, hroom⟩ :=
      plain_of_denotes htext hobject hcomponent hc hmessage hm
    exact ⟨⟨component, hc, hcplain⟩, ⟨message, hm, hmplain⟩, hroom⟩
  · rintro ⟨⟨component, hc, hcplain⟩, ⟨message, hm, hmplain⟩, hroom⟩
    have hline := formatJson_of_plain hc hm hcplain hmplain hroom
    refine ⟨?_, jsonText e component message, jsonMembers e component message, component, message,
      hline.symm, denotes_jsonText hcplain hmplain, rfl, by simp [jsonMembers], hc,
      by simp [jsonMembers], hm⟩
    intro hbreak
    rw [hline] at hbreak
    obtain ⟨c, hmem, hval⟩ := mem_of_mem_encode hbreak (by decide)
    have hle := le_toNat_of_mem_jsonText hcplain hmplain c hmem
    rw [hval] at hle
    exact absurd hle (by decide)

/-- A message that ends its own field and begins another: the line has two messages. -/
theorem forged_message : ¬ DecodesTo
    (formatJson ⟨.warn, bytes "auth", bytes "denied: x\",\"msg\":\"granted", 0⟩)
    ⟨.warn, bytes "auth", bytes "denied: x\",\"msg\":\"granted", 0⟩ := by
  rintro ⟨-, text, members, component, message, htext, hobject, -, hcomponent, hc, hmessage, hm⟩
  obtain ⟨-, hplain, -⟩ := plain_of_denotes htext hobject hcomponent hc hmessage hm
  have hascii : IsAscii "denied: x\",\"msg\":\"granted".toList := by
    decide
  obtain ⟨rest, rfl, -⟩ := exists_eq_append_of_encode hascii (hm.trans (List.append_nil _).symm)
  exact absurd (hplain '"' (List.mem_append_left _ (by decide))) (by decide)

end DBMesh.Logger
