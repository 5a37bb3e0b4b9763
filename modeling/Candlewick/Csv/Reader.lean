namespace Candlewick.Csv

/-- A place in a file: its line, counted from one, and its byte, counted from zero. -/
structure Location where
  line : Nat
  byte : Nat
deriving DecidableEq

/-- The place behind a run of characters. -/
def Location.after (location : Location) (cs : List Char) : Location :=
  cs.foldl
    (fun location c => ⟨if c = '\n' then location.line + 1 else location.line,
      location.byte + c.utf8Size⟩)
    location

/-- A record with another number of fields than the first one. -/
structure Fault where
  record : Nat
  location : Location
  found : Nat
  expected : Nat
deriving DecidableEq

/-- The wording of a fault. -/
def Fault.message (fault : Fault) : String :=
  let place := s!"record {fault.record} (line: {fault.location.line}, byte: {fault.location.byte})"
  s!"CSV error: {place}: found record with {fault.found} fields, " ++
    s!"but the previous record has {fault.expected} fields"

/-- Where a reader is within a record: at the start of a field, in a field without quotes, in a
    quoted field, or behind a quote that may end it. -/
inductive Mode where
  | fieldStart
  | unquoted
  | quoted
  | quoteSeen

/-- What a character does to a record. -/
inductive Effect where
  | belongsToField (mode : Mode)
  | dropped (mode : Mode)
  | endsField
  | endsRecord

/-- Whether a character ends a record outside of quotes: a line feed or a carriage return. -/
def isRecordEnd (c : Char) : Bool :=
  c == '\n' || c == '\r'

/-- What a character outside of quotes does. -/
def plainEffect (c : Char) : Effect :=
  if c = ',' then
    .endsField
  else if isRecordEnd c then
    .endsRecord
  else
    .belongsToField .unquoted

/-- What a character does. Quotes count only at the start of a field and within a quoted one, where
    two of them stand for one. -/
def effect (mode : Mode) (c : Char) : Effect :=
  match mode with
  | .fieldStart => if c = '"' then .dropped .quoted else plainEffect c
  | .unquoted => plainEffect c
  | .quoted => if c = '"' then .dropped .quoteSeen else .belongsToField .quoted
  | .quoteSeen => if c = '"' then .belongsToField .quoted else plainEffect c

/-- A record: its fields, the characters it is written with, and the rest of the text. -/
structure Row where
  fields : List (List Char)
  written : List Char
  rest : List Char

/-- Fields with a character in front of the first one. -/
def withFirst (c : Char) : List (List Char) → List (List Char)
  | [] => [[c]]
  | field :: more => (c :: field) :: more

/-- The rest of a record. A quoted field that is not closed ends with the text. -/
def record (mode : Mode) : List Char → Row
  | [] => ⟨[[]], [], []⟩
  | c :: rest =>
    match effect mode c with
    | .belongsToField mode =>
      let row := record mode rest
      ⟨withFirst c row.fields, c :: row.written, row.rest⟩
    | .dropped mode =>
      let row := record mode rest
      ⟨row.fields, c :: row.written, row.rest⟩
    | .endsField =>
      let row := record .fieldStart rest
      ⟨[] :: row.fields, c :: row.written, row.rest⟩
    | .endsRecord => ⟨[[]], [c], rest⟩

/-- The characters that a record was written with and those behind it make up the text, so the
    reader neither drops nor adds any. -/
theorem record_append (mode : Mode) (cs : List Char) :
    (record mode cs).written ++ (record mode cs).rest = cs := by
  induction cs generalizing mode with
  | nil => rfl
  | cons c rest ih =>
    rw [record]
    cases effect mode c <;> simp [ih]

theorem length_rest_le (mode : Mode) (cs : List Char) :
    (record mode cs).rest.length ≤ cs.length := by
  have hlength := congrArg List.length (record_append mode cs)
  simp only [List.length_append] at hlength
  omega

/-- A record takes at least one character, which is why reading one record after the other comes to
    an end. -/
theorem length_rest_lt (mode : Mode) (c : Char) (rest : List Char) :
    (record mode (c :: rest)).rest.length < (c :: rest).length := by
  rw [record]
  cases effect mode c with
  | belongsToField mode => exact Nat.lt_succ_of_le (length_rest_le mode rest)
  | dropped mode => exact Nat.lt_succ_of_le (length_rest_le mode rest)
  | endsField => exact Nat.lt_succ_of_le (length_rest_le .fieldStart rest)
  | endsRecord => exact Nat.lt_succ_self _

/-- The records of a text from a location on. `expected` is the number of fields of the first
    record, once it is known; a record with another number of fields is the last one. The location
    of a record is where the one before it ends. -/
def recordsFrom (start : Location) (index : Nat) (expected : Option Nat) (cs : List Char) :
    List (Except Fault (List String)) :=
  match _h : cs.dropWhile isRecordEnd with
  | [] => []
  | c :: rest =>
    let row := record .fieldStart (c :: rest)
    let found := row.fields.length
    if expected.getD found = found then
      let finish := (start.after (cs.takeWhile isRecordEnd)).after row.written
      .ok (row.fields.map String.ofList) :: recordsFrom finish (index + 1) (some found) row.rest
    else
      [.error ⟨index, start, found, expected.getD found⟩]
termination_by cs.length
decreasing_by
  have hrow := length_rest_lt .fieldStart c rest
  have hdrop := (List.dropWhile_suffix isRecordEnd (l := cs)).length_le
  simp_all only
  omega

/-- The records of a text. A byte order mark in front is no part of it. -/
def records (content : String) : List (Except Fault (List String)) :=
  match content.toList with
  | '\ufeff' :: rest => recordsFrom ⟨1, 3⟩ 0 none rest
  | cs => recordsFrom ⟨1, 0⟩ 0 none cs

end Candlewick.Csv
