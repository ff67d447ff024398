import ByteView.Store
import ByteView.Records.Verify

/-!
# Reports of the command-line tool

What each command prints, as text or as one line of JSON. JSON objects keep their fields in the
order the report lists them; numbers are written in decimal and strings are quoted with the
escapes JSON requires (`jsonString`).

A failure is reported as a chain of messages, the outermost context first; `errorReport` writes
it the way the tool's error output shows it.
-/

namespace ByteView

namespace Tool

/-- The output formats. -/
inductive Format where
  | text
  | json
  deriving DecidableEq, Repr, Inhabited

/-- Four hexadecimal digits of a character code. -/
def hex4 (n : Nat) : String :=
  String.ofList ([4096, 256, 16, 1].map fun place => Nat.digitChar (n / place % 16))

/-- A string as a JSON string literal. -/
def jsonString (s : String) : String :=
  let body := s.toList.flatMap fun c =>
    if c = '"' then ['\\', '"']
    else if c = '\\' then ['\\', '\\']
    else if c = '\n' then ['\\', 'n']
    else if c = '\r' then ['\\', 'r']
    else if c = '\t' then ['\\', 't']
    else if c.toNat = 8 then ['\\', 'b']
    else if c.toNat = 12 then ['\\', 'f']
    else if c.toNat < 32 then ('\\' :: 'u' :: (hex4 c.toNat).toList)
    else [c]
  "\"" ++ String.ofList body ++ "\""

/-- A JSON object of already written values, fields in the given order. -/
def jsonObject (fields : List (String × String)) : String :=
  "\x7b" ++ ",".intercalate (fields.map fun (k, v) => jsonString k ++ ":" ++ v) ++ "\x7d"

/-- What `info` reports about a mapped file. -/
structure InfoReport where
  path : String
  size : Nat
  strategy : Strategy
  segments : Nat
  /-- The size of a segment, for a segmented store only. -/
  segmentSize : Option Nat
  byteOrder : ByteOrder

/-- The lines of an `info` report. -/
def InfoReport.render (r : InfoReport) : Format → String
  | .json =>
    jsonObject ([("path", jsonString r.path), ("size", toString r.size),
      ("strategy", jsonString r.strategy.name), ("segments", toString r.segments)] ++
      (r.segmentSize.map fun n => ("segment_size", toString n)).toList ++
      [("byte_order", jsonString r.byteOrder.name)]) ++ "\n"
  | .text =>
    s!"Path:       {r.path}\nSize:       {r.size} bytes\nStrategy:   {r.strategy.name}\n" ++
    s!"Segments:   {r.segments}\n" ++
    (match r.segmentSize with
      | some n => s!"Segment:    {n} bytes\n"
      | none => "") ++
    s!"Byte order: {r.byteOrder.name}\n"

/-- The lowercase hexadecimal digits of `n`, at least `width` of them. -/
def hexPadded (n width : Nat) : String :=
  let digits := Nat.toDigits 16 n
  String.ofList (List.replicate (width - digits.length) '0' ++ digits)

/-- What `get` reports: the value read. -/
structure GetReport where
  pos : Nat
  width : Nat
  byteOrder : ByteOrder
  value : Nat

/-- The line of a `get` report: the value in hexadecimal, two digits per byte of the width. -/
def GetReport.render (r : GetReport) : Format → String
  | .json =>
    jsonObject [("pos", toString r.pos), ("width", toString r.width),
      ("byte_order", jsonString r.byteOrder.name), ("value", toString r.value)] ++ "\n"
  | .text => "0x" ++ hexPadded r.value (2 * r.width) ++ "\n"

/-- What `sort` reports. -/
structure SortReport where
  records : Nat
  recordSize : Nat

/-- The line of a `sort` report; `elapsedMs` is the time the sort took. -/
def SortReport.render (r : SortReport) (elapsedMs : Nat) : Format → String
  | .json =>
    jsonObject [("records", toString r.records), ("record_size", toString r.recordSize),
      ("elapsed_ms", toString elapsedMs)] ++ "\n"
  | .text => s!"Sorted {r.records} records\n"

/-- The line of a `verify` report. -/
def renderVerify (r : Records.Report) : Format → String
  | .json =>
    jsonObject ([("records", toString r.records), ("sorted", toString r.sorted)] ++
      (r.firstUnsorted.map fun i => ("first_unsorted", toString i)).toList) ++ "\n"
  | .text =>
    match r.firstUnsorted with
    | none => s!"{r.records} records sorted\n"
    | some i => s!"Record {i} of {r.records} is out of order\n"

/-- A failure as the tool writes it: the outermost message, then the causes, numbered when
    there are several. -/
def errorReport : List String → String
  | [] => "Error: \n"
  | [m] => s!"Error: {m}\n"
  | [m, c] => s!"Error: {m}\n\nCaused by:\n    {c}\n"
  | m :: causes =>
    s!"Error: {m}\n\nCaused by:\n" ++
      String.join ((List.range causes.length).zip causes |>.map fun (i, c) => s!"    {i}: {c}\n")

end Tool

end ByteView
