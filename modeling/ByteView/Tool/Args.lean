import ByteView.Mapping.Options
import ByteView.Records.Key

/-!
# Arguments of the command-line tool

The values the tool's options take, and how they are read from text:

* numbers are decimal, with an optional `+` (and `-` where negative numbers are allowed), ASCII
  digits only, and must fit their type (`parseNumber`); a failure is named as the standard
  integer reader names it;
* a width is a byte count of 1, 2, 4 or 8 (`parseWidth`);
* the mapping arguments (byte order and segment shift) become mapping options in a given mode
  (`MapArgs.options`), and the record arguments name an area of a file (`RecordArgs.areaLength`).
-/

namespace ByteView

namespace Tool

/-- Why a number could not be read. -/
inductive NumberError where
  | empty
  | invalidDigit
  | tooLarge
  | tooSmall
  deriving DecidableEq, Repr

/-- The text of a number error. -/
def NumberError.message : NumberError → String
  | .empty => "cannot parse integer from empty string"
  | .invalidDigit => "invalid digit found in string"
  | .tooLarge => "number too large to fit in target type"
  | .tooSmall => "number too small to fit in target type"

/-- Reads the digits `cs` onto `acc`, failing at the first non-digit or as soon as the number
    leaves `[-low, high]` (read as negative when `negative`). -/
def readDigits (negative : Bool) (low high : Nat) : List Char → Nat → Except NumberError Nat
  | [], acc => .ok acc
  | c :: cs, acc =>
    if c.isDigit then
      let acc := acc * 10 + (c.toNat - '0'.toNat)
      if negative ∧ low < acc then .error .tooSmall
      else if !negative ∧ high < acc then .error .tooLarge
      else readDigits negative low high cs acc
    else .error .invalidDigit

/-- Reads a decimal integer in `[-low, high]`. -/
def parseNumber (s : String) (low high : Nat) : Except NumberError Int :=
  match s.toList with
  | [] => .error .empty
  | ['+'] | ['-'] => .error .invalidDigit
  | '+' :: cs => Int.ofNat <$> readDigits false low high cs 0
  | '-' :: cs =>
    if low = 0 then .error .invalidDigit
    else (fun n => -Int.ofNat n) <$> readDigits true low high cs 0
  | cs => Int.ofNat <$> readDigits false low high cs 0

/-- Reads an unsigned decimal number of at most `high`. -/
def parseUnsigned (s : String) (high : Nat) : Except NumberError Nat :=
  Int.toNat <$> parseNumber s 0 high

/-- The largest 64-bit unsigned number. -/
def maxWord : Nat := positionLimit - 1

/-- Reads a width of 1, 2, 4 or 8 bytes. -/
def parseWidth (s : String) : Except String Nat :=
  match parseUnsigned s 255 with
  | .ok w => if w = 1 ∨ w = 2 ∨ w = 4 ∨ w = 8 then .ok w else .error (widthError s)
  | .error _ => .error (widthError s)
where
  widthError (s : String) : String := s!"invalid width '{s}', expected 1, 2, 4 or 8"

/-- How a file is mapped: the byte order of its words and the size of its segments. -/
structure MapArgs where
  /-- The byte order of multi-byte values. -/
  byteOrder : ByteOrder := .big
  /-- The segment size as a power of two. -/
  segmentShift : Nat := Mapping.maxShift
  deriving DecidableEq, Repr

/-- The mapping options for `mode`. -/
def MapArgs.options (m : MapArgs) (mode : Mapping.Mode) : Mapping.Options :=
  Mapping.Options.readOnly |>.withMode mode |>.withByteOrder m.byteOrder
    |>.withSegmentShift m.segmentShift

/-- The record area of a file and the order of its records. -/
structure RecordArgs where
  /-- The record file. -/
  file : String
  /-- The size of one record. -/
  recordSize : Nat
  /-- Where the first record starts. -/
  start : Nat := 0
  /-- How many bytes the records take; by default the rest of the file. -/
  length : Option Nat := none
  /-- The sort key. -/
  key : Records.KeyArgs := {}
  /-- How the file is mapped. -/
  map : MapArgs := {}
  deriving DecidableEq, Repr

/-- The length of a record area starting at `start`, in a file of `size` bytes. -/
def areaLength (start : Nat) (length : Option Nat) (size : Nat) : Except String Nat :=
  match length with
  | some length => .ok length
  | none =>
    if start ≤ size then .ok (size - start)
    else .error s!"start {start} is beyond file size {size}"

/-- The length of the record area in a file of `size` bytes. -/
def RecordArgs.areaLength (r : RecordArgs) (size : Nat) : Except String Nat :=
  Tool.areaLength r.start r.length size

/-- The key the record arguments describe. -/
def RecordArgs.keySpec (r : RecordArgs) : Except String (Option Records.Key) :=
  r.key.key r.recordSize

end Tool

end ByteView
