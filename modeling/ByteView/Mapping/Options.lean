import ByteView.Fault
import ByteView.Store

/-!
# Mapping options

How a region of a file becomes a view: in which mode, from which offset, how many bytes (all the
rest of the file when no length is given), in which byte order, and in segments of which size
should the region be segmented. The options are checked before anything is mapped: the segment
shift is at most 30 (`Options.validate`).

A region is held flat unless it is too large for one region, or a segment size other than the
default was asked for and the region does not fit one segment (`Options.strategyFor`).
-/

namespace ByteView

namespace Mapping

/-- Whether a mapping may be written. -/
inductive Mode where
  | readOnly
  | readWrite
  deriving DecidableEq, Repr, Inhabited

/-- The name of a mode, as options spell it. -/
def Mode.name : Mode → String
  | .readOnly => "read-only"
  | .readWrite => "read-write"

/-- Reads a mode from its name or an abbreviation, ignoring the case of ASCII letters. -/
def Mode.parse (s : String) : Except String Mode :=
  let lower := s.map Char.toLower
  if lower = "read-only" ∨ lower = "ro" ∨ lower = "r" then .ok .readOnly
  else if lower = "read-write" ∨ lower = "rw" then .ok .readWrite
  else .error s!"unknown map mode: {lower}"

/-- The largest segment shift: segments of one gibibyte. -/
def maxShift : Nat := 30

/-- What to map and how. -/
structure Options where
  /-- Whether the mapping may be written. -/
  mode : Mode := .readOnly
  /-- Where the region starts in the file. -/
  offset : Nat := 0
  /-- How many bytes the region has; by default the rest of the file. -/
  length : Option Nat := none
  /-- The byte order of the view's words. -/
  byteOrder : ByteOrder := .big
  /-- The base-two logarithm of the size of a segment. -/
  segmentShift : Nat := maxShift
  deriving DecidableEq, Repr, Inhabited

namespace Options

/-- The default options: read-only, the whole file, big-endian, segments of `2 ^ 30` bytes. -/
def readOnly : Options := {}

/-- The default options in read-write mode. -/
def readWrite : Options := { mode := .readWrite }

/-- The options with another mode. -/
def withMode (o : Options) (mode : Mode) : Options := { o with mode }

/-- The options for the `length` bytes from `offset` on. -/
def withRegion (o : Options) (offset length : Nat) : Options :=
  { o with offset, length := some length }

/-- The options with another offset, the length kept. -/
def withOffset (o : Options) (offset : Nat) : Options := { o with offset }

/-- The options with another byte order. -/
def withByteOrder (o : Options) (byteOrder : ByteOrder) : Options := { o with byteOrder }

/-- The options with another segment shift. -/
def withSegmentShift (o : Options) (segmentShift : Nat) : Options := { o with segmentShift }

/-- The size of a segment, as a 64-bit word: the shift is taken modulo 64. -/
def segmentSize (o : Options) : Nat := Nat.pow 2 (o.segmentShift % 64)

/-- Checks that the segment shift is at most `maxShift`. -/
def validate (o : Options) : Except Fault Unit :=
  if maxShift < o.segmentShift then
    .error (.invalidConfig s!"segment shift {o.segmentShift} exceeds maximum {maxShift}")
  else .ok ()

/-- The length of the region in a file of `resourceSize` bytes. -/
def resolveLength (o : Options) (resourceSize : Nat) : Except Fault Nat :=
  match o.length with
  | some length => .ok length
  | none =>
    if o.offset ≤ resourceSize then .ok (resourceSize - o.offset)
    else .error (.invalidConfig s!"offset {o.offset} beyond resource size {resourceSize}")

/-- How a region of `length` bytes is held. -/
def strategyFor (o : Options) (length : Nat) : Strategy :=
  if Flat.limit < length ∨ (o.segmentShift ≠ maxShift ∧ o.segmentSize < length) then .segmented
  else .flat

end Options

end Mapping

end ByteView
