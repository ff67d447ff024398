/-!
# Faults

What can go wrong when a view is mapped, read, written or sorted. A fault carries the numbers
that its message names, and `Fault.message` holds every wording, so the text of an answer is
decided in this one place.

Two faults come from the storage underneath a view (`Fault.isStorage`): a refused mapping of one
segment and any other storage failure. Both keep the storage's own text as their cause, which
`Fault.chain` lists after the fault's message, the way a report of nested causes reads.

Three faults are not answers at all (`Fault.aborts`): a position computed as a 64-bit sum that
overflows stops the whole computation, not just the operation that met it, and so does a sort
that does not end or that overflows its stack.
-/

namespace ByteView

/-- A failed view operation, one constructor per cause. -/
inductive Fault where
  /-- An access starts past the end of a view of `size` bytes. -/
  | positionOutOfRange (pos size : Nat)
  /-- An access starts inside a view of `size` bytes, but its `length` bytes run past the end. -/
  | lengthOutOfRange (pos length size : Nat)
  /-- An area to sort is not a whole number of records (or the record size is zero). -/
  | unaligned (length recordSize : Nat)
  /-- A mapping asks for more bytes than its strategy can hold. -/
  | unsupported (requested max : Nat)
  /-- The storage refused to map the segment `segment`, which starts at `offset` of the file. -/
  | mapping (segment offset : Nat) (cause : String)
  /-- The storage failed otherwise. -/
  | io (cause : String)
  /-- A write through a view mapped read-only. -/
  | readOnly
  /-- An access to a view after it was closed. -/
  | closed
  /-- Mapping options that cannot be honoured; `text` says why. -/
  | invalidConfig (text : String)
  /-- A position computed as a 64-bit sum overflowed: the computation stops there, and whatever
      ran it stops with it. -/
  | overflow
  /-- A sort still had turns of its loop to take when those it was given ran out: it stands for a
      sort that does not end. -/
  | endless
  /-- A sort would have nested more calls than its stack holds. -/
  | stackOverflow
  deriving DecidableEq, Repr, Inhabited

namespace Fault

/-- The one-line text of a fault. -/
def message : Fault → String
  | .positionOutOfRange pos size => s!"position out of bounds: {pos} (size {size})"
  | .lengthOutOfRange pos length size =>
    s!"length out of bounds: {length} at position {pos} (size {size})"
  | .unaligned length recordSize =>
    s!"area length {length} is not a multiple of record size {recordSize}"
  | .unsupported requested max => s!"unsupported mapping size {requested} bytes, maximum is {max}"
  | .mapping segment offset cause => s!"failed to map segment {segment} at offset {offset}: {cause}"
  | .io cause => s!"I/O error: {cause}"
  | .readOnly => "view is mapped read-only"
  | .closed => "view is closed"
  | .invalidConfig text => s!"Configuration error: {text}"
  | .overflow => "attempt to add with overflow"
  | .endless => "sort does not end"
  | .stackOverflow => "thread has overflowed its stack"

/-- The fault's message followed by the texts of the causes beneath it. -/
def chain : Fault → List String
  | f@(.mapping _ _ cause) => [f.message, cause]
  | f@(.io cause) => [f.message, cause]
  | f => [f.message]

/-- The fault reports an access outside a view. -/
def isOutOfRange : Fault → Bool
  | .positionOutOfRange .. | .lengthOutOfRange .. => true
  | _ => false

/-- The fault stops everything above the operation that met it, rather than being its answer. -/
def aborts : Fault → Bool
  | .overflow | .endless | .stackOverflow => true
  | _ => false

/-- The fault comes from the storage underneath the view. -/
def isStorage : Fault → Bool
  | .mapping .. | .io .. => true
  | _ => false

end Fault

end ByteView
