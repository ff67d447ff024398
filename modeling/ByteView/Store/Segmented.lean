import ByteView.Block
import ByteView.Platform
import ByteView.Range
import ByteView.Word

/-!
# Segmented stores

A segmented store holds its bytes in segments of `Nat.pow 2 shift` bytes each, the last one possibly
shorter; position `p` is byte `p % Nat.pow 2 shift` of segment `p / Nat.pow 2 shift`. It addresses far more
than one region can hold: up to `2 ^ 62` bytes, in segments of at most `2 ^ 30`.

A word that lies inside one segment is decoded from that segment's bytes. A word that straddles a
boundary is read as its two halves, each by the same rule, and the halves are joined in the
store's byte order (`readWord`); writing takes the word apart the same way (`writeWord`). A range
is walked piece by piece, one piece per segment it touches (`chunks`).

A store reserves a table with one handle for each of its segments; a store whose table the
platform does not grant (`Platform.reserves`) is refused as unsupported.
-/

namespace ByteView

/-- A store of bytes held in segments of `Nat.pow 2 shift` bytes. -/
structure Segmented where
  /-- The segments, in order; all but the last hold `Nat.pow 2 shift` bytes. -/
  segments : Array Block
  /-- The base-two logarithm of the segment size. -/
  shift : Nat
  /-- The number of bytes of the store. -/
  size : Nat
  /-- The order of multi-byte words. -/
  order : ByteOrder := .big
  /-- Writes are allowed. -/
  writable : Bool := true
  /-- The store was closed: no access is allowed any more. -/
  closed : Bool := false

namespace Segmented

/-- The largest size of a segmented store: `2 ^ 62` bytes. -/
def limit : Nat := 4611686018427387904

/-- The number of segments of `Nat.pow 2 shift` bytes that hold `length` bytes. -/
def segmentCount (shift length : Nat) : Nat :=
  (length + Nat.pow 2 shift - 1) / Nat.pow 2 shift

/-- Where each segment of a store of `length` bytes starts, and how many bytes it holds. -/
def layout (shift length : Nat) : List (Nat × Nat) :=
  (List.range (segmentCount shift length)).map fun i =>
    (i * Nat.pow 2 shift, min (Nat.pow 2 shift) (length - i * Nat.pow 2 shift))

/-- Checks that `length` bytes fit a segmented store and that the platform grants its segment
    table; gives the number of segments. -/
def reserve (p : Platform) (shift length : Nat) : Except Fault Nat :=
  if limit < length then .error (.unsupported length limit)
  else
    let count := segmentCount shift length
    if !p.reserves count then .error (.unsupported length limit)
    else .ok count

/-- The size of a segment. -/
def segmentSize (s : Segmented) : Nat := Nat.pow 2 s.shift

/-- The segment that holds position `pos`. -/
def segmentOf (s : Segmented) (pos : Nat) : Nat := pos / Nat.pow 2 s.shift

/-- The place of position `pos` within its segment. -/
def localPos (s : Segmented) (pos : Nat) : Nat := pos % Nat.pow 2 s.shift

/-- The segment of index `i`. -/
def segment (s : Segmented) (i : Nat) : Block := s.segments[i]?.getD (.whole ByteArray.empty)

/-- The byte at `pos`. -/
def byte (s : Segmented) (pos : Nat) : UInt8 :=
  (s.segment (s.segmentOf pos)).get (s.localPos pos)

/-- The `n` bytes at `pos`, if they lie in one segment. -/
def contiguous (s : Segmented) (pos n : Nat) : Option (List UInt8) :=
  let seg := s.segment (s.segmentOf pos)
  let inSegment := s.localPos pos
  if inSegment + n ≤ seg.size then some (seg.slice inSegment n).data.toList else none

/-- The word of width `w` at `pos`: decoded in place when it lies in one segment, else joined
    from its two halves. -/
def readWord (s : Segmented) (w : Width) (pos : Nat) : Nat :=
  if _h : w = .one then (s.byte pos).toNat
  else
    match s.contiguous pos w.bytes with
    | some bs => s.order.decode bs
    | none =>
      s.order.join w.half.bytes (s.readWord w.half pos) (s.readWord w.half (pos + w.half.bytes))
termination_by w.bytes
decreasing_by all_goals exact Width.half_bytes_lt w ‹_›

/-- The store with the segment of index `i` changed by `f`. -/
def modifySegment (s : Segmented) (i : Nat) (f : Block → Block) : Segmented :=
  { s with segments := s.segments.modify i f }

/-- Writes the byte `b` at `pos`. -/
def writeByte (s : Segmented) (pos : Nat) (b : UInt8) : Segmented :=
  s.modifySegment (s.segmentOf pos) fun seg => seg.overwrite (s.localPos pos) [b].toByteArray

/-- Writes the bytes `bs` at `pos`, if they lie in one segment. -/
def writeContiguous (s : Segmented) (pos : Nat) (bs : List UInt8) : Option Segmented :=
  let inSegment := s.localPos pos
  if inSegment + bs.length ≤ (s.segment (s.segmentOf pos)).size then
    some (s.modifySegment (s.segmentOf pos) fun seg => seg.overwrite inSegment bs.toByteArray)
  else none

/-- Writes the word `value` of width `w` at `pos`: in place when it lies in one segment, else
    as its two halves. -/
def writeWord (s : Segmented) (w : Width) (pos value : Nat) : Segmented :=
  if _h : w = .one then s.writeByte pos (UInt8.ofNat value)
  else
    match s.writeContiguous pos (s.order.encode w.bytes value) with
    | some s' => s'
    | none =>
      let halves := s.order.split w.half.bytes value
      (s.writeWord w.half pos halves.1).writeWord w.half (pos + w.half.bytes) halves.2
termination_by w.bytes
decreasing_by all_goals exact Width.half_bytes_lt w ‹_›

/-- The bytes of the range of `len` bytes at `pos`, gathered piece by piece. -/
def gather (s : Segmented) (pos len : Nat) : ByteArray :=
  (chunks s.shift pos len).foldl
    (fun acc c => acc ++ (s.segment c.segment).slice c.start c.length) ByteArray.empty

/-- Writes `src` at `pos`, piece by piece. -/
def scatter (s : Segmented) (pos : Nat) (src : ByteArray) : Segmented :=
  ((chunks s.shift pos src.size).foldl
    (fun (acc : Nat × Segmented) c =>
      (acc.1 + c.length,
        acc.2.modifySegment c.segment fun seg =>
          seg.overwrite c.start (Bytes.slice src acc.1 c.length)))
    (0, s)).2

/-- Fails unless the store is open. -/
def ensureOpen (s : Segmented) : Except Fault Unit :=
  if s.closed then .error .closed else .ok ()

/-- Fails unless the store is open and writable, in this order. -/
def ensureWritable (s : Segmented) : Except Fault Unit :=
  if s.closed then .error .closed else if s.writable then .ok () else .error .readOnly

/-- The word of width `w` at `pos`. -/
def read (s : Segmented) (w : Width) (pos : Nat) : Except Fault Nat := do
  s.ensureOpen
  checkAccess pos w.bytes s.size
  pure (s.readWord w pos)

/-- Writes the word `value` of width `w` at `pos`. -/
def write (s : Segmented) (w : Width) (pos value : Nat) : Except Fault Segmented := do
  s.ensureWritable
  checkAccess pos w.bytes s.size
  pure (s.writeWord w pos value)

/-- The `len` bytes at `pos`. -/
def getBytes (s : Segmented) (pos len : Nat) : Except Fault ByteArray := do
  s.ensureOpen
  checkRange pos len s.size
  pure (s.gather pos len)

/-- Writes `src` at `pos`. -/
def putBytes (s : Segmented) (pos : Nat) (src : ByteArray) : Except Fault Segmented := do
  s.ensureWritable
  checkRange pos src.size s.size
  pure (s.scatter pos src)

/-- Succeeds on an open store. -/
def flush (s : Segmented) : Except Fault Unit :=
  s.ensureOpen

/-- Closes the store and releases its segments; closing twice is closing once. -/
def close (s : Segmented) : Segmented :=
  { s with closed := true }

/-- The number of segments the store holds: none once closed. -/
def liveSegments (s : Segmented) : Nat :=
  if s.closed then 0 else s.segments.size

/-- The store with another byte order for its words. -/
def withByteOrder (s : Segmented) (o : ByteOrder) : Segmented :=
  { s with order := o }

/-- All bytes of the store, segment after segment. -/
def contents (s : Segmented) : ByteArray :=
  s.segments.foldl (fun acc seg => acc ++ seg.toByteArray) ByteArray.empty

/-- A writable store holding `bytes`, cut into segments of `Nat.pow 2 shift` bytes. -/
def ofBytes (p : Platform) (bytes : ByteArray) (shift : Nat) (order : ByteOrder) :
    Except Fault Segmented := do
  let _ ← reserve p shift bytes.size
  pure {
    segments := ((layout shift bytes.size).map fun p => Block.ofBytes (Bytes.slice bytes p.1 p.2)).toArray
    shift, size := bytes.size, order }

/-- A writable store of `length` zero bytes in segments of `Nat.pow 2 shift` bytes. -/
def zeros (p : Platform) (length shift : Nat) (order : ByteOrder) : Except Fault Segmented := do
  let _ ← reserve p shift length
  pure {
    segments := ((layout shift length).map fun p => Block.zeros p.2).toArray
    shift, size := length, order }

end Segmented

end ByteView
