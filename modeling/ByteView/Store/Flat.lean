import ByteView.Block
import ByteView.Range
import ByteView.Word

/-!
# Flat stores

A flat store is one contiguous region of bytes, the simplest way to back a view: every access is
one range of one byte string. It is the measure that the segmented store is compared with.

Every access first asks whether the store is still open, then (for a write) whether it is
writable, and only then whether the range fits; a failed access changes nothing. Closing keeps
the size, so a closed store still answers `size`, and keeps its bytes, which a file it was mapped
from still holds.
-/

namespace ByteView

/-- A store of one contiguous region of bytes. -/
structure Flat where
  /-- The bytes of the region. -/
  bytes : Block
  /-- Writes are allowed. -/
  writable : Bool
  /-- The order of multi-byte words. -/
  order : ByteOrder := .big
  /-- The store was closed: no access is allowed any more. -/
  closed : Bool := false

namespace Flat

/-- The largest size of a flat store: the largest signed 32-bit number, `2 ^ 31 - 1`. -/
def limit : Nat := 2147483647

/-- The number of bytes of the store. -/
def size (s : Flat) : Nat := s.bytes.size

/-- Fails unless the store is open. -/
def ensureOpen (s : Flat) : Except Fault Unit :=
  if s.closed then .error .closed else .ok ()

/-- Fails unless the store is open and writable, in this order. -/
def ensureWritable (s : Flat) : Except Fault Unit :=
  if s.closed then .error .closed else if s.writable then .ok () else .error .readOnly

/-- The `len` bytes at `pos`. -/
def getBytes (s : Flat) (pos len : Nat) : Except Fault ByteArray := do
  s.ensureOpen
  checkRange pos len s.size
  pure (s.bytes.slice pos len)

/-- Writes `src` at `pos`. -/
def putBytes (s : Flat) (pos : Nat) (src : ByteArray) : Except Fault Flat := do
  s.ensureWritable
  checkRange pos src.size s.size
  pure { s with bytes := s.bytes.overwrite pos src }

/-- The word of width `w` at `pos`, in the store's byte order. -/
def read (s : Flat) (w : Width) (pos : Nat) : Except Fault Nat := do
  let bs ← s.getBytes pos w.bytes
  pure (s.order.decode bs.data.toList)

/-- Writes the word `value` of width `w` at `pos`, in the store's byte order. -/
def write (s : Flat) (w : Width) (pos value : Nat) : Except Fault Flat :=
  s.putBytes pos (s.order.encode w.bytes value).toByteArray

/-- Succeeds on an open store: its bytes are always where they belong. -/
def flush (s : Flat) : Except Fault Unit :=
  s.ensureOpen

/-- Closes the store; closing twice is closing once. -/
def close (s : Flat) : Flat :=
  { s with closed := true }

/-- The store with another byte order for its words. -/
def withByteOrder (s : Flat) (o : ByteOrder) : Flat :=
  { s with order := o }

/-- A writable store holding `bytes`. -/
def ofBytes (bytes : ByteArray) (order : ByteOrder) : Flat :=
  { bytes := .ofBytes bytes, writable := true, order }

/-- A writable store of `length` zero bytes; more than `limit` bytes are refused. -/
def zeros (length : Nat) (order : ByteOrder) : Except Fault Flat :=
  if limit < length then .error (.unsupported length limit)
  else .ok { bytes := Block.zeros length, writable := true, order }

end Flat

end ByteView
