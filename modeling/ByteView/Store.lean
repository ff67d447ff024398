import ByteView.Store.Flat
import ByteView.Store.Segmented

/-!
# Stores

A store is what a view rests on: a flat region or a segmented one. Both answer the same
accesses with the same checks; they differ in how many bytes they can hold and in how their
bytes are laid out, which `Store.strategy` and `Store.segmentCount` report.
-/

namespace ByteView

/-- The two ways of holding a store's bytes. -/
inductive Strategy where
  /-- One contiguous region. -/
  | flat
  /-- Segments of a power-of-two size. -/
  | segmented
  deriving DecidableEq, Repr, Inhabited

/-- The name of a strategy in reports. -/
def Strategy.name : Strategy → String
  | .flat => "small"
  | .segmented => "composite"

/-- A flat or segmented store. -/
inductive Store where
  | flat (s : Flat)
  | segmented (s : Segmented)

namespace Store

/-- The number of bytes of the store; a closed store keeps its size. -/
def size : Store → Nat
  | .flat s => s.size
  | .segmented s => s.size

/-- The order of the store's multi-byte words. -/
def order : Store → ByteOrder
  | .flat s => s.order
  | .segmented s => s.order

/-- How the store holds its bytes. -/
def strategy : Store → Strategy
  | .flat _ => .flat
  | .segmented _ => .segmented

/-- The number of native regions the store holds: one for an open flat store, the number of
    segments for an open segmented one, none once closed. -/
def segmentCount : Store → Nat
  | .flat s => if s.closed then 0 else 1
  | .segmented s => s.liveSegments

/-- Writes are allowed now: the store is open and writable. -/
def isWritable : Store → Bool
  | .flat s => s.writable && !s.closed
  | .segmented s => s.writable && !s.closed

/-- The store was closed. -/
def isClosed : Store → Bool
  | .flat s => s.closed
  | .segmented s => s.closed

/-- All bytes of the store, also after it was closed. -/
def contents : Store → ByteArray
  | .flat s => s.bytes.toByteArray
  | .segmented s => s.contents

/-- The word of width `w` at `pos`. -/
def read : Store → Width → Nat → Except Fault Nat
  | .flat s, w, pos => s.read w pos
  | .segmented s, w, pos => s.read w pos

/-- Writes the word `value` of width `w` at `pos`. -/
def write : Store → Width → Nat → Nat → Except Fault Store
  | .flat s, w, pos, value => .flat <$> s.write w pos value
  | .segmented s, w, pos, value => .segmented <$> s.write w pos value

/-- The `len` bytes at `pos`. -/
def getBytes : Store → Nat → Nat → Except Fault ByteArray
  | .flat s, pos, len => s.getBytes pos len
  | .segmented s, pos, len => s.getBytes pos len

/-- Writes `src` at `pos`. -/
def putBytes : Store → Nat → ByteArray → Except Fault Store
  | .flat s, pos, src => .flat <$> s.putBytes pos src
  | .segmented s, pos, src => .segmented <$> s.putBytes pos src

/-- Succeeds on an open store. -/
def flush : Store → Except Fault Unit
  | .flat s => s.flush
  | .segmented s => s.flush

/-- Closes the store. -/
def close : Store → Store
  | .flat s => .flat s.close
  | .segmented s => .segmented s.close

/-- The store with another byte order for its words. -/
def withByteOrder : Store → ByteOrder → Store
  | .flat s, o => .flat (s.withByteOrder o)
  | .segmented s, o => .segmented (s.withByteOrder o)

end Store

end ByteView
