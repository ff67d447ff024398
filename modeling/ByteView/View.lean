import ByteView.Store

/-!
# Views

A view is a store seen through any nesting of two adapters:

* a *window* shows `length` bytes of the view inside it from `offset` on. An access is checked
  against the window first and then moved by `offset`; a move past the last 64-bit position is
  refused as a position out of the inner view. The inner view then checks the access itself, so
  a window may declare more bytes than the view inside it has. Closing a window leaves the view
  inside it open.
* a *reorder* adapter reads and writes multi-byte words in its own byte order, swapping their
  bytes exactly when that order differs from the order of the view inside it. Bytes, ranges and
  comparisons pass through unchanged, and closing it closes the view inside it.

Every operation is defined by recursion on this nesting, and one that changes bytes gives back
the whole view with its store changed; `View.base` recovers the store.
-/

namespace ByteView

/-- A store seen through windows and byte-order adapters. -/
inductive View where
  /-- The store itself. -/
  | store (s : Store)
  /-- The `length` bytes of `inner` from `offset` on. -/
  | window (offset length : Nat) (inner : View)
  /-- `inner` with its multi-byte words in the byte order `order`. -/
  | reorder (order : ByteOrder) (inner : View)

namespace View

/-- The store underneath all adapters. -/
def base : View → Store
  | .store s => s
  | .window _ _ inner => inner.base
  | .reorder _ inner => inner.base

/-- The number of bytes of the view: a window declares its own. -/
def size : View → Nat
  | .store s => s.size
  | .window _ length _ => length
  | .reorder _ inner => inner.size

/-- The byte order of the view's words. -/
def byteOrder : View → ByteOrder
  | .store s => s.order
  | .window _ _ inner => inner.byteOrder
  | .reorder order _ => order

/-- Where an access of `len` bytes at `pos` of a window lands in the view inside it. -/
def locate (offset length innerSize pos len : Nat) : Except Fault Nat := do
  checkRange pos len length
  if offset + pos < positionLimit then pure (offset + pos)
  else throw (.positionOutOfRange offset innerSize)

/-- Whether a reorder adapter to `order` over a view of order `inner` swaps a word of width
    `w`: only words of two or more bytes, and only when the orders differ. -/
def swaps (order inner : ByteOrder) (w : Width) : Bool :=
  w != .one && order != inner

/-- The word of width `w` at `pos`. -/
def read : View → Width → Nat → Except Fault Nat
  | .store s, w, pos => s.read w pos
  | .window offset length inner, w, pos => do
    let target ← locate offset length inner.size pos w.bytes
    inner.read w target
  | .reorder order inner, w, pos => do
    let value ← inner.read w pos
    pure (if swaps order inner.byteOrder w then w.swapBytes value else value)

/-- Writes the word `value` of width `w` at `pos`. -/
def write : View → Width → Nat → Nat → Except Fault View
  | .store s, w, pos, value => .store <$> s.write w pos value
  | .window offset length inner, w, pos, value => do
    let target ← locate offset length inner.size pos w.bytes
    .window offset length <$> inner.write w target value
  | .reorder order inner, w, pos, value =>
    let stored := if swaps order inner.byteOrder w then w.swapBytes value else value
    .reorder order <$> inner.write w pos stored

/-- The `len` bytes at `pos`. -/
def getBytes : View → Nat → Nat → Except Fault ByteArray
  | .store s, pos, len => s.getBytes pos len
  | .window offset length inner, pos, len => do
    let target ← locate offset length inner.size pos len
    inner.getBytes target len
  | .reorder _ inner, pos, len => inner.getBytes pos len

/-- Writes `src` at `pos`. -/
def putBytes : View → Nat → ByteArray → Except Fault View
  | .store s, pos, src => .store <$> s.putBytes pos src
  | .window offset length inner, pos, src => do
    let target ← locate offset length inner.size pos src.size
    .window offset length <$> inner.putBytes target src
  | .reorder order inner, pos, src => .reorder order <$> inner.putBytes pos src

/-- Succeeds when the store underneath is open. -/
def flush : View → Except Fault Unit
  | .store s => s.flush
  | .window _ _ inner => inner.flush
  | .reorder _ inner => inner.flush

/-- Closes the view: a window closes nothing, a reorder adapter closes the view inside it. -/
def close : View → View
  | .store s => .store s.close
  | .window offset length inner => .window offset length inner
  | .reorder order inner => .reorder order inner.close

/-- Compares the bytes at `pos` with `other`, as many bytes as `other` has. -/
def compareBytes (v : View) (pos : Nat) (other : ByteArray) : Except Fault Ordering := do
  let bytes ← v.getBytes pos other.size
  pure (Bytes.compareBytes bytes other)

/-- Whether the bytes at `pos` equal `other`. -/
def equalsBytes (v : View) (pos : Nat) (other : ByteArray) : Except Fault Bool := do
  let order ← v.compareBytes pos other
  pure (order == .eq)

/-- The two's complement word of width `w` at `pos`. -/
def readSigned (v : View) (w : Width) (pos : Nat) : Except Fault Int := do
  let value ← v.read w pos
  pure (w.toSigned value)

/-- Writes `value` as a two's complement word of width `w` at `pos`. -/
def writeSigned (v : View) (w : Width) (pos : Nat) (value : Int) : Except Fault View :=
  v.write w pos (w.ofSigned value)

end View

end ByteView
