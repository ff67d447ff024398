import ByteView.View

/-!
# Comparing views

Two views compare as their whole contents do: lexicographically on unsigned bytes, a strict
prefix first (`View.compareWith`). Two ranges of two views are equal when their bytes are
(`View.rangeEquals`); both ranges are checked before any byte is read, the left one first.

The bytes are read in pieces of at most `chunkSize` bytes, the left view's piece before the
right view's, so a view that cannot be read reports its fault at the first piece it is asked
for. Views with nothing in common are compared by size without reading a byte.
-/

namespace ByteView

namespace View

/-- The number of bytes read at a time when two views are compared. -/
def chunkSize : Nat := 64 * 1024

/-- Compares the bytes `[pos, common)` of two views, piece by piece. -/
def compareFrom (left right : View) (common pos : Nat) : Except Fault Ordering :=
  if _h : pos < common then do
    let len := min (common - pos) chunkSize
    let a ← left.getBytes pos len
    let b ← right.getBytes pos len
    match Bytes.compareBytes a b with
    | .eq => compareFrom left right common (pos + len)
    | order => pure order
  else pure .eq
termination_by common - pos
decreasing_by
  have : 0 < chunkSize := by decide
  omega

/-- Compares the contents of two views: their common bytes first, then their sizes. -/
def compareWith (left right : View) : Except Fault Ordering := do
  let common := min left.size right.size
  match ← compareFrom left right common 0 with
  | .eq => pure (compare left.size right.size)
  | order => pure order

/-- Whether `length - done` bytes of `left` at `pos + done` equal those of `right` at
    `offset + done`, piece by piece. -/
def equalFrom (left : View) (pos : Nat) (right : View) (offset length done : Nat) :
    Except Fault Bool :=
  if _h : done < length then do
    let len := min (length - done) chunkSize
    let a ← left.getBytes (pos + done) len
    let b ← right.getBytes (offset + done) len
    if ByteArray.beq a b then equalFrom left pos right offset length (done + len)
    else pure false
  else pure true
termination_by length - done
decreasing_by
  have : 0 < chunkSize := by decide
  omega

/-- Whether the `length` bytes of `left` at `pos` equal the `length` bytes of `right` at
    `offset`; both ranges are checked first. -/
def rangeEquals (left : View) (pos : Nat) (right : View) (offset length : Nat) :
    Except Fault Bool := do
  checkRange pos length left.size
  checkRange offset length right.size
  equalFrom left pos right offset length 0

end View

end ByteView
