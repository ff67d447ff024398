import ByteView.Bytes

/-!
# Blocks of bytes

A block is a byte string of a fixed size whose bytes are zero until they are written. A block of
at most `wholeLimit` bytes is held in one piece. A larger one is held as pages of `pageSize`
bytes, and only the pages that were written are kept, so a block of gigabytes of zeros costs
nothing until it is touched. Both forms answer reads the same way: byte `i` of a block is
`Block.get`, and any range of it is `Block.slice`.

* `Block.slice` and `Block.overwrite` read and write a range that lies inside the block;
* `Block.grow` appends zero bytes;
* `Block.extract` cuts a range out as a block of its own, paged when it is large.

A range is walked in pieces, one piece per page (or per segment of a segmented store) that it
touches (`chunks`).
-/

namespace ByteView

/-- The piece of a range that lies in one segment: `length` bytes from `start` of `segment`. -/
structure Chunk where
  /-- The index of the segment. -/
  segment : Nat
  /-- The first byte of the piece within the segment. -/
  start : Nat
  /-- The number of bytes of the piece. -/
  length : Nat
  deriving DecidableEq, Repr

/-- The pieces of the range of `remaining` bytes at `pos`, with segments of `Nat.pow 2 shift`
    bytes. -/
def chunks (shift pos remaining : Nat) : List Chunk :=
  if remaining = 0 then []
  else
    let inSegment := pos % Nat.pow 2 shift
    let length := min (Nat.pow 2 shift - inSegment) remaining
    ⟨pos / Nat.pow 2 shift, inSegment, length⟩ :: chunks shift (pos + length) (remaining - length)
termination_by remaining
decreasing_by
  have : pos % Nat.pow 2 shift < Nat.pow 2 shift := Nat.mod_lt _ (Nat.two_pow_pos shift)
  omega

/-- A byte string of a fixed size whose unwritten bytes are zero. -/
inductive Block where
  /-- All bytes, held in one piece. -/
  | whole (bytes : ByteArray)
  /-- `size` bytes in pages of `pageSize` bytes: page `i` holds the bytes from `i * pageSize`
      on, and a page that is not listed holds zeros. -/
  | paged (size : Nat) (pages : List (Nat × ByteArray))

namespace Block

/-- The base-two logarithm of the size of a page. -/
def pageShift : Nat := 16

/-- The number of bytes of a page: `2 ^ 16`. -/
def pageSize : Nat := 65536

/-- The largest block held in one piece: `2 ^ 24` bytes. -/
def wholeLimit : Nat := 16777216

/-- The page of index `i`: as written, or zeros. -/
def page (pages : List (Nat × ByteArray)) (i : Nat) : ByteArray :=
  (pages.lookup i).getD (Bytes.zeros pageSize)

/-- The bytes of the piece `c` of a range, from its page. -/
def piece (pages : List (Nat × ByteArray)) (c : Chunk) : ByteArray :=
  match pages.lookup c.segment with
  | some p => Bytes.slice p c.start c.length
  | none => Bytes.zeros c.length

/-- The pages with the page of index `i` set to `p`. -/
def setPage (pages : List (Nat × ByteArray)) (i : Nat) (p : ByteArray) : List (Nat × ByteArray) :=
  (i, p) :: pages.filter (·.1 != i)

/-- The number of bytes of the block. -/
def size : Block → Nat
  | .whole bytes => bytes.size
  | .paged size _ => size

/-- A block of `n` zero bytes. -/
def zeros (n : Nat) : Block :=
  if n ≤ wholeLimit then .whole (Bytes.zeros n) else .paged n []

/-- The block holding `bytes`. -/
def ofBytes (bytes : ByteArray) : Block := .whole bytes

/-- The byte at `i`, zero past the end. -/
def get : Block → Nat → UInt8
  | .whole bytes, i => bytes[i]?.getD 0
  | .paged size pages, i =>
    if i < size then (page pages (i / pageSize))[i % pageSize]?.getD 0 else 0

/-- The `len` bytes at `pos` (fewer if the block ends first). -/
def slice : Block → Nat → Nat → ByteArray
  | .whole bytes, pos, len => Bytes.slice bytes pos len
  | .paged size pages, pos, len =>
    match chunks pageShift pos (min len (size - pos)) with
    | [c] => piece pages c
    | cs => cs.foldl (fun acc c => acc ++ piece pages c) ByteArray.empty

/-- The block with the bytes of `src` written from `pos` on, as far as the block reaches; its
    size stays the same. -/
def overwrite : Block → Nat → ByteArray → Block
  | .whole bytes, pos, src =>
    .whole (Bytes.overwrite bytes pos (Bytes.slice src 0 (bytes.size - pos)))
  | .paged size pages, pos, src =>
    let written := (chunks pageShift pos (min src.size (size - pos))).foldl
      (fun (acc : Nat × List (Nat × ByteArray)) c =>
        (acc.1 + c.length,
          setPage acc.2 c.segment
            (Bytes.overwrite (page acc.2 c.segment) c.start (Bytes.slice src acc.1 c.length))))
      (0, pages)
    .paged size written.2

/-- All bytes of the block. -/
def toByteArray (b : Block) : ByteArray := b.slice 0 b.size

/-- The block with zero bytes appended up to `n` bytes; a block of `n` bytes or more stays as
    it is. -/
def grow (b : Block) (n : Nat) : Block :=
  match b with
  | .whole bytes =>
    if n ≤ bytes.size then b
    else if n ≤ wholeLimit then .whole (bytes ++ Bytes.zeros (n - bytes.size))
    else (zeros n).overwrite 0 bytes
  | .paged size pages => .paged (max size n) pages

/-- The `len` bytes at `pos` (fewer if the block ends first) as a block of their own: in one
    piece when they are few, else as the written pages' share of them over zeros. -/
def extract (b : Block) (pos len : Nat) : Block :=
  match b with
  | .whole bytes => .whole (Bytes.slice bytes pos len)
  | .paged size pages =>
    let len := min len (size - pos)
    if len ≤ wholeLimit then .whole (b.slice pos len)
    else
      pages.foldl (fun acc (index, data) =>
        let lo := max (index * pageSize) pos
        let hi := min (index * pageSize + pageSize) (pos + len)
        if lo < hi then acc.overwrite (lo - pos) (Bytes.slice data (lo - index * pageSize) (hi - lo))
        else acc) (zeros len)

end Block

end ByteView
