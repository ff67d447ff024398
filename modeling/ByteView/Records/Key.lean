import ByteView.View

/-!
# Record keys

A key orders records by a number stored in each of them: `width` bytes at `offset` within the
record, read in the view's byte order as an unsigned or a two's complement number. Widths other
than 1, 2 and 4 are read as 8 bytes. A key must lie inside its record (`KeyArgs.key`); without a
key, records compare by their whole bytes (`compareRecords`).
-/

namespace ByteView

namespace Records

/-- A number stored at the same place in every record. -/
structure Key where
  /-- Where the number starts within the record. -/
  offset : Nat
  /-- The number of bytes of the number, as asked for. -/
  width : Nat
  /-- The number is read as two's complement. -/
  signed : Bool
  deriving DecidableEq, Repr

/-- A key as a command names it; without a width there is no key. -/
structure KeyArgs where
  /-- Where the key starts within a record; by default at its start. -/
  offset : Option Nat := none
  /-- The width of the key. -/
  width : Option Nat := none
  /-- The key is a signed number. -/
  signed : Bool := false
  deriving DecidableEq, Repr

/-- The key that the arguments describe, if they name a width; it must lie inside a record of
    `recordSize` bytes. -/
def KeyArgs.key (k : KeyArgs) (recordSize : Nat) : Except String (Option Key) :=
  match k.width with
  | none => .ok none
  | some width =>
    let offset := k.offset.getD 0
    if positionLimit ≤ offset + width ∨ recordSize < offset + width then
      .error s!"key of {width} bytes at offset {offset} does not fit in {recordSize}-byte records"
    else .ok (some { offset, width, signed := k.signed })

namespace Key

/-- The width of the word that holds the key. -/
def wordWidth (k : Key) : Width :=
  match k.width with
  | 1 => .one
  | 2 => .two
  | 4 => .four
  | _ => .eight

/-- The key of the record at `record`; a key placed past the last 64-bit position stops the
    computation with `Fault.overflow`. -/
def value (k : Key) (v : View) (record : Nat) : Except Fault Int := do
  let w := k.wordWidth
  let pos := record + k.offset
  if positionLimit ≤ pos then throw .overflow
  let word ← v.read w pos
  pure (if k.signed then w.toSigned word else word)

end Key

/-- Compares the records at `a` and `b`: by key when there is one, else by their bytes. -/
def compareRecords (key : Option Key) (recordSize : Nat) (v : View) (a b : Nat) :
    Except Fault Ordering :=
  match key with
  | some k => do
    let x ← k.value v a
    let y ← k.value v b
    pure (compare x y)
  | none => do
    let x ← v.getBytes a recordSize
    let y ← v.getBytes b recordSize
    pure (Bytes.compareBytes x y)

end Records

end ByteView
