import ByteView.Records.Key

/-!
# Verifying the order of records

Records are in order when no record is greater than the one after it. The check walks the pairs
of neighbours from the front and reports the index of the first record found smaller than its
predecessor. Offsets are 64-bit positions: an offset past the last one stops the check with
`Fault.overflow`.
-/

namespace ByteView

namespace Records

/-- What a check of the order of records found. -/
structure Report where
  /-- The number of records checked. -/
  records : Nat
  /-- The index of the first record that is smaller than the one before it. -/
  firstUnsorted : Option Nat
  deriving DecidableEq, Repr

/-- The records are in order. -/
def Report.sorted (r : Report) : Bool := r.firstUnsorted.isNone

/-- The first index from `index` on whose record is smaller than the one before it. -/
def firstUnsortedFrom (key : Option Key) (recordSize : Nat) (v : View) (start records : Nat)
    (index : Nat) : Except Fault (Option Nat) :=
  if _h : index < records then do
    let current := start + index * recordSize
    if positionLimit ≤ current then throw .overflow
    match ← compareRecords key recordSize v (current - recordSize) current with
    | .gt => pure (some index)
    | _ => firstUnsortedFrom key recordSize v start records (index + 1)
  else pure none
termination_by records - index

/-- Checks the order of the records of `recordSize` bytes in the `length` bytes at `start`. -/
def verify (v : View) (recordSize start length : Nat) (key : Option Key) : Except Fault Report :=
  if recordSize = 0 ∨ length % recordSize ≠ 0 then .error (.unaligned length recordSize)
  else do
    let records := length / recordSize
    let first ← firstUnsortedFrom key recordSize v start records 1
    pure { records, firstUnsorted := first }

end Records

end ByteView
