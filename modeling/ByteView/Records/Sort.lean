import ByteView.View

/-!
# Sorting records in place

The records of a sort are the `length / recordSize` ranges of `recordSize` bytes from `start` on.
They are sorted in the view itself by a three-way quicksort that touches the view only through
reads and writes of whole records:

* a range of at most two records is handled directly: one comparison, and an exchange when the
  first record is the greater;
* a larger range is partitioned around its middle record, the *pivot*, which stays in the view
  and is compared in place. One pass moves every record that compares less than the pivot to the
  front and every greater one to the back, leaving the records equal to it between, in the order
  the scan found them. An exchange that moves the pivot record moves its tracked offset along
  (`retarget`);
* the side with fewer bytes is then sorted by a nested call, and the loop goes on with the other
  side (on a tie, the greater side is nested). The loop goes on with the other side even when it
  is the whole range again, as it is when the comparator sent every record to one side.

Such a loop need not end: a comparator that finds every record less than the pivot, the pivot
included, sends the whole range to one side on every turn. The sort of a range is therefore given
a number of turns (`sortRange`): each turn of the loop, and the first turn of each nested call,
takes one, and a sort that needs more than it was given answers `Fault.endless`, which stands for
a sort that does not end. A sort that ends within some number of turns ends the same way with
more. The sort of a range also carries the stack it runs on: the number of calls that may be
nested, the running one included, past which a call answers `Fault.stackOverflow`.

Before anything is read, the area must be a whole number of records (else `Fault.unaligned`); an
area of at most one record is left as it is, and any other must lie inside the view.

The comparator is told how many comparisons came before, so that it may fail or change its mind
as it goes; the sort runs in `SortM`, which keeps the view and the count of comparisons also
when a comparison or an access fails.
-/

namespace ByteView

namespace Records

/-- Where the record that was at `pivot` is after the records at `a` and `b` trade places. -/
def retarget (pivot a b : Nat) : Nat :=
  if pivot = a then b else if pivot = b then a else pivot

/-- A comparison of the records at two offsets of a view, told how many comparisons came
    before it. -/
abbrev Comparator := Nat → View → Nat → Nat → Except Fault Ordering

/-- The state of a sort: the view being sorted and the number of comparisons made. -/
structure Sorting where
  /-- The view, with the exchanges made so far. -/
  view : View
  /-- The number of comparisons made so far. -/
  compares : Nat

/-- A step of a sort: it may change the view and may fail, keeping the state it reached. -/
abbrev SortM := EStateM Fault Sorting

/-- Compares the records at `a` and `b`, counting the comparison also when it fails. -/
def compareAt (cmp : Comparator) (a b : Nat) : SortM Ordering := fun s =>
  match cmp s.compares s.view a b with
  | .ok order => .ok order { s with compares := s.compares + 1 }
  | .error f => .error f { s with compares := s.compares + 1 }

/-- Reads from the view being sorted. -/
def inspect {α : Type} (f : View → Except Fault α) : SortM α := fun s =>
  match f s.view with
  | .ok a => .ok a s
  | .error e => .error e s

/-- Changes the view being sorted. -/
def change (f : View → Except Fault View) : SortM Unit := fun s =>
  match f s.view with
  | .ok v => .ok () { s with view := v }
  | .error e => .error e s

/-- Exchanges the records of `width` bytes at `a` and `b`, reading both before writing either;
    gives where the pivot record is afterwards. A record is not exchanged with itself. -/
def exchange (width a b pivot : Nat) : SortM Nat := do
  if a ≠ b then
    let left ← inspect (·.getBytes a width)
    let right ← inspect (·.getBytes b width)
    change (·.putBytes a right)
    change (·.putBytes b left)
  pure (retarget pivot a b)

/-- One pass of the partition: `[start, lt)` holds the lesser records, `[lt, eq)` the equal
    ones, `[gt, stop)` the greater ones, and `[eq, gt)` is still to be scanned. -/
def partitionFrom (cmp : Comparator) (width : Nat) (hw : 0 < width) (pivot lt eq gt : Nat) :
    SortM (Nat × Nat) :=
  if _h : eq < gt then do
    match ← compareAt cmp eq pivot with
    | .lt =>
      let pivot ← exchange width eq lt pivot
      partitionFrom cmp width hw pivot (lt + width) (eq + width) gt
    | .gt =>
      let pivot ← exchange width eq (gt - width) pivot
      partitionFrom cmp width hw pivot lt eq (gt - width)
    | .eq => partitionFrom cmp width hw pivot lt (eq + width) gt
  else pure (lt, gt)
termination_by gt - eq

/-- Partitions the records of `[start, stop)` around the middle one; gives the bounds of the
    records equal to it. -/
def partition (cmp : Comparator) (width : Nat) (hw : 0 < width) (start stop : Nat) :
    SortM (Nat × Nat) :=
  let records := (stop - start) / width
  partitionFrom cmp width hw (start + (records - 1) / 2 * width) start start stop

/-- Sorts the records of `[start, stop)` with a stack of `frames` calls, this one included, and
    `turns` turns of the loop for this call and the calls it nests. After a partition the side with
    fewer bytes is sorted by a nested call, which takes a frame, and the loop goes on with the other
    side in this frame, whatever the partition gave. Each turn, and each nested call's first turn,
    takes one of `turns`: the turns left bound how many can still follow one another. -/
def sortRange (cmp : Comparator) (width : Nat) (hw : 0 < width) :
    (frames turns start stop : Nat) → SortM Unit
  | _, 0, _, _ => throw .endless
  | 0, _ + 1, _, _ => throw .stackOverflow
  | frames + 1, turns + 1, start, stop =>
    if stop - start ≤ 2 * width then do
      if stop - start = 2 * width then
        if (← compareAt cmp start (start + width)) = .gt then
          let _ ← exchange width start (start + width) start
    else do
      let (lt, gt) ← partition cmp width hw start stop
      if lt - start < stop - gt then do
        sortRange cmp width hw frames turns start lt
        sortRange cmp width hw (frames + 1) turns gt stop
      else do
        sortRange cmp width hw frames turns gt stop
        sortRange cmp width hw (frames + 1) turns start lt

/-- Sorts the records of `recordSize` bytes in the `length` bytes at `start` by `cmp`, with
    `turns` turns of the loop and a stack as deep. -/
def sortBy (cmp : Comparator) (recordSize start length turns : Nat) : SortM Unit :=
  if h : recordSize = 0 ∨ length % recordSize ≠ 0 then throw (.unaligned length recordSize)
  else if length ≤ recordSize then pure ()
  else do
    inspect fun v => checkRange start length v.size
    sortRange cmp recordSize (by omega) turns turns start (start + length)

/-- Compares two records by their bytes, lexicographically. -/
def byBytes (recordSize : Nat) : Comparator := fun _ v a b => do
  let left ← v.getBytes a recordSize
  let right ← v.getBytes b recordSize
  pure (Bytes.compareBytes left right)

end Records

end ByteView
