import ByteView.Session.Spec
import ByteView.View.Compare
import ByteView.Records.Sort
import ByteView.Records.Verify

/-!
# Running a session

A session runs its operations one after the other on a built store. Each operation sees
the store through its own adapters, answers with a value or a fault, and leaves the store as its
writes made it; an operation that fails goes on to the next one. What a session answers is one
answer per operation, and, for a store mapped from a file, the file as the operations left it.

Sorting in a session can be told to reverse its comparator and to fail at a given comparison,
and it counts the comparisons it makes.
-/

namespace ByteView

namespace Session

/-- What a sort compares. -/
inductive Shape where
  /-- The records at two offsets, by `key` or by their bytes; the comparison numbered
      `failAfter` fails before it compares. -/
  | offsets (key : Option Records.Key) (failAfter : Option Nat)
  /-- The bytes of two whole records. -/
  | records

/-- A sort of the records of `recordSize` bytes in `length` bytes at `start` (by default up to
    the end of the view). -/
structure SortRequest where
  /-- The size of a record. -/
  recordSize : Nat
  /-- Where the records start. -/
  start : Nat
  /-- How many bytes the records take. -/
  length : Option Nat
  /-- Sort in descending order. -/
  descending : Bool
  /-- What the comparator compares. -/
  shape : Shape

/-- An operation of a session. -/
inductive Action where
  | size
  | byteOrder
  /-- Reads the word of width `w` at `pos`, as a signed number if `signed`. -/
  | read (w : Width) (signed : Bool) (pos : Nat)
  /-- Writes `value`, taken modulo the width, as the word of width `w` at `pos`. -/
  | write (w : Width) (pos : Nat) (value : Int)
  | getBytes (pos len : Nat)
  | bytesAt (pos len : Nat)
  | putBytes (pos : Nat) (bytes : ByteArray)
  | compareBytes (pos : Nat) (bytes : ByteArray)
  | equalsBytes (pos : Nat) (bytes : ByteArray)
  | flush
  | close
  /-- Describes the store. -/
  | info
  /-- All bytes of the store. -/
  | dump
  | sort (request : SortRequest)
  | verify (recordSize start length : Nat) (key : Option Records.Key)
  /-- The key of the record at `pos`. -/
  | keyValue (key : Records.Key) (pos : Nat)
  | compareRecords (recordSize : Nat) (key : Option Records.Key) (a b : Nat)
  /-- Reads a word of `width` bytes at `pos`; widths other than 1, 2 and 4 read 8 bytes. -/
  | readValue (pos width : Nat)
  /-- Compares the view with the view of another store. -/
  | compareView (other : Store) (otherVia : List Adapter)
  /-- Compares a range of the view with a range of the view of another store. -/
  | equalsRange (pos : Nat) (other : Store) (otherVia : List Adapter) (offset length : Nat)
  /-- Describes a window of `len` bytes from `pos` on the view. -/
  | windowInfo (pos len : Nat)

/-- An operation and the adapters it sees the store through. -/
structure Step where
  /-- The operation. -/
  action : Action
  /-- The adapters, innermost first. -/
  via : List Adapter

/-- What a store reports about itself. -/
structure Info where
  strategy : Strategy
  size : Nat
  order : ByteOrder
  writable : Bool
  closed : Bool
  segments : Nat

/-- The answer of one operation. -/
inductive Answer where
  /-- Done, nothing to show. -/
  | done
  | number (n : Int)
  | flag (b : Bool)
  | order (o : Ordering)
  | bytes (b : ByteArray)
  | byteOrder (o : ByteOrder)
  | info (i : Info)
  /-- A sort that made `n` comparisons. -/
  | compares (n : Nat)
  | report (r : Records.Report)
  /-- A window from `offset` of `size` bytes over a view of `innerSize` bytes. -/
  | window (offset size innerSize : Nat)
  | fault (f : Fault)
  /-- An operation that could not be read. -/
  | rejected (message : String)

/-- The description of a store. -/
def Info.of (s : Store) : Info :=
  { strategy := s.strategy, size := s.size, order := s.order, writable := s.isWritable,
    closed := s.isClosed, segments := s.segmentCount }

/-- The answer of a read, or its fault. -/
def answerWith {α : Type} (f : α → Answer) : Except Fault α → Answer
  | .ok a => f a
  | .error e => .fault e

/-- The answer and the store after a write. -/
def afterWrite (s : Store) : Except Fault View → Answer × Store
  | .ok v => (.done, v.base)
  | .error e => (.fault e, s)

/-- The comparator of a sort request. -/
def SortRequest.comparator (r : SortRequest) : Records.Comparator :=
  let base : Records.Comparator :=
    match r.shape with
    | .offsets key failAfter => fun n v a b =>
      if failAfter = some (n + 1) then .error .closed
      else Records.compareRecords key r.recordSize v a b
    | .records => Records.byBytes r.recordSize
  fun n v a b => (base n v a b).map fun o => if r.descending then o.swap else o

/-- Runs a sort request on a view, with as many turns of the sort's loop as the area has
    records: a comparator of a request finds each record equal to itself, so the sort ends within
    them. -/
def SortRequest.run (r : SortRequest) (v : View) : Answer × Store :=
  let length := r.length.getD (v.size - r.start)
  let sorting := Records.sortBy r.comparator r.recordSize r.start length (length / r.recordSize)
  match sorting.run ⟨v, 0⟩ with
  | .ok _ state => (.compares state.compares, state.view.base)
  | .error f state => (.fault f, state.view.base)

/-- Runs one operation on the store `s` seen through `via`. -/
def Action.run (action : Action) (s : Store) (via : List Adapter) : Answer × Store :=
  let v := Adapter.wrapAll via (.store s)
  match action with
  | .size => (.number v.size, s)
  | .byteOrder => (.byteOrder v.byteOrder, s)
  | .read w signed pos =>
    (answerWith (fun n => .number (if signed then w.toSigned n else n)) (v.read w pos), s)
  | .write w pos value => afterWrite s (v.write w pos (w.ofSigned value))
  | .getBytes pos len => (answerWith .bytes (v.getBytes pos len), s)
  | .bytesAt pos len => (answerWith .bytes (v.getBytes pos len), s)
  | .putBytes pos bytes => afterWrite s (v.putBytes pos bytes)
  | .compareBytes pos bytes => (answerWith .order (v.compareBytes pos bytes), s)
  | .equalsBytes pos bytes => (answerWith .flag (v.equalsBytes pos bytes), s)
  | .flush => (answerWith (fun _ => .done) v.flush, s)
  | .close => (.done, v.close.base)
  | .info => (.info (Info.of s), s)
  | .dump => (answerWith .bytes (s.getBytes 0 s.size), s)
  | .sort r => r.run v
  | .verify recordSize start length key =>
    (answerWith .report (Records.verify v recordSize start length key), s)
  | .keyValue key pos => (answerWith .number (key.value v pos), s)
  | .compareRecords recordSize key a b =>
    (answerWith .order (Records.compareRecords key recordSize v a b), s)
  | .readValue pos width =>
    let w : Width := match width with
      | 1 => .one
      | 2 => .two
      | 4 => .four
      | _ => .eight
    (answerWith .number (v.read w pos), s)
  | .compareView other otherVia =>
    (answerWith .order (v.compareWith (Adapter.wrapAll otherVia (.store other))), s)
  | .equalsRange pos other otherVia offset length =>
    (answerWith .flag (v.rangeEquals pos (Adapter.wrapAll otherVia (.store other)) offset length), s)
  | .windowInfo pos len => (.window pos len v.size, s)

/-- Runs the steps one after the other; a step that could not be read is answered as such. A
    step that meets a fault that aborts (`Fault.aborts`) stops the whole session with it. -/
def runSteps : Store → List (Except String Step) → Except Fault (List Answer × Store)
  | s, [] => .ok ([], s)
  | s, step :: rest => do
    let (answer, s) := match step with
      | .ok step => step.action.run s step.via
      | .error message => (.rejected message, s)
    if let .fault f := answer then
      if f.aborts then throw f
    let (answers, s) ← runSteps s rest
    pure (answer :: answers, s)

/-- What a session answers: one answer per step, and the file of a mapped store as the steps
    left it. -/
structure Outcome where
  /-- One answer per step. -/
  answers : List Answer
  /-- The file after all steps, for a store mapped from a file. -/
  file : Option ByteArray

/-- Runs the steps on a built store. -/
def run (built : Built) (steps : List (Except String Step)) : Except Fault Outcome := do
  let (answers, s) ← runSteps built.store steps
  pure { answers, file := built.file.map fun (r, offset) => (r.absorb offset s).bytes.toByteArray }

end Session

end ByteView
