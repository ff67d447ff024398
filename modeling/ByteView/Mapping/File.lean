import ByteView.Mapping.Options

/-!
# Mapping a file

A file, as a mapping sees it, is its bytes (a block, so that a file grown to a great size holds
its new zero bytes without cost), whether it was opened for writing, and whether its bytes can be
mapped at all (a directory or a kernel attribute opens, but cannot be mapped). Mapping a region
of it goes through fixed steps, and the first that fails decides the fault:

1. the options are checked (`Options.validate`);
2. the region's length is resolved: the given one, or the rest of the file after the offset;
3. the length must fit the strategy: `Flat.limit` bytes flat, `Segmented.limit` segmented;
4. the region must fit the file (`Resource.fit`): its end must be a 64-bit position, and a
   read-only region must end inside the file, while a read-write one grows the file with zero
   bytes up to its end (which a file opened read-only refuses, as does the storage when the
   platform does not let the file grow that far, `Platform.grows`);
5. the segments are mapped; the first segment that has bytes is refused when the mapping is
   read-write and the file was opened read-only, or when the file cannot be mapped, in this
   order; an empty region keeps the mode it was asked for.

A mapping runs in `MapM`, which keeps the file as its state also when a step fails, so that what
a failed mapping leaves behind can be seen.
-/

namespace ByteView

namespace Mapping

/-- A file: its bytes, whether it was opened for writing and whether it can be mapped. -/
structure Resource where
  /-- The bytes of the file. -/
  bytes : Block
  /-- The file was opened for writing. -/
  writable : Bool
  /-- Regions of the file that have bytes can be mapped. -/
  mappable : Bool := true

/-- The text with which the storage refuses to map a file opened read-only for writing. -/
def refusedText : String := "Permission denied (os error 13)"

/-- The text with which the storage refuses to grow a file opened read-only. -/
def growthRefusedText : String := "Invalid argument (os error 22)"

/-- The text with which the storage refuses to map something that has no mappable bytes. -/
def unmappableText : String := "No such device (os error 19)"

/-- The text with which the storage refuses to grow a file further. -/
def tooLargeText : String := "File too large (os error 27)"

/-- A mapping step: it may change the file and may fail, keeping the file as it is then. -/
abbrev MapM := EStateM Fault Resource

namespace Resource

/-- The number of bytes of the file. -/
def size (r : Resource) : Nat := r.bytes.size

/-- The file with the bytes of `s` written back at `offset`: what a mapping of the file shows
    after its store was written. -/
def absorb (r : Resource) (offset : Nat) (s : Store) : Resource :=
  { r with bytes := r.bytes.overwrite offset s.contents }

end Resource

/-- Fails with `f` and keeps the file. -/
def refuse {α : Type} (f : Fault) : MapM α := throw f

/-- Lifts a check that does not touch the file. -/
def check {α : Type} : Except Fault α → MapM α
  | .ok a => pure a
  | .error f => throw f

/-- Makes the file hold the region of `length` bytes at the options' offset. -/
def fit (p : Platform) (o : Options) (length : Nat) : MapM Unit := do
  let r ← get
  let stop := o.offset + length
  if positionLimit ≤ stop then
    refuse (.invalidConfig s!"region of {length} bytes at offset {o.offset} overflows")
  else if stop ≤ r.size then pure ()
  else
    match o.mode with
    | .readOnly =>
      refuse (.invalidConfig s!"read-only region ends at {stop}, beyond resource size {r.size}")
    | .readWrite =>
      if !r.writable then refuse (.io growthRefusedText)
      else if !p.grows stop then refuse (.io tooLargeText)
      else set { r with bytes := r.bytes.grow stop }

/-- The bytes of the `len` bytes at `start` of the file, mapped in mode `mode` as the
    segment of index `index`. -/
def mapRegion (o : Options) (index start len : Nat) : MapM Block := do
  let r ← get
  if len = 0 then pure (.whole ByteArray.empty)
  else if o.mode = .readWrite ∧ !r.writable then
    refuse (.mapping index (min (o.offset + start) (positionLimit - 1)) refusedText)
  else if !r.mappable then refuse (.mapping index (o.offset + start) unmappableText)
  else pure (r.bytes.extract (o.offset + start) len)

/-- Maps the region the options name as one flat store. -/
def mapFlat (p : Platform) (o : Options) : MapM Flat := do
  check o.validate
  let length ← check (o.resolveLength (← get).size)
  if Flat.limit < length then refuse (.unsupported length Flat.limit)
  fit p o length
  let bytes ← mapRegion o 0 0 length
  pure { bytes, writable := o.mode = .readWrite, order := o.byteOrder }

/-- Maps the segments of the region one after the other. -/
def mapSegments (o : Options) : List (Nat × Nat) → Nat → MapM (List Block)
  | [], _ => pure []
  | (start, len) :: rest, index => do
    let seg ← mapRegion o index start len
    let segs ← mapSegments o rest (index + 1)
    pure (seg :: segs)

/-- Maps the region the options name as a segmented store. -/
def mapSegmented (p : Platform) (o : Options) : MapM Segmented := do
  check o.validate
  let length ← check (o.resolveLength (← get).size)
  if Segmented.limit < length then refuse (.unsupported length Segmented.limit)
  fit p o length
  let _ ← check (Segmented.reserve p o.segmentShift length)
  let segs ← mapSegments o (Segmented.layout o.segmentShift length) 0
  pure {
    segments := segs.toArray, shift := o.segmentShift, size := length, order := o.byteOrder,
    writable := o.mode = .readWrite }

/-- Maps the region the options name, flat or segmented as `Options.strategyFor` decides. -/
def mapAuto (p : Platform) (o : Options) : MapM Store := do
  check o.validate
  let length ← check (o.resolveLength (← get).size)
  match o.strategyFor length with
  | .flat => Store.flat <$> mapFlat p o
  | .segmented => Store.segmented <$> mapSegmented p o

end Mapping

end ByteView
