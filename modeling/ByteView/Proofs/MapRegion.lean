import Mathlib
import ByteView.Proofs.FileMapping
import ByteView.Session.Spec

/-!
# Mapping a region of a file

A mapping of a region takes the same first steps whichever store it builds (`Mapping.prepare`):
it checks the options, resolves the region's length, checks that the store can hold that many
bytes, and fits the region into the file, growing a read-write file with zero bytes up to the
region's end. Only then does it map bytes: one region for a flat store, or, for a segmented one,
the table of its segments and then each segment. Every step but the fit leaves the file alone.

* `Options.outcome`: the rules of the options, in the order the mapping applies them: the first
  fault that applies, or else the region's length;
* `Mapping.mapWith_outcome`: on every platform, mapping a file opened for writing exactly when
  the mapping is read-write, as the options choose, flat or segmented, fails with the first fault
  the rules give and leaves the file as it was; when the rules give a length, the platform lets
  the file grow and grants the segment table, it shows the region of the file, grown with zero
  bytes up to the region's end;
* `Mapping.mapWith_error_file`: a failed mapping leaves the file as it was, or, when it failed
  after it grew the file, the file's bytes followed by zero bytes up to the region's end;
* `Mapping.map_grows_file_then_fails`: on the host, a read-write region of `2 ^ 36` bytes in
  segments of one byte grows a five-byte file before the table of its segments is refused.
-/

namespace ByteView

/-- The most bytes a store of the strategy holds. -/
def Strategy.capacity : Strategy → Nat
  | .flat => Flat.limit
  | .segmented => Segmented.limit

namespace Store

/-- `s` shows the `length` bytes from `offset` on of a file whose byte at `i` is `file i`: it is a
    well-formed open store of `length` bytes, each the file's byte at its place. -/
structure ShowsRegion (s : Store) (file : Nat → UInt8) (offset length : Nat) : Prop where
  wellFormed : s.WellFormed
  isClosed : s.isClosed = false
  size : s.size = length
  byte : ∀ x < length, s.byte x = file (offset + x)

end Store

namespace Block

/-- Growing a block to a size it already has changes nothing. -/
theorem grow_of_le {b : Block} {n : Nat} (h : n ≤ b.size) : b.grow n = b := by
  cases b with
  | whole bytes => exact if_pos h
  | paged size pages =>
    simp only [grow]
    rw [Nat.max_eq_left (show n ≤ size from h)]

/-- An empty range cuts out an empty block. -/
@[simp] theorem extract_zero (b : Block) (pos : Nat) : b.extract pos 0 = .whole ByteArray.empty := by
  cases b with
  | whole bytes => simp [extract, Mapping.slice_zero]
  | paged size pages => simp [extract, slice, wholeLimit]

/-- A flat store cut out of a block shows the region it was cut from. -/
theorem showsRegion_extract {b : Block} (hb : b.WellFormed) {offset length : Nat}
    (hend : offset + length ≤ b.size) (writable : Bool) (order : ByteOrder) :
    (Store.flat { bytes := b.extract offset length, writable, order }).ShowsRegion b.get offset
      length := by
  obtain ⟨hwf, hsize, hget⟩ := extract_spec hb offset length
  refine ⟨hwf, rfl, ?_, fun x hx => ?_⟩
  · show (b.extract offset length).size = length
    rw [hsize]
    omega
  · show (b.extract offset length).get x = _
    rw [hget, if_pos (by omega)]

end Block

namespace Segmented

/-- The store whose segments are cut out of the block `b`, from `offset` on, as the layout of
    `length` bytes in segments of `Nat.pow 2 shift` bytes says. -/
def cut (b : Block) (offset length shift : Nat) (order : ByteOrder) (writable : Bool) :
    Segmented where
  segments := ((layout shift length).map fun p => b.extract (offset + p.1) p.2).toArray
  shift
  size := length
  order
  writable

theorem segment_cut (b : Block) (offset length shift : Nat) (order : ByteOrder) (writable : Bool)
    (i : Nat) :
    (cut b offset length shift order writable).segment i =
      if i < segmentCount shift length then
        b.extract (offset + i * Nat.pow 2 shift) (segmentLength shift length i)
      else .whole ByteArray.empty := by
  by_cases hi : i < segmentCount shift length
  · simp [cut, segment, layout, segmentLength, hi]
  · simp [cut, segment, layout, hi]

/-- A store whose segments are cut out of a block shows the region they were cut from. -/
theorem showsRegion_cut {b : Block} (hb : b.WellFormed) {offset length : Nat}
    (hend : offset + length ≤ b.size) (shift : Nat) (order : ByteOrder) (writable : Bool) :
    (Store.segmented (cut b offset length shift order writable)).ShowsRegion b.get offset
      length := by
  have hpos : 0 < Nat.pow 2 shift := Nat.two_pow_pos shift
  have hcover := le_segmentCount_mul shift length
  -- a segment of the layout lies inside the region, so it is cut whole out of the block
  have hsize : ∀ i, i < segmentCount shift length →
      (b.extract (offset + i * Nat.pow 2 shift) (segmentLength shift length i)).size =
        segmentLength shift length i := by
    intro i _
    rw [(Block.extract_spec hb _ _).2.1]
    simp only [segmentLength]
    omega
  -- past the last segment the layout has no bytes
  have hpast : ∀ i, ¬i < segmentCount shift length → segmentLength shift length i = 0 := by
    intro i hi
    have hmul := Nat.mul_le_mul_right (Nat.pow 2 shift) (Nat.le_of_not_lt hi)
    simp only [segmentLength]
    omega
  refine ⟨⟨fun i => ?_, fun i => ?_⟩, rfl, rfl, fun x hx => ?_⟩
  · show (segment _ i).size = segmentLength shift length i
    rw [segment_cut]
    split
    · next hi => exact hsize i hi
    · next hi => simp [Block.size, hpast i hi]
  · rw [segment_cut]
    split
    · exact (Block.extract_spec hb _ _).1
    · trivial
  · -- byte `x` is byte `x % 2 ^ shift` of segment `x / 2 ^ shift`
    have hx := Nat.div_add_mod' x (Nat.pow 2 shift)
    have hmod : x % Nat.pow 2 shift < Nat.pow 2 shift := Nat.mod_lt _ hpos
    have hseg : x / Nat.pow 2 shift < segmentCount shift length :=
      (Nat.div_lt_iff_lt_mul hpos).2 (by omega)
    show (segment _ (x / Nat.pow 2 shift)).get (x % Nat.pow 2 shift) = _
    rw [segment_cut, if_pos hseg, (Block.extract_spec hb _ _).2.2,
      if_pos (by simp only [segmentLength]; omega)]
    congr 1
    omega

end Segmented

namespace Mapping

namespace Options

/-- The strategy of a mapping of `length` bytes: the one asked for, else the options' choice. -/
def strategyOf (o : Options) (choice : Option Strategy) (length : Nat) : Strategy :=
  choice.getD (o.strategyFor length)

/-- The length of the region in a file of `size` bytes, when it can be resolved: the given one,
    or the rest of the file after the offset. -/
def regionLength (o : Options) (size : Nat) : Nat := o.length.getD (size - o.offset)

/-- What the options make of a region of a file of `size` bytes, when a store for `length` bytes
    holds at most `capacity length`: the first fault that applies, in the order the mapping
    checks them, or else the length of the region. -/
def outcome (o : Options) (capacity : Nat → Nat) (size : Nat) : Except Fault Nat :=
  if maxShift < o.segmentShift then
    .error (.invalidConfig s!"segment shift {o.segmentShift} exceeds maximum {maxShift}")
  else if o.length = none ∧ size < o.offset then
    .error (.invalidConfig s!"offset {o.offset} beyond resource size {size}")
  else
    let length := o.regionLength size
    if capacity length < length then .error (.unsupported length (capacity length))
    else if positionLimit ≤ o.offset + length then
      .error (.invalidConfig s!"region of {length} bytes at offset {o.offset} overflows")
    else if o.mode = .readOnly ∧ size < o.offset + length then
      .error (.invalidConfig
        s!"read-only region ends at {o.offset + length}, beyond resource size {size}")
    else .ok length

end Options

variable {p : Platform} {o : Options}

/-! ## The steps before any byte is mapped -/

/-- The steps of a mapping before it maps a byte, for a store of at most `cap` bytes: it checks
    the options, resolves the length, checks it against `cap` and fits the region into the
    file. -/
def prepare (p : Platform) (o : Options) (cap : Nat) : MapM Nat := do
  check o.validate
  let length ← check (o.resolveLength (← get).size)
  if cap < length then refuse (.unsupported length cap)
  fit p o length
  pure length

theorem mapFlat_eq_prepare : mapFlat p o = (do
    let length ← prepare p o Flat.limit
    let bytes ← mapRegion o 0 0 length
    pure { bytes, writable := o.mode = .readWrite, order := o.byteOrder }) := by
  simp only [mapFlat, prepare, bind_assoc]
  refine bind_congr fun _ => bind_congr fun _ => bind_congr fun length => ?_
  split <;> simp only [bind_assoc, pure_bind]

theorem mapSegmented_eq_prepare : mapSegmented p o = (do
    let length ← prepare p o Segmented.limit
    let _ ← check (Segmented.reserve p o.segmentShift length)
    let segs ← mapSegments o (Segmented.layout o.segmentShift length) 0
    pure {
      segments := segs.toArray, shift := o.segmentShift, size := length, order := o.byteOrder,
      writable := o.mode = .readWrite }) := by
  simp only [mapSegmented, prepare, bind_assoc]
  refine bind_congr fun _ => bind_congr fun _ => bind_congr fun length => ?_
  split <;> simp only [bind_assoc, pure_bind]

@[simp] theorem run_check_ok {α : Type} (a : α) (r : Resource) : (check (.ok a)).run r = .ok a r :=
  rfl

@[simp] theorem run_check_error {α : Type} (e : Fault) (r : Resource) :
    (check (.error e) : MapM α).run r = .error e r :=
  rfl

@[simp] theorem run_refuse {α : Type} (e : Fault) (r : Resource) :
    (refuse e : MapM α).run r = .error e r :=
  rfl

theorem validate_of_lt (h : maxShift < o.segmentShift) :
    o.validate = .error (.invalidConfig s!"segment shift {o.segmentShift} exceeds maximum {maxShift}") :=
  if_pos h

theorem resolveLength_of_beyond {size : Nat} (h : o.length = none ∧ size < o.offset) :
    o.resolveLength size = .error (.invalidConfig s!"offset {o.offset} beyond resource size {size}") := by
  simp [Options.resolveLength, h.1, h.2]

theorem resolveLength_of_within {size : Nat} (h : ¬(o.length = none ∧ size < o.offset)) :
    o.resolveLength size = .ok (o.regionLength size) := by
  unfold Options.resolveLength Options.regionLength
  cases hl : o.length with
  | some length => rfl
  | none =>
    rw [if_pos (by simp [hl] at h; omega)]
    rfl

/-- Fitting a region fails and keeps the file, or grows the file to the region's end; it grows a
    file that ends before the region only for a read-write mapping of a file opened for
    writing. -/
theorem fit_run_cases (o : Options) (length : Nat) (r : Resource) :
    (∃ e, (fit p o length).run r = .error e r) ∨
      ((fit p o length).run r = .ok () { r with bytes := r.bytes.grow (o.offset + length) } ∧
        (r.size < o.offset + length → o.mode = .readWrite ∧ r.writable = true)) := by
  simp only [fit, EStateM.run_bind, EStateM.run_get]
  split
  · exact .inl ⟨_, rfl⟩
  · next hover =>
    split
    · next hend =>
      refine .inr ⟨?_, fun h => absurd h (by omega)⟩
      rw [Block.grow_of_le hend]
      rfl
    · next hend =>
      cases hmode : o.mode with
      | readOnly => exact .inl ⟨_, rfl⟩
      | readWrite =>
        cases hw : r.writable with
        | false => exact .inl ⟨_, rfl⟩
        | true =>
          cases hgrows : p.grows (o.offset + length) with
          | false => exact .inl ⟨.io tooLargeText, by simp⟩
          | true => exact .inr ⟨by simp, fun _ => ⟨rfl, rfl⟩⟩

/-- A region whose end overflows the 64-bit positions is refused, and the file kept. -/
theorem fit_run_overflow {length : Nat} (r : Resource) (h : positionLimit ≤ o.offset + length) :
    (fit p o length).run r =
      .error (.invalidConfig s!"region of {length} bytes at offset {o.offset} overflows") r := by
  simp only [fit, EStateM.run_bind, EStateM.run_get]
  rw [if_pos h]
  rfl

/-- A read-only region that ends past the file is refused, and the file kept. -/
theorem fit_run_readOnly {length : Nat} (r : Resource) (hlim : o.offset + length < positionLimit)
    (hmode : o.mode = .readOnly) (hend : r.size < o.offset + length) :
    (fit p o length).run r = .error (.invalidConfig
      s!"read-only region ends at {o.offset + length}, beyond resource size {r.size}") r := by
  simp only [fit, EStateM.run_bind, EStateM.run_get]
  rw [if_neg (by omega), if_neg (by omega), hmode]
  rfl

/-- A region that ends inside the file, or past it for a read-write mapping of a writable file
    that the platform lets grow that far, is fitted by growing the file to the region's end. -/
theorem fit_run_grows {length : Nat} (r : Resource) (hlim : o.offset + length < positionLimit)
    (hgrow : r.size < o.offset + length →
      o.mode = .readWrite ∧ r.writable = true ∧ p.grows (o.offset + length) = true) :
    (fit p o length).run r = .ok () { r with bytes := r.bytes.grow (o.offset + length) } := by
  simp only [fit, EStateM.run_bind, EStateM.run_get]
  rw [if_neg (by omega)]
  by_cases hend : o.offset + length ≤ r.size
  · rw [if_pos hend, Block.grow_of_le hend]
    rfl
  · obtain ⟨hmode, hw, hlimit⟩ := hgrow (by omega)
    rw [if_neg hend, hmode]
    simp [hw, hlimit]

/-- Once the options, the length and the capacity pass, what remains of the steps before mapping
    is the fit. -/
theorem prepare_run_of_checks {cap length : Nat} (r : Resource) (hv : o.validate = .ok ())
    (hl : o.resolveLength r.size = .ok length) (hcap : ¬cap < length) :
    (prepare p o cap).run r = match (fit p o length).run r with
      | .ok _ s => .ok length s
      | .error e s => .error e s := by
  simp only [prepare, EStateM.run_bind, EStateM.run_get, hv, hl, run_check_ok, if_neg hcap]
  cases (fit p o length).run r <;> rfl

/-- The rules give a length exactly when every check passes. -/
theorem outcome_eq_ok {c : Nat → Nat} {size length : Nat} :
    o.outcome c size = .ok length ↔
      o.segmentShift ≤ maxShift ∧ ¬(o.length = none ∧ size < o.offset) ∧
        length = o.regionLength size ∧ length ≤ c length ∧ o.offset + length < positionLimit ∧
        (o.mode = .readOnly → o.offset + length ≤ size) := by
  constructor
  · intro h
    unfold Options.outcome at h
    dsimp only at h
    -- every fault is refused by `split_ifs`; what is left passed every check
    split_ifs at h with hshift hbeyond hcap hover hro
    cases h
    exact ⟨Nat.not_lt.1 hshift, hbeyond, rfl, Nat.not_lt.1 hcap, Nat.not_le.1 hover,
        fun hmode => Nat.not_lt.1 fun hend => hro ⟨hmode, hend⟩⟩
  · rintro ⟨hshift, hwithin, rfl, hcap, hlim, hro⟩
    unfold Options.outcome
    dsimp only
    rw [if_neg (Nat.not_lt.2 hshift), if_neg hwithin, if_neg (Nat.not_lt.2 hcap),
      if_neg (Nat.not_le.2 hlim), if_neg fun h => absurd (hro h.1) (Nat.not_le.2 h.2)]

/-- When the rules give a length, what remains of the steps before mapping is the fit. -/
theorem prepare_run_of_outcome {cap length : Nat} (r : Resource)
    (h : o.outcome (fun _ => cap) r.size = .ok length) :
    (prepare p o cap).run r = match (fit p o length).run r with
      | .ok _ s => .ok length s
      | .error e s => .error e s := by
  obtain ⟨hshift, hwithin, rfl, hcap, -, -⟩ := outcome_eq_ok.1 h
  exact prepare_run_of_checks r (validate_eq hshift) (resolveLength_of_within hwithin)
    (Nat.not_lt.2 hcap)

/-- When the rules of the options give a fault, the steps before mapping fail with it and keep
    the file. -/
theorem prepare_run_error {cap : Nat} {e : Fault} (r : Resource)
    (h : o.outcome (fun _ => cap) r.size = .error e) : (prepare p o cap).run r = .error e r := by
  unfold Options.outcome at h
  dsimp only at h
  -- the checks in the order the rules give them, each either the fault or passed on
  by_cases hshift : maxShift < o.segmentShift
  · rw [if_pos hshift] at h
    cases h
    rw [prepare, EStateM.run_bind, validate_of_lt hshift, run_check_error]
  have hv := validate_eq (Nat.not_lt.1 hshift)
  rw [if_neg hshift] at h
  by_cases hbeyond : o.length = none ∧ r.size < o.offset
  · rw [if_pos hbeyond] at h
    cases h
    simp only [prepare, EStateM.run_bind, EStateM.run_get, hv, run_check_ok,
      resolveLength_of_beyond hbeyond, run_check_error]
  have hl := resolveLength_of_within hbeyond
  rw [if_neg hbeyond] at h
  by_cases hcap : cap < o.regionLength r.size
  · rw [if_pos hcap] at h
    cases h
    simp only [prepare, EStateM.run_bind, EStateM.run_get, hv, hl, run_check_ok, if_pos hcap,
      run_refuse]
  rw [if_neg hcap] at h
  rw [prepare_run_of_checks r hv hl hcap]
  by_cases hover : positionLimit ≤ o.offset + o.regionLength r.size
  · rw [if_pos hover] at h
    cases h
    rw [fit_run_overflow r hover]
  rw [if_neg hover] at h
  by_cases hro : o.mode = .readOnly ∧ r.size < o.offset + o.regionLength r.size
  · rw [if_pos hro] at h
    cases h
    rw [fit_run_readOnly r (Nat.lt_of_not_le hover) hro.1 hro.2]
  rw [if_neg hro] at h
  cases h

/-- The steps before mapping fail and keep the file, or resolve the region's length and grow the
    file to the region's end, past the file's end only for a read-write mapping of a writable
    file. -/
theorem prepare_run_cases (o : Options) (cap : Nat) (r : Resource) :
    (∃ e, (prepare p o cap).run r = .error e r) ∨
      ((prepare p o cap).run r = .ok (o.regionLength r.size)
          { r with bytes := r.bytes.grow (o.offset + o.regionLength r.size) } ∧
        (r.size < o.offset + o.regionLength r.size → o.mode = .readWrite ∧ r.writable = true)) := by
  cases h : o.outcome (fun _ => cap) r.size with
  | error e => exact .inl ⟨e, prepare_run_error r h⟩
  | ok length =>
    obtain ⟨-, -, rfl, -⟩ := outcome_eq_ok.1 h
    rw [prepare_run_of_outcome r h]
    rcases fit_run_cases o (o.regionLength r.size) r with ⟨e, he⟩ | ⟨hok, hgrow⟩
    · exact .inl ⟨e, by rw [he]⟩
    · exact .inr ⟨by rw [hok], hgrow⟩

/-- When the rules give a length, and the platform lets the file grow to the region's end, the
    steps before mapping resolve that length and grow the file to the region's end. -/
theorem prepare_run_ok {cap length : Nat} (r : Resource)
    (hw : o.mode = .readWrite → r.writable = true) (h : o.outcome (fun _ => cap) r.size = .ok length)
    (hlimit : r.size < o.offset + length → p.grows (o.offset + length) = true) :
    (prepare p o cap).run r = .ok length { r with bytes := r.bytes.grow (o.offset + length) } := by
  obtain ⟨-, -, -, -, hlim, hro⟩ := outcome_eq_ok.1 h
  rw [prepare_run_of_outcome r h, fit_run_grows r hlim fun hend => ?_]
  -- a region past the end of the file is read-write, so the file was opened for writing
  cases hmode : o.mode with
  | readOnly => exact absurd (hro hmode) (by omega)
  | readWrite => exact ⟨rfl, hw hmode, hlimit hend⟩

/-! ## Mapping the bytes -/

/-- Mapping the bytes of a region keeps the file; it fails only with a refusal of the storage. -/
theorem mapRegion_run_cases (o : Options) (index start len : Nat) (r : Resource) :
    (∃ e, (mapRegion o index start len).run r = .error e r ∧ e.isStorage = true) ∨
      ∃ b, (mapRegion o index start len).run r = .ok b r := by
  simp only [mapRegion, EStateM.run_bind, EStateM.run_get]
  split
  · exact .inr ⟨_, rfl⟩
  · split
    · exact .inl ⟨_, rfl, rfl⟩
    · split
      · exact .inl ⟨_, rfl, rfl⟩
      · exact .inr ⟨_, rfl⟩

/-- Over bytes that can be mapped, of a file opened for writing if the mapping is read-write,
    mapping a region cuts its bytes out of the file. -/
theorem mapRegion_run_maps (index start len : Nat) {r : Resource}
    (hw : o.mode = .readWrite → r.writable = true) (hm : r.mappable = true) :
    (mapRegion o index start len).run r = .ok (r.bytes.extract (o.offset + start) len) r := by
  simp only [mapRegion, EStateM.run_bind, EStateM.run_get]
  by_cases hlen : len = 0
  · rw [if_pos hlen, hlen, Block.extract_zero]
    rfl
  · have hrefused : ¬(o.mode = .readWrite ∧ (!r.writable) = true) := fun hrefused => by
      simp [hw hrefused.1] at hrefused
    rw [if_neg hlen, if_neg hrefused, if_neg (by simp [hm])]
    rfl

/-- Mapping segments one after the other keeps the file; it fails only with a refusal of the
    storage. -/
theorem mapSegments_run_cases (o : Options) (parts : List (Nat × Nat)) (index : Nat)
    (r : Resource) :
    (∃ e, (mapSegments o parts index).run r = .error e r ∧ e.isStorage = true) ∨
      ∃ segs, (mapSegments o parts index).run r = .ok segs r := by
  induction parts generalizing index with
  | nil => exact .inr ⟨[], rfl⟩
  | cons p rest ih =>
    obtain ⟨start, len⟩ := p
    simp only [mapSegments, EStateM.run_bind]
    rcases mapRegion_run_cases o index start len r with ⟨e, he, hs⟩ | ⟨b, hb⟩
    · exact .inl ⟨e, by rw [he], hs⟩
    · rcases ih (index + 1) with ⟨e, he, hs⟩ | ⟨segs, hsegs⟩
      · exact .inl ⟨e, by simp only [hb, he], hs⟩
      · exact .inr ⟨b :: segs, by simp only [hb, hsegs, EStateM.run_pure]⟩

/-- Over bytes that can be mapped, mapping segments cuts each of them out of the file. -/
theorem mapSegments_run_maps (parts : List (Nat × Nat)) (index : Nat) {r : Resource}
    (hw : o.mode = .readWrite → r.writable = true) (hm : r.mappable = true) :
    (mapSegments o parts index).run r =
      .ok (parts.map fun p => r.bytes.extract (o.offset + p.1) p.2) r := by
  induction parts generalizing index with
  | nil => rfl
  | cons p rest ih =>
    obtain ⟨start, len⟩ := p
    simp only [mapSegments, EStateM.run_bind, mapRegion_run_maps index start len hw hm, ih,
      EStateM.run_pure, List.map_cons]

/-- A segment table is refused only as too large for a segmented store. -/
theorem reserve_error {shift length : Nat} {e : Fault} (h : Segmented.reserve p shift length = .error e) :
    e = .unsupported length Segmented.limit := by
  unfold Segmented.reserve at h
  dsimp only at h
  split at h
  · cases h
    rfl
  · split at h
    · cases h
      rfl
    · cases h

/-! ## The three ways to map -/

/-- What a mapping of the strategy `st` does once the region's length is known and the file fits
    it: it maps the bytes as one region, or reserves the segment table and maps the segments. -/
def mapBytes (p : Platform) (o : Options) : Strategy → Nat → MapM Store
  | .flat, length => do
    let bytes ← mapRegion o 0 0 length
    pure (.flat { bytes, writable := o.mode = .readWrite, order := o.byteOrder })
  | .segmented, length => do
    let _ ← check (Segmented.reserve p o.segmentShift length)
    let segs ← mapSegments o (Segmented.layout o.segmentShift length) 0
    pure (.segmented {
      segments := segs.toArray, shift := o.segmentShift, size := length, order := o.byteOrder,
      writable := o.mode = .readWrite })

/-- A mapping with a given strategy takes the steps before mapping, for a store of that
    strategy, and then maps the bytes. -/
theorem mapWith_some_eq (st : Strategy) :
    Session.mapWith p o (some st) = prepare p o st.capacity >>= mapBytes p o st := by
  cases st with
  | flat =>
    simp only [Session.mapWith, mapFlat_eq_prepare, map_bind, map_pure, Strategy.capacity]
    rfl
  | segmented =>
    simp only [Session.mapWith, mapSegmented_eq_prepare, map_bind, map_pure, Strategy.capacity]
    rfl

/-- Mapping as the options choose is mapping with the strategy they choose for the region's
    length: where the options or the length are refused, both fail alike. -/
theorem mapWith_none_run (r : Resource) :
    (Session.mapWith p o none).run r =
      (Session.mapWith p o (some (o.strategyFor (o.regionLength r.size)))).run r := by
  rw [mapWith_some_eq]
  by_cases hshift : maxShift < o.segmentShift
  · simp [Session.mapWith, mapAuto, prepare, validate_of_lt hshift]
  have hv := validate_eq (Nat.not_lt.1 hshift)
  by_cases hbeyond : o.length = none ∧ r.size < o.offset
  · simp [Session.mapWith, mapAuto, prepare, hv, resolveLength_of_beyond hbeyond]
  have hl := resolveLength_of_within hbeyond
  simp only [Session.mapWith, mapAuto, EStateM.run_bind, EStateM.run_get, hv, hl, run_check_ok]
  rw [← EStateM.run_bind, ← mapWith_some_eq]
  cases o.strategyFor (o.regionLength r.size) <;> rfl

/-- Two capacities that agree at the region's length give the same outcome. -/
theorem outcome_congr {c c' : Nat → Nat} {size : Nat}
    (h : c (o.regionLength size) = c' (o.regionLength size)) : o.outcome c size = o.outcome c' size := by
  unfold Options.outcome
  dsimp only
  rw [h]

/-- Mapping the bytes keeps the file; it fails only with a refusal of the storage or of the
    segment table. -/
theorem mapBytes_run_error {st : Strategy} {length : Nat} {r r' : Resource} {e : Fault}
    (h : (mapBytes p o st length).run r = .error e r') :
    r' = r ∧ (e.isStorage = true ∨ e = .unsupported length Segmented.limit) := by
  cases st with
  | flat =>
    simp only [mapBytes, EStateM.run_bind] at h
    rcases mapRegion_run_cases o 0 0 length r with ⟨e', he', hs⟩ | ⟨b, hb⟩
    · rw [he'] at h
      cases h
      exact ⟨rfl, .inl hs⟩
    · simp [hb] at h
  | segmented =>
    simp only [mapBytes, EStateM.run_bind] at h
    cases hreserve : Segmented.reserve p o.segmentShift length with
    | error e' =>
      rw [hreserve, run_check_error] at h
      cases h
      exact ⟨rfl, .inr (reserve_error hreserve)⟩
    | ok count =>
      rw [hreserve, run_check_ok] at h
      rcases mapSegments_run_cases o (Segmented.layout o.segmentShift length) 0 r with
        ⟨e', he', hs⟩ | ⟨segs, hsegs⟩
      · simp only [he'] at h
        cases h
        exact ⟨rfl, .inl hs⟩
      · simp [hsegs] at h

/-- When the rules give a fault, a mapping with a given strategy fails with it and keeps the
    file. -/
theorem mapWith_some_run_error (st : Strategy) {r : Resource} {e : Fault}
    (h : o.outcome (fun _ => st.capacity) r.size = .error e) :
    (Session.mapWith p o (some st)).run r = .error e r := by
  rw [mapWith_some_eq, EStateM.run_bind, prepare_run_error r h]

/-- When the rules give a fault, every way to map fails with it and keeps the file. -/
theorem mapWith_run_error {choice : Option Strategy} {r : Resource} {e : Fault}
    (h : o.outcome (fun length => (o.strategyOf choice length).capacity) r.size = .error e) :
    (Session.mapWith p o choice).run r = .error e r := by
  cases choice with
  | some st => exact mapWith_some_run_error st h
  | none =>
    rw [mapWith_none_run]
    exact mapWith_some_run_error _ ((outcome_congr rfl).trans h)

/-- When the rules give a length, the platform lets the file grow to the region's end and grants a
    segmented store's table, a mapping with a given strategy over bytes that can be mapped gives a
    store of that strategy showing the region, over the grown file. -/
theorem mapWith_some_run_ok (st : Strategy) {r : Resource} (hwf : r.bytes.WellFormed)
    (hw : o.mode = .readWrite → r.writable = true) (hm : r.mappable = true) {length : Nat}
    (h : o.outcome (fun _ => st.capacity) r.size = .ok length)
    (hlimit : r.size < o.offset + length → p.grows (o.offset + length) = true)
    (hreserve : st = .segmented → ∃ count, Segmented.reserve p o.segmentShift length = .ok count) :
    ∃ s, (Session.mapWith p o (some st)).run r =
        .ok s { r with bytes := r.bytes.grow (o.offset + length) } ∧
      s.strategy = st ∧ s.ShowsRegion (r.bytes.grow (o.offset + length)).get o.offset length ∧
      s.order = o.byteOrder ∧ s.isWritable = decide (o.mode = .readWrite) := by
  rw [mapWith_some_eq, EStateM.run_bind, prepare_run_ok r hw h hlimit]
  -- the grown file is what the bytes are mapped from
  set grown : Resource := { r with bytes := r.bytes.grow (o.offset + length) }
  have hwf' : grown.bytes.WellFormed := hwf.grow (o.offset + length)
  have hend : o.offset + length ≤ grown.bytes.size := by simp [grown]
  cases st with
  | flat =>
    refine ⟨.flat
        { bytes := grown.bytes.extract o.offset length, writable := o.mode = .readWrite,
          order := o.byteOrder }, ?_, rfl,
      Block.showsRegion_extract hwf' hend _ _, rfl, by simp [Store.isWritable]⟩
    simp only [mapBytes, EStateM.run_bind, mapRegion_run_maps (r := grown) 0 0 length hw hm,
      Nat.add_zero, EStateM.run_pure]
  | segmented =>
    obtain ⟨count, hcount⟩ := hreserve rfl
    refine ⟨.segmented (Segmented.cut grown.bytes o.offset length o.segmentShift o.byteOrder
        (o.mode = .readWrite)), ?_, rfl, Segmented.showsRegion_cut hwf' hend _ _ _, rfl,
      by simp [Store.isWritable, Segmented.cut]⟩
    simp only [mapBytes, EStateM.run_bind, hcount, run_check_ok,
      mapSegments_run_maps (r := grown) _ 0 hw hm, EStateM.run_pure]
    rfl

/-- When the rules give a length, the platform lets the file grow to the region's end and grants a
    segmented store's table, every way to map, over bytes that can be mapped, gives a store of the
    strategy it takes, showing the region over the grown file. -/
theorem mapWith_run_ok {choice : Option Strategy} {r : Resource} (hwf : r.bytes.WellFormed)
    (hw : o.mode = .readWrite → r.writable = true) (hm : r.mappable = true) {length : Nat}
    (h : o.outcome (fun length => (o.strategyOf choice length).capacity) r.size = .ok length)
    (hlimit : r.size < o.offset + length → p.grows (o.offset + length) = true)
    (hreserve : o.strategyOf choice length = .segmented →
      ∃ count, Segmented.reserve p o.segmentShift length = .ok count) :
    ∃ s, (Session.mapWith p o choice).run r =
        .ok s { r with bytes := r.bytes.grow (o.offset + length) } ∧
      s.strategy = o.strategyOf choice length ∧
      s.ShowsRegion (r.bytes.grow (o.offset + length)).get o.offset length ∧
      s.order = o.byteOrder ∧ s.isWritable = decide (o.mode = .readWrite) := by
  cases choice with
  | some st => exact mapWith_some_run_ok st hwf hw hm h hlimit hreserve
  | none =>
    -- the options choose their strategy for the length the rules resolve
    obtain ⟨-, -, rfl, -⟩ := outcome_eq_ok.1 h
    rw [mapWith_none_run]
    exact mapWith_some_run_ok _ hwf hw hm ((outcome_congr rfl).trans h) hlimit hreserve

/-- Mapping a region of a file opened for writing exactly when the mapping is read-write, on any
    platform `p`, when the storage maps every region: the rules of the options give the first
    fault in their order, and the mapping fails with it and keeps the file; otherwise, when `p`
    lets the file grow to the region's end and grants a segmented store's table, the mapping grows
    the file with zeros to the region's end and gives a store of the strategy it takes whose bytes
    are the region's bytes of the file. -/
theorem mapWith_outcome (p : Platform) (f : ByteArray) (o : Options) (choice : Option Strategy) :
    (∀ e, o.outcome (fun length => (o.strategyOf choice length).capacity) f.size = .error e →
        (Session.mapWith p o choice).run ⟨.ofBytes f, decide (o.mode = .readWrite), true⟩ =
          .error e ⟨.ofBytes f, decide (o.mode = .readWrite), true⟩) ∧
      ∀ length, o.outcome (fun length => (o.strategyOf choice length).capacity) f.size = .ok length →
        (f.size < o.offset + length → p.grows (o.offset + length) = true) →
        (o.strategyOf choice length = .segmented →
          ∃ count, Segmented.reserve p o.segmentShift length = .ok count) →
        ∃ s, (Session.mapWith p o choice).run ⟨.ofBytes f, decide (o.mode = .readWrite), true⟩ =
            .ok s ⟨(Block.ofBytes f).grow (o.offset + length), decide (o.mode = .readWrite), true⟩ ∧
          s.strategy = o.strategyOf choice length ∧
          s.ShowsRegion (fun i => f[i]?.getD 0) o.offset length ∧
          s.order = o.byteOrder ∧ s.isWritable = decide (o.mode = .readWrite) := by
  refine ⟨fun e h => mapWith_run_error h, fun length h hlimit hreserve => ?_⟩
  obtain ⟨s, hrun, hst, hshows, horder, hwritable⟩ :=
    mapWith_run_ok (r := ⟨.ofBytes f, decide (o.mode = .readWrite), true⟩) trivial
      (fun hmode => by simp [hmode]) rfl h hlimit hreserve
  -- the grown file reads as the file followed by zeros
  have hget : ((Block.ofBytes f).grow (o.offset + length)).get = fun i => f[i]?.getD 0 :=
    funext fun i => Block.get_grow (b := .ofBytes f) trivial _ i
  exact ⟨s, hrun, hst, hget ▸ hshows, horder, hwritable⟩

/-- A read-write mapping of two bytes past the end of a three-byte file, in segments of two
    bytes: it grows the file to six bytes and shows its last byte and two zeros. -/
theorem mapWith_outcome_past_end :
    let o : Options := { mode := .readWrite, offset := 2, length := some 4, segmentShift := 1 }
    o.outcome (fun length => (o.strategyOf none length).capacity) 3 = .ok 4 ∧
      ∃ s, (Session.mapWith Platform.host o none).run ⟨.ofBytes ⟨#[1, 2, 3]⟩, true, true⟩ =
          .ok s ⟨(Block.ofBytes ⟨#[1, 2, 3]⟩).grow 6, true, true⟩ ∧
        s.strategy = .segmented ∧ s.ShowsRegion (fun i => (⟨#[1, 2, 3]⟩ : ByteArray)[i]?.getD 0) 2 4 := by
  intro o
  have hout : o.outcome (fun length => (o.strategyOf none length).capacity) 3 = .ok 4 := by decide
  obtain ⟨s, hrun, hst, hshows, -, -⟩ :=
    (mapWith_outcome Platform.host ⟨#[1, 2, 3]⟩ o none).2 4 hout
    (fun _ => by decide) (fun _ => ⟨2, by decide⟩)
  exact ⟨hout, s, hrun, hst.trans (by decide), hshows⟩

/-- On every platform, a failed mapping keeps every byte of the file. It keeps the file exactly,
    unless it is a read-write mapping of a file opened for writing, whose region ends past the
    file's end, that fails only after the file grew: the platform does not grant its segment table
    or the storage refuses a segment. The file is then its bytes followed by zeros up to the
    region's end. -/
theorem mapWith_error_file (p : Platform) (f : ByteArray) (writable mappable : Bool) (o : Options)
    (choice : Option Strategy) {e : Fault} {r' : Resource}
    (h : (Session.mapWith p o choice).run ⟨.ofBytes f, writable, mappable⟩ = .error e r') :
    r' = ⟨.ofBytes f, writable, mappable⟩ ∨
      (o.mode = .readWrite ∧ writable = true ∧ f.size < o.offset + o.regionLength f.size ∧
        r'.writable = writable ∧ r'.mappable = mappable ∧
        r'.size = o.offset + o.regionLength f.size ∧ (∀ i, r'.bytes.get i = f[i]?.getD 0) ∧
        (e.isStorage = true ∨ e = .unsupported (o.regionLength f.size) Segmented.limit)) := by
  set r : Resource := ⟨.ofBytes f, writable, mappable⟩
  -- each way to map is a mapping with the strategy it takes for the region's length
  obtain ⟨st, hst⟩ : ∃ st, (Session.mapWith p o choice).run r = (Session.mapWith p o (some st)).run r := by
    cases choice with
    | some st => exact ⟨st, rfl⟩
    | none => exact ⟨_, mapWith_none_run r⟩
  rw [hst, mapWith_some_eq, EStateM.run_bind] at h
  rcases prepare_run_cases o st.capacity r with ⟨e', he'⟩ | ⟨hok, hgrow⟩
  · rw [he'] at h
    exact .inl (EStateM.Result.error.inj h).2.symm
  · rw [hok] at h
    obtain ⟨hr', hfault⟩ := mapBytes_run_error h
    subst hr'
    by_cases hend : r.size < o.offset + o.regionLength r.size
    · obtain ⟨hmode, hwritable⟩ := hgrow hend
      have hsize : (r.bytes.grow (o.offset + o.regionLength r.size)).size =
          o.offset + o.regionLength r.size := by
        rw [Block.size_grow]
        exact Nat.max_eq_right (Nat.le_of_lt hend)
      exact .inr ⟨hmode, hwritable, hend, rfl, rfl, hsize,
        fun i => Block.get_grow (b := .ofBytes f) trivial _ i, hfault⟩
    · -- the region ends within the file, which the steps before mapping leave as it was
      left
      simp only [Block.grow_of_le (Nat.le_of_not_lt hend)]

/-- A read-write mapping past the end of a three-byte file that the storage cannot map, on the
    host: the file grows to the region's end, keeping its bytes, before the storage refuses the
    region. -/
theorem mapWith_error_file_unmappable :
    let o : Options := { mode := .readWrite, offset := 2, length := some 4 }
    let grown : Resource := ⟨(Block.ofBytes ⟨#[1, 2, 3]⟩).grow 6, true, false⟩
    (Session.mapWith Platform.host o (some .flat)).run ⟨.ofBytes ⟨#[1, 2, 3]⟩, true, false⟩ =
        .error (.mapping 0 2 unmappableText) grown ∧
      grown.size = 6 ∧ ∀ i, grown.bytes.get i = (⟨#[1, 2, 3]⟩ : ByteArray)[i]?.getD 0 := by
  intro o grown
  have hrun : (Session.mapWith Platform.host o (some .flat)).run
      ⟨.ofBytes ⟨#[1, 2, 3]⟩, true, false⟩ = .error (.mapping 0 2 unmappableText) grown := by
    rfl
  rcases mapWith_error_file Platform.host ⟨#[1, 2, 3]⟩ true false o (some .flat) hrun with
    hsame | ⟨-, -, -, -, -, hsize, hbytes, -⟩
  · exact absurd (congrArg Resource.size hsame) (by decide)
  · exact ⟨hrun, hsize, hbytes⟩

/-- A read-write mapping of `2 ^ 36` bytes in one-byte segments over a five-byte file, on the
    host: the file grows to `2 ^ 36` bytes before the host's allocator refuses the segment table,
    and the mapping fails. -/
theorem map_grows_file_then_fails :
    ∃ r', (Session.mapWith Platform.host
        { mode := .readWrite, length := some 68719476736, segmentShift := 0 }
        (some .segmented)).run ⟨.ofBytes ⟨#[1, 2, 3, 4, 5]⟩, true, true⟩ =
      .error (.unsupported 68719476736 Segmented.limit) r' ∧ r'.size = 68719476736 := by
  let o : Options := { mode := .readWrite, length := some 68719476736, segmentShift := 0 }
  let r : Resource := ⟨.ofBytes ⟨#[1, 2, 3, 4, 5]⟩, true, true⟩
  have hout : o.outcome (fun _ => Strategy.segmented.capacity) r.size = .ok 68719476736 := by
    decide
  have hreserve : Segmented.reserve Platform.host 0 68719476736 =
      .error (.unsupported 68719476736 Segmented.limit) := by
    decide
  refine ⟨{ r with bytes := r.bytes.grow (o.offset + 68719476736) }, ?_, ?_⟩
  · rw [mapWith_some_eq, EStateM.run_bind, prepare_run_ok r (fun _ => rfl) hout (fun _ => by decide)]
    simp only [mapBytes, EStateM.run_bind, hreserve, run_check_error]
  · simp only [Resource.size, Block.size_grow]
    decide

end Mapping

end ByteView
