import Mathlib
import ByteView.Proofs.Segmented
import ByteView.Proofs.View
import ByteView.Tool.Command

/-!
# Mapping a file shows its bytes

A file that opens is mapped in fixed steps, and each step either refuses or leaves the file as it
was; a region inside the file needs no growth. This module follows the steps for the whole of a
file with bytes: whether the mapping succeeds depends only on its options and the file's size
(`Mapping.Admits`), and when it does, the store holds the file's bytes (`Store.Shows`), flat or in
segments as the options choose.

* `Mapping.mapAuto_run`, `Mapping.mapAuto_ne_ok`: a mapping its options admit succeeds and shows
  the file's bytes; any other fails;
* `Tool.openFile_file`, `Tool.openFile_file_ok`: the same for opening a file by its path, with the
  file left as it was;
* `Mapping.absorb_toByteArray`: writing a store of the file's size back over the file makes the
  file the store's bytes.
-/

namespace ByteView

namespace Store

/-- `s` holds `bytes`: it is a well-formed open store of their size with each of them at its
    position. -/
structure Shows (s : Store) (bytes : ByteArray) : Prop where
  wellFormed : s.WellFormed
  isClosed : s.isClosed = false
  size : s.size = bytes.size
  byte : ∀ x, s.byte x = bytes[x]?.getD 0

/-- A well-formed store has no bytes past its end. -/
theorem byte_of_size_le {s : Store} (hs : s.WellFormed) {x : Nat} (hx : s.size ≤ x) : s.byte x = 0 := by
  cases s with
  | flat f => exact Block.get_of_size_le hx
  | segmented g =>
    -- the segment of `x` ends before its local position
    have hpos : 0 < Nat.pow 2 g.shift := Nat.two_pow_pos g.shift
    have hx' := Nat.div_add_mod' x (Nat.pow 2 g.shift)
    have hlen := hs.length (x / Nat.pow 2 g.shift)
    show (g.segment (g.segmentOf x)).get (g.localPos x) = 0
    apply Block.get_of_size_le
    simp only [Segmented.localPos, Segmented.segmentOf]
    rw [hlen, Segmented.segmentLength]
    simp only [Store.size] at hx
    omega

theorem Shows.bytesAt_eq {s : Store} {bytes : ByteArray} (h : s.Shows bytes) (pos len : Nat) :
    s.bytesAt pos len = (List.range' pos len).map fun x => bytes[x]?.getD 0 := by
  rw [Store.bytesAt, show s.byte = fun x => bytes[x]?.getD 0 from funext h.byte]

end Store

namespace Mapping

/-- Whether a region of `length` bytes can be mapped with the options `o` on the platform `p`:
    the segment shift is valid, and the platform grants the table of a segmented store. -/
def Admits (p : Platform) (o : Options) (length : Nat) : Prop :=
  o.segmentShift ≤ maxShift ∧
    (o.strategyFor length = .segmented → ∃ count, Segmented.reserve p o.segmentShift length = .ok count)

theorem slice_zero (b : ByteArray) (pos : Nat) : Bytes.slice b pos 0 = ByteArray.empty := by
  apply ByteArray.ext
  simp [Bytes.slice]

variable {p : Platform} {o : Options} {bytes : ByteArray} {writable : Bool}

/-- A region of a file with bytes, opened for writing if the mapping is read-write, maps as a copy
    of its bytes. -/
theorem mapRegion_run (bytes : ByteArray) (hw : o.mode = .readWrite → writable = true)
    (index start len : Nat) :
    (mapRegion o index start len).run ⟨.ofBytes bytes, writable, true⟩ =
      .ok (.whole (Bytes.slice bytes (o.offset + start) len)) ⟨.ofBytes bytes, writable, true⟩ := by
  simp only [mapRegion, EStateM.run, bind, EStateM.bind, get, getThe, MonadStateOf.get, EStateM.get]
  by_cases hlen : len = 0
  · rw [if_pos hlen, hlen, slice_zero]
    rfl
  · have hrefused : ¬(o.mode = .readWrite ∧ (!writable) = true) := by
      rintro ⟨hmode, hw'⟩
      rw [hw hmode] at hw'
      exact Bool.false_ne_true hw'
    rw [if_neg hlen, if_neg hrefused]
    rfl

/-- A region inside the file needs no growth. -/
theorem fit_run (p : Platform) (writable : Bool) (hoff : o.offset = 0) {length : Nat} (hle : length ≤ bytes.size)
    (hlimit : length < positionLimit) :
    (fit p o length).run ⟨.ofBytes bytes, writable, true⟩ = .ok () ⟨.ofBytes bytes, writable, true⟩ := by
  simp only [fit, EStateM.run, bind, EStateM.bind, get, getThe, MonadStateOf.get, EStateM.get,
    hoff, Nat.zero_add]
  rw [if_neg (by omega), if_pos (by exact hle)]
  rfl

@[simp] theorem size_ofBytes (b : ByteArray) : (Block.ofBytes b).size = b.size := rfl

theorem validate_eq (h : o.segmentShift ≤ maxShift) : o.validate = .ok () := by
  simp [Options.validate, Nat.not_lt.2 h]

theorem resolveLength_eq (hoff : o.offset = 0) (hlen : o.length = none) (size : Nat) :
    o.resolveLength size = .ok size := by
  simp [Options.resolveLength, hoff, hlen]

theorem mapFlat_run (p : Platform) (hw : o.mode = .readWrite → writable = true) (hoff : o.offset = 0)
    (hlen : o.length = none) (hvalid : o.segmentShift ≤ maxShift) (hflat : bytes.size ≤ Flat.limit) :
    (mapFlat p o).run ⟨.ofBytes bytes, writable, true⟩ =
      .ok { bytes := .whole (Bytes.slice bytes 0 bytes.size), writable := decide (o.mode = .readWrite),
            order := o.byteOrder } ⟨.ofBytes bytes, writable, true⟩ := by
  have hfit := fit_run p writable hoff (Nat.le_refl bytes.size)
    (by unfold Flat.limit at hflat; unfold positionLimit; omega)
  have hregion := mapRegion_run bytes hw 0 0 bytes.size
  simp only [EStateM.run, hoff] at hfit hregion
  simp only [mapFlat, EStateM.run, bind, EStateM.bind, get, getThe, MonadStateOf.get, EStateM.get,
    check, validate_eq hvalid, resolveLength_eq hoff hlen, pure, EStateM.pure, Resource.size,
    size_ofBytes]
  rw [if_neg (Nat.not_lt.2 hflat)]
  simp only [EStateM.bind, hfit, hregion, EStateM.pure]

theorem mapSegments_run (bytes : ByteArray) (hw : o.mode = .readWrite → writable = true)
    (hoff : o.offset = 0) (parts : List (Nat × Nat)) (index : Nat) :
    (mapSegments o parts index).run ⟨.ofBytes bytes, writable, true⟩ =
      .ok (parts.map fun p => Block.ofBytes (Bytes.slice bytes p.1 p.2))
        ⟨.ofBytes bytes, writable, true⟩ := by
  induction parts generalizing index with
  | nil => rfl
  | cons p rest ih =>
    have hregion := mapRegion_run bytes hw index p.1 p.2
    have hrest := ih (index + 1)
    simp only [EStateM.run, hoff, Nat.zero_add] at hregion hrest
    simp only [mapSegments, EStateM.run, bind, EStateM.bind, hregion, hrest, pure, EStateM.pure,
      List.map_cons]
    rfl

/-- A store whose segment table is reserved holds at most `Segmented.limit` bytes. -/
theorem le_limit_of_reserve {shift length count : Nat}
    (h : Segmented.reserve p shift length = .ok count) : length ≤ Segmented.limit := by
  unfold Segmented.reserve at h
  split at h
  · cases h
  · omega

/-- A region mapped as a segmented store is the store built from its bytes, writable as the
    mapping is. -/
theorem mapSegmented_run (bytes : ByteArray) (hw : o.mode = .readWrite → writable = true)
    (hoff : o.offset = 0) (hlen : o.length = none) (hvalid : o.segmentShift ≤ maxShift)
    {count : Nat} (hreserve : Segmented.reserve p o.segmentShift bytes.size = .ok count) :
    ∃ g, Segmented.ofBytes p bytes o.segmentShift o.byteOrder = .ok g ∧
      (mapSegmented p o).run ⟨.ofBytes bytes, writable, true⟩ =
        .ok { g with writable := decide (o.mode = .readWrite) } ⟨.ofBytes bytes, writable, true⟩ := by
  have hlimit := le_limit_of_reserve hreserve
  have hfit := fit_run p writable hoff (Nat.le_refl bytes.size)
    (by unfold Segmented.limit at hlimit; unfold positionLimit; omega)
  have hsegs := mapSegments_run bytes hw hoff (Segmented.layout o.segmentShift bytes.size) 0
  simp only [EStateM.run] at hfit hsegs
  refine ⟨{ segments := ((Segmented.layout o.segmentShift bytes.size).map fun p =>
                Block.ofBytes (Bytes.slice bytes p.1 p.2)).toArray,
             shift := o.segmentShift, size := bytes.size, order := o.byteOrder },
    by simp only [Segmented.ofBytes, hreserve, bind, Except.bind, pure, Except.pure], ?_⟩
  simp only [mapSegmented, EStateM.run, bind, EStateM.bind, get, getThe, MonadStateOf.get,
    EStateM.get, check, validate_eq hvalid, resolveLength_eq hoff hlen, pure, EStateM.pure,
    Resource.size, size_ofBytes]
  rw [if_neg (Nat.not_lt.2 hlimit)]
  simp only [EStateM.bind, hfit, hreserve, hsegs, EStateM.pure]

/-- Mapping a file with bytes, in a way its options admit, shows its bytes and leaves the file as
    it was. -/
theorem mapAuto_run (bytes : ByteArray) (hw : o.mode = .readWrite → writable = true)
    (hoff : o.offset = 0) (hlen : o.length = none) (hadmits : Admits p o bytes.size) :
    ∃ s, (mapAuto p o).run ⟨.ofBytes bytes, writable, true⟩ = .ok s ⟨.ofBytes bytes, writable, true⟩ ∧
      s.Shows bytes ∧ s.order = o.byteOrder ∧ s.isWritable = decide (o.mode = .readWrite) := by
  obtain ⟨hvalid, hsegmented⟩ := hadmits
  cases hstrategy : o.strategyFor bytes.size with
  | flat =>
    have hflat : bytes.size ≤ Flat.limit := by
      unfold Options.strategyFor at hstrategy
      split at hstrategy
      · cases hstrategy
      · omega
    have hrun := mapFlat_run p hw hoff hlen hvalid hflat
    simp only [EStateM.run] at hrun
    refine ⟨.flat { bytes := .whole (Bytes.slice bytes 0 bytes.size),
                    writable := decide (o.mode = .readWrite), order := o.byteOrder },
      ?_, ⟨trivial, rfl, ?_, fun x => ?_⟩, rfl, by simp [Store.isWritable]⟩
    · simp only [mapAuto, EStateM.run, bind, EStateM.bind, get, getThe, MonadStateOf.get,
        EStateM.get, check, validate_eq hvalid, resolveLength_eq hoff hlen, pure, EStateM.pure,
        Resource.size, size_ofBytes, hstrategy, Functor.map, EStateM.map, hrun]
    · simp [Store.size, Flat.size, Block.size]
    · simp only [Store.byte, Block.get_whole]
      by_cases hx : x < bytes.size
      · rw [Bytes.getD_slice _ _ _ _ hx, Nat.zero_add]
      · rw [Bytes.getD_of_size_le _ _ (by simp; omega), Bytes.getD_of_size_le _ _ (by omega)]
  | segmented =>
    obtain ⟨count, hreserve⟩ := hsegmented hstrategy
    obtain ⟨g, hg, hrun⟩ := mapSegmented_run bytes hw hoff hlen hvalid hreserve
    simp only [EStateM.run] at hrun
    obtain ⟨hwf, -, hsize, horder, -, hclosed, hbyte⟩ := Segmented.ofBytes_spec hg
    refine ⟨.segmented { g with writable := decide (o.mode = .readWrite) }, ?_,
      ⟨⟨hwf.length, hwf.blocks⟩, hclosed, hsize, hbyte⟩, horder, by simp [Store.isWritable, hclosed]⟩
    simp only [mapAuto, EStateM.run, bind, EStateM.bind, get, getThe, MonadStateOf.get,
      EStateM.get, check, validate_eq hvalid, resolveLength_eq hoff hlen, pure, EStateM.pure,
      Resource.size, size_ofBytes, hstrategy, Functor.map, EStateM.map, hrun]

/-- A mapping that its options do not admit fails. -/
theorem mapAuto_ne_ok (bytes : ByteArray) (hoff : o.offset = 0) (hlen : o.length = none)
    (hnot : ¬Admits p o bytes.size) (s : Store) (r : Resource) :
    (mapAuto p o).run ⟨.ofBytes bytes, writable, true⟩ ≠ .ok s r := by
  by_cases hvalid : o.segmentShift ≤ maxShift
  · cases hstrategy : o.strategyFor bytes.size with
    | flat => exact absurd ⟨hvalid, fun h => by rw [hstrategy] at h; cases h⟩ hnot
    | segmented =>
      cases hreserve : Segmented.reserve p o.segmentShift bytes.size with
      | ok count => exact absurd ⟨hvalid, fun _ => ⟨count, hreserve⟩⟩ hnot
      | error f =>
        by_cases hlimit : Segmented.limit < bytes.size
        · simp [mapAuto, mapSegmented, EStateM.run, bind, EStateM.bind, get, getThe,
            MonadStateOf.get, EStateM.get, check, validate_eq hvalid, resolveLength_eq hoff hlen,
            pure, EStateM.pure, Resource.size, hstrategy, Functor.map, EStateM.map, hlimit, refuse,
            throw, throwThe, MonadExceptOf.throw, EStateM.throw]
        · have hfit := fit_run p writable hoff (Nat.le_refl bytes.size)
            (by unfold Segmented.limit at hlimit; unfold positionLimit; omega)
          simp only [EStateM.run] at hfit
          simp [mapAuto, mapSegmented, EStateM.run, bind, EStateM.bind, get, getThe,
            MonadStateOf.get, EStateM.get, check, validate_eq hvalid, resolveLength_eq hoff hlen,
            pure, EStateM.pure, Resource.size, hstrategy, Functor.map, EStateM.map, hlimit, hfit,
            hreserve, throw, throwThe, MonadExceptOf.throw, EStateM.throw]
  · have hlarge : maxShift < o.segmentShift := Nat.lt_of_not_le hvalid
    simp [mapAuto, EStateM.run, bind, EStateM.bind, check, Options.validate, hlarge, throw,
      throwThe, MonadExceptOf.throw, EStateM.throw]

/-- Writing a store of the file's size back over the whole file makes the file the store's
    bytes. -/
theorem absorb_toByteArray {f : ByteArray} {writable mappable : Bool} {t : Store}
    (ht : t.WellFormed) (hsize : t.size = f.size) :
    (Resource.absorb ⟨.ofBytes f, writable, mappable⟩ 0 t).bytes.toByteArray =
      (t.bytesAt 0 t.size).toByteArray := by
  have hcontents := Store.contents_toList ht
  have hcsize : t.contents.size = t.size := by
    have := congrArg List.length hcontents
    simpa [Store.bytesAt] using this
  apply Store.eq_toByteArray
  have hwf : (Block.ofBytes f).WellFormed := trivial
  rw [Resource.absorb, Block.toByteArray_toList (hwf.overwrite 0 t.contents)]
  simp only [Block.size_overwrite, size_ofBytes, Store.bytesAt, hsize]
  apply List.map_congr_left
  intro i hi
  rw [List.mem_range'_1] at hi
  rw [Block.get_overwrite hwf, if_pos ⟨Nat.zero_le i, by omega, by simp; omega⟩, Nat.sub_zero,
    Bytes.getElem?_eq_toList, hcontents, Store.bytesAt, List.getElem?_map,
    List.getElem?_range' (by omega)]
  simp

end Mapping

namespace Tool

open Mapping

variable {p : Platform} {o : Options} {bytes : ByteArray}

/-- A file opens, with the options its mapping admits, as a store showing its bytes, over the
    file as it was. -/
theorem openFile_file (path : String) (bytes : ByteArray) (hoff : o.offset = 0)
    (hlen : o.length = none) (hadmits : Admits p o bytes.size) :
    ∃ s, openFile p path (.file bytes none) o =
        .ok (s, ⟨.ofBytes bytes, decide (o.mode = .readWrite), true⟩) ∧
      s.Shows bytes ∧ s.order = o.byteOrder ∧ s.isWritable = decide (o.mode = .readWrite) := by
  have hw : o.mode = .readWrite → decide (o.mode = .readWrite) = true := fun h => by simp [h]
  obtain ⟨s, hrun, hshows⟩ := mapAuto_run bytes hw hoff hlen hadmits
  refine ⟨s, ?_, hshows⟩
  simp only [openFile, Entry.file, hrun]

/-- A file that opens was opened with options its mapping admits, as a store showing its bytes,
    over the file as it was. -/
theorem openFile_file_ok {path : String} (hoff : o.offset = 0) (hlen : o.length = none)
    {s : Store} {r : Resource} (h : openFile p path (.file bytes none) o = .ok (s, r)) :
    Admits p o bytes.size ∧ r = ⟨.ofBytes bytes, decide (o.mode = .readWrite), true⟩ ∧
      s.Shows bytes ∧ s.order = o.byteOrder ∧ s.isWritable = decide (o.mode = .readWrite) := by
  by_cases hadmits : Admits p o bytes.size
  · obtain ⟨s', h', hshows⟩ := openFile_file path bytes hoff hlen hadmits
    rw [h'] at h
    cases h
    exact ⟨hadmits, rfl, hshows⟩
  · -- a mapping the options do not admit fails, and so does the opening
    have hrun : (mapAuto p o).run ⟨.ofBytes bytes, decide (o.mode = .readWrite), true⟩ = .ok s r := by
      simp only [openFile, Entry.file] at h
      split at h
      · next heq =>
        cases h
        exact heq
      · cases h
    exact absurd hrun (mapAuto_ne_ok bytes hoff hlen hadmits s r)

end Tool

end ByteView
