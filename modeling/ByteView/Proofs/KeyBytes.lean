import Mathlib
import ByteView.Proofs.Compare
import ByteView.Proofs.Decoding
import ByteView.Proofs.SortCommand

/-!
# A key reads its own bytes

A key names the bytes `[offset, offset + width)` of every record, and `KeyArgs.key` accepts it
when those bytes lie inside a record. It is read as a word of the width a view reads
(`Key.wordWidth`): one, two, four or eight bytes, and eight for any other declared width. The
command line admits only the widths 1, 2, 4 and 8, and for those the word is the key's own bytes.

* `Key.value_eq_decode`: through any view, the key of the record at `r` is the word at
  `r + offset` decoded in the view's byte order, as two's complement when the key is signed; an
  offset past the last 64-bit position stops the computation instead;
* `Key.value_of_getBytes`: a key whose word lies inside the record reads it from the record's
  bytes, so a comparison by the key is decided by the two records' bytes alone;
* `KeyArgs.key_reads_inside`: a key of 1, 2, 4 or 8 bytes that the arguments accept lies in its
  record, is read from exactly its bytes and compares records by their bytes (`Key.ReadsInside`);
* `KeyArgs.wide_key_compares_past_record`: a key of three bytes is accepted in records of four,
  read as eight bytes, and finds two records with the same bytes unequal.
-/

namespace ByteView

namespace Records

namespace Key

/-- The key stored as the bytes `bs` in byte order `order`: the word they hold, read as two's
    complement when the key is signed. -/
def decode (k : Key) (order : ByteOrder) (bs : List UInt8) : Int :=
  let word := order.decode bs
  if k.signed then k.wordWidth.toSigned word else word

theorem valueOf_eq_decode (k : Key) (order : ByteOrder) (record : List UInt8) :
    k.valueOf order record = k.decode order ((record.drop k.offset).take k.wordWidth.bytes) :=
  rfl

/-- The key of the record at `record` is the word at `record + offset`, read through the view
    and decoded in its byte order; an offset past the last 64-bit position stops instead. -/
theorem value_eq_decode (k : Key) {v : View} (hwf : v.base.WellFormed) (record : Nat) :
    k.value v record =
      if positionLimit ≤ record + k.offset then .error .overflow
      else (fun bs => k.decode v.byteOrder bs.data.toList) <$>
        v.getBytes (record + k.offset) k.wordWidth.bytes := by
  by_cases hpos : positionLimit ≤ record + k.offset
  · simp [value, hpos, throw, throwThe, MonadExceptOf.throw, bind, Except.bind]
  · rw [if_neg hpos]
    simp only [value, hpos, if_false, View.read_eq_decode v hwf]
    cases v.getBytes (record + k.offset) k.wordWidth.bytes <;> rfl

/-- A key whose word lies inside records of `recordSize` bytes reads, from a record the view
    reads, the key of that record's bytes. -/
theorem value_of_getBytes {k : Key} {recordSize : Nat} (hk : k.Fits recordSize) {v : View}
    (hwf : v.base.WellFormed) {p : Nat} {x : ByteArray} (h : v.getBytes p recordSize = .ok x) :
    k.value v p = .ok (k.valueOf v.byteOrder x.data.toList) := by
  unfold Fits at hk
  have hend := ((checkRange_eq_ok_iff _ _ _).1 (View.checkRange_of_getBytes h)).1
  -- the key's word is the part of the record at its offset
  have hword := View.getBytes_within hwf h (d := k.offset) (l := k.wordWidth.bytes) hk
  have hrecord : x.data.toList = v.bytesAt p recordSize := by
    rw [View.eq_bytesAt_of_getBytes hwf h, List.toList_data_toByteArray]
  have hpart : ((v.bytesAt p recordSize).drop k.offset).take k.wordWidth.bytes =
      v.bytesAt (p + k.offset) k.wordWidth.bytes := by
    rw [View.bytesAt, View.bytesAt, Store.bytesAt_drop_take _ hk, Nat.add_assoc]
  rw [value_eq_decode k hwf, if_neg (by omega), hword, valueOf_eq_decode, hrecord, hpart]
  simp only [List.toList_data_toByteArray, Functor.map, Except.map]

end Key

/-- Comparing two records that a view reads by a key whose word lies inside them is comparing
    the keys of their bytes. -/
theorem compareRecords_of_getBytes {k : Key} {recordSize : Nat} (hk : k.Fits recordSize)
    {v : View} (hwf : v.base.WellFormed) {p q : Nat} {x y : ByteArray}
    (hx : v.getBytes p recordSize = .ok x) (hy : v.getBytes q recordSize = .ok y) :
    compareRecords (some k) recordSize v p q =
      .ok (keyOrder (some k) v.byteOrder x.data.toList y.data.toList) := by
  simp only [compareRecords, keyOrder, Key.value_of_getBytes hk hwf hx,
    Key.value_of_getBytes hk hwf hy, bind, Except.bind, pure, Except.pure]

/-- What a key accepted for records of `recordSize` bytes does: its bytes lie in the record, it
    is read from exactly those bytes through any view, and it compares two records by their
    bytes alone. -/
structure Key.ReadsInside (k : Key) (recordSize : Nat) : Prop where
  /-- The key's bytes `[offset, offset + width)` lie inside the record. -/
  fits : k.offset + k.width ≤ recordSize
  /-- The key is decoded as a word of its own width: a signed key as a two's complement number
      of `width` bytes. -/
  word : k.wordWidth.bytes = k.width
  /-- The key of the record at `r` is the `width` bytes at `r + offset`, decoded in the view's
      byte order. -/
  reads : ∀ (v : View) (r : Nat), v.base.WellFormed →
    k.value v r =
      if positionLimit ≤ r + k.offset then .error .overflow
      else (fun bs => k.decode v.byteOrder bs.data.toList) <$> v.getBytes (r + k.offset) k.width
  /-- Two records the view reads compare as the keys of their bytes. -/
  orders : ∀ (v : View) (p q : Nat) (x y : ByteArray), v.base.WellFormed →
    v.getBytes p recordSize = .ok x → v.getBytes q recordSize = .ok y →
    compareRecords (some k) recordSize v p q =
      .ok (compare (k.decode v.byteOrder ((x.data.toList.drop k.offset).take k.width))
        (k.decode v.byteOrder ((y.data.toList.drop k.offset).take k.width)))

/-- A key of 1, 2, 4 or 8 bytes that the arguments accept for records of `recordSize` bytes lies
    inside the record, is read through any view from exactly its `width` bytes at the record's
    offset plus its own, decoded in the view's byte order as an unsigned number or, when signed,
    a two's complement one; two records the view reads compare as the keys of their bytes. -/
theorem KeyArgs.key_reads_inside {args : KeyArgs} {recordSize : Nat} {k : Key}
    (hwidth : ∀ w, args.width = some w → w = 1 ∨ w = 2 ∨ w = 4 ∨ w = 8)
    (hkey : args.key recordSize = .ok (some k)) : k.ReadsInside recordSize := by
  obtain ⟨hw, -, -, hfits⟩ := KeyArgs.key_eq_some hkey
  have hbytes := Key.bytes_wordWidth (hwidth k.width hw)
  have hk := KeyArgs.key_fits hwidth hkey k rfl
  refine ⟨hfits, hbytes, fun v r hwf => ?_, fun v p q x y hwf hx hy => ?_⟩
  · rw [Key.value_eq_decode k hwf, hbytes]
  · rw [compareRecords_of_getBytes hk hwf hx hy, keyOrder, Key.valueOf_eq_decode,
      Key.valueOf_eq_decode, hbytes]

/-- A signed key of two bytes at offset 1 of four-byte records. -/
theorem KeyArgs.key_reads_inside_signed :
    (∀ w, ({ offset := some 1, width := some 2, signed := true } : KeyArgs).width = some w →
        w = 1 ∨ w = 2 ∨ w = 4 ∨ w = 8) ∧
      ({ offset := some 1, width := some 2, signed := true } : KeyArgs).key 4 =
        .ok (some ⟨1, 2, true⟩) ∧
      (⟨1, 2, true⟩ : Key).ReadsInside 4 :=
  ⟨fun _ h => .inr (.inl (Option.some_inj.1 h).symm), rfl,
    @KeyArgs.key_reads_inside { offset := some 1, width := some 2, signed := true } 4
      ⟨1, 2, true⟩ (fun _ h => .inr (.inl (Option.some_inj.1 h).symm)) rfl⟩

/-- The arguments accept a key of three bytes in records of four, and it is read as a word of
    eight bytes. Over the bytes `00000000 00000000 00000001` the first two records hold the same
    bytes, yet the key of the second reads the `01` of the third record, and the first record
    compares less than the second. -/
theorem KeyArgs.wide_key_compares_past_record :
    let v := View.store (.flat (Flat.ofBytes ⟨#[0, 0, 0, 0, 0, 0, 0, 0, 0, 0, 0, 1]⟩ .big))
    ({ width := some 3 } : KeyArgs).key 4 = .ok (some ⟨0, 3, false⟩) ∧
      v.getBytes 0 4 = v.getBytes 4 4 ∧
      (⟨0, 3, false⟩ : Key).value v 4 = .ok 1 ∧
      compareRecords (some ⟨0, 3, false⟩) 4 v 0 4 = .ok .lt :=
  ⟨rfl, rfl, rfl, rfl⟩

end Records

end ByteView
