import ByteView.Store.Segmented
import ByteView.Proofs.Block
import ByteView.Proofs.Word

/-!
# Segmented stores hold their bytes where they belong

A segmented store keeps position `p` as byte `p % 2 ^ shift` of segment `p / 2 ^ shift`.
`Segmented.WellFormed` says that every segment has the length this layout gives it; under it,
every operation is described through `Segmented.byte`, the byte at each position:

* `Segmented.readWord_eq`: a word is decoded from the bytes at its positions, also when it
  straddles segments and is joined from its halves;
* `Segmented.Writes`: a store written with a run of bytes at a position. `writes_writeWord` and
  `writes_scatter` show that a word and a range are written exactly so, and that the layout is
  kept;
* `Segmented.gather_toList`, `Segmented.contents_toList`: a range, and the whole store, read as
  the bytes at their positions;
* `Segmented.ofBytes_spec`: a store built from bytes is well formed and holds them.
-/

namespace ByteView

namespace Segmented

/-- The number of bytes segment `i` holds in a store of `size` bytes. -/
def segmentLength (shift size i : Nat) : Nat := min (Nat.pow 2 shift) (size - i * Nat.pow 2 shift)

/-- What every operation of a segmented store keeps: segment `i` holds the bytes from position
    `i * 2 ^ shift` on, as many as the store has there up to a whole segment (none past the last
    segment), in a well-formed block. -/
structure WellFormed (s : Segmented) : Prop where
  length : ∀ i, (s.segment i).size = segmentLength s.shift s.size i
  blocks : ∀ i, (s.segment i).WellFormed

variable {s : Segmented}

theorem segment_size_le (hs : s.WellFormed) (i : Nat) : (s.segment i).size ≤ Nat.pow 2 s.shift := by
  rw [hs.length i, segmentLength]
  exact Nat.min_le_left _ _

/-- The bytes of a piece of a segment are the store's bytes at the piece's positions. -/
theorem slice_segment (hs : s.WellFormed) (i start len : Nat)
    (h : start + len ≤ (s.segment i).size) :
    ((s.segment i).slice start len).data.toList =
      (List.range' (i * Nat.pow 2 s.shift + start) len).map s.byte := by
  rw [Block.slice_toList (hs.blocks i), show min len ((s.segment i).size - start) = len by omega]
  have hle := segment_size_le hs i
  apply List.ext_getElem (by simp)
  intro k hk _
  simp only [List.length_map, List.length_range'] at hk
  have hplace := div_mod_of_lt (i := i) (show start + k < Nat.pow 2 s.shift by omega)
  simp only [List.getElem_map, List.getElem_range', Nat.one_mul, byte, segmentOf, localPos,
    Nat.add_assoc, hplace]

/-- Bytes found in one segment are the store's bytes at their positions. -/
theorem contiguous_eq_some (hs : s.WellFormed) {pos n : Nat} {bs : List UInt8}
    (h : s.contiguous pos n = some bs) : bs = (List.range' pos n).map s.byte := by
  unfold contiguous at h
  dsimp only at h
  split at h
  · next hfit =>
    rw [← Option.some.inj h, slice_segment hs _ _ _ hfit, segmentOf, localPos,
      Nat.div_add_mod' pos]
  · exact absurd h (by simp)

/-- A word is decoded from the store's bytes at its positions, whether it lies in one segment
    or is joined from its halves. -/
theorem readWord_eq (hs : s.WellFormed) (w : Width) (pos : Nat) :
    s.readWord w pos = s.order.decode ((List.range' pos w.bytes).map s.byte) := by
  fun_induction s.readWord w pos with
  | case1 pos => simp [Width.bytes, ByteOrder.decode_single]
  | case2 w pos h bs hbs => rw [contiguous_eq_some hs hbs]
  | case3 w pos h hnone ihFirst ihSecond =>
    -- the two halves of the word are its first and its last `w.half.bytes` bytes
    rw [ihFirst, ihSecond, ← Width.half_bytes_add w h, ← List.range'_append_1, List.map_append,
      ByteOrder.decode_append _ _ _ (by simp)]
    simp

/-! ## Writing -/

/-- `t` is the well-formed store `s` with the bytes `bs` written at `pos`: only the segments
    changed, and in them only the bytes of `[pos, pos + bs.length)`. -/
structure Writes (s t : Segmented) (pos : Nat) (bs : List UInt8) : Prop where
  wellFormed : t.WellFormed
  frame : t = { s with segments := t.segments }
  byte : ∀ x, t.byte x = if pos ≤ x ∧ x < pos + bs.length then bs[x - pos]?.getD 0 else s.byte x

/-- Writing two runs of bytes one after the other writes them joined. -/
theorem Writes.append {t u : Segmented} {pos : Nat} {xs ys : List UInt8} (h1 : Writes s t pos xs)
    (h2 : Writes t u (pos + xs.length) ys) : Writes s u pos (xs ++ ys) where
  wellFormed := h2.wellFormed
  frame := by rw [h2.frame, h1.frame]
  byte x := by
    rw [h2.byte, h1.byte, List.length_append]
    by_cases hlow : x < pos + xs.length
    · by_cases hpos : pos ≤ x
      · rw [if_neg (by omega), if_pos ⟨hpos, hlow⟩, if_pos (by omega),
          List.getElem?_append_left (by omega)]
      · rw [if_neg (by omega), if_neg (by omega), if_neg (by omega)]
    · by_cases hhigh : x < pos + xs.length + ys.length
      · rw [if_pos ⟨by omega, hhigh⟩, if_pos (by omega), List.getElem?_append_right (by omega)]
        congr 2
        omega
      · rw [if_neg (by omega), if_neg (by omega), if_neg (by omega)]

@[simp] theorem shift_modifySegment (i : Nat) (f : Block → Block) :
    (s.modifySegment i f).shift = s.shift := rfl

theorem segment_modifySegment (i : Nat) (f : Block → Block) (j : Nat) :
    (s.modifySegment i f).segment j =
      if j = i ∧ i < s.segments.size then f (s.segment j) else s.segment j := by
  unfold segment modifySegment
  rw [Array.getElem?_modify]
  by_cases hj : j = i
  · subst hj
    by_cases hi : j < s.segments.size
    · simp [hi]
    · simp [hi]
  · simp [Ne.symm hj, hj]

/-- Overwriting bytes inside one segment writes them at their positions in the store. -/
theorem writes_overwrite (hs : s.WellFormed) (i start : Nat) (data : ByteArray)
    (h : start + data.size ≤ (s.segment i).size) :
    Writes s (s.modifySegment i fun seg => seg.overwrite start data)
      (i * Nat.pow 2 s.shift + start) data.data.toList := by
  have hle := segment_size_le hs i
  -- a segment past the array is empty, so a piece with bytes lies in the array
  have hinside : 0 < data.size → i < s.segments.size := by
    intro hpos
    refine Nat.lt_of_not_le fun hout => ?_
    have hempty : (s.segment i).size = 0 := by
      simp [segment, Array.getElem?_eq_none hout, Block.size]
    omega
  refine ⟨⟨fun j => ?_, fun j => ?_⟩, rfl, fun x => ?_⟩
  · rw [segment_modifySegment]
    split
    · next hj => rw [Block.size_overwrite, hj.1, hs.length]; rfl
    · exact hs.length j
  · rw [segment_modifySegment]
    split
    · exact (hs.blocks j).overwrite _ _
    · exact hs.blocks j
  · have hx := Nat.div_add_mod' x (Nat.pow 2 s.shift)
    have hmod : x % Nat.pow 2 s.shift < Nat.pow 2 s.shift := Nat.mod_lt x (Nat.two_pow_pos s.shift)
    rw [Array.length_toList, ByteArray.size_data, ← Bytes.getElem?_eq_toList]
    unfold byte
    simp only [segmentOf, localPos, shift_modifySegment]
    rw [segment_modifySegment]
    by_cases hseg : x / Nat.pow 2 s.shift = i
    · by_cases harr : i < s.segments.size
      · rw [if_pos ⟨hseg, harr⟩, Block.get_overwrite (hs.blocks _), hseg]
        rw [hseg] at hx
        by_cases hin : start ≤ x % Nat.pow 2 s.shift ∧ x % Nat.pow 2 s.shift < start + data.size
        · rw [if_pos ⟨hin.1, hin.2, by omega⟩, if_pos (by omega)]
          congr 2
          omega
        · rw [if_neg (by omega), if_neg (by omega)]
      · rw [if_neg fun h => harr h.2, if_neg (by have := mt hinside harr; omega)]
    · rw [if_neg fun h => hseg h.1, if_neg]
      rintro ⟨hlo, hhi⟩
      have hplace := div_mod_of_lt (i := i) (show x - i * Nat.pow 2 s.shift < Nat.pow 2 s.shift by omega)
      rw [Nat.add_sub_cancel' (by omega)] at hplace
      exact hseg hplace.1

/-- A position inside the store is followed in its segment by the rest of that segment. -/
theorem localPos_lt_size (hs : s.WellFormed) {pos : Nat} (h : pos < s.size) :
    s.localPos pos < (s.segment (s.segmentOf pos)).size := by
  have hpos := Nat.div_add_mod' pos (Nat.pow 2 s.shift)
  have hmod : pos % Nat.pow 2 s.shift < Nat.pow 2 s.shift := Nat.mod_lt _ (Nat.two_pow_pos _)
  rw [hs.length, segmentLength]
  simp only [localPos, segmentOf]
  omega

/-- Runs of bytes written where they fit in one segment. -/
theorem writes_writeContiguous (hs : s.WellFormed) {pos : Nat} {bs : List UInt8} {t : Segmented}
    (h : s.writeContiguous pos bs = some t) : Writes s t pos bs := by
  unfold writeContiguous at h
  dsimp only at h
  split at h
  · next hfit =>
    rw [← Option.some.inj h]
    have hw := writes_overwrite hs (s.segmentOf pos) (s.localPos pos) bs.toByteArray
      (by rwa [List.size_toByteArray])
    rwa [List.toList_data_toByteArray, segmentOf, localPos, Nat.div_add_mod'] at hw
  · exact absurd h (by simp)

theorem writes_writeByte (hs : s.WellFormed) {pos : Nat} (h : pos < s.size) (b : UInt8) :
    Writes s (s.writeByte pos b) pos [b] := by
  have hw := writes_overwrite hs (s.segmentOf pos) (s.localPos pos) [b].toByteArray
    (by rw [List.size_toByteArray]; exact localPos_lt_size hs h)
  rwa [List.toList_data_toByteArray, segmentOf, localPos, Nat.div_add_mod'] at hw

/-- A word is written as its bytes at its positions, whether it lies in one segment or is
    written as its halves. -/
theorem writes_writeWord (hs : s.WellFormed) (w : Width) (pos value : Nat)
    (h : pos + w.bytes ≤ s.size) :
    Writes s (s.writeWord w pos value) pos (s.order.encode w.bytes value) := by
  fun_induction s.writeWord w pos value with
  | case1 s pos value =>
    rw [show Width.one.bytes = 1 from rfl, ByteOrder.encode_one]
    exact writes_writeByte hs (by simp only [Width.bytes] at h; omega) _
  | case2 s w pos value hone t ht => exact writes_writeContiguous hs ht
  | case3 s w pos value hone hnone halves ihFirst _ ihSecond =>
    -- the first half is written, then the second one into the store the first left
    have hhalf := Width.half_bytes_add w hone
    have hfirst := ihFirst hs (by omega)
    have horder : (s.writeWord w.half pos halves.1).order = s.order := by rw [hfirst.frame]
    have hsize : (s.writeWord w.half pos halves.1).size = s.size := by rw [hfirst.frame]
    have hsecond := ihSecond hfirst.wellFormed (by rw [hsize]; omega)
    rw [horder] at hsecond
    rw [← hhalf, ByteOrder.encode_halves]
    exact hfirst.append (by rwa [ByteOrder.length_encode])

/-! ## Ranges -/

/-- A range inside the store is gathered as the store's bytes at its positions. -/
theorem gather_toList (hs : s.WellFormed) {pos len : Nat} (h : pos + len ≤ s.size) :
    (s.gather pos len).data.toList = (List.range' pos len).map s.byte := by
  unfold gather
  apply foldl_chunks_read
  intro c hc
  have hpiece := start_add_length_le hc
  have hrange := offset_add_length_le hc
  simp only [Chunk.offset] at hrange
  exact slice_segment hs _ _ _ (by rw [hs.length, segmentLength]; omega)

/-- A range inside the store is written as its bytes at its positions, piece by piece. -/
theorem writes_scatter (hs : s.WellFormed) {pos : Nat} {src : ByteArray}
    (h : pos + src.size ≤ s.size) : Writes s (s.scatter pos src) pos src.data.toList := by
  -- one piece is written into its own segment
  have hpiece : ∀ (st : Segmented) (c : Chunk) (data : ByteArray),
      st.WellFormed ∧ st = { s with segments := st.segments } →
      c.start + c.length ≤ Nat.pow 2 s.shift → c.offset s.shift + c.length ≤ s.size →
      data.size = c.length →
      let t := st.modifySegment c.segment fun seg => seg.overwrite c.start data
      (t.WellFormed ∧ t = { s with segments := t.segments }) ∧ ∀ x, t.byte x =
        if c.offset s.shift ≤ x ∧ x < c.offset s.shift + c.length then
          data[x - c.offset s.shift]?.getD 0
        else st.byte x := by
    rintro st c data ⟨hst, hframe⟩ hfit hlimit hdata
    have hshift : st.shift = s.shift := by rw [hframe]
    have hsize : st.size = s.size := by rw [hframe]
    have hw := writes_overwrite hst c.segment c.start data (by
      rw [hst.length, segmentLength, hshift, hsize, hdata]
      simp only [Chunk.offset] at hlimit
      omega)
    refine ⟨⟨hw.wellFormed, by rw [hw.frame, hframe]⟩, fun x => ?_⟩
    rw [hw.byte, hshift, Array.length_toList, ByteArray.size_data, ← Bytes.getElem?_eq_toList,
      hdata]
    rfl
  obtain ⟨t, hfold, ⟨hwf, hframe⟩, hbyte⟩ := foldl_chunks_write byte
    (fun st c data => st.modifySegment c.segment fun seg => seg.overwrite c.start data)
    (fun st => st.WellFormed ∧ st = { s with segments := st.segments }) s.shift s.size hpiece
    src pos src.size 0 s (by omega) h ⟨hs, rfl⟩
  have hscatter : s.scatter pos src = t := by
    unfold scatter
    rw [hfold]
  rw [hscatter]
  refine ⟨hwf, hframe, fun x => ?_⟩
  rw [hbyte, Nat.zero_add, Array.length_toList, ByteArray.size_data, ← Bytes.getElem?_eq_toList]

/-! ## Contents -/

/-- The first `n` segments hold the store's bytes up to the end of the `n`-th segment. -/
theorem flatMap_segments (hs : s.WellFormed) (n : Nat) :
    ((List.range n).map s.segment).flatMap (fun seg => seg.toByteArray.data.toList) =
      (List.range' 0 (min (n * Nat.pow 2 s.shift) s.size)).map s.byte := by
  induction n with
  | zero => simp
  | succ n ih =>
    have hwhole : (s.segment n).toByteArray.data.toList =
        (List.range' (n * Nat.pow 2 s.shift) (segmentLength s.shift s.size n)).map s.byte := by
      rw [Block.toByteArray, slice_segment hs _ _ _ (by omega), Nat.add_zero, hs.length]
    rw [List.range_succ, List.map_append, List.flatMap_append, ih, List.map_singleton,
      List.flatMap_singleton, hwhole, segmentLength, ← List.map_append, Nat.succ_mul]
    congr 1
    -- segment `n` starts where the bytes before it end, unless the store ended before it
    by_cases hn : n * Nat.pow 2 s.shift ≤ s.size
    · have hjoin := List.range'_append_1 (s := 0) (m := n * Nat.pow 2 s.shift)
        (n := min (Nat.pow 2 s.shift) (s.size - n * Nat.pow 2 s.shift))
      rw [Nat.zero_add] at hjoin
      rw [Nat.min_eq_left hn, hjoin]
      congr 1
      omega
    · rw [show min (Nat.pow 2 s.shift) (s.size - n * Nat.pow 2 s.shift) = 0 by omega,
        List.range'_zero, List.append_nil]
      congr 1
      omega

/-- The contents of a store are its bytes, in order. -/
theorem contents_toList (hs : s.WellFormed) :
    s.contents.data.toList = (List.range' 0 s.size).map s.byte := by
  -- the segment just past the array is empty, so the array covers the store
  have hcover : s.size ≤ s.segments.size * Nat.pow 2 s.shift := by
    have hlast : (s.segment s.segments.size).size = 0 := by
      simp [segment, Block.size]
    have hpos : 0 < Nat.pow 2 s.shift := Nat.two_pow_pos s.shift
    rw [hs.length, segmentLength] at hlast
    omega
  have hlist : s.segments.toList = (List.range s.segments.size).map s.segment := by
    apply List.ext_getElem (by simp)
    intro i h1 _
    rw [List.getElem_map, List.getElem_range, segment,
      Array.getElem?_eq_getElem (by simpa using h1)]
    simp
  rw [contents, ← Array.foldl_toList, Bytes.foldl_append_toList, hlist, flatMap_segments hs,
    Nat.min_eq_right hcover]
  simp

/-! ## Building -/

variable {p : Platform}

/-- The segments of a store of `length` bytes reach its end. -/
theorem le_segmentCount_mul (shift length : Nat) :
    length ≤ segmentCount shift length * Nat.pow 2 shift := by
  have hpos : 0 < Nat.pow 2 shift := Nat.two_pow_pos shift
  have hlt := Nat.lt_div_mul_add (a := length + Nat.pow 2 shift - 1) hpos
  simp only [segmentCount]
  omega

/-- Segment `i` of a store built from bytes is a copy of its part of them. -/
theorem segment_ofBytes {bytes : ByteArray} {shift : Nat} {order : ByteOrder} {s : Segmented}
    (h : ofBytes p bytes shift order = .ok s) (i : Nat) :
    s.segment i = if i < segmentCount shift bytes.size then
      .whole (Bytes.slice bytes (i * Nat.pow 2 shift) (segmentLength shift bytes.size i))
    else .whole ByteArray.empty := by
  unfold ofBytes at h
  cases hr : reserve p shift bytes.size with
  | error f => simp [hr, bind, Except.bind] at h
  | ok count =>
    simp only [hr, bind, Except.bind, pure, Except.pure, Except.ok.injEq] at h
    subst h
    by_cases hi : i < segmentCount shift bytes.size
    · simp [segment, layout, segmentLength, hi, Block.ofBytes]
    · simp [segment, layout, hi]

/-- A store built from bytes is well formed, holds them each at its position, and is open,
    writable and in the given order. -/
theorem ofBytes_spec {bytes : ByteArray} {shift : Nat} {order : ByteOrder} {s : Segmented}
    (h : ofBytes p bytes shift order = .ok s) :
    s.WellFormed ∧ s.shift = shift ∧ s.size = bytes.size ∧ s.order = order ∧
      s.writable = true ∧ s.closed = false ∧ ∀ x, s.byte x = bytes[x]?.getD 0 := by
  have hfields : s.shift = shift ∧ s.size = bytes.size ∧ s.order = order ∧ s.writable = true ∧
      s.closed = false := by
    unfold ofBytes at h
    cases hr : reserve p shift bytes.size with
    | error f => simp [hr, bind, Except.bind] at h
    | ok count =>
      simp only [hr, bind, Except.bind, pure, Except.pure, Except.ok.injEq] at h
      subst h
      exact ⟨rfl, rfl, rfl, rfl, rfl⟩
  obtain ⟨hshift, hsize, horder, hwritable, hclosed⟩ := hfields
  have hpos : 0 < Nat.pow 2 shift := Nat.two_pow_pos shift
  have hcover := le_segmentCount_mul shift bytes.size
  -- segments past the last one are empty, since the last one reaches the end of the bytes
  have hpast : ∀ i, ¬i < segmentCount shift bytes.size → segmentLength shift bytes.size i = 0 := by
    intro i hi
    have hmul := Nat.mul_le_mul_right (Nat.pow 2 shift) (Nat.le_of_not_lt hi)
    simp only [segmentLength]
    omega
  refine ⟨⟨fun i => ?_, fun i => ?_⟩, hshift, hsize, horder, hwritable, hclosed, fun x => ?_⟩
  · rw [segment_ofBytes h, hshift, hsize]
    split
    · simp only [Block.size, Bytes.size_slice, segmentLength]
      omega
    · next hi => simp [Block.size, hpast i hi]
  · rw [segment_ofBytes h]
    split <;> trivial
  · have hx := Nat.div_add_mod' x (Nat.pow 2 shift)
    have hmod : x % Nat.pow 2 shift < Nat.pow 2 shift := Nat.mod_lt _ hpos
    simp only [byte, segmentOf, localPos, hshift]
    rw [segment_ofBytes h]
    split
    · next hi =>
      rw [Block.get_whole]
      by_cases hin : x % Nat.pow 2 shift < segmentLength shift bytes.size (x / Nat.pow 2 shift)
      · rw [Bytes.getD_slice _ _ _ _ hin, hx]
      · simp only [segmentLength] at hin
        rw [Bytes.getD_of_size_le _ _ (by simp only [Bytes.size_slice, segmentLength]; omega),
          Bytes.getD_of_size_le _ _ (by omega)]
    · next hi =>
      have hmul := Nat.mul_le_mul_right (Nat.pow 2 shift) (Nat.le_of_not_lt hi)
      rw [Block.get_whole, Bytes.getD_of_size_le _ _ (by simp),
        Bytes.getD_of_size_le _ _ (by omega)]

end Segmented

end ByteView
