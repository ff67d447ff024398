import Mathlib
import ByteView.Proofs.Pieces
import ByteView.Proofs.MapRegion

/-!
# The segment table, and indices that stay in bounds

A segmented store of `length` bytes in segments of `2 ^ shift` bytes asks for its segments one
after the other. Segment `i` is asked for at `i * 2 ^ shift`, with as many bytes as the store has
from there, up to a whole segment (`Segmented.layout`). There are `⌈length / 2 ^ shift⌉` of them
(`Segmented.reserve`, which also refuses a store too large, or one whose table the platform does
not grant). Every segment but the last is whole, none is empty, and together they hold the store's
bytes (`Segmented.Table`).

A store whose segments have those lengths (`Segmented.WellFormed`) never indexes past a segment
(`Segmented.InBounds`). Each position of the store lies in a segment of the table and inside that
segment. So does each position of a word whose access passed its check. For a range that passed
its check, each piece lies inside its segment and inside the access's buffer.

* `Segmented.reserve_table`: a table that the platform grants asks for exactly the segments above;
* `Mapping.mapSegments_layout`: mapping a file's region asks the storage for segment `i` at
  `i * 2 ^ shift`, for `i` from `0` to the last, in this order;
* `Segmented.WellFormed.inBounds`: the indices of a well-formed store stay in bounds;
* `segment_table_in_bounds`: all of it, for a table that the platform grants, on every platform.
-/

namespace ByteView

namespace Segmented

/-- The segments a table asks for: `count` of them, `⌈length / 2 ^ shift⌉` by the first three
    fields, segment `i` at `i * 2 ^ shift` with `segmentLength` bytes, every one but the last
    whole, none empty, and together holding the `length` bytes. -/
structure Table (shift length count : Nat) : Prop where
  /-- The number of segments is the segment count of the store. -/
  count_eq : count = segmentCount shift length
  /-- The segments reach the end of the store. -/
  covers : length ≤ count * Nat.pow 2 shift
  /-- The last segment starts before the end of the store. -/
  tight : 0 < count → (count - 1) * Nat.pow 2 shift < length
  /-- Segment `i` is asked for at `i * 2 ^ shift`, with `segmentLength` bytes. -/
  requests : layout shift length =
    (List.range count).map fun i => (i * Nat.pow 2 shift, segmentLength shift length i)
  /-- The segments hold the store's bytes. -/
  sum : ((layout shift length).map Prod.snd).sum = length
  /-- Every segment but the last is whole. -/
  whole : ∀ i, i + 1 < count → segmentLength shift length i = Nat.pow 2 shift
  /-- No segment is empty. -/
  nonempty : ∀ i, i < count → 0 < segmentLength shift length i

/-- The last segment starts before the end of the store. -/
theorem pred_segmentCount_mul_lt {shift length : Nat} (h : 0 < segmentCount shift length) :
    (segmentCount shift length - 1) * Nat.pow 2 shift < length := by
  have hpos : 0 < Nat.pow 2 shift := Nat.two_pow_pos shift
  have hle : segmentCount shift length * Nat.pow 2 shift ≤ length + Nat.pow 2 shift - 1 :=
    Nat.div_mul_le_self _ _
  have hlength : 0 < length := by
    refine Nat.pos_of_ne_zero fun h0 => ?_
    rw [segmentCount, h0, Nat.zero_add, Nat.div_eq_of_lt (by omega)] at h
    exact Nat.lt_irrefl 0 h
  rw [Nat.sub_mul, Nat.one_mul]
  omega

/-- The first `n` segments hold the first `n * 2 ^ shift` bytes of the store, or all of them. -/
theorem sum_segmentLength (shift length n : Nat) :
    ((List.range n).map (segmentLength shift length)).sum = min (n * Nat.pow 2 shift) length := by
  induction n with
  | zero => simp
  | succ n ih =>
    rw [List.range_succ, List.map_append, List.sum_append, ih]
    simp only [List.map_cons, List.map_nil, List.sum_cons, List.sum_nil, Nat.add_zero,
      segmentLength, Nat.succ_mul]
    omega

/-- Every segment but the last is whole: it ends at or before the start of the last one, which
    lies inside the store. -/
theorem segmentLength_of_succ_lt {shift length i : Nat} (hi : i + 1 < segmentCount shift length) :
    segmentLength shift length i = Nat.pow 2 shift := by
  have hlast := pred_segmentCount_mul_lt (show 0 < segmentCount shift length by omega)
  have hmul := Nat.mul_le_mul_right (Nat.pow 2 shift)
    (show i + 1 ≤ segmentCount shift length - 1 by omega)
  rw [Nat.succ_mul] at hmul
  simp only [segmentLength]
  omega

/-- No segment is empty: each starts at or before the start of the last one, which lies inside
    the store. -/
theorem segmentLength_pos {shift length i : Nat} (hi : i < segmentCount shift length) :
    0 < segmentLength shift length i := by
  have hpos : 0 < Nat.pow 2 shift := Nat.two_pow_pos shift
  have hlast := pred_segmentCount_mul_lt (show 0 < segmentCount shift length by omega)
  have hmul := Nat.mul_le_mul_right (Nat.pow 2 shift)
    (show i ≤ segmentCount shift length - 1 by omega)
  simp only [segmentLength]
  omega

/-- The segments of the layout hold the store's bytes. -/
theorem sum_layout (shift length : Nat) : ((layout shift length).map Prod.snd).sum = length := by
  rw [layout, List.map_map]
  show ((List.range (segmentCount shift length)).map (segmentLength shift length)).sum = length
  -- the segments hold `min (count * 2 ^ shift) length` bytes, and the segments cover the store
  rw [sum_segmentLength]
  have hcover := le_segmentCount_mul shift length
  omega

/-- A table that the platform grants asks for `⌈length / 2 ^ shift⌉` segments, segment `i` at
    `i * 2 ^ shift` with `segmentLength` bytes: every one whole but the last, none empty, and all
    together the store's bytes. -/
theorem reserve_table {p : Platform} {shift length count : Nat}
    (h : reserve p shift length = .ok count) :
    length ≤ limit ∧ Table shift length count := by
  unfold reserve at h
  dsimp only at h
  split at h
  · cases h
  · split at h
    · cases h
    · next hlimit _ =>
      cases h
      exact ⟨Nat.le_of_not_lt hlimit, rfl, le_segmentCount_mul shift length,
        pred_segmentCount_mul_lt, rfl, sum_layout shift length,
        fun _ => segmentLength_of_succ_lt, fun _ => segmentLength_pos⟩

/-! ## Indices -/

/-- Every index that an access of a segmented store computes into its segments is in bounds. The
    segment of each position of the store is in the table, and the position's place lies inside
    it. The same holds for each position of a word whose access passed its check. For each range
    that passed its check, each piece lies in a segment of the table and inside it, and ends inside
    the access's buffer. -/
structure InBounds (s : Segmented) : Prop where
  /-- A position of the store lies in a segment of the table, inside it. -/
  position : ∀ p, p < s.size →
    s.segmentOf p < s.segments.size ∧ s.localPos p < (s.segment (s.segmentOf p)).size
  /-- Each position of a word that passed its check lies in a segment of the table, inside it. -/
  word : ∀ pos (w : Width), checkAccess pos w.bytes s.size = .ok () → ∀ k, k < w.bytes →
    s.segmentOf (pos + k) < s.segments.size ∧
      s.localPos (pos + k) < (s.segment (s.segmentOf (pos + k))).size
  /-- Each piece of a range that passed its check lies in a segment of the table, inside it, and
      ends inside the access's buffer. -/
  range : ∀ pos len, checkRange pos len s.size = .ok () →
    ∀ k (hk : k < (chunks s.shift pos len).length),
      (chunks s.shift pos len)[k].segment < s.segments.size ∧
      (chunks s.shift pos len)[k].start + (chunks s.shift pos len)[k].length ≤
        (s.segment (chunks s.shift pos len)[k].segment).size ∧
      Chunk.done (chunks s.shift pos len) k + (chunks s.shift pos len)[k].length ≤ len

variable {s : Segmented}

/-- A segment past the end of the table holds nothing. -/
theorem size_segment_of_le {i : Nat} (h : s.segments.size ≤ i) : (s.segment i).size = 0 := by
  simp [segment, Array.getElem?_eq_none h, Block.size]

/-- A position of a well-formed store lies in a segment of the table, inside it. -/
theorem WellFormed.position (hs : s.WellFormed) {p : Nat} (hp : p < s.size) :
    s.segmentOf p < s.segments.size ∧ s.localPos p < (s.segment (s.segmentOf p)).size := by
  have hlocal := localPos_lt_size hs hp
  refine ⟨Nat.lt_of_not_le fun hout => ?_, hlocal⟩
  rw [size_segment_of_le hout] at hlocal
  exact Nat.not_lt_zero _ hlocal

/-- A piece of a range inside a well-formed store lies in a segment of the table, inside it. -/
theorem WellFormed.piece (hs : s.WellFormed) {pos len : Nat} (h : pos + len ≤ s.size)
    {c : Chunk} (hc : c ∈ chunks s.shift pos len) :
    c.segment < s.segments.size ∧ c.start + c.length ≤ (s.segment c.segment).size := by
  have hwalk := chunks_walks s.shift pos len
  have hlen := hwalk.length_pos c hc
  have hin := hwalk.inside c hc
  have hend := offset_add_length_le hc
  simp only [Chunk.offset] at hend
  -- the piece's first byte is a position of the store, in the piece's segment
  have hplace := div_mod_of_lt (i := c.segment) (show c.start < Nat.pow 2 s.shift by omega)
  have hfirst := hs.position (p := c.segment * Nat.pow 2 s.shift + c.start) (by omega)
  simp only [segmentOf, localPos, hplace] at hfirst
  refine ⟨hfirst.1, ?_⟩
  rw [hs.length, segmentLength]
  omega

/-- The indices of a well-formed store stay in bounds. -/
theorem WellFormed.inBounds (hs : s.WellFormed) : s.InBounds where
  position _ hp := hs.position hp
  word pos w hcheck k hk := by
    have hfit := ((checkRange_eq_ok_iff pos w.bytes s.size).1 hcheck).2
    exact hs.position (by omega)
  range pos len hcheck k hk := by
    have hfit := ((checkRange_eq_ok_iff pos len s.size).1 hcheck).2
    have hpiece := hs.piece hfit (List.getElem_mem hk)
    have hbuffer := Chunk.done_add_length_le (chunks s.shift pos len) hk
    rw [(chunks_walks s.shift pos len).total] at hbuffer
    exact ⟨hpiece.1, hpiece.2, hbuffer⟩

end Segmented

namespace Mapping

/-- Mapping the segments `f k, …, f (k + n - 1)` asks the storage for each of them in turn, with
    its index. -/
theorem mapSegments_range' (o : Options) (f : Nat → Nat × Nat) (k n : Nat) :
    mapSegments o ((List.range' k n).map f) k =
      (List.range' k n).mapM fun i => mapRegion o i (f i).1 (f i).2 := by
  induction n generalizing k with
  | zero => rfl
  | succ n ih =>
    rw [List.range'_succ, List.map_cons, mapSegments, ih, List.mapM_cons]

/-- Mapping the segments of a region asks the storage for segment `i` at `i * 2 ^ shift` from the
    region's start, with `segmentLength` bytes, for `i` from `0` to the last, in this order. -/
theorem mapSegments_layout (o : Options) (shift length : Nat) :
    mapSegments o (Segmented.layout shift length) 0 =
      (List.range (Segmented.segmentCount shift length)).mapM fun i =>
        mapRegion o i (i * Nat.pow 2 shift) (Segmented.segmentLength shift length i) := by
  rw [Segmented.layout, List.range_eq_range', mapSegments_range']
  rfl

end Mapping

/-- The segment table of a store of `length` bytes in segments of `2 ^ shift` bytes, when the
    platform `p` grants it, and the indices of the stores laid out by it. The store holds at most `2 ^ 62`
    bytes. Its `count` segments are `⌈length / 2 ^ shift⌉`, segment `i` asked for at
    `i * 2 ^ shift` with `min (2 ^ shift) (length - i * 2 ^ shift)` bytes, each whole but the last,
    none empty, and all together holding `length` bytes. A mapping of a file's region asks the
    storage for exactly these segments, in order, each with its index. Every well-formed store of
    that size keeps its indices in bounds: each position lies in a segment of the table, inside it,
    and so do each position of a checked word and each piece of a checked range, whose bytes end
    inside the access's buffer. -/
theorem segment_table_in_bounds (p : Platform) (shift length count : Nat)
    (hreserve : Segmented.reserve p shift length = .ok count) :
    length ≤ Segmented.limit ∧ Segmented.Table shift length count ∧
      (∀ o : Mapping.Options, Mapping.mapSegments o (Segmented.layout shift length) 0 =
        (List.range count).mapM fun i =>
          Mapping.mapRegion o i (i * Nat.pow 2 shift) (Segmented.segmentLength shift length i)) ∧
      ∀ s : Segmented, s.WellFormed → s.shift = shift → s.size = length → s.InBounds := by
  obtain ⟨hlimit, htable⟩ := Segmented.reserve_table hreserve
  refine ⟨hlimit, htable, fun o => ?_, fun s hs _ _ => hs.inBounds⟩
  rw [Mapping.mapSegments_layout, htable.count_eq]

/-- Forty bytes in segments of sixteen, on the host: three segments, of sixteen, sixteen and eight
    bytes. -/
theorem segment_table_forty_bytes :
    Segmented.reserve Platform.host 4 40 = .ok 3 ∧ 40 ≤ Segmented.limit ∧ Segmented.Table 4 40 3 ∧
      (∀ o : Mapping.Options, Mapping.mapSegments o (Segmented.layout 4 40) 0 =
        (List.range 3).mapM fun i =>
          Mapping.mapRegion o i (i * Nat.pow 2 4) (Segmented.segmentLength 4 40 i)) ∧
      ∀ s : Segmented, s.WellFormed → s.shift = 4 → s.size = 40 → s.InBounds :=
  have hreserve : Segmented.reserve Platform.host 4 40 = .ok 3 := by decide
  ⟨hreserve, segment_table_in_bounds Platform.host 4 40 3 hreserve⟩

end ByteView
