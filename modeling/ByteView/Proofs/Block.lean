import ByteView.Block
import ByteView.Proofs.Bytes

/-!
# Blocks as functions of their positions

A block is the byte string of a region, kept whole or in pages of `pageSize` bytes of which only
the written ones exist. Its meaning is `Block.get`, the byte at each position (zero past the
end), and every operation is described through it:

* `chunks_offsets`, `foldl_chunks_read`, `foldl_chunks_write`: a range cut into the pieces of
  consecutive `2 ^ shift`-byte parts is read and written piece by piece. Paged blocks cut by
  pages, segmented stores by segments, and both use these two lemmas;
* `Block.slice_toList`, `Block.get_overwrite`, `Block.get_grow`, `Block.extract_spec`: slicing,
  writing, growing and extracting, at every position;
* `Block.WellFormed`: what every operation keeps of a paged block (whole pages, one of each
  index, nothing past the end), under which the above hold.
-/

namespace ByteView

/-! ## Pieces of a range -/

/-- The position in the whole store of the first byte of a piece. -/
def Chunk.offset (shift : Nat) (c : Chunk) : Nat := c.segment * Nat.pow 2 shift + c.start

@[simp] theorem chunks_zero (shift pos : Nat) : chunks shift pos 0 = [] := by
  rw [chunks]
  simp

/-- A position lies in the piece of `length` bytes from `start` of a segment exactly when it
    lies in that segment at a place from `start` on. -/
theorem mem_piece_iff {size segment start length x : Nat} (h : start + length ≤ size) :
    (segment * size + start ≤ x ∧ x < segment * size + start + length) ↔
      (x / size = segment ∧ start ≤ x % size ∧ x % size < start + length) := by
  have hx := Nat.div_add_mod' x size
  constructor
  · rintro ⟨h1, h2⟩
    have hseg : x / size = segment := by
      apply Nat.div_eq_of_lt_le
      · omega
      · rw [Nat.succ_mul]; omega
    refine ⟨hseg, ?_, ?_⟩ <;> rw [hseg] at hx <;> omega
  · rintro ⟨hseg, h1, h2⟩
    rw [hseg] at hx
    omega

/-- Every piece lies inside one segment. -/
theorem start_add_length_le {shift pos rem : Nat} {c : Chunk} (h : c ∈ chunks shift pos rem) :
    c.start + c.length ≤ Nat.pow 2 shift := by
  fun_induction chunks shift pos rem with
  | case1 pos => simp at h
  | case2 pos rem hrem inSegment length ih =>
    rcases List.mem_cons.1 h with rfl | h
    · have : pos % Nat.pow 2 shift < Nat.pow 2 shift := Nat.mod_lt _ (Nat.two_pow_pos shift)
      simp only [inSegment, length]
      omega
    · exact ih h

/-- Every piece lies inside the range. -/
theorem offset_add_length_le {shift pos rem : Nat} {c : Chunk} (h : c ∈ chunks shift pos rem) :
    c.offset shift + c.length ≤ pos + rem := by
  fun_induction chunks shift pos rem with
  | case1 pos => simp at h
  | case2 pos rem hrem inSegment length ih =>
    rcases List.mem_cons.1 h with rfl | h
    · have hoffset : Chunk.offset shift ⟨pos / Nat.pow 2 shift, inSegment, length⟩ = pos :=
        Nat.div_add_mod' pos _
      rw [hoffset]
      simp only [length]
      omega
    · have hrest := ih h
      simp only [length] at hrest
      omega

/-- The pieces of a range cover it, in order, each position once. -/
theorem chunks_offsets (shift pos rem : Nat) :
    (chunks shift pos rem).flatMap (fun c => List.range' (c.offset shift) c.length) =
      List.range' pos rem := by
  fun_induction chunks shift pos rem with
  | case1 pos => simp
  | case2 pos rem hrem inSegment length ih =>
    rw [List.flatMap_cons, ih]
    simp only [Chunk.offset, inSegment, Nat.div_add_mod']
    rw [List.range'_append_1]
    congr 1
    omega

/-- Reading a range piece by piece reads it whole, when each piece reads its own positions. -/
theorem foldl_chunks_read (shift pos rem : Nat) (f : Chunk → ByteArray) (g : Nat → UInt8)
    (hf : ∀ c ∈ chunks shift pos rem,
      (f c).data.toList = (List.range' (c.offset shift) c.length).map g) :
    ((chunks shift pos rem).foldl (fun acc c => acc ++ f c) ByteArray.empty).data.toList =
      (List.range' pos rem).map g := by
  rw [Bytes.foldl_append_toList, ByteArray.data_empty, Array.toList_empty, List.nil_append,
    List.flatMap_def, List.map_congr_left hf, ← List.flatMap_def, ← List.map_flatMap,
    chunks_offsets]

/-- Writing a range piece by piece writes it whole, when each piece writes its own positions
    and keeps what `inv` says. The pieces take their bytes from `src`, from `k` on. -/
theorem foldl_chunks_write {σ : Type} (read : σ → Nat → UInt8)
    (write : σ → Chunk → ByteArray → σ) (inv : σ → Prop) (shift limit : Nat)
    (hwrite : ∀ st c data, inv st → c.start + c.length ≤ Nat.pow 2 shift →
      c.offset shift + c.length ≤ limit → data.size = c.length →
      inv (write st c data) ∧ ∀ x, read (write st c data) x =
        if c.offset shift ≤ x ∧ x < c.offset shift + c.length then
          data[x - c.offset shift]?.getD 0
        else read st x)
    (src : ByteArray) (pos rem k : Nat) (st : σ) (hk : k + rem ≤ src.size)
    (hlimit : pos + rem ≤ limit) (hst : inv st) :
    ∃ st', (chunks shift pos rem).foldl
        (fun acc c => (acc.1 + c.length, write acc.2 c (Bytes.slice src acc.1 c.length))) (k, st) =
        (k + rem, st') ∧ inv st' ∧
      ∀ x, read st' x = if pos ≤ x ∧ x < pos + rem then src[k + (x - pos)]?.getD 0 else read st x := by
  fun_induction chunks shift pos rem generalizing k st with
  | case1 pos => exact ⟨st, by simp, hst, fun x => by rw [if_neg (by omega)]⟩
  | case2 pos rem hrem inSegment length ih =>
    have hlen : length ≤ rem := Nat.min_le_right _ _
    have hpiece : inSegment + length ≤ Nat.pow 2 shift := by
      have : inSegment < Nat.pow 2 shift := Nat.mod_lt _ (Nat.two_pow_pos shift)
      simp only [length]
      omega
    have hoffset : Chunk.offset shift ⟨pos / Nat.pow 2 shift, inSegment, length⟩ = pos :=
      Nat.div_add_mod' pos _
    have hdata : (Bytes.slice src k length).size = length := by simp; omega
    obtain ⟨hinv, hread⟩ := hwrite st ⟨pos / Nat.pow 2 shift, inSegment, length⟩
      (Bytes.slice src k length) hst hpiece (by rw [hoffset]; show pos + length ≤ limit; omega) hdata
    simp only [hoffset] at hread
    obtain ⟨st', hfold, hst', hread'⟩ := ih (k + length) _ (by omega) (by omega) hinv
    refine ⟨st', ?_, hst', fun x => ?_⟩
    · rw [List.foldl_cons, hfold]
      congr 1
      omega
    · rw [hread', hread]
      -- the first piece writes `[pos, pos + length)`, the rest the remainder of the range
      by_cases h1 : pos + length ≤ x ∧ x < pos + length + (rem - length)
      · rw [if_pos h1, if_pos (by omega)]
        congr 2
        omega
      · rw [if_neg h1]
        by_cases h2 : pos ≤ x ∧ x < pos + length
        · rw [if_pos h2, if_pos (by omega), Bytes.getD_slice _ _ _ _ (by omega)]
        · rw [if_neg h2, if_neg (by omega)]

/-! ## Blocks -/

namespace Block

/-- Byte `x` of the written pages: from the page that holds it, zero where no page is
    written. -/
def pageByte (pages : List (Nat × ByteArray)) (x : Nat) : UInt8 :=
  (page pages (x / pageSize))[x % pageSize]?.getD 0

/-- A block is well formed when its written pages are whole pages, each listed once, and
    nothing is written past its end. A block in one piece always is. -/
def WellFormed : Block → Prop
  | .whole _ => True
  | .paged size pages =>
    (∀ p ∈ pages, p.2.size = pageSize) ∧ (pages.map (·.1)).Nodup ∧
      ∀ x, size ≤ x → pageByte pages x = 0

theorem pow_pageShift : Nat.pow 2 pageShift = pageSize := rfl

theorem lookup_filter_ne (pages : List (Nat × ByteArray)) {i j : Nat} (h : j ≠ i) :
    (pages.filter (·.1 != i)).lookup j = pages.lookup j := by
  induction pages with
  | nil => rfl
  | cons q pages ih =>
    obtain ⟨k, p⟩ := q
    by_cases hk : k = i
    · subst hk
      have hj : (j == k) = false := by simp [h]
      simp [List.lookup_cons, hj, ih]
    · by_cases hjk : j = k
      · simp [hk, hjk]
      · have hj : (j == k) = false := by simp [hjk]
        simp [hk, List.lookup_cons, hj, ih]

theorem page_setPage (pages : List (Nat × ByteArray)) (i j : Nat) (p : ByteArray) :
    page (setPage pages i p) j = if j = i then p else page pages j := by
  by_cases h : j = i
  · simp [page, setPage, h]
  · have hj : (j == i) = false := by simp [h]
    simp [page, setPage, List.lookup_cons, h, hj, lookup_filter_ne pages h]

theorem size_page {pages : List (Nat × ByteArray)} (h : ∀ p ∈ pages, p.2.size = pageSize)
    (i : Nat) : (page pages i).size = pageSize := by
  induction pages with
  | nil => simp [page]
  | cons q pages ih =>
    obtain ⟨k, v⟩ := q
    have hv : v.size = pageSize := h (k, v) List.mem_cons_self
    have ih := ih fun p hp => h p (List.mem_cons_of_mem _ hp)
    by_cases hi : i = k
    · simp [page, hi, hv]
    · have hik : (i == k) = false := by simp [hi]
      simp only [page] at ih ⊢
      simp [List.lookup_cons, hik, ih]

@[simp] theorem get_whole (bytes : ByteArray) (i : Nat) :
    (whole bytes).get i = bytes[i]?.getD 0 := rfl

@[simp] theorem get_paged (size : Nat) (pages : List (Nat × ByteArray)) (i : Nat) :
    (paged size pages).get i = if i < size then pageByte pages i else 0 := rfl

theorem get_of_size_le {b : Block} (h : b.size ≤ i) : b.get i = 0 := by
  cases b with
  | whole bytes => exact Bytes.getD_of_size_le bytes i h
  | paged size pages => simp only [get_paged, if_neg (show ¬i < size by simpa [Block.size] using h)]

/-- A piece of a range reads the bytes of its positions from its page. -/
theorem piece_toList {pages : List (Nat × ByteArray)} (hpages : ∀ p ∈ pages, p.2.size = pageSize)
    (c : Chunk) (hc : c.start + c.length ≤ pageSize) :
    (piece pages c).data.toList = (List.range' (c.offset pageShift) c.length).map (pageByte pages) := by
  have hshift : (List.range' (c.offset pageShift) c.length).map (pageByte pages) =
      (List.range' c.start c.length).map fun j => (page pages c.segment)[j]?.getD 0 := by
    rw [Chunk.offset, pow_pageShift, ← List.map_add_range', List.map_map]
    apply List.map_congr_left
    intro j hj
    have hj : c.start ≤ j ∧ j < c.start + c.length := by simpa using hj
    have hdiv : (c.segment * pageSize + j) / pageSize = c.segment := by
      simp only [pageSize] at hc ⊢; omega
    have hmod : (c.segment * pageSize + j) % pageSize = j := by
      simp only [pageSize] at hc ⊢; omega
    simp [pageByte, hdiv, hmod]
  rw [hshift]
  unfold piece page
  split
  · next p hp =>
    have hsize : p.size = pageSize := by
      rw [← size_page hpages c.segment]
      simp [page, hp]
    rw [Bytes.slice_toList, hsize, Nat.min_eq_left (by omega), hp, Option.getD_some]
  · next hp =>
    rw [hp, Option.getD_none]
    apply List.ext_getElem
    · simp
    · intro k h1 h2
      rw [List.getElem_map, Bytes.getD_zeros]
      simp [Bytes.zeros]

/-- A slice of a block holds the bytes of its range, as far as the block reaches. -/
theorem slice_toList {b : Block} (hb : b.WellFormed) (pos len : Nat) :
    (b.slice pos len).data.toList = (List.range' pos (min len (b.size - pos))).map b.get := by
  cases b with
  | whole bytes => exact Bytes.slice_toList bytes pos len
  | paged size pages =>
    have hpieces : (paged size pages).slice pos len =
        (chunks pageShift pos (min len (size - pos))).foldl (fun acc c => acc ++ piece pages c)
          ByteArray.empty := by
      simp only [slice]
      split
      · next c hc => rw [hc, List.foldl_cons, List.foldl_nil, ByteArray.empty_append]
      · rfl
    rw [hpieces, foldl_chunks_read pageShift pos _ (piece pages) (pageByte pages)
      fun c hc => piece_toList hb.1 c (pow_pageShift ▸ start_add_length_le hc)]
    apply List.map_congr_left
    intro x hx
    have hx : x < size := by simp at hx; omega
    simp [hx]

theorem toByteArray_toList {b : Block} (hb : b.WellFormed) :
    b.toByteArray.data.toList = (List.range' 0 b.size).map b.get := by
  rw [toByteArray, slice_toList hb, Nat.sub_zero, Nat.min_self]

@[simp] theorem size_overwrite (b : Block) (pos : Nat) (src : ByteArray) :
    (b.overwrite pos src).size = b.size := by
  cases b with
  | whole bytes =>
    simp only [overwrite, size]
    by_cases h : pos ≤ bytes.size
    · exact Bytes.size_overwrite _ _ _ (by simp; omega)
    · have hlen := congrArg List.length
        (Bytes.overwrite_toList bytes (Bytes.slice src 0 (bytes.size - pos)) pos)
      simp only [Array.length_toList, ByteArray.size_data, List.length_append, List.length_take,
        List.length_drop, Bytes.size_slice] at hlen
      rw [hlen]
      omega
  | paged size pages => rfl

/-- Writing the bytes of one piece into its page. -/
theorem pageByte_setPage {pages : List (Nat × ByteArray)}
    (hpages : ∀ p ∈ pages, p.2.size = pageSize) (c : Chunk) (data : ByteArray)
    (hc : c.start + c.length ≤ pageSize) (hdata : data.size = c.length) (x : Nat) :
    pageByte (setPage pages c.segment (Bytes.overwrite (page pages c.segment) c.start data)) x =
      if c.offset pageShift ≤ x ∧ x < c.offset pageShift + c.length then
        data[x - c.offset pageShift]?.getD 0
      else pageByte pages x := by
  have hrange := @mem_piece_iff pageSize c.segment c.start c.length x hc
  rw [show c.offset pageShift = c.segment * pageSize + c.start from rfl]
  unfold pageByte
  rw [page_setPage]
  by_cases hx : x / pageSize = c.segment
  · have hsplit : x = c.segment * pageSize + x % pageSize := by
      rw [← hx]; exact (Nat.div_add_mod' x pageSize).symm
    rw [if_pos hx, Bytes.getD_overwrite _ _ _ _ (by rw [size_page hpages]; omega), hdata, hx]
    by_cases hin : c.start ≤ x % pageSize ∧ x % pageSize < c.start + c.length
    · rw [if_pos hin, if_pos (hrange.2 ⟨hx, hin⟩)]
      congr 2
      omega
    · rw [if_neg hin, if_neg fun h => hin (hrange.1 h).2]
  · rw [if_neg hx, if_neg fun h => hx (hrange.1 h).1]

theorem nodup_setPage {pages : List (Nat × ByteArray)} (h : (pages.map (·.1)).Nodup) (i : Nat)
    (p : ByteArray) : ((setPage pages i p).map (·.1)).Nodup := by
  simp only [setPage, List.map_cons, List.nodup_cons]
  refine ⟨?_, List.Nodup.sublist (List.filter_sublist.map _) h⟩
  simp [List.mem_filter]

/-- Writing a range of a paged block writes the pages that the range touches, piece by
    piece, as far as the block reaches. -/
theorem overwrite_paged {size : Nat} {pages : List (Nat × ByteArray)}
    (hb : (paged size pages).WellFormed) (pos : Nat) (src : ByteArray) :
    ∃ written, (paged size pages).overwrite pos src = paged size written ∧
      (∀ p ∈ written, p.2.size = pageSize) ∧ (written.map (·.1)).Nodup ∧
      ∀ x, pageByte written x =
        if pos ≤ x ∧ x < pos + min src.size (size - pos) then src[x - pos]?.getD 0
        else pageByte pages x := by
  obtain ⟨written, hfold, ⟨hsizes, hnodup⟩, hread⟩ := foldl_chunks_write pageByte
    (fun pages c data =>
      setPage pages c.segment (Bytes.overwrite (page pages c.segment) c.start data))
    (fun pages => (∀ p ∈ pages, p.2.size = pageSize) ∧ (pages.map (·.1)).Nodup) pageShift
    (pos + min src.size (size - pos))
    (fun pages c data ⟨hpages, hnodup⟩ hc _ hdata => by
      refine ⟨⟨fun p hp => ?_, nodup_setPage hnodup _ _⟩,
        pageByte_setPage hpages c data (pow_pageShift ▸ hc) hdata⟩
      rcases List.mem_cons.1 hp with rfl | hp
      · have hsize := Bytes.size_overwrite (page pages c.segment) data c.start
          (by rw [size_page hpages, hdata]; exact pow_pageShift ▸ hc)
        rw [hsize, size_page hpages]
      · exact hpages p (List.mem_filter.1 hp).1)
    src pos (min src.size (size - pos)) 0 pages (by omega) (Nat.le_refl _) ⟨hb.1, hb.2.1⟩
  refine ⟨written, by simp only [overwrite, hfold], hsizes, hnodup, fun x => ?_⟩
  rw [hread, Nat.zero_add]

/-- Writing a range of a block writes the part of it that lies inside the block. -/
theorem get_overwrite {b : Block} (hb : b.WellFormed) (pos : Nat) (src : ByteArray) (i : Nat) :
    (b.overwrite pos src).get i =
      if pos ≤ i ∧ i < pos + src.size ∧ i < b.size then src[i - pos]?.getD 0 else b.get i := by
  cases b with
  | whole bytes =>
    rw [show (whole bytes).size = bytes.size from rfl]
    simp only [overwrite, get_whole]
    by_cases h : pos ≤ bytes.size
    · rw [Bytes.getD_overwrite _ _ _ _ h, Bytes.size_slice]
      by_cases hin : pos ≤ i ∧ i < pos + min (bytes.size - pos) (src.size - 0)
      · rw [if_pos hin, if_pos (by omega), Bytes.getD_slice _ _ _ _ (by omega), Nat.zero_add]
      · rw [if_neg hin, if_neg (by omega)]
    · -- a write that starts past the end changes nothing
      have hsame : Bytes.overwrite bytes pos (Bytes.slice src 0 (bytes.size - pos)) = bytes := by
        apply ByteArray.ext
        apply Array.toList_inj.1
        rw [Bytes.overwrite_toList, List.take_of_length_le (by simp; omega)]
        simp [show bytes.size - pos = 0 by omega, Bytes.slice]
        omega
      rw [hsame, if_neg (by omega)]
  | paged size pages =>
    obtain ⟨written, hw, -, -, hread⟩ := overwrite_paged hb pos src
    rw [show (paged size pages).size = size from rfl, hw, get_paged, get_paged, hread]
    by_cases hin : pos ≤ i ∧ i < pos + min src.size (size - pos)
    · rw [if_pos (by omega), if_pos hin, if_pos ⟨hin.1, by omega, by omega⟩]
    · by_cases hi : i < size
      · rw [if_pos hi, if_neg hin, if_neg (by omega), if_pos hi]
      · rw [if_neg hi, if_neg (by omega), if_neg hi]

theorem WellFormed.overwrite {b : Block} (hb : b.WellFormed) (pos : Nat) (src : ByteArray) :
    (b.overwrite pos src).WellFormed := by
  cases b with
  | whole bytes => trivial
  | paged size pages =>
    obtain ⟨written, hw, hsizes, hnodup, hread⟩ := overwrite_paged hb pos src
    rw [hw]
    refine ⟨hsizes, hnodup, fun x hx => ?_⟩
    rw [hread, if_neg (by omega)]
    exact hb.2.2 x hx

theorem pageByte_nil (x : Nat) : pageByte [] x = 0 := by
  simp [pageByte, page, Bytes.getD_zeros]

@[simp] theorem size_zeros (n : Nat) : (zeros n).size = n := by
  unfold zeros
  split <;> simp [size]

@[simp] theorem get_zeros (n i : Nat) : (zeros n).get i = 0 := by
  unfold zeros
  split
  · exact Bytes.getD_zeros n i
  · simp [pageByte_nil]

theorem wellFormed_zeros (n : Nat) : (zeros n).WellFormed := by
  unfold zeros
  split
  · trivial
  · exact ⟨by simp, List.nodup_nil, fun x _ => pageByte_nil x⟩

@[simp] theorem size_grow (b : Block) (n : Nat) : (b.grow n).size = max b.size n := by
  cases b with
  | whole bytes =>
    simp only [grow]
    by_cases h1 : n ≤ bytes.size
    · rw [if_pos h1]
      simp only [size]
      omega
    · rw [if_neg h1]
      by_cases h2 : n ≤ wholeLimit
      · rw [if_pos h2]
        simp only [size, ByteArray.size_append, Bytes.size_zeros]
        omega
      · rw [if_neg h2, size_overwrite, size_zeros]
        simp only [size]
        omega
  | paged size pages => rfl

/-- Growing a block appends zero bytes. -/
theorem get_grow {b : Block} (hb : b.WellFormed) (n i : Nat) : (b.grow n).get i = b.get i := by
  cases b with
  | whole bytes =>
    simp only [grow]
    by_cases h1 : n ≤ bytes.size
    · rw [if_pos h1]
    · rw [if_neg h1]
      by_cases h2 : n ≤ wholeLimit
      · rw [if_pos h2, get_whole, get_whole, Bytes.getElem?_eq_toList, Bytes.getElem?_eq_toList,
          ByteArray.data_append, Array.toList_append, List.getElem?_append]
        by_cases hi : i < bytes.size
        · rw [if_pos (by simpa using hi)]
        · rw [if_neg (by simpa using hi), ← Bytes.getElem?_eq_toList, ← Bytes.getElem?_eq_toList,
            Bytes.getD_zeros, Bytes.getD_of_size_le bytes i (by omega)]
      · rw [if_neg h2, get_overwrite (wellFormed_zeros n), get_zeros, get_whole, size_zeros]
        by_cases hi : i < bytes.size
        · rw [if_pos ⟨Nat.zero_le i, by omega, by omega⟩, Nat.sub_zero]
        · rw [if_neg (by omega), Bytes.getD_of_size_le bytes i (by omega)]
  | paged size pages =>
    simp only [grow, get_paged]
    by_cases hi : i < size
    · rw [if_pos hi, if_pos (by omega)]
    · rw [if_neg hi]
      split
      · exact hb.2.2 i (by omega)
      · rfl

theorem WellFormed.grow {b : Block} (hb : b.WellFormed) (n : Nat) : (b.grow n).WellFormed := by
  cases b with
  | whole bytes =>
    simp only [Block.grow]
    split
    · trivial
    · split
      · trivial
      · exact (wellFormed_zeros n).overwrite 0 bytes
  | paged size pages => exact ⟨hb.1, hb.2.1, fun x hx => hb.2.2 x (by omega)⟩

theorem pageByte_append {done : List (Nat × ByteArray)} {k : Nat} (hk : k ∉ done.map (·.1))
    (d : ByteArray) (x : Nat) :
    pageByte (done ++ [(k, d)]) x =
      if x / pageSize = k then d[x % pageSize]?.getD 0 else pageByte done x := by
  unfold pageByte page
  rw [List.lookup_append]
  by_cases hx : x / pageSize = k
  · have hnone : done.lookup k = none :=
      List.lookup_eq_none_iff.2 fun p hp => bne_iff_ne.2 fun h => hk (List.mem_map.2 ⟨p, hp, h.symm⟩)
    simp [hx, hnone]
  · have hne : (x / pageSize == k) = false := by simp [hx]
    simp [hx, List.lookup_cons, hne]

/-- Laying the written pages of a paged block, one after the other, over zero bytes gives the
    bytes of a range of it, when each page lays the bytes of the range that it holds. -/
theorem foldl_pages (pos length : Nat) (F : Block → Nat × ByteArray → Block)
    (hF : ∀ acc k d, acc.WellFormed → acc.size = length → d.size = pageSize →
      (F acc (k, d)).WellFormed ∧ (F acc (k, d)).size = length ∧
      ∀ i, (F acc (k, d)).get i =
        if i < length ∧ (pos + i) / pageSize = k then d[(pos + i) % pageSize]?.getD 0
        else acc.get i) :
    ∀ (rest done : List (Nat × ByteArray)) (acc : Block), acc.WellFormed → acc.size = length →
      (∀ i, acc.get i = if i < length then pageByte done (pos + i) else 0) →
      ((done ++ rest).map (·.1)).Nodup → (∀ p ∈ rest, p.2.size = pageSize) →
      (rest.foldl F acc).WellFormed ∧ (rest.foldl F acc).size = length ∧
        ∀ i, (rest.foldl F acc).get i = if i < length then pageByte (done ++ rest) (pos + i) else 0
  | [], done, acc, hacc, hsize, hget, _, _ => by simpa using ⟨hacc, hsize, hget⟩
  | (k, d) :: rest, done, acc, hacc, hsize, hget, hnodup, hpages => by
    have hk : k ∉ done.map (·.1) := by
      intro hk
      simp only [List.map_append, List.map_cons] at hnodup
      exact (List.nodup_append.1 hnodup).2.2 k hk k List.mem_cons_self rfl
    obtain ⟨hacc', hsize', hget'⟩ := hF acc k d hacc hsize (hpages _ List.mem_cons_self)
    have := foldl_pages pos length F hF rest (done ++ [(k, d)]) (F acc (k, d)) hacc' hsize'
      (fun i => by
        rw [hget', hget, pageByte_append hk]
        by_cases hi : i < length
        · by_cases hpage : (pos + i) / pageSize = k
          · rw [if_pos ⟨hi, hpage⟩, if_pos hi, if_pos hpage]
          · rw [if_neg fun h => hpage h.2, if_pos hi, if_pos hi, if_neg hpage]
        · rw [if_neg fun h => hi h.1, if_neg hi, if_neg hi])
      (by simpa using hnodup) fun p hp => hpages p (List.mem_cons_of_mem _ hp)
    simpa using this

/-- A range cut out of a block holds the bytes of that range, as far as the block reaches. -/
theorem extract_spec {b : Block} (hb : b.WellFormed) (pos len : Nat) :
    (b.extract pos len).WellFormed ∧ (b.extract pos len).size = min len (b.size - pos) ∧
      ∀ i, (b.extract pos len).get i = if i < min len (b.size - pos) then b.get (pos + i) else 0 := by
  cases b with
  | whole bytes =>
    refine ⟨trivial, Bytes.size_slice bytes pos len, fun i => ?_⟩
    simp only [extract, get_whole]
    rw [show (whole bytes).size = bytes.size from rfl]
    by_cases hi : i < len
    · rw [Bytes.getD_slice _ _ _ _ hi]
      by_cases hin : i < min len (bytes.size - pos)
      · rw [if_pos hin]
      · rw [if_neg hin, Bytes.getD_of_size_le _ _ (by omega)]
    · rw [Bytes.getD_of_size_le _ _ (by simp; omega), if_neg (by omega)]
  | paged size pages =>
    rw [show (paged size pages).size = size from rfl]
    simp only [extract]
    by_cases hsmall : min len (size - pos) ≤ wholeLimit
    · rw [if_pos hsmall]
      have hlist := slice_toList hb pos (min len (size - pos))
      have hclamp : min (min len (size - pos)) (size - pos) = min len (size - pos) := by omega
      rw [show (paged size pages).size = size from rfl, hclamp] at hlist
      refine ⟨trivial, ?_, fun i => ?_⟩
      · show ((paged size pages).slice pos (min len (size - pos))).size = _
        rw [← ByteArray.size_data, ← Array.length_toList, hlist, List.length_map,
          List.length_range']
      · rw [get_whole, Bytes.getElem?_eq_toList, hlist]
        by_cases hi : i < min len (size - pos)
        · simp [hi]
        · rw [if_neg hi,
            List.getElem?_eq_none (by simp only [List.length_map, List.length_range']; omega)]
          rfl
    · rw [if_neg hsmall]
      -- the written pages are laid one after the other over zero bytes
      refine And.imp id (And.imp id fun hget i => ?_)
        (foldl_pages pos (min len (size - pos)) _ ?_ pages [] _ (wellFormed_zeros _) (size_zeros _)
          (fun i => by simp [pageByte_nil]) (by simpa using hb.2.1) hb.1)
      · rw [hget, List.nil_append, get_paged]
        by_cases hi : i < min len (size - pos)
        · rw [if_pos hi, if_pos hi, if_pos (by omega)]
        · rw [if_neg hi, if_neg hi]
      · -- a page lays the bytes of the range that it holds, and no others
        intro acc k d hacc hsize hd
        dsimp only
        split
        · next hlohi =>
          refine ⟨hacc.overwrite _ _, by rw [size_overwrite, hsize], fun i => ?_⟩
          rw [get_overwrite hacc, hsize, Bytes.size_slice, hd]
          by_cases hin : i < min len (size - pos) ∧ (pos + i) / pageSize = k
          · rw [if_pos hin, if_pos (by simp only [pageSize] at hin hlohi ⊢; omega),
              Bytes.getD_slice _ _ _ _ (by simp only [pageSize] at hin hlohi ⊢; omega)]
            congr 2
            simp only [pageSize] at hin hlohi ⊢
            omega
          · rw [if_neg hin, if_neg (by simp only [pageSize] at hin hlohi ⊢; omega)]
        · next hlohi =>
          refine ⟨hacc, hsize, fun i => ?_⟩
          rw [if_neg (by simp only [pageSize] at hlohi ⊢; omega)]

end Block

end ByteView
