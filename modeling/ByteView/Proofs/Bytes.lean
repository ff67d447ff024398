import ByteView.Bytes

/-!
# Byte strings, byte by byte

The stores read and write byte strings through three operations: `Bytes.slice` (the bytes of a
range, fewer where the string ends), `Bytes.overwrite` (a string laid over another) and
`Bytes.zeros`. Here each is described byte by byte, with `b[i]?.getD 0` as the byte at `i` (zero
past the end), which is the form the stores' own denotations take.
-/

namespace ByteView

namespace Bytes

theorem getElem?_eq_toList (b : ByteArray) (i : Nat) : b[i]? = b.data.toList[i]? := by
  by_cases h : i < b.size
  · rw [getElem?_pos b i h, List.getElem?_eq_getElem (by simpa using h)]
    simp
    rfl
  · rw [getElem?_neg b i h, List.getElem?_eq_none (by simpa using h)]

theorem getD_of_lt (b : ByteArray) (i : Nat) (h : i < b.size) : b[i]?.getD 0 = b.data[i] := by
  rw [getElem?_pos b i h]
  rfl

theorem getD_of_size_le (b : ByteArray) (i : Nat) (h : b.size ≤ i) : b[i]?.getD 0 = 0 := by
  rw [getElem?_neg b i (by omega)]
  rfl

/-- A slice holds the bytes of its range that the string has. -/
theorem slice_toList (b : ByteArray) (pos len : Nat) :
    (slice b pos len).data.toList =
      (List.range' pos (min len (b.size - pos))).map fun i => b[i]?.getD 0 := by
  apply List.ext_getElem
  · simp [slice]
  · intro k h1 h2
    have hk : pos + k < b.size := by simp [slice] at h1; omega
    simp [slice, getD_of_lt b (pos + k) hk]

@[simp] theorem size_slice (b : ByteArray) (pos len : Nat) :
    (slice b pos len).size = min len (b.size - pos) := by
  simp [slice]
  omega

theorem getD_slice (b : ByteArray) (pos len i : Nat) (h : i < len) :
    (slice b pos len)[i]?.getD 0 = b[pos + i]?.getD 0 := by
  rw [getElem?_eq_toList, slice_toList]
  by_cases hi : i < min len (b.size - pos)
  · simp [hi]
  · rw [List.getElem?_eq_none (by simp only [List.length_map, List.length_range']; omega),
      getD_of_size_le b _ (by omega)]
    rfl

/-- Writing a range keeps the bytes before it and after it. -/
theorem overwrite_toList (dest src : ByteArray) (pos : Nat) :
    (overwrite dest pos src).data.toList =
      dest.data.toList.take pos ++ src.data.toList ++ dest.data.toList.drop (pos + src.size) := by
  simp only [overwrite, ByteArray.copySlice_eq_append, ByteArray.data_append,
    ByteArray.data_extract, Array.toList_append, Array.toList_extract, List.extract_eq_take_drop]
  have hsrc : src.data.toList.take src.size = src.data.toList :=
    List.take_of_length_le (by simp)
  have hrest : (dest.data.toList.drop (pos + src.size)).take (dest.size - (pos + src.size)) =
      dest.data.toList.drop (pos + src.size) :=
    List.take_of_length_le (by simp)
  simp only [Nat.sub_zero, List.drop_zero, ByteArray.size_data, Nat.min_self, Nat.zero_add]
  rw [hsrc, hrest]

theorem size_overwrite (dest src : ByteArray) (pos : Nat) (h : pos + src.size ≤ dest.size) :
    (overwrite dest pos src).size = dest.size := by
  have := congrArg List.length (overwrite_toList dest src pos)
  simp at this
  omega

theorem getD_overwrite (dest src : ByteArray) (pos i : Nat) (h : pos ≤ dest.size) :
    (overwrite dest pos src)[i]?.getD 0 =
      if pos ≤ i ∧ i < pos + src.size then src[i - pos]?.getD 0 else dest[i]?.getD 0 := by
  rw [getElem?_eq_toList, getElem?_eq_toList, getElem?_eq_toList, overwrite_toList]
  have hlen : (dest.data.toList.take pos).length = pos := by simp; omega
  by_cases h1 : i < pos
  · rw [List.append_assoc, List.getElem?_append_left (by omega), List.getElem?_take_of_lt h1,
      if_neg (by omega)]
  · rw [List.append_assoc, List.getElem?_append_right (by omega), hlen]
    by_cases h2 : i < pos + src.size
    · rw [List.getElem?_append_left (by simp; omega), if_pos ⟨by omega, h2⟩]
    · rw [List.getElem?_append_right (by simp; omega), if_neg (by omega), List.getElem?_drop]
      congr 2
      simp
      omega

@[simp] theorem size_zeros (len : Nat) : (zeros len).size = len := by
  simp [zeros, ByteArray.size]

theorem getD_zeros (len i : Nat) : (zeros len)[i]?.getD 0 = 0 := by
  rw [getElem?_eq_toList]
  by_cases h : i < len
  · simp [zeros, h]
  · rw [List.getElem?_eq_none (by simp [zeros]; omega)]
    rfl

theorem foldl_append_toList {α : Type} (f : α → ByteArray) (xs : List α) (init : ByteArray) :
    (xs.foldl (fun acc x => acc ++ f x) init).data.toList =
      init.data.toList ++ xs.flatMap fun x => (f x).data.toList := by
  induction xs generalizing init with
  | nil => simp
  | cons x xs ih => simp [ih, ByteArray.data_append]

end Bytes

end ByteView
