import ByteView.Word

/-!
# Words taken apart

A word of `k + k` bytes is stored as two words of `k` bytes, its halves: `ByteOrder.split`
gives their values and `ByteOrder.join` puts them back. This module shows that the two agree
with the byte codec, for both byte orders, so that writing or reading the halves of a word at
adjacent places is writing or reading the word itself.

* `toLittle_append`: the little-endian bytes of a word are those of its low part followed by
  those of its high part;
* `ByteOrder.encode_halves`: the bytes of a word are the bytes of its halves, in the order of
  their addresses;
* `ByteOrder.decode_single`: a single byte decodes as itself in both orders;
* `ByteOrder.join_split`, `ByteOrder.split_join`: joining and splitting undo each other on words
  of `k + k` bytes and halves of `k`;
* `ByteOrder.halves_agree`: at the widths of two, four and eight bytes, in both orders, reading a
  word is joining the reads of the two halves of its bytes, the halves of a word are the reads of
  the two halves of its bytes, and splitting and joining are inverse (`ByteOrder.HalvesAgree`).
-/

namespace ByteView

/-- `i * size + r` with `r < size` lies in part `i` of parts of `size`, at `r`: the place of a
    position in its segment, and the halves of a joined word. -/
theorem div_mod_of_lt {size i r : Nat} (h : r < size) :
    (i * size + r) / size = i ∧ (i * size + r) % size = r := by
  constructor
  · rw [Nat.add_comm, Nat.add_mul_div_right _ _ (by omega), Nat.div_eq_of_lt h, Nat.zero_add]
  · rw [Nat.add_comm, Nat.add_mul_mod_self_right, Nat.mod_eq_of_lt h]

/-- Words of a width are the numbers its bytes can store. -/
theorem Width.bound_eq (w : Width) : w.bound = Nat.pow 256 w.bytes := by
  cases w <;> rfl

/-- The bytes of a word only depend on the word modulo the bytes' range. -/
theorem toLittle_mod (n value : Nat) : toLittle n (value % Nat.pow 256 n) = toLittle n value := by
  have h := toLittle_ofLittle (toLittle n value)
  rwa [length_toLittle, ofLittle_toLittle] at h

theorem toLittle_append (m n value : Nat) :
    toLittle (m + n) value = toLittle m value ++ toLittle n (value / Nat.pow 256 m) := by
  induction m generalizing value with
  | zero => simp [toLittle]
  | succ m ih =>
    rw [Nat.add_right_comm, toLittle, toLittle, ih, Nat.div_div_eq_div_mul]
    simp only [Nat.pow_eq, Nat.pow_succ, Nat.mul_comm, List.cons_append]

namespace ByteOrder

/-- The bytes of a word of `k + k` bytes are the bytes of the half stored first followed by
    those of the half stored second. -/
theorem encode_halves (o : ByteOrder) (k value : Nat) :
    o.encode (k + k) value = o.encode k (o.split k value).1 ++ o.encode k (o.split k value).2 := by
  cases o
  · simp only [encode, split, toLittle_append, List.reverse_append, toLittle_mod]
  · simp only [encode, split, toLittle_append, toLittle_mod]

/-- A single byte is a word of its own in both orders. -/
theorem decode_single (o : ByteOrder) (b : UInt8) : o.decode [b] = b.toNat := by
  cases o <;> simp [decode]

/-- The single byte that stores a value is the value modulo 256. -/
theorem encode_one (o : ByteOrder) (value : Nat) : o.encode 1 value = [UInt8.ofNat value] := by
  have hbyte : UInt8.ofNat (value % 256) = UInt8.ofNat value := by
    apply UInt8.toNat_inj.mp
    simp
  cases o <;> simp [encode, toLittle, hbyte]

/-- One byte stores a value alike in both orders. -/
theorem decode_of_length_one (o o' : ByteOrder) {bs : List UInt8} (h : bs.length = 1) :
    o.decode bs = o'.decode bs := by
  obtain ⟨b, rfl⟩ := List.length_eq_one_iff.1 h
  rw [decode_single, decode_single]

/-! ## Halves -/

/-- Both halves of a word are words of `k` bytes. -/
theorem split_lt (o : ByteOrder) (k value : Nat) :
    (o.split k value).1 < Nat.pow 256 k ∧ (o.split k value).2 < Nat.pow 256 k := by
  have hpos : 0 < Nat.pow 256 k := Nat.pow_pos (by decide)
  cases o <;> exact ⟨Nat.mod_lt _ hpos, Nat.mod_lt _ hpos⟩

/-- Joining the halves of a word gives back the word, modulo the range of its `k + k` bytes. -/
theorem join_split (o : ByteOrder) (k value : Nat) :
    o.join k (o.split k value).1 (o.split k value).2 = value % Nat.pow 256 (k + k) := by
  -- in both orders the half put at the higher place is the one taken from `value / 256 ^ k`
  have hjoin : o.join k (o.split k value).1 (o.split k value).2 =
      value % Nat.pow 256 k + Nat.pow 256 k * (value / Nat.pow 256 k % Nat.pow 256 k) := by
    cases o <;> simp only [join, split] <;> rw [Nat.mul_comm, Nat.add_comm]
  rw [hjoin]
  simp only [Nat.pow_eq, Nat.pow_add, Nat.mod_mul]

/-- Halves of `k` bytes are what splitting their join gives. -/
theorem split_join (o : ByteOrder) {k first second : Nat} (hfirst : first < Nat.pow 256 k)
    (hsecond : second < Nat.pow 256 k) : o.split k (o.join k first second) = (first, second) := by
  cases o with
  | big =>
    have hplace := div_mod_of_lt (i := first) hsecond
    simp only [join, split, hplace.1, hplace.2, Nat.mod_eq_of_lt hfirst]
  | little =>
    have hplace := div_mod_of_lt (i := second) hfirst
    simp only [join, split, hplace.1, hplace.2, Nat.mod_eq_of_lt hsecond]

/-- The halves of a word are the words stored in the first and in the last `k` of its bytes. -/
theorem split_eq_decode_encode (o : ByteOrder) (k value : Nat) :
    o.split k value = (o.decode ((o.encode (k + k) value).take k),
      o.decode ((o.encode (k + k) value).drop k)) := by
  obtain ⟨hfirst, hsecond⟩ := split_lt o k value
  rw [encode_halves, List.take_left' (length_encode o k _), List.drop_left' (length_encode o k _),
    decode_encode, decode_encode, Nat.mod_eq_of_lt hfirst, Nat.mod_eq_of_lt hsecond]

/-- Halving a word of width `w` in the order `o` agrees with the codec of `w`, so that a word
    can be read or written as its two halves in place of its bytes. At width two the halves are
    single bytes, which read as themselves (`decode_single`). -/
structure HalvesAgree (o : ByteOrder) (w : Width) : Prop where
  /-- A word read from its bytes joins the words read from the two halves of the bytes. -/
  read_halves : ∀ bs : List UInt8, bs.length = w.bytes →
    o.decode bs = o.join w.half.bytes (o.decode (bs.take w.half.bytes))
      (o.decode (bs.drop w.half.bytes))
  /-- The halves of a word are the words read from the two halves of its bytes. -/
  split_halves : ∀ value, o.split w.half.bytes value =
    (o.decode ((o.encode w.bytes value).take w.half.bytes),
      o.decode ((o.encode w.bytes value).drop w.half.bytes))
  /-- Joining the halves of a word gives the word back. -/
  join_split : ∀ value, value < w.bound →
    o.join w.half.bytes (o.split w.half.bytes value).1 (o.split w.half.bytes value).2 = value
  /-- Splitting the join of two halves gives the halves back. -/
  split_join : ∀ first second, first < w.half.bound → second < w.half.bound →
    o.split w.half.bytes (o.join w.half.bytes first second) = (first, second)

/-- At every width above a byte and in both orders, a word read or written as its two halves is
    read or written as its bytes, and splitting and joining undo each other. -/
theorem halves_agree (o : ByteOrder) (w : Width) (h : w ≠ .one) : o.HalvesAgree w := by
  have hhalf := Width.half_bytes_add w h
  refine ⟨fun bs hbs => ?_, fun value => ?_, fun value hvalue => ?_,
    fun first second hfirst hsecond => ?_⟩
  · -- the bytes are cut into two runs of `w.half.bytes`
    have htake : (bs.take w.half.bytes).length = w.half.bytes := by simp; omega
    have hdrop : (bs.drop w.half.bytes).length = w.half.bytes := by simp; omega
    have hjoin := decode_append o _ _ (htake.trans hdrop.symm)
    rwa [List.take_append_drop, htake] at hjoin
  · rw [← hhalf]
    exact split_eq_decode_encode o _ value
  · rw [join_split, hhalf, ← Width.bound_eq, Nat.mod_eq_of_lt hvalue]
  · rw [Width.bound_eq] at hfirst hsecond
    exact split_join o hfirst hsecond

/-- A word of eight bytes halves alike in the little-endian order. -/
theorem halves_agree_eight : Width.eight ≠ .one ∧ ByteOrder.little.HalvesAgree .eight :=
  ⟨by decide, halves_agree .little .eight (by decide)⟩

end ByteOrder

/-- Reversing the bytes of a word read in one order reads them in the other. -/
theorem Width.swapBytes_decode (w : Width) (o : ByteOrder) {bs : List UInt8}
    (h : bs.length = w.bytes) : w.swapBytes (o.decode bs) = o.swapped.decode bs := by
  cases o with
  | big =>
    have hrev : toLittle w.bytes (ofLittle bs.reverse) = bs.reverse := by
      have := toLittle_ofLittle bs.reverse
      rwa [List.length_reverse, h] at this
    simp only [Width.swapBytes, ByteOrder.decode, ByteOrder.swapped, hrev, List.reverse_reverse]
  | little =>
    have hbytes : toLittle w.bytes (ofLittle bs) = bs := by
      have := toLittle_ofLittle bs
      rwa [h] at this
    simp only [Width.swapBytes, ByteOrder.decode, ByteOrder.swapped, hbytes]

/-- The bytes of a word with its bytes reversed are the word's bytes in the other order. -/
theorem Width.encode_swapBytes (w : Width) (o : ByteOrder) (value : Nat) :
    o.encode w.bytes (w.swapBytes value) = o.swapped.encode w.bytes value := by
  have hrev : toLittle w.bytes (w.swapBytes value) = (toLittle w.bytes value).reverse := by
    have := toLittle_ofLittle (toLittle w.bytes value).reverse
    rwa [List.length_reverse, length_toLittle] at this
  cases o <;> simp only [ByteOrder.encode, ByteOrder.swapped, hrev, List.reverse_reverse]

end ByteView
