/-!
# Words and byte orders

A word of `n` bytes is an unsigned number below `256 ^ n`, kept as a natural number. Its bytes
are stored least significant first in the little-endian order and most significant first in the
big-endian one; `ByteOrder.decode` and `ByteOrder.encode` go between the two forms.

A word can also be taken apart into two halves of `k` bytes each, named by where they are
stored: `first` at the lower address, `second` at the higher. `ByteOrder.join` puts a word
together from its halves and `ByteOrder.split` takes it apart. Decoding the bytes `x ++ y` of two
equal halves is joining the decoded halves, which is what lets a store decode a word that
straddles two separate pieces of memory exactly as one contiguous buffer would.

Main statements: `ofLittle_toLittle` and `toLittle_ofLittle` (the codec round trips),
`ofLittle_append` (the law of concatenation).
-/

namespace ByteView

/-- The order in which the bytes of a multi-byte word are stored. -/
inductive ByteOrder where
  /-- Most significant byte first, at the lowest address. -/
  | big
  /-- Least significant byte first. -/
  | little
  deriving DecidableEq, Repr, Inhabited

/-- The widths of the words a view reads and writes: one, two, four or eight bytes. -/
inductive Width where
  | one
  | two
  | four
  | eight
  deriving DecidableEq, Repr, Inhabited

namespace Width

/-- The number of bytes of a word of this width. -/
def bytes : Width → Nat
  | .one => 1
  | .two => 2
  | .four => 4
  | .eight => 8

/-- The width of each half of a word, a byte being its own half. -/
def half : Width → Width
  | .one => .one
  | .two => .one
  | .four => .two
  | .eight => .four

/-- Words of this width are below this bound, `256 ^ w.bytes`. -/
def bound : Width → Nat
  | .one => 256
  | .two => 65536
  | .four => 4294967296
  | .eight => 18446744073709551616

/-- The two's complement reading of an unsigned word. -/
def toSigned (w : Width) (value : Nat) : Int :=
  if 2 * value < w.bound then value else (value : Int) - w.bound

/-- The unsigned word whose two's complement reading is `value` modulo the width. -/
def ofSigned (w : Width) (value : Int) : Nat :=
  (value % (w.bound : Int)).toNat

theorem half_bytes_lt (w : Width) (h : w ≠ .one) : w.half.bytes < w.bytes := by
  cases w <;> simp_all [half, bytes]

theorem half_bytes_add (w : Width) (h : w ≠ .one) : w.half.bytes + w.half.bytes = w.bytes := by
  cases w <;> simp_all [half, bytes]

end Width

/-- The number whose little-endian bytes are `bs`. -/
def ofLittle : List UInt8 → Nat
  | [] => 0
  | b :: bs => b.toNat + 256 * ofLittle bs

/-- The `n` little-endian bytes of `value`; bytes above the `n`-th are dropped. -/
def toLittle : Nat → Nat → List UInt8
  | 0, _ => []
  | n + 1, value => UInt8.ofNat (value % 256) :: toLittle n (value / 256)

@[simp] theorem ofLittle_nil : ofLittle [] = 0 := rfl

@[simp] theorem ofLittle_cons (b : UInt8) (bs : List UInt8) :
    ofLittle (b :: bs) = b.toNat + 256 * ofLittle bs := rfl

@[simp] theorem length_toLittle (n value : Nat) : (toLittle n value).length = n := by
  induction n generalizing value with
  | zero => rfl
  | succ n ih => simp [toLittle, ih]

theorem ofLittle_lt (bs : List UInt8) : ofLittle bs < Nat.pow 256 bs.length := by
  induction bs with
  | nil => simp
  | cons b bs ih =>
    have hb := b.toNat_lt
    simp only [Nat.pow_eq] at ih
    simp only [ofLittle_cons, List.length_cons, Nat.pow_eq, Nat.pow_succ]
    omega

theorem ofLittle_toLittle (n value : Nat) :
    ofLittle (toLittle n value) = value % Nat.pow 256 n := by
  induction n generalizing value with
  | zero => simp [toLittle, Nat.mod_one]
  | succ n ih =>
    have hb : (UInt8.ofNat (value % 256)).toNat = value % 256 := by simp
    simp only [toLittle, ofLittle_cons, ih, hb, Nat.pow_eq, Nat.pow_succ]
    rw [Nat.mul_comm (256 ^ n) 256, Nat.mod_mul]

theorem toLittle_ofLittle (bs : List UInt8) : toLittle bs.length (ofLittle bs) = bs := by
  induction bs with
  | nil => rfl
  | cons b bs ih =>
    have hb := b.toNat_lt
    simp only [List.length_cons, toLittle, ofLittle_cons]
    congr 1
    · apply UInt8.toNat_inj.mp
      simp only [UInt8.toNat_ofNat']
      omega
    · have : (b.toNat + 256 * ofLittle bs) / 256 = ofLittle bs := by omega
      rw [this, ih]

theorem ofLittle_append (xs ys : List UInt8) :
    ofLittle (xs ++ ys) = ofLittle xs + Nat.pow 256 xs.length * ofLittle ys := by
  induction xs with
  | nil => simp
  | cons b bs ih =>
    simp only [List.cons_append, ofLittle_cons, ih, List.length_cons, Nat.pow_eq, Nat.pow_succ]
    rw [Nat.mul_add, ← Nat.mul_assoc, Nat.mul_comm 256 (256 ^ bs.length)]
    omega

namespace ByteOrder

/-- The other byte order. -/
def swapped : ByteOrder → ByteOrder
  | .big => .little
  | .little => .big

/-- The name of a byte order, as options and reports spell it. -/
def name : ByteOrder → String
  | .big => "big"
  | .little => "little"

/-- Reads a byte order from its name or an abbreviation, ignoring the case of ASCII letters. -/
def parse (s : String) : Except String ByteOrder :=
  let lower := s.map Char.toLower
  if lower = "big" ∨ lower = "be" ∨ lower = "big-endian" then .ok .big
  else if lower = "little" ∨ lower = "le" ∨ lower = "little-endian" then .ok .little
  else .error s!"unknown byte order: {lower}"

/-- The word stored as the bytes `bs`. -/
def decode : ByteOrder → List UInt8 → Nat
  | .little, bs => ofLittle bs
  | .big, bs => ofLittle bs.reverse

/-- The `n` bytes that store `value`, modulo `256 ^ n`. -/
def encode : ByteOrder → Nat → Nat → List UInt8
  | .little, n, value => toLittle n value
  | .big, n, value => (toLittle n value).reverse

/-- The word whose halves of `k` bytes are `first` (lower address) and `second`. -/
def join : ByteOrder → Nat → Nat → Nat → Nat
  | .big, k, first, second => first * Nat.pow 256 k + second
  | .little, k, first, second => second * Nat.pow 256 k + first

/-- The halves of `k` bytes of a word: the one stored at the lower address first. -/
def split : ByteOrder → Nat → Nat → Nat × Nat
  | .big, k, value => (value / Nat.pow 256 k % Nat.pow 256 k, value % Nat.pow 256 k)
  | .little, k, value => (value % Nat.pow 256 k, value / Nat.pow 256 k % Nat.pow 256 k)

@[simp] theorem length_encode (o : ByteOrder) (n value : Nat) : (o.encode n value).length = n := by
  cases o <;> simp [encode]

theorem decode_lt (o : ByteOrder) (bs : List UInt8) : o.decode bs < Nat.pow 256 bs.length := by
  cases o
  · simpa [decode] using ofLittle_lt bs.reverse
  · exact ofLittle_lt bs

theorem decode_encode (o : ByteOrder) (n value : Nat) :
    o.decode (o.encode n value) = value % Nat.pow 256 n := by
  cases o <;> simp [decode, encode, ofLittle_toLittle]

theorem encode_decode (o : ByteOrder) (bs : List UInt8) : o.encode bs.length (o.decode bs) = bs := by
  cases o
  · simp only [encode, decode]
    have := toLittle_ofLittle bs.reverse
    rw [List.length_reverse] at this
    rw [this, List.reverse_reverse]
  · exact toLittle_ofLittle bs

/-- Decoding two equal halves is joining their decoded values. -/
theorem decode_append (o : ByteOrder) (xs ys : List UInt8) (h : xs.length = ys.length) :
    o.decode (xs ++ ys) = o.join xs.length (o.decode xs) (o.decode ys) := by
  cases o
  · simp only [decode, join, List.reverse_append, ofLittle_append, List.length_reverse, h]
    rw [Nat.mul_comm]
    omega
  · simp only [decode, join, ofLittle_append]
    rw [Nat.mul_comm]
    omega

end ByteOrder

/-- Reverses the bytes of a word of width `w`. -/
def Width.swapBytes (w : Width) (value : Nat) : Nat :=
  ofLittle (toLittle w.bytes value).reverse

end ByteView
