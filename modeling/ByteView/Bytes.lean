/-!
# Byte strings

The few operations on `ByteArray` that views are built from: cutting out a range, writing a
range over another string, and comparing two strings. Comparison is lexicographic on unsigned
bytes, and a strict prefix comes first.
-/

namespace ByteView

namespace Bytes

/-- The `len` bytes of `b` starting at `pos` (fewer if `b` ends first). -/
def slice (b : ByteArray) (pos len : Nat) : ByteArray :=
  b.extract pos (pos + len)

/-- `dest` with the bytes of `src` written from `pos` on. -/
def overwrite (dest : ByteArray) (pos : Nat) (src : ByteArray) : ByteArray :=
  src.copySlice 0 dest pos src.size

/-- Lexicographic order of byte lists: the first differing byte decides, a prefix is smaller. -/
def lexCompare : List UInt8 → List UInt8 → Ordering
  | [], [] => .eq
  | [], _ :: _ => .lt
  | _ :: _, [] => .gt
  | a :: as, b :: bs =>
    match compare a.toNat b.toNat with
    | .eq => lexCompare as bs
    | o => o

/-- Lexicographic order of two byte strings; equal strings are seen at once. -/
def compareBytes (a b : ByteArray) : Ordering :=
  if ByteArray.beq a b then .eq else lexCompare a.data.toList b.data.toList

/-- `len` zero bytes. -/
def zeros (len : Nat) : ByteArray :=
  ⟨Array.replicate len 0⟩

theorem lexCompare_self (as : List UInt8) : lexCompare as as = .eq := by
  induction as with
  | nil => rfl
  | cons a as ih => simp [lexCompare, ih]

end Bytes

end ByteView
