import ByteView.Fault

/-!
# Ranges of positions

Positions, lengths and sizes are 64-bit words. An access of `length` bytes at `pos` fits a view
of `size` bytes exactly when `pos + length ≤ size` and the sum does not leave the 64-bit words.

The check takes a fast path first: legal positions, lengths and sizes stay below `2 ^ 63`, so the
four terms `pos`, `length`, `pos + length` and `size - length - pos`, the last two computed in
wrapping 64-bit arithmetic, are all below `2 ^ 63` for an access that fits (`rangeTerms`). When
one of them is not, the exact check (`checkExact`) decides, and says which end is wrong: a start
past the end is `positionOutOfRange`, anything else (a start inside with too many bytes, or a sum
that a 64-bit word cannot hold) is `lengthOutOfRange`.

* `checkRange_eq`: the fast path never accepts an access the exact check refuses, whatever the
  three numbers; so `checkRange` is the exact check.
-/

namespace ByteView

/-- One more than the largest 64-bit position: `2 ^ 64`. -/
def positionLimit : Nat := 18446744073709551616

/-- The smallest 64-bit word with its top bit set: `2 ^ 63`. -/
def signBit : Nat := 9223372036854775808

/-- `a + b` in wrapping 64-bit arithmetic. -/
def wrapAdd (a b : Nat) : Nat := (a + b) % positionLimit

/-- `a - b` in wrapping 64-bit arithmetic. -/
def wrapSub (a b : Nat) : Nat := (a + (positionLimit - b % positionLimit)) % positionLimit

/-- The terms of the fast path, together: all of them are below `signBit` exactly when this is. -/
def rangeTerms (pos length size : Nat) : Nat :=
  pos ||| length ||| wrapAdd pos length ||| wrapSub (wrapSub size length) pos

/-- The exact check: the start must not pass the end, and the end must be a 64-bit word inside
    `size`. -/
def checkExact (pos length size : Nat) : Except Fault Unit :=
  if size < pos then .error (.positionOutOfRange pos size)
  else if pos + length < positionLimit ∧ pos + length ≤ size then .ok ()
  else .error (.lengthOutOfRange pos length size)

/-- Checks that `length` bytes at `pos` lie inside `size` bytes: at once when every term of the
    fast path is below `signBit`, else by the exact check. -/
def checkRange (pos length size : Nat) : Except Fault Unit :=
  if rangeTerms pos length size < signBit then .ok () else checkExact pos length size

/-- Checks that a value of `width` bytes at `pos` lies inside `size` bytes. -/
def checkAccess (pos width size : Nat) : Except Fault Unit :=
  checkRange pos width size

/-- A join of numbers has the top bit of a 64-bit word clear exactly when both have. -/
theorem or_lt_signBit_iff {a b : Nat} : a ||| b < signBit ↔ a < signBit ∧ b < signBit :=
  ⟨fun h => ⟨Nat.lt_of_le_of_lt Nat.left_le_or h, Nat.lt_of_le_of_lt Nat.right_le_or h⟩,
    fun h => by
      have joined : a ||| b < 2 ^ 63 := Nat.or_lt_two_pow h.1 h.2
      exact joined⟩

/-- When the fast path accepts, the access fits. -/
theorem fits_of_rangeTerms_lt {pos length size : Nat}
    (h : rangeTerms pos length size < signBit) :
    pos + length < positionLimit ∧ pos + length ≤ size := by
  simp only [rangeTerms, or_lt_signBit_iff] at h
  obtain ⟨⟨⟨hpos, hlength⟩, hsum⟩, hrest⟩ := h
  simp only [wrapAdd, wrapSub, positionLimit, signBit] at hpos hlength hsum hrest ⊢
  omega

/-- The range check is the exact check: the fast path only ever accepts accesses that fit. -/
theorem checkRange_eq_checkExact (pos length size : Nat) :
    checkRange pos length size = checkExact pos length size := by
  unfold checkRange
  split
  · next h =>
    have fits := fits_of_rangeTerms_lt h
    unfold checkExact
    rw [if_neg (by omega), if_pos fits]
  · rfl

/-- The range check accepts exactly the accesses that end inside `size` as 64-bit words. -/
theorem checkRange_eq_ok_iff (pos length size : Nat) :
    checkRange pos length size = .ok () ↔ pos + length < positionLimit ∧ pos + length ≤ size := by
  rw [checkRange_eq_checkExact]
  unfold checkExact
  split
  · simp only [reduceCtorEq, false_iff]
    omega
  · split <;> simp_all

/-- Ranges are checked exactly: an access is accepted when it ends inside `size` without leaving
    the 64-bit words; otherwise a start past the end is `positionOutOfRange` and any other miss,
    an overflowing end included, is `lengthOutOfRange`. Accesses of a value check the same way
    with its width as the length. -/
theorem checkRange_eq (pos length size : Nat) :
    checkRange pos length size =
        (if pos + length < positionLimit ∧ pos + length ≤ size then .ok ()
        else if size < pos then .error (.positionOutOfRange pos size)
        else .error (.lengthOutOfRange pos length size)) ∧
      checkAccess pos length size =
        (if pos + length < positionLimit ∧ pos + length ≤ size then .ok ()
        else if size < pos then .error (.positionOutOfRange pos size)
        else .error (.lengthOutOfRange pos length size)) := by
  have verdict : checkRange pos length size =
      (if pos + length < positionLimit ∧ pos + length ≤ size then .ok ()
      else if size < pos then .error (.positionOutOfRange pos size)
      else .error (.lengthOutOfRange pos length size)) := by
    rw [checkRange_eq_checkExact]
    unfold checkExact
    split
    · rw [if_neg (by omega)]
    · rfl
  exact ⟨verdict, verdict⟩

end ByteView
