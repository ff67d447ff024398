import Mathlib
import ByteView.Proofs.SortProgress

/-!
# Sorting records that all compare equal

When the comparator finds every two records of the area equal, the sort is one pass and nothing
more. The partition compares each record of the range with the pivot once, finds it equal and
leaves it where it is: no record is exchanged, and the band of records equal to the pivot is the
whole range, so both sides left to sort are empty. A range of two records is one comparison, and
a range of at most one record none.

* `Records.partitionFrom_all_equal`: a pass makes one comparison for each record it scans and
  changes nothing;
* `Records.sortRange_all_equal`: the sort of a range of `count` records makes `count`
  comparisons when `count ≥ 3`, one when `count = 2` and none below, and changes nothing;
* `Records.sortBy_all_equal`: the same for a sort of whole records that lie inside the view,
  which ends with the view exactly as it was. Nothing is written, so the view may as well be
  read-only.
-/

namespace ByteView

namespace Records

/-- `cmp` finds every two of the `count` records of `width` bytes from `start` equal in `v`,
    however many comparisons came before. -/
def AllEqual (cmp : Comparator) (v : View) (start width count : Nat) : Prop :=
  ∀ n i j, i < count → j < count → cmp n v (start + i * width) (start + j * width) = .ok .eq

variable {cmp : Comparator} {v : View} {start width count : Nat}

/-- A comparison of two records that compare equal counts one comparison and changes nothing. -/
theorem compareAt_all_equal (h : AllEqual cmp v start width count) {i j : Nat} (hi : i < count)
    (hj : j < count) (n : Nat) :
    (compareAt cmp (start + i * width) (start + j * width)).run ⟨v, n⟩ = .ok .eq ⟨v, n + 1⟩ := by
  simp only [EStateM.run, compareAt, h n i j hi hj]

/-- A pass of the partition over the records `[mid, hi)` that all compare equal to the pivot
    makes one comparison for each of them and changes nothing: it gives back its bounds. -/
theorem partitionFrom_all_equal (h : AllEqual cmp v start width count) (hw : 0 < width)
    {p : Nat} (hp : p < count) (pivot lt eq gt mid hi : Nat) (hpivot : pivot = start + p * width)
    (heq : eq = start + mid * width) (hgt : gt = start + hi * width) (hmid : mid ≤ hi)
    (hhi : hi ≤ count) (n : Nat) :
    (partitionFrom cmp width hw pivot lt eq gt).run ⟨v, n⟩ = .ok (lt, gt) ⟨v, n + (hi - mid)⟩ := by
  fun_induction partitionFrom cmp width hw pivot lt eq gt generalizing mid n with
  | case1 pivot lt eq gt hscan ihLess ihGreater ihEqual =>
    subst hpivot heq hgt
    have hscan' : mid < hi := (record_lt_iff hw).1 hscan
    rw [run_bind, compareAt_all_equal h (by omega) hp n]
    -- the record is equal to the pivot: it joins the equal band where it is
    dsimp only
    rw [ihEqual (mid + 1) rfl (by rw [Nat.succ_mul, Nat.add_assoc]) rfl (by omega) (n + 1)]
    congr 2
    omega
  | case2 pivot lt eq gt hdone =>
    subst heq hgt
    have hend : mid = hi := by
      have : ¬mid < hi := fun hlt => hdone ((record_lt_iff hw).2 hlt)
      omega
    subst hend
    simp only [Nat.sub_self, Nat.add_zero]
    rfl

/-- A range with no record is left at once, in one turn and one frame. -/
theorem sortRange_empty (hw : 0 < width) (frames turns s : Nat) (st : Sorting) :
    (sortRange cmp width hw (frames + 1) (turns + 1) s s).run st = .ok () st := by
  rw [sortRange, if_pos (by omega), if_neg (by omega)]
  rfl

/-- The sort of `count` records that all compare equal makes `count` comparisons when there are
    three or more, one when there are two and none below, and changes nothing. The pass and the two
    empty sides it leaves take two turns, and the nested side one frame more. -/
theorem sortRange_all_equal (h : AllEqual cmp v start width count) (hw : 0 < width)
    (frames turns n : Nat) :
    (sortRange cmp width hw (frames + 2) (turns + 2) start (start + count * width)).run ⟨v, n⟩ =
      .ok () ⟨v, n + if 3 ≤ count then count else if count = 2 then 1 else 0⟩ := by
  by_cases hsmall : count ≤ 2
  · rw [sortRange, if_pos (by have := Nat.mul_le_mul_right width hsmall; omega)]
    by_cases htwo : count = 2
    · -- two records: one comparison, which finds them equal, so no exchange
      subst htwo
      have hcmp := compareAt_all_equal h (i := 0) (j := 1) (by omega) (by omega) n
      simp only [Nat.zero_mul, Nat.add_zero, Nat.one_mul] at hcmp
      rw [if_pos (by omega), run_bind, hcmp]
      rfl
    · -- at most one record: nothing to compare
      have hone : count * width ≠ 2 * width := fun heq =>
        htwo (Nat.eq_of_mul_eq_mul_right hw heq)
      rw [if_neg (by omega), if_neg (by omega), if_neg htwo, Nat.add_zero]
      rfl
  · have hlarge : ¬(start + count * width - start ≤ 2 * width) := by
      have := Nat.mul_lt_mul_of_pos_right (show 2 < count by omega) hw
      omega
    have hrecords : (start + count * width - start) / width = count := by
      rw [Nat.add_sub_cancel_left, Nat.mul_div_cancel _ hw]
    -- one pass over all the records; both sides it leaves are empty
    have hpass := partitionFrom_all_equal h hw (p := (count - 1) / 2) (by omega)
      (start + (count - 1) / 2 * width) start start (start + count * width) 0 count rfl
      (by simp) rfl (Nat.zero_le _) (Nat.le_refl _) n
    rw [sortRange_large_run cmp hw hlarge]
    simp only [partition, hrecords]
    rw [hpass]
    dsimp only
    -- the two sides are equally empty, so the side above the pivot goes first: `[stop, stop)`,
    -- then the one below it, `[start, start)`
    rw [if_neg (by omega), run_bind, sortRange_empty hw]
    dsimp only
    rw [sortRange_empty hw, if_pos (by omega), Nat.sub_zero]

/-- A sort of whole records that lie inside the view, by a comparator that finds every two of
    them equal, makes one pass and writes nothing: it ends with the view exactly as it was, after
    `n` comparisons for `n ≥ 3` records, one for two and none for fewer. -/
theorem sortBy_all_equal {recordSize length turns : Nat} (hsize : 0 < recordSize)
    (haligned : length % recordSize = 0)
    (hfits : start + length < positionLimit ∧ start + length ≤ v.size)
    (hequal : AllEqual cmp v start recordSize (length / recordSize))
    (hturns : length / recordSize ≤ turns) (n : Nat) :
    (sortBy cmp recordSize start length turns).run ⟨v, n⟩ =
      .ok () ⟨v, n + if 3 ≤ length / recordSize then length / recordSize
        else if length / recordSize = 2 then 1 else 0⟩ := by
  have hlength : length / recordSize * recordSize = length :=
    Nat.div_mul_cancel (Nat.dvd_of_mod_eq_zero haligned)
  unfold sortBy
  rw [dif_neg (by omega)]
  by_cases hone : length ≤ recordSize
  · -- one record at most: the sort returns before it compares anything
    have hcount : length / recordSize ≤ 1 := Nat.div_le_of_le_mul (by omega)
    rw [if_pos hone, if_neg (by omega), if_neg (by omega), Nat.add_zero]
    rfl
  · rw [if_neg hone, run_bind]
    have hrange : checkRange start length v.size = .ok () :=
      (checkRange_eq_ok_iff _ _ _).2 hfits
    simp only [EStateM.run, inspect, hrange]
    -- two records at least, so two turns at least
    have htwo : 2 ≤ length / recordSize := two_le_records haligned hone
    obtain ⟨t, rfl⟩ : ∃ t, turns = t + 2 := ⟨turns - 2, by omega⟩
    have hrun := sortRange_all_equal hequal hsize t t n
    rw [hlength] at hrun
    exact hrun

/-- Three one-byte records out of order in a read-only store, sorted by a comparator that finds
    every two records equal: three comparisons, and the store is left as it was. -/
theorem sortBy_all_equal_read_only :
    let v := View.store (.flat { bytes := .ofBytes ⟨#[3, 1, 2]⟩, writable := false })
    0 < 1 ∧ 3 % 1 = 0 ∧ (0 + 3 < positionLimit ∧ 0 + 3 ≤ v.size) ∧
      AllEqual (fun _ _ _ _ => .ok .eq) v 0 1 (3 / 1) ∧ 3 / 1 ≤ 3 ∧
      (sortBy (fun _ _ _ _ => .ok .eq) 1 0 3 3).run ⟨v, 0⟩ =
        .ok () ⟨v, 0 + if 3 ≤ 3 / 1 then 3 / 1 else if 3 / 1 = 2 then 1 else 0⟩ :=
  ⟨Nat.one_pos, rfl, ⟨by decide, by decide⟩, fun _ _ _ _ _ => rfl, Nat.le_refl 3,
    sortBy_all_equal Nat.one_pos rfl ⟨by decide, by decide⟩ (fun _ _ _ _ _ => rfl)
      (Nat.le_refl 3) 0⟩

end Records

end ByteView
