import Mathlib
import ByteView.Proofs.SortProgress

/-!
# How deep a sort nests

The sort of a range partitions it, sorts the side with fewer bytes by a call nested one frame
deeper, and goes on with the other side in the loop of the same call, in the same frame. After a
partition of `n` whole records each side holds whole records and the two together at most `n`, so
the side the nested call sorts holds at most `n / 2` of them, whatever the comparator answered. A
call over `n` records therefore never nests more than `Nat.log 2 n` calls below it.

`sortRange` carries its stack: it answers `Fault.stackOverflow` when a call would nest past the
frames it was given. Every call also takes a turn, so with as many frames as turns the stack never
runs out before the turns do.

* `yields_partition_bounds`: whatever the comparator answers, a partition of whole records gives
  bounds on record boundaries, the lesser band's end before the greater band's start;
* `nested_le_half`: the side the nested call sorts holds at most half of the records;
* `sortRange_frames_congr`: two numbers of frames that both reach `Nat.log 2 n + 1`, or the
  turns, give the same run of the sort of `n` records;
* `sortRange_depth`: `Nat.log 2 n + 1` frames run the sort of `n` records as a stack as deep as
  its turns does, so the stack never overflows;
* `sortBy_turns_congr`: by a comparator that never finds a record less or greater than itself,
  the sort of `n` records with `n` turns runs as with any more, so neither guard stops it; a sort
  request gives it that many (`SortRequest.sortBy_turns`).
-/

namespace ByteView

namespace Records

/-- Whatever the comparator answers, a pass of the partition over whole records ends with bounds
    on record boundaries, the lesser band's end at or before the greater band's start. -/
theorem yields_partitionFrom_bounds (cmp : Comparator) {width : Nat} (hw : 0 < width)
    {s count : Nat} (pivot lt eq gt a b c : Nat) (hlt : lt = s + a * width)
    (heq : eq = s + b * width) (hgt : gt = s + c * width) (hab : a ≤ b) (hbc : b ≤ c)
    (hc : c ≤ count) :
    Yields (fun r => ∃ a' c', r = (s + a' * width, s + c' * width) ∧ a' ≤ c' ∧ c' ≤ count)
      (partitionFrom cmp width hw pivot lt eq gt) := by
  fun_induction partitionFrom cmp width hw pivot lt eq gt generalizing a b c with
  | case1 pivot lt eq gt hscan ihLess ihGreater ihEqual =>
    subst hlt heq hgt
    have hbc' : b < c := (record_lt_iff hw).1 hscan
    refine Yields.bind (yields_trivial _) fun order _ => ?_
    cases order with
    | lt =>
      refine Yields.bind (yields_trivial _) fun p _ => ?_
      exact ihLess p (a + 1) (b + 1) c (by rw [Nat.succ_mul]; omega)
        (by rw [Nat.succ_mul]; omega) rfl (by omega) (by omega) hc
    | gt =>
      have hlast : (c - 1) * width + width = c * width := by
        rw [← Nat.succ_mul, Nat.succ_eq_add_one, Nat.sub_add_cancel (by omega)]
      refine Yields.bind (yields_trivial _) fun p _ => ?_
      exact ihGreater p a b (c - 1) rfl rfl (by omega) hab (by omega) (by omega)
    | eq =>
      exact ihEqual a (b + 1) c rfl (by rw [Nat.succ_mul]; omega) rfl (by omega) (by omega) hc
  | case2 pivot lt eq gt hdone =>
    subst hlt hgt
    exact yields_pure ⟨a, c, rfl, by omega, hc⟩

/-- Whatever the comparator answers, a partition of `count` whole records gives bounds on record
    boundaries, the lesser band's end at or before the greater band's start. -/
theorem yields_partition_bounds (cmp : Comparator) {width : Nat} (hw : 0 < width)
    (start count : Nat) :
    Yields (fun r => ∃ a c, r = (start + a * width, start + c * width) ∧ a ≤ c ∧
      c ≤ count) (partition cmp width hw start (start + count * width)) := by
  unfold partition
  exact yields_partitionFrom_bounds cmp hw _ start start (start + count * width) 0 0 count
    (by simp) (by simp) rfl (Nat.le_refl 0) (Nat.zero_le _) (Nat.le_refl _)

/-- A side of at most half of the records of a range lies one level lower in the halving. -/
theorem log_lt_of_le_half {m count : Nat} (hm : m ≤ count / 2) (hcount : 2 ≤ count) :
    Nat.log 2 m < Nat.log 2 count := by
  have hmono : Nat.log 2 m ≤ Nat.log 2 (count / 2) := Nat.log_mono_right hm
  have hhalf : Nat.log 2 (count / 2) = Nat.log 2 count - 1 := Nat.log_div_base 2 count
  have hpos : 0 < Nat.log 2 count := Nat.log_pos (by norm_num) hcount
  omega

/-- Of the two sides of a partition of `count` records, the one the nested call sorts (the lesser
    side when it has fewer bytes than the greater, the greater side otherwise) holds at most half
    of the records. -/
theorem nested_le_half {width : Nat} (hw : 0 < width) (start : Nat) {a c count : Nat}
    (hac : a ≤ c) (hc : c ≤ count) :
    (if start + a * width - start < start + count * width - (start + c * width) then a
      else count - c) ≤ count / 2 := by
  have hright : start + count * width - (start + c * width) = (count - c) * width := by
    rw [Nat.sub_mul, Nat.add_sub_add_left]
  rw [Nat.add_sub_cancel_left, hright]
  split
  · next hlt =>
    have := (Nat.mul_lt_mul_right hw).1 hlt
    omega
  · next hge =>
    have : ¬a < count - c := fun h => hge ((Nat.mul_lt_mul_right hw).2 h)
    omega

/-- Two numbers of frames that both reach `Nat.log 2 count + 1`, or the turns, give the same run of
    the sort of `count` records: the nested call sorts at most half of the records, one level lower
    in the halving, and the loop goes on in the same frame with fewer. The stack is never what
    stops such a run. -/
theorem sortRange_frames_congr (cmp : Comparator) {width : Nat} (hw : 0 < width) (turns : Nat) :
    ∀ frames frames' start count,
      min turns (Nat.log 2 count + 1) ≤ frames → min turns (Nat.log 2 count + 1) ≤ frames' →
      sortRange cmp width hw frames turns start (start + count * width) =
        sortRange cmp width hw frames' turns start (start + count * width) := by
  -- induction on the turns: each call, nested or in the loop, takes one
  induction turns with
  | zero => intro frames frames' start count _ _; rfl
  | succ turns ih =>
  intro frames frames' start count hframes hframes'
  obtain ⟨f, rfl⟩ : ∃ f, frames = f + 1 := ⟨frames - 1, by omega⟩
  obtain ⟨f', rfl⟩ : ∃ f', frames' = f' + 1 := ⟨frames' - 1, by omega⟩
  by_cases hsmall : start + count * width - start ≤ 2 * width
  · exact sortRange_small cmp hw hsmall f turns f' turns
  have hcount : 2 ≤ count := Nat.le_of_lt (two_lt_of_large hsmall)
  refine run_ext fun st => ?_
  rw [sortRange_large_run cmp hw hsmall, sortRange_large_run cmp hw hsmall]
  cases hpart : (partition cmp width hw start (start + count * width)).run st with
  | error e s => rfl
  | ok x s =>
  obtain ⟨a, c, rfl, hac, hc⟩ := yields_partition_bounds cmp hw start count st x s hpart
  dsimp only
  have hhalf := nested_le_half hw start hac hc
  have hstop : start + count * width = start + c * width + (count - c) * width := end_eq_split hc
  -- the side the loop goes on with holds no more records than the range
  have hlogBelow : Nat.log 2 a ≤ Nat.log 2 count := Nat.log_mono_right (by omega)
  have hlogAbove : Nat.log 2 (count - c) ≤ Nat.log 2 count := Nat.log_mono_right (by omega)
  have habove : ∀ g g', min turns (Nat.log 2 (count - c) + 1) ≤ g →
      min turns (Nat.log 2 (count - c) + 1) ≤ g' →
      sortRange cmp width hw g turns (start + c * width) (start + count * width) =
        sortRange cmp width hw g' turns (start + c * width) (start + count * width) := by
    intro g g' hg hg'
    rw [hstop]
    exact ih g g' (start + c * width) (count - c) hg hg'
  split
  · next hside =>
    -- the lesser side is nested one frame deeper, and lies one level lower in the halving
    rw [if_pos hside] at hhalf
    have hlog := log_lt_of_le_half hhalf hcount
    rw [ih f f' start a (by omega) (by omega), habove (f + 1) (f' + 1) (by omega) (by omega)]
  · next hside =>
    rw [if_neg hside] at hhalf
    have hlog := log_lt_of_le_half hhalf hcount
    rw [habove f f' (by omega) (by omega), ih (f + 1) (f' + 1) start a (by omega) (by omega)]

/-- The sort of a range of `count` records nests at most `Nat.log 2 count + 1` calls of the sort of
    a range, the first one included: with that many frames it runs as with a stack as deep as its
    turns, which never overflows, whatever the comparator answers. -/
theorem sortRange_depth (cmp : Comparator) {width : Nat} (hw : 0 < width)
    (turns start count : Nat) :
    sortRange cmp width hw (Nat.log 2 count + 1) turns start (start + count * width) =
      sortRange cmp width hw turns turns start (start + count * width) :=
  sortRange_frames_congr cmp hw turns _ _ start count (Nat.min_le_right _ _)
    (Nat.min_le_left _ _)

/-- Three one-byte records compared byte by byte are sorted within `Nat.log 2 3 + 1 = 2` frames. -/
theorem sortRange_depth_three_records :
    0 < 1 ∧ sortRange (byBytes 1) 1 Nat.one_pos (Nat.log 2 3 + 1) 3 0 (0 + 3 * 1) =
      sortRange (byBytes 1) 1 Nat.one_pos 3 3 0 (0 + 3 * 1) :=
  ⟨Nat.one_pos, sortRange_depth (byBytes 1) Nat.one_pos 3 0 3⟩

/-- One frame is too few for three records: the partition of `3, 1, 2` leaves an empty lesser side,
    and the call that sorts it would be a second frame. -/
example : (sortRange (byBytes 1) 1 Nat.one_pos 1 3 0 3).run
      ⟨.store (.flat (Flat.ofBytes ⟨#[3, 1, 2]⟩ .big)), 0⟩ =
    .error .stackOverflow ⟨.store (.flat (Flat.ofBytes ⟨#[1, 2, 3]⟩ .big)), 3⟩ := by
  cbv

/-- By a comparator that never finds a record less or greater than itself, the sort of `count`
    records with `count` turns, and as many frames, runs as with any more: neither the turns nor
    the stack stops it. -/
theorem sortBy_turns_congr {cmp : Comparator} (hcmp : SelfEqual cmp)
    (recordSize start length turns turns' : Nat) (hturns : length / recordSize ≤ turns)
    (hle : turns ≤ turns') :
    sortBy cmp recordSize start length turns' = sortBy cmp recordSize start length turns := by
  unfold sortBy
  split
  · rfl
  next hsize =>
  split
  · rfl
  next hmany =>
  have hw : 0 < recordSize := by omega
  have hcount := two_le_records (by omega) hmany
  obtain ⟨count, rfl⟩ : ∃ count, length = count * recordSize :=
    ⟨length / recordSize, (Nat.div_mul_cancel (Nat.dvd_of_mod_eq_zero (by omega))).symm⟩
  rw [Nat.mul_div_cancel _ hw] at hturns hcount
  congr 1
  funext _
  rw [sortRange_turns_congr hcmp hw turns' turns turns' start count hturns (by omega) hle]
  exact sortRange_frames_congr cmp hw turns turns' turns start count (by omega) (by omega)

end Records

namespace Session

/-- A sort request gives its sort a turn for each record of the area, and a stack as deep: the
    sort then runs as it does with any more of either, so neither stops it. -/
theorem SortRequest.sortBy_turns (r : SortRequest) (length turns : Nat)
    (hturns : length / r.recordSize ≤ turns) :
    Records.sortBy r.comparator r.recordSize r.start length turns =
      Records.sortBy r.comparator r.recordSize r.start length (length / r.recordSize) :=
  Records.sortBy_turns_congr r.selfEqual_comparator _ _ _ _ _ (Nat.le_refl _) hturns

end Session

end ByteView
