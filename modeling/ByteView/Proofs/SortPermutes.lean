import ByteView.Proofs.SortSteps

/-!
# A sort only rearranges records

Whatever the comparator answers, and however the sort ends, the store under the view afterwards
holds the records of the sorted area in some order and every other byte where it was. The
proofs follow the recursion of the sort: a pass of the partition is a chain of comparisons and
exchanges inside the range, and the sort of a range is partitions of shrinking subranges.

* `Records.rearranging_partitionFrom`, `Records.rearranging_sortRange`,
  `Records.rearranging_sortBy`: each of them is a `Rearranging` step over its range;
* `Records.stopsAt_sortBy`: a comparator that fails at its `k`-th call ends the sort with that
  fault, after exactly `k + 1` calls;
* `Records.sortBy_moves_only_records`: the whole contract of a sort in one statement, with the
  areas it refuses before it reads anything.
-/

namespace ByteView

namespace Records

variable {v : View} {count : Nat}

/-- Offsets of records: `start + i * width` is below `start + j * width` exactly when `i < j`. -/
theorem record_lt_iff {start width i j : Nat} (hw : 0 < width) :
    start + i * width < start + j * width ↔ i < j := by
  rw [Nat.add_lt_add_iff_left]
  exact Nat.mul_lt_mul_right hw

/-- The records of a range from its `c`-th on are a range of `count - c` records of their own. -/
theorem end_eq_split {start width c count : Nat} (hc : c ≤ count) :
    start + count * width = start + c * width + (count - c) * width := by
  rw [Nat.add_assoc, ← Nat.add_mul, Nat.add_sub_cancel' hc]

/-- A range of more than two records' bytes holds at least three records. -/
theorem two_lt_of_large {start count width : Nat}
    (hlarge : ¬start + count * width - start ≤ 2 * width) : 2 < count := by
  refine Nat.lt_of_not_le fun h => hlarge ?_
  have := Nat.mul_le_mul_right width h
  omega

/-- An area of whole records that is longer than one record holds at least two. -/
theorem two_le_records {recordSize length : Nat} (haligned : length % recordSize = 0)
    (hmore : ¬length ≤ recordSize) : 2 ≤ length / recordSize := by
  have hlength : length / recordSize * recordSize = length :=
    Nat.div_mul_cancel (Nat.dvd_of_mod_eq_zero haligned)
  refine Nat.le_of_not_lt fun h => hmore ?_
  have := Nat.mul_le_mul_right recordSize (Nat.le_of_lt_succ h)
  omega

theorem rearranging_ite {α : Type} {Q : α → Prop} {pos width : Nat} {c : Prop} [Decidable c]
    {m₁ m₂ : SortM α} (h₁ : c → Rearranging v pos width count Q m₁)
    (h₂ : ¬c → Rearranging v pos width count Q m₂) :
    Rearranging v pos width count Q (if c then m₁ else m₂) := by
  by_cases hc : c
  · rw [if_pos hc]
    exact h₁ hc
  · rw [if_neg hc]
    exact h₂ hc

theorem rearranging_dite {α : Type} {Q : α → Prop} {pos width : Nat} {c : Prop} [Decidable c]
    {m₁ : c → SortM α} {m₂ : ¬c → SortM α} (h₁ : ∀ hc, Rearranging v pos width count Q (m₁ hc))
    (h₂ : ∀ hc, Rearranging v pos width count Q (m₂ hc)) :
    Rearranging v pos width count Q (if hc : c then m₁ hc else m₂ hc) := by
  by_cases hc : c
  · rw [dif_pos hc]
    exact h₁ hc
  · rw [dif_neg hc]
    exact h₂ hc

/-- A step that rearranges a part of a range rearranges the range. -/
theorem Rearranging.widen {α : Type} {Q : α → Prop} {pos width i m : Nat} {step : SortM α}
    (h : Rearranging v (pos + i * width) width m Q step) (him : i + m ≤ count) :
    Rearranging v pos width count Q step := by
  intro t n hwf hshape
  obtain ⟨hvalue, t', hview, hwf', hshape', hre⟩ := h t n hwf hshape
  exact ⟨hvalue, t', hview, hwf', hshape', hre.widen him⟩

/-- Every exchange of the partition is inside its range, so the partition rearranges the range
    whatever the comparator answers; it ends with the bounds of two records of the range. -/
theorem rearranging_partitionFrom (cmp : Comparator) {width : Nat} (hw : 0 < width)
    {start : Nat} (pivot lt eq gt a b c : Nat) (hlt : lt = start + a * width)
    (heq : eq = start + b * width) (hgt : gt = start + c * width) (hab : a ≤ b) (hbc : b ≤ c)
    (hc : c ≤ count) :
    Rearranging v (v.origin + start) width count
      (fun r => ∃ a' c', r = (start + a' * width, start + c' * width) ∧ a' ≤ c' ∧ c' ≤ count)
      (partitionFrom cmp width hw pivot lt eq gt) := by
  fun_induction partitionFrom cmp width hw pivot lt eq gt generalizing a b c with
  | case1 pivot lt eq gt hscan ihLess ihGreater ihEqual =>
    subst hlt heq hgt
    -- the scanned record is inside the range and before the greater band
    have hbc' : b < c := (record_lt_iff hw).1 hscan
    refine Rearranging.bind (rearranging_compareAt cmp _ _) fun order _ => ?_
    cases order with
    | lt =>
      refine Rearranging.bind (rearranging_exchange rfl pivot (by omega) (by omega)) fun p _ => ?_
      exact ihLess p (a + 1) (b + 1) c (by rw [Nat.succ_mul]; omega)
        (by rw [Nat.succ_mul]; omega) rfl (by omega) (by omega) hc
    | gt =>
      have hlast : (c - 1) * width + width = c * width := by
        rw [← Nat.succ_mul, Nat.succ_eq_add_one, Nat.sub_add_cancel (by omega)]
      have hgt' : start + c * width - width = start + (c - 1) * width := by omega
      rw [hgt']
      refine Rearranging.bind (rearranging_exchange rfl pivot (by omega) (by omega)) fun p _ => ?_
      rw [← hgt']
      exact ihGreater p a b (c - 1) rfl rfl hgt' hab (by omega) (by omega)
    | eq =>
      exact ihEqual a (b + 1) c rfl (by rw [Nat.succ_mul]; omega) rfl (by omega) (by omega) hc
  | case2 pivot lt eq gt hdone =>
    subst hlt hgt
    exact rearranging_pure ⟨a, c, rfl, by omega, hc⟩

theorem rearranging_throw {α : Type} {Q : α → Prop} {pos width : Nat} (f : Fault) :
    Rearranging v pos width count Q (throw f) := by
  intro t n hwf hshape
  exact ⟨(fun _ _ h => nomatch h), t, rfl, hwf, hshape, Store.Rearranges.refl _ _ _ _⟩

/-- The sort of a range rearranges the range, whatever the comparator answers and however many
    turns and frames it is given: every side it sorts, nested or in its loop, is a part of it. -/
theorem rearranging_sortRange (cmp : Comparator) {width : Nat} (hw : 0 < width)
    (frames turns start stop count : Nat) (hstop : stop = start + count * width) :
    Rearranging v (v.origin + start) width count (fun _ => True)
      (sortRange cmp width hw frames turns start stop) := by
  fun_induction sortRange cmp width hw frames turns start stop generalizing count with
  | case1 => exact rearranging_throw _
  | case2 => exact rearranging_throw _
  | case3 frames turns start stop hsmall htwo =>
    -- two records: one comparison, and an exchange of the first with the second
    have hcount : count = 2 := by
      apply Nat.eq_of_mul_eq_mul_right hw
      omega
    subst hcount
    refine Rearranging.bind (rearranging_compareAt cmp _ _) fun order _ => ?_
    refine rearranging_ite (fun _ => ?_) (fun _ => rearranging_pure trivial)
    have hswap := @rearranging_exchange v (v.origin + start) width 2 start rfl start 0 1
      (by omega) (by omega)
    rw [Nat.zero_mul, Nat.add_zero, Nat.one_mul] at hswap
    exact Rearranging.bind hswap fun _ _ => rearranging_pure trivial
  | case4 => exact rearranging_pure trivial
  | case5 frames turns start stop hlarge ihBelow ihAbove ihAbove' ihBelow' =>
    subst hstop
    refine Rearranging.bind (rearranging_partitionFrom cmp hw _ start start _ 0 0 count
      (by omega) (by omega) rfl (by omega) (by omega) (by omega)) ?_
    rintro r ⟨a, c, rfl, hac, hc⟩
    have hafter : start + count * width = start + c * width + (count - c) * width :=
      end_eq_split hc
    -- the side before the equal band and the side after it are parts of the range
    have below : ∀ {m : SortM Unit}, Rearranging v (v.origin + start) width a (fun _ => True) m →
        Rearranging v (v.origin + start) width count (fun _ => True) m := fun h =>
      Rearranging.widen (i := 0) (by simpa using h) (by omega)
    have above : ∀ {m : SortM Unit},
        Rearranging v (v.origin + (start + c * width)) width (count - c) (fun _ => True) m →
        Rearranging v (v.origin + start) width count (fun _ => True) m := fun h => by
      rw [← Nat.add_assoc] at h
      exact h.widen (by omega)
    dsimp only
    -- whichever side is nested, the loop goes on with the other one
    refine rearranging_ite (fun _ => ?_) (fun _ => ?_)
    · exact Rearranging.bind (below (ihBelow _ a rfl)) fun _ _ => above (ihAbove _ _ hafter)
    · exact Rearranging.bind (above (ihAbove' _ _ hafter)) fun _ _ => below (ihBelow' _ a rfl)

/-- A sort rearranges the records of its area, whether it succeeds or fails. -/
theorem rearranging_sortBy (cmp : Comparator) (recordSize start length turns : Nat) :
    Rearranging v (v.origin + start) recordSize (length / recordSize) (fun _ => True)
      (sortBy cmp recordSize start length turns) := by
  unfold sortBy
  refine rearranging_dite (fun _ => rearranging_throw _) fun haligned => ?_
  refine rearranging_ite (fun _ => rearranging_pure trivial) fun _ => ?_
  refine Rearranging.bind (rearranging_inspect _) fun _ _ => ?_
  have hstop : start + length = start + length / recordSize * recordSize := by
    rw [Nat.div_mul_cancel (Nat.dvd_of_mod_eq_zero (by omega))]
  exact rearranging_sortRange cmp _ turns turns start (start + length) (length / recordSize) hstop

/-! ## A failed comparison ends the sort -/

/-- A step of a sort that, started before the comparison counted `k`, either ends without having
    made it, or ends right after it with the fault `f`. -/
def StopsAt (k : Nat) (f : Fault) {α : Type} (m : SortM α) : Prop :=
  ∀ st : Sorting, st.compares ≤ k →
    (after (m.run st)).compares ≤ k ∨ ∃ w, m.run st = .error f ⟨w, k + 1⟩

section StopsAt

variable {k : Nat} {f : Fault}

theorem stopsAt_pure {α : Type} (a : α) : StopsAt k f (pure a) :=
  fun _ h => .inl h

theorem stopsAt_throw {α : Type} (e : Fault) : StopsAt k f (throw e : SortM α) :=
  fun _ h => .inl h

theorem StopsAt.bind {α β : Type} {m : SortM α} {g : α → SortM β} (hm : StopsAt k f m)
    (hg : ∀ a, StopsAt k f (g a)) : StopsAt k f (m >>= g) := by
  intro st hst
  rw [run_bind]
  rcases hm st hst with hle | ⟨w, hrun⟩
  · cases hrun : m.run st with
    | ok a st' =>
      rw [hrun] at hle
      exact hg a st' hle
    | error e st' =>
      rw [hrun] at hle
      exact .inl hle
  · rw [hrun]
    exact .inr ⟨w, rfl⟩

theorem stopsAt_ite {α : Type} {c : Prop} [Decidable c] {m₁ m₂ : SortM α}
    (h₁ : c → StopsAt k f m₁) (h₂ : ¬c → StopsAt k f m₂) :
    StopsAt k f (if c then m₁ else m₂) := by
  by_cases hc : c
  · rw [if_pos hc]
    exact h₁ hc
  · rw [if_neg hc]
    exact h₂ hc

theorem stopsAt_dite {α : Type} {c : Prop} [Decidable c] {m₁ : c → SortM α} {m₂ : ¬c → SortM α}
    (h₁ : ∀ hc, StopsAt k f (m₁ hc)) (h₂ : ∀ hc, StopsAt k f (m₂ hc)) :
    StopsAt k f (if hc : c then m₁ hc else m₂ hc) := by
  by_cases hc : c
  · rw [dif_pos hc]
    exact h₁ hc
  · rw [dif_neg hc]
    exact h₂ hc

/-- A comparison made before the failing one counts one more; the failing one ends with its
    fault. -/
theorem stopsAt_compareAt {cmp : Comparator} (hfail : ∀ w a b, cmp k w a b = .error f)
    (a b : Nat) : StopsAt k f (compareAt cmp a b) := by
  intro st hst
  rcases Nat.lt_or_eq_of_le hst with hlt | heq
  · left
    simp only [EStateM.run, compareAt]
    split <;> exact hlt
  · right
    refine ⟨st.view, ?_⟩
    simp only [EStateM.run, compareAt, heq, hfail]

theorem stopsAt_inspect {α : Type} (g : View → Except Fault α) : StopsAt k f (inspect g) := by
  intro st hst
  left
  simp only [EStateM.run, inspect]
  split <;> exact hst

theorem stopsAt_change (g : View → Except Fault View) : StopsAt k f (change g) := by
  intro st hst
  left
  simp only [EStateM.run, change]
  split <;> exact hst

theorem stopsAt_exchange (width a b pivot : Nat) : StopsAt k f (exchange width a b pivot) := by
  unfold exchange
  dsimp only
  refine stopsAt_ite (fun _ => ?_) fun _ => stopsAt_pure _
  exact StopsAt.bind (stopsAt_inspect _) fun _ => StopsAt.bind (stopsAt_inspect _) fun _ =>
    StopsAt.bind (stopsAt_change _) fun _ => StopsAt.bind (stopsAt_change _) fun _ =>
      stopsAt_pure _

theorem stopsAt_partitionFrom {cmp : Comparator} (hfail : ∀ w a b, cmp k w a b = .error f)
    {width : Nat} (hw : 0 < width) (pivot lt eq gt : Nat) :
    StopsAt k f (partitionFrom cmp width hw pivot lt eq gt) := by
  fun_induction partitionFrom cmp width hw pivot lt eq gt with
  | case1 pivot lt eq gt hscan ihLess ihGreater ihEqual =>
    refine StopsAt.bind (stopsAt_compareAt hfail _ _) fun order => ?_
    cases order with
    | lt => exact StopsAt.bind (stopsAt_exchange _ _ _ _) ihLess
    | gt => exact StopsAt.bind (stopsAt_exchange _ _ _ _) ihGreater
    | eq => exact ihEqual
  | case2 => exact stopsAt_pure _

theorem stopsAt_sortRange {cmp : Comparator} (hfail : ∀ w a b, cmp k w a b = .error f)
    {width : Nat} (hw : 0 < width) (frames turns start stop : Nat) :
    StopsAt k f (sortRange cmp width hw frames turns start stop) := by
  fun_induction sortRange cmp width hw frames turns start stop with
  | case1 => exact stopsAt_throw _
  | case2 => exact stopsAt_throw _
  | case3 =>
    refine StopsAt.bind (stopsAt_compareAt hfail _ _) fun _ =>
      stopsAt_ite (fun _ => ?_) fun _ => stopsAt_pure _
    exact StopsAt.bind (stopsAt_exchange _ _ _ _) fun _ => stopsAt_pure _
  | case4 => exact stopsAt_pure _
  | case5 frames turns start stop hlarge ihBelow ihAbove ihAbove' ihBelow' =>
    refine StopsAt.bind (stopsAt_partitionFrom hfail hw _ _ _ _) fun r => ?_
    dsimp only
    exact stopsAt_ite (fun _ => StopsAt.bind (ihBelow _) fun _ => ihAbove _)
      fun _ => StopsAt.bind (ihAbove' _) fun _ => ihBelow' _

theorem stopsAt_sortBy {cmp : Comparator} (hfail : ∀ w a b, cmp k w a b = .error f)
    (recordSize start length turns : Nat) :
    StopsAt k f (sortBy cmp recordSize start length turns) := by
  unfold sortBy
  refine stopsAt_dite (fun _ => stopsAt_throw _) fun _ =>
    stopsAt_ite (fun _ => stopsAt_pure _) fun _ => ?_
  exact StopsAt.bind (stopsAt_inspect _) fun _ => stopsAt_sortRange hfail _ _ _ _ _

end StopsAt

/-! ## What a sort may do -/

/-- An area that is not a whole number of records is refused before anything else. -/
theorem sortBy_unaligned (cmp : Comparator) {recordSize length : Nat}
    (h : recordSize = 0 ∨ length % recordSize ≠ 0) (start turns : Nat) (st : Sorting) :
    (sortBy cmp recordSize start length turns).run st =
      .error (.unaligned length recordSize) st := by
  unfold sortBy
  rw [dif_pos h]
  rfl

/-- An area of more than one record that the view's range check refuses is refused with its
    fault, before anything is read or compared. -/
theorem sortBy_outside (cmp : Comparator) {recordSize start length : Nat} (hsize : 0 < recordSize)
    (haligned : length % recordSize = 0) (hmore : recordSize < length) (turns : Nat)
    (st : Sorting) {e : Fault} (hrange : checkRange start length st.view.size = .error e) :
    (sortBy cmp recordSize start length turns).run st = .error e st := by
  unfold sortBy
  rw [dif_neg (by omega), if_neg (by omega), run_bind]
  simp only [EStateM.run, inspect, hrange]

/-- Whatever the comparator answers, and however many turns the sort is given, a sort moves only
    whole records of its area: when it ends, with success or with a fault, and also when its
    turns run out, the store under the view holds the records of the area in some order and every
    other byte where it was, under the same adapters and in the same state. An area that is not a
    whole number of records, or of more than one record outside the view, is refused before any
    byte is read or any comparison made; and a comparison that fails ends the sort at once with
    its own fault. -/
theorem sortBy_moves_only_records (cmp : Comparator) (v : View) (hwf : v.base.WellFormed)
    (recordSize start length turns n : Nat) :
    (∃ t, (after ((sortBy cmp recordSize start length turns).run ⟨v, n⟩)).view = v.withBase t ∧
        t.WellFormed ∧ Store.SameShape v.base t ∧
        v.base.Rearranges t (v.origin + start) recordSize (length / recordSize)) ∧
      ((recordSize = 0 ∨ length % recordSize ≠ 0) →
        (sortBy cmp recordSize start length turns).run ⟨v, n⟩ =
          .error (.unaligned length recordSize) ⟨v, n⟩) ∧
      (∀ e, 0 < recordSize → length % recordSize = 0 → recordSize < length →
        checkRange start length v.size = .error e →
        (sortBy cmp recordSize start length turns).run ⟨v, n⟩ = .error e ⟨v, n⟩) ∧
      (∀ k f, n ≤ k → (∀ w a b, cmp k w a b = .error f) →
        (after ((sortBy cmp recordSize start length turns).run ⟨v, n⟩)).compares ≤ k ∨
          ∃ w, (sortBy cmp recordSize start length turns).run ⟨v, n⟩ = .error f ⟨w, k + 1⟩) := by
  refine ⟨?_, fun h => sortBy_unaligned cmp h start turns _,
    fun e hsize haligned hmore hrange => sortBy_outside cmp hsize haligned hmore turns _ hrange,
    fun k f hn hfail => stopsAt_sortBy hfail recordSize start length turns ⟨v, n⟩ hn⟩
  have hsorted := (rearranging_sortBy (v := v) cmp recordSize start length turns v.base n hwf
    (Store.SameShape.refl _)).2
  rwa [View.withBase_base] at hsorted

/-- A comparator that answers `.lt` to its first `k` calls, whatever it is asked, and then
    compares records of `width` bytes by their bytes. -/
def lessThenBytes (k width : Nat) : Comparator := fun n v a b =>
  if n < k then .ok .lt else byBytes width n v a b

/-- The contract for three one-byte records sorted by a comparator that changes its mind. -/
theorem sortBy_moves_only_records_changing :
    let v := View.store (.flat (Flat.ofBytes ⟨#[3, 2, 1]⟩ .big))
    v.base.WellFormed ∧
      (∃ t, (after ((sortBy (lessThenBytes 3 1) 1 0 3 3).run ⟨v, 0⟩)).view = v.withBase t ∧
          t.WellFormed ∧ Store.SameShape v.base t ∧ v.base.Rearranges t (v.origin + 0) 1 (3 / 1)) ∧
        ((1 = 0 ∨ 3 % 1 ≠ 0) →
          (sortBy (lessThenBytes 3 1) 1 0 3 3).run ⟨v, 0⟩ = .error (.unaligned 3 1) ⟨v, 0⟩) ∧
        (∀ e, 0 < 1 → 3 % 1 = 0 → 1 < 3 → checkRange 0 3 v.size = .error e →
          (sortBy (lessThenBytes 3 1) 1 0 3 3).run ⟨v, 0⟩ = .error e ⟨v, 0⟩) ∧
        (∀ k f, 0 ≤ k → (∀ w a b, lessThenBytes 3 1 k w a b = .error f) →
          (after ((sortBy (lessThenBytes 3 1) 1 0 3 3).run ⟨v, 0⟩)).compares ≤ k ∨
            ∃ w, (sortBy (lessThenBytes 3 1) 1 0 3 3).run ⟨v, 0⟩ = .error f ⟨w, k + 1⟩) :=
  ⟨trivial, sortBy_moves_only_records (lessThenBytes 3 1)
    (.store (.flat (Flat.ofBytes ⟨#[3, 2, 1]⟩ .big))) trivial 1 0 3 3 0⟩

/-- The first partition of `3, 2, 1` finds every record less than the pivot and sends all of them
    to one side, so the loop partitions the same range again; the comparator now compares bytes,
    and after six comparisons the records are in order. -/
example : (sortBy (lessThenBytes 3 1) 1 0 3 3).run
      ⟨.store (.flat (Flat.ofBytes ⟨#[3, 2, 1]⟩ .big)), 0⟩ =
    .ok () ⟨.store (.flat (Flat.ofBytes ⟨#[1, 2, 3]⟩ .big)), 6⟩ := by
  cbv

end Records

end ByteView
