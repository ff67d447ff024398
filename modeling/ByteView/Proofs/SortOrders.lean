import Mathlib
import ByteView.Proofs.SortPermutes

/-!
# A sort by a key sorts

When the comparator compares records by a key of their bytes, and the view reads and writes
every record of the area, a sort succeeds and leaves the records in order of their keys. The
proof follows the sort: a pass of the partition keeps three bands of records around the pivot's
key, and the sort of a range puts the two outer bands in order after the partition.

* `Records.Induced`: a comparator that compares records by a key, whatever the store under the
  view;
* `Records.Bands`: the invariant of a partition pass: the records scanned so far below, equal to
  and above the pivot's key, with the pivot record tracked as it moves;
* `Records.partitionFrom_run`, `Records.sortRange_run`, `Records.sortBy_run`: each succeeds, and
  leaves its bands or its records in order;
* `Records.sortBy_sorts`: a sort given a turn for each record succeeds, rearranges the records of
  its area and sorts them by key;
* `Records.byBytes_induced`: the byte comparator compares records lexicographically.
-/

namespace ByteView

namespace Records

section Sorts

variable {κ : Type} [LinearOrder κ] {key : List UInt8 → κ} {cmp : Comparator} {v : View}
  {t : Store} {width : Nat}

/-- `cmp` compares records of `width` bytes by the keys of their bytes, over every well-formed
    store of the shape of `v`'s that the adapters of `v` come to sit over. -/
def Induced (cmp : Comparator) (v : View) (width : Nat) (key : List UInt8 → κ) : Prop :=
  ∀ n t a b x y, Store.WellFormed t → Store.SameShape v.base t →
    (v.withBase t).getBytes a width = .ok x → (v.withBase t).getBytes b width = .ok y →
    cmp n (v.withBase t) a b = .ok (compare (key x.data.toList) (key y.data.toList))

/-- A record that the view accepts reads, over any well-formed store of the view's shape, as
    that store's record. -/
theorem getBytes_record (hvwf : v.base.WellFormed) (ht : t.WellFormed)
    (hshape : Store.SameShape v.base t) {s i : Nat} (h : v.Accepts (s + i * width) width) :
    (v.withBase t).getBytes (s + i * width) width =
      .ok (t.record (v.origin + s) width i).toByteArray := by
  rw [View.getBytes_withBase hvwf ht hshape h, Store.record, Nat.add_assoc]

/-- Comparing two records that the view accepts counts one comparison and compares their keys. -/
theorem compareAt_run (hcmp : Induced cmp v width key) (hvwf : v.base.WellFormed)
    (ht : t.WellFormed) (hshape : Store.SameShape v.base t) {s i j : Nat}
    (hi : v.Accepts (s + i * width) width) (hj : v.Accepts (s + j * width) width) (n : Nat) :
    (compareAt cmp (s + i * width) (s + j * width)).run ⟨v.withBase t, n⟩ =
      .ok (compare (key (t.record (v.origin + s) width i)) (key (t.record (v.origin + s) width j)))
        ⟨v.withBase t, n + 1⟩ := by
  have h := hcmp n t _ _ _ _ ht hshape (getBytes_record hvwf ht hshape hi)
    (getBytes_record hvwf ht hshape hj)
  simp only [List.toList_data_toByteArray] at h
  simp only [EStateM.run, compareAt, h]

/-- An exchange of two records that the view accepts succeeds: it exchanges them and carries the
    pivot along. -/
theorem exchange_run (hvwf : v.base.WellFormed) (ht : t.WellFormed)
    (hshape : Store.SameShape v.base t) (hw : 0 < width) {s i j : Nat}
    (hi : v.Accepts (s + i * width) width) (hj : v.Accepts (s + j * width) width) (p n : Nat) :
    ∃ t', (exchange width (s + i * width) (s + j * width) (s + p * width)).run ⟨v.withBase t, n⟩ =
        .ok (s + retarget p i j * width) ⟨v.withBase t', n⟩ ∧ t'.WellFormed ∧
      Store.SameShape v.base t' ∧
      ∀ k, t'.record (v.origin + s) width k = t.record (v.origin + s) width (retarget k j i) := by
  by_cases hij : i = j
  · subst hij
    refine ⟨t, ?_, ht, hshape, fun k => by rw [retarget_self]⟩
    rw [exchange_self, retarget_self]
  · have hne : s + i * width ≠ s + j * width := fun h =>
      hij ((Nat.mul_right_cancel_iff hw).1 (Nat.add_left_cancel h))
    rcases exchange_cases ht hshape width _ _ (s + p * width) n hne with
      ⟨e, -, hrefused⟩ | ⟨t', hrun, ht', hshape', htrades⟩
    · exact absurd ⟨hi.withBase hvwf ht hshape, hj.withBase hvwf ht hshape⟩ hrefused
    · refine ⟨t', ?_, ht', hshape.trans hshape', Store.Trades.record ?_⟩
      · rw [hrun, retarget_offset hw]
      · simpa only [Nat.add_assoc] using htrades

/-! ## The bands of a partition -/

/-- A partition pass around the key `pk` over the records `r 0, …, r (count - 1)`: the records
    below `lo` have keys below `pk`, those in `[lo, mid)` the key `pk` and those from `hi` on keys
    above it, while those in `[mid, hi)` are still to be scanned. The record `pivot` has the key
    `pk`. -/
structure Bands (key : List UInt8 → κ) (r : Nat → List UInt8) (pk : κ)
    (pivot lo mid hi count : Nat) : Prop where
  lo_le_mid : lo ≤ mid
  mid_le_hi : mid ≤ hi
  hi_le_count : hi ≤ count
  pivot_lt : pivot < count
  pivot_key : key (r pivot) = pk
  below : ∀ k, k < lo → key (r k) < pk
  equal : ∀ k, lo ≤ k → k < mid → key (r k) = pk
  above : ∀ k, hi ≤ k → k < count → pk < key (r k)

namespace Bands

variable {r : Nat → List UInt8} {pk : κ} {p lo mid hi count : Nat}

/-- Before the pass nothing is scanned. -/
theorem init (hp : p < count) : Bands key r (key (r p)) p 0 0 count count where
  lo_le_mid := Nat.le_refl 0
  mid_le_hi := Nat.zero_le _
  hi_le_count := Nat.le_refl _
  pivot_lt := hp
  pivot_key := rfl
  below := fun _ h => absurd h (Nat.not_lt_zero _)
  equal := fun _ _ h => absurd h (Nat.not_lt_zero _)
  above := fun _ h h' => absurd (Nat.lt_of_lt_of_le h' h) (Nat.lt_irrefl _)

/-- A scanned record below `pk` trades places with the first record of the equal band. -/
theorem less (hb : Bands key r pk p lo mid hi count) (hscan : mid < hi)
    (hlt : key (r mid) < pk) :
    Bands key (fun k => r (retarget k lo mid)) pk (retarget p mid lo) (lo + 1) (mid + 1) hi
      count where
  lo_le_mid := Nat.succ_le_succ hb.lo_le_mid
  mid_le_hi := hscan
  hi_le_count := hb.hi_le_count
  pivot_lt := by
    have := hb.lo_le_mid
    have := hb.hi_le_count
    exact retarget_lt hb.pivot_lt (by omega) (by omega)
  pivot_key := by
    simp only [retarget_retarget]
    exact hb.pivot_key
  below := by
    intro k hk
    have := hb.lo_le_mid
    by_cases hklo : k = lo
    · subst hklo
      rw [retarget_left]
      exact hlt
    · rw [retarget_of_ne hklo (by omega)]
      exact hb.below k (by omega)
  equal := by
    intro k hk hk'
    by_cases hkmid : k = mid
    · -- the record of the equal band that moved up
      subst hkmid
      rw [retarget_right]
      exact hb.equal lo (Nat.le_refl _) (by omega)
    · rw [retarget_of_ne (by omega) hkmid]
      exact hb.equal k (by omega) (by omega)
  above := by
    intro k hk hk'
    have := hb.lo_le_mid
    rw [retarget_of_ne (by omega) (by omega)]
    exact hb.above k hk hk'

/-- A scanned record above `pk` trades places with the last record still to be scanned. -/
theorem greater (hb : Bands key r pk p lo mid hi count) (hscan : mid < hi)
    (hgt : pk < key (r mid)) :
    Bands key (fun k => r (retarget k (hi - 1) mid)) pk (retarget p mid (hi - 1)) lo mid (hi - 1)
      count where
  lo_le_mid := hb.lo_le_mid
  mid_le_hi := by omega
  hi_le_count := by
    have := hb.hi_le_count
    omega
  pivot_lt := by
    have := hb.hi_le_count
    exact retarget_lt hb.pivot_lt (by omega) (by omega)
  pivot_key := by
    simp only [retarget_retarget]
    exact hb.pivot_key
  below := by
    intro k hk
    have := hb.lo_le_mid
    rw [retarget_of_ne (by omega) (by omega)]
    exact hb.below k hk
  equal := by
    intro k hk hk'
    rw [retarget_of_ne (by omega) (by omega)]
    exact hb.equal k hk hk'
  above := by
    intro k hk hk'
    by_cases hklast : k = hi - 1
    · subst hklast
      rw [retarget_left]
      exact hgt
    · rw [retarget_of_ne hklast (by omega)]
      exact hb.above k (by omega) hk'

/-- A scanned record equal to `pk` joins the equal band where it is. -/
theorem same (hb : Bands key r pk p lo mid hi count) (hscan : mid < hi)
    (heq : key (r mid) = pk) : Bands key r pk p lo (mid + 1) hi count where
  lo_le_mid := Nat.le_succ_of_le hb.lo_le_mid
  mid_le_hi := hscan
  hi_le_count := hb.hi_le_count
  pivot_lt := hb.pivot_lt
  pivot_key := hb.pivot_key
  below := hb.below
  equal := by
    intro k hk hk'
    by_cases hkmid : k = mid
    · rw [hkmid]
      exact heq
    · exact hb.equal k hk (by omega)
  above := hb.above

/-- The pivot lies in the bands of records not found below or above it. -/
theorem pivot_mem (hb : Bands key r pk p lo mid hi count) : lo ≤ p ∧ p < hi := by
  constructor
  · refine Nat.le_of_not_lt fun h => ?_
    have := hb.below p h
    rw [hb.pivot_key] at this
    exact lt_irrefl pk this
  · refine Nat.lt_of_not_le fun h => ?_
    have := hb.above p h hb.pivot_lt
    rw [hb.pivot_key] at this
    exact lt_irrefl pk this

/-- When nothing is left to scan, the pivot lies in the equal band, which is therefore not
    empty. -/
theorem lo_lt_hi (hb : Bands key r pk p lo hi hi count) : lo < hi := by
  have hmem := hb.pivot_mem
  omega

end Bands

/-- A pass of the partition over records that the view accepts, compared by a key, succeeds; it
    ends with the scanned part empty, so the records below the pivot's key come first, then those
    equal to it, then those above it. -/
theorem partitionFrom_run (hcmp : Induced cmp v width key) (hvwf : v.base.WellFormed)
    (hw : 0 < width) {s count : Nat} (hacc : ∀ i, i < count → v.Accepts (s + i * width) width)
    {pk : κ} (pivot lt eq gt p lo mid hi : Nat) (hp : pivot = s + p * width)
    (hlt : lt = s + lo * width) (heq : eq = s + mid * width) (hgt : gt = s + hi * width)
    (t : Store) (n : Nat) (ht : t.WellFormed) (hshape : Store.SameShape v.base t)
    (hb : Bands key (t.record (v.origin + s) width) pk p lo mid hi count) :
    ∃ lo' hi' p' t' n', (partitionFrom cmp width hw pivot lt eq gt).run ⟨v.withBase t, n⟩ =
        .ok (s + lo' * width, s + hi' * width) ⟨v.withBase t', n'⟩ ∧ t'.WellFormed ∧
      Store.SameShape v.base t' ∧ Bands key (t'.record (v.origin + s) width) pk p' lo' hi' hi' count := by
  fun_induction partitionFrom cmp width hw pivot lt eq gt generalizing p lo mid hi t n with
  | case1 pivot lt eq gt hscan ihLess ihGreater ihEqual =>
    subst hp hlt heq hgt
    have hmid : mid < hi := (record_lt_iff hw).1 hscan
    have hcount := hb.hi_le_count
    have hmid_acc := hacc mid (by omega)
    rw [run_bind, compareAt_run hcmp hvwf ht hshape hmid_acc (hacc p hb.pivot_lt), hb.pivot_key]
    dsimp only
    rcases lt_trichotomy (key (t.record (v.origin + s) width mid)) pk with hord | hord | hord
    · rw [compare_lt_iff_lt.2 hord]
      dsimp only
      obtain ⟨t', hrun, ht', hshape', hrec⟩ :=
        exchange_run hvwf ht hshape hw hmid_acc (hacc lo (by have := hb.lo_le_mid; omega)) p (n + 1)
      rw [run_bind, hrun]
      exact ihLess _ _ (lo + 1) (mid + 1) hi rfl (by rw [Nat.succ_mul]; omega)
        (by rw [Nat.succ_mul]; omega) rfl t' (n + 1) ht' hshape'
        (by rw [funext hrec]; exact hb.less hmid hord)
    · rw [compare_eq_iff_eq.2 hord]
      dsimp only
      exact ihEqual p lo (mid + 1) hi rfl rfl (by rw [Nat.succ_mul]; omega) rfl t (n + 1) ht hshape
        (hb.same hmid hord)
    · rw [compare_gt_iff_gt.2 hord]
      dsimp only
      have hlast : s + hi * width - width = s + (hi - 1) * width := by
        have : (hi - 1) * width + width = hi * width := by
          rw [← Nat.succ_mul, Nat.succ_eq_add_one, Nat.sub_add_cancel (by omega)]
        omega
      obtain ⟨t', hrun, ht', hshape', hrec⟩ :=
        exchange_run hvwf ht hshape hw hmid_acc (hacc (hi - 1) (by omega)) p (n + 1)
      rw [← hlast] at hrun
      rw [run_bind, hrun]
      exact ihGreater _ _ lo mid (hi - 1) rfl rfl rfl hlast t' (n + 1) ht' hshape'
        (by rw [funext hrec]; exact hb.greater hmid hord)
  | case2 pivot lt eq gt hdone =>
    subst hlt hgt heq
    have hmid : mid = hi := by
      have := hb.mid_le_hi
      have : ¬mid < hi := fun h => hdone ((record_lt_iff hw).2 h)
      omega
    subst hmid
    exact ⟨lo, mid, p, t, n, rfl, ht, hshape, hb⟩

/-! ## Records in order -/

/-- The keys of the records `r 0, …, r (count - 1)` never decrease. -/
def Ordered (key : List UInt8 → κ) (r : Nat → List UInt8) (count : Nat) : Prop :=
  ∀ i j, i ≤ j → j < count → key (r i) ≤ key (r j)

section Ordered

variable {r : Nat → List UInt8} {count : Nat}

theorem ordered_of_le_one (hc : count ≤ 1) : Ordered key r count := by
  intro i j hij hj
  rw [show i = j by omega]

theorem ordered_two (h : key (r 0) ≤ key (r 1)) : Ordered key r 2 := by
  intro i j hij hj
  by_cases hji : i = j
  · rw [hji]
  · rw [show i = 0 by omega, show j = 1 by omega]
    exact h

/-- Records below `pk`, then records equal to it, then records above it, with each side in order,
    are in order. -/
theorem Ordered.sides {pk : κ} {lo hi : Nat} (hhi : hi ≤ count)
    (hbelow : ∀ k, k < lo → key (r k) < pk) (hequal : ∀ k, lo ≤ k → k < hi → key (r k) = pk)
    (habove : ∀ k, hi ≤ k → k < count → pk < key (r k))
    (hleft : Ordered key r lo) (hright : Ordered key (fun k => r (hi + k)) (count - hi)) :
    Ordered key r count := by
  intro i j hij hj
  -- a record of the left side or of the equal band is at most `pk`, and one of the equal band or
  -- of the right side at least `pk`
  have hle : ∀ k, k < hi → key (r k) ≤ pk := fun k hk =>
    if h : k < lo then le_of_lt (hbelow k h) else le_of_eq (hequal k (by omega) hk)
  have hge : ∀ k, lo ≤ k → k < count → pk ≤ key (r k) := fun k hk hk' =>
    if h : k < hi then ge_of_eq (hequal k hk h) else le_of_lt (habove k (by omega) hk')
  by_cases hjlo : j < lo
  · exact hleft i j hij hjlo
  · by_cases hihi : hi ≤ i
    · have hr := hright (i - hi) (j - hi) (by omega) (by omega)
      dsimp only at hr
      rwa [Nat.add_sub_cancel' hihi, Nat.add_sub_cancel' (Nat.le_trans hihi hij)] at hr
    · exact le_trans (hle i (by omega)) (hge j (by omega) hj)

theorem Ordered.congr {r' : Nat → List UInt8} (h : Ordered key r count)
    (heq : ∀ k, k < count → r' k = r k) : Ordered key r' count := by
  intro i j hij hj
  rw [heq i (by omega), heq j hj]
  exact h i j hij hj

theorem Ordered.shift {t : Store} {pos a : Nat} (h : Ordered key (t.record (pos + a * width) width) count) :
    Ordered key (fun k => t.record pos width (a + k)) count := by
  intro i j hij hj
  have := h i j hij hj
  rwa [Store.record_shift, Store.record_shift] at this

/-- After a partition, sorting the records below the pivot's key among themselves and those
    above it among themselves sorts the range. -/
theorem Bands.ordered_of_sides {r' : Nat → List UInt8} {pk : κ} {p lo hi : Nat}
    (hb : Bands key r pk p lo hi hi count) (hlow : ∀ k, 0 ≤ k → k < 0 + lo → ∃ j, 0 ≤ j ∧ j < 0 + lo ∧ r' k = r j)
    (hhigh : ∀ k, hi ≤ k → k < hi + (count - hi) → ∃ j, hi ≤ j ∧ j < hi + (count - hi) ∧ r' k = r j)
    (hmid : ∀ k, (k < 0 ∨ 0 + lo ≤ k) → (k < hi ∨ hi + (count - hi) ≤ k) → r' k = r k)
    (hleft : Ordered key r' lo) (hright : Ordered key (fun k => r' (hi + k)) (count - hi)) :
    Ordered key r' count := by
  have hhi := hb.hi_le_count
  refine @Ordered.sides κ _ key r' count pk lo hi hhi ?_ ?_ ?_ hleft hright
  · intro k hk
    obtain ⟨j, -, hj, hrec⟩ := hlow k (Nat.zero_le k) (by omega)
    rw [hrec]
    exact hb.below j (by omega)
  · intro k hk hk'
    rw [hmid k (by omega) (by omega)]
    exact hb.equal k hk hk'
  · intro k hk hk'
    obtain ⟨j, hj, hj', hrec⟩ := hhigh k hk (by omega)
    rw [hrec]
    exact hb.above j hj (by omega)

end Ordered

/-- The sort of a range of records that the view accepts, compared by a key, succeeds and leaves
    them in order, given a turn for each record and a stack as deep: each side it sorts holds
    fewer records than the range, since the pivot's key is in neither. -/
theorem sortRange_run (hcmp : Induced cmp v width key) (hvwf : v.base.WellFormed) (hw : 0 < width)
    (frames turns start stop count : Nat) (hstop : stop = start + count * width)
    (hturns : count ≤ turns) (hpos : 0 < turns) (hframes : turns ≤ frames)
    (hacc : ∀ i, i < count → v.Accepts (start + i * width) width) (t : Store) (n : Nat)
    (ht : t.WellFormed) (hshape : Store.SameShape v.base t) :
    ∃ t' n', (sortRange cmp width hw frames turns start stop).run ⟨v.withBase t, n⟩ =
        .ok () ⟨v.withBase t', n'⟩ ∧
      t'.WellFormed ∧ Store.SameShape v.base t' ∧
      Ordered key (t'.record (v.origin + start) width) count := by
  fun_induction sortRange cmp width hw frames turns start stop generalizing count t n with
  | case1 => exact absurd hpos (Nat.lt_irrefl 0)
  | case2 => exact absurd hframes (by omega)
  | case3 frames turns start stop hsmall htwo =>
    -- two records: one comparison, and an exchange when the first is the greater
    have hcount : count = 2 := by
      apply Nat.eq_of_mul_eq_mul_right hw
      omega
    subst hcount
    have hrun := compareAt_run hcmp hvwf ht hshape (hacc 0 (by omega)) (hacc 1 (by omega)) n
    simp only [Nat.zero_mul, Nat.add_zero, Nat.one_mul] at hrun
    rw [run_bind, hrun]
    dsimp only
    by_cases hgt : compare (key (t.record (v.origin + start) width 0))
        (key (t.record (v.origin + start) width 1)) = .gt
    · obtain ⟨t', hswap, ht', hshape', hrec⟩ :=
        exchange_run hvwf ht hshape hw (hacc 0 (by omega)) (hacc 1 (by omega)) 0 (n + 1)
      simp only [Nat.zero_mul, Nat.add_zero, Nat.one_mul] at hswap
      rw [if_pos hgt, run_bind, hswap]
      refine ⟨t', n + 1, rfl, ht', hshape', ordered_two ?_⟩
      rw [hrec, hrec, retarget_right, retarget_left]
      exact le_of_lt (compare_gt_iff_gt.1 hgt)
    · rw [if_neg hgt]
      refine ⟨t, n + 1, rfl, ht, hshape, ordered_two ?_⟩
      exact le_of_not_gt fun h => hgt (compare_gt_iff_gt.2 h)
  | case4 frames turns start stop hsmall hnottwo =>
    -- at most one record
    refine ⟨t, n, rfl, ht, hshape, ordered_of_le_one ?_⟩
    exact Nat.le_of_lt_succ (Nat.lt_of_mul_lt_mul_right (show count * width < 2 * width by omega))
  | case5 frames turns start stop hlarge ihBelow ihAbove ihAbove' ihBelow' =>
    subst hstop
    have hcount : 2 < count := two_lt_of_large hlarge
    have hrecords : (start + count * width - start) / width = count := by
      rw [Nat.add_sub_cancel_left, Nat.mul_div_cancel _ hw]
    -- the partition around the middle record
    obtain ⟨lo, hi, p, t1, n1, hrun1, ht1, hshape1, hb⟩ :=
      partitionFrom_run hcmp hvwf hw hacc (start + (count - 1) / 2 * width) start start
        (start + count * width) ((count - 1) / 2) 0 0 count rfl (by simp) (by simp) rfl t n ht
        hshape (Bands.init (by omega))
    have hlohi := hb.lo_lt_hi
    have hhi := hb.hi_le_count
    rw [run_bind]
    simp only [partition, hrecords]
    rw [hrun1]
    dsimp only
    have hstop : start + count * width = start + hi * width + (count - hi) * width := by
      rw [Nat.sub_mul, Nat.add_assoc, Nat.add_sub_cancel' (Nat.mul_le_mul_right width hhi)]
    have haccLeft : ∀ i, i < lo → v.Accepts (start + i * width) width := fun i h => hacc i (by omega)
    have haccRight : ∀ i, i < count - hi → v.Accepts (start + hi * width + i * width) width := by
      intro i h
      have := hacc (hi + i) (by omega)
      rwa [Nat.add_mul, ← Nat.add_assoc] at this
    -- the sort of either side moves records only within that side
    have hmovesLeft : ∀ {f u : Nat} {t t' : Store} {n n' : Nat}, t.WellFormed →
        Store.SameShape v.base t →
        (sortRange cmp width hw f u start (start + lo * width)).run ⟨v.withBase t, n⟩ =
          .ok () ⟨v.withBase t', n'⟩ →
        Store.Moves (t.record (v.origin + start) width) (t'.record (v.origin + start) width) 0 lo := by
      intro f u t t' n n' ht hshape hrun
      have hre := (rearranging_sortRange (v := v) cmp hw f u start (start + lo * width) lo
        rfl).rearranges_of_run ht hshape hrun
      exact Store.Rearranges.moves (by rwa [Nat.zero_mul, Nat.add_zero])
    have hmovesRight : ∀ {f u : Nat} {t t' : Store} {n n' : Nat}, t.WellFormed →
        Store.SameShape v.base t →
        (sortRange cmp width hw f u (start + hi * width) (start + count * width)).run
          ⟨v.withBase t, n⟩ = .ok () ⟨v.withBase t', n'⟩ →
        Store.Moves (t.record (v.origin + start) width) (t'.record (v.origin + start) width) hi
          (count - hi) := by
      intro f u t t' n n' ht hshape hrun
      have hre := (rearranging_sortRange (v := v) cmp hw f u (start + hi * width)
        (start + count * width) (count - hi) hstop).rearranges_of_run ht hshape hrun
      exact Store.Rearranges.moves (by rwa [← Nat.add_assoc] at hre)
    -- each side holds fewer records than the range, so one turn fewer is enough for it
    have hturnsLeft : lo ≤ turns := by omega
    have hturnsRight : count - hi ≤ turns := by omega
    have hpos' : 0 < turns := by omega
    by_cases horder : start + lo * width - start < start + count * width - (start + hi * width)
    · -- the side below the pivot's key is nested, and the loop goes on with the other one
      rw [if_pos horder, run_bind]
      obtain ⟨t2, n2, hrun2, ht2, hshape2, hord2⟩ :=
        ihBelow _ lo rfl hturnsLeft hpos' (by omega) haccLeft t1 n1 ht1 hshape1
      rw [hrun2]
      dsimp only
      obtain ⟨t3, n3, hrun3, ht3, hshape3, hord3⟩ :=
        ihAbove _ (count - hi) hstop hturnsRight hpos' (by omega) haccRight t2 n2 ht2 hshape2
      refine ⟨t3, n3, hrun3, ht3, hshape3, ?_⟩
      have hleftMoves := hmovesLeft ht1 hshape1 hrun2
      have hrightMoves := hmovesRight ht2 hshape2 hrun3
      obtain ⟨hlow, hhigh, hmid⟩ := hleftMoves.disjoint hrightMoves (by omega)
      refine hb.ordered_of_sides hlow hhigh hmid ?_ ?_
      · exact hord2.congr fun k hk => hrightMoves.outside k (by omega)
      · rw [← Nat.add_assoc] at hord3
        exact hord3.shift
    · -- the side above the pivot's key is nested, and the loop goes on with the other one
      rw [if_neg horder, run_bind]
      obtain ⟨t2, n2, hrun2, ht2, hshape2, hord2⟩ :=
        ihAbove' _ (count - hi) hstop hturnsRight hpos' (by omega) haccRight t1 n1 ht1 hshape1
      rw [hrun2]
      dsimp only
      obtain ⟨t3, n3, hrun3, ht3, hshape3, hord3⟩ :=
        ihBelow' _ lo rfl hturnsLeft hpos' (by omega) haccLeft t2 n2 ht2 hshape2
      refine ⟨t3, n3, hrun3, ht3, hshape3, ?_⟩
      have hrightMoves := hmovesRight ht1 hshape1 hrun2
      have hleftMoves := hmovesLeft ht2 hshape2 hrun3
      obtain ⟨hhigh, hlow, hmid⟩ := hrightMoves.disjoint hleftMoves (by omega)
      refine hb.ordered_of_sides hlow hhigh (fun k h₁ h₂ => hmid k h₂ h₁) hord3 ?_
      rw [← Nat.add_assoc] at hord2
      exact hord2.shift.congr fun k hk => hleftMoves.outside (hi + k) (by omega)

/-- The keys of records in order are sorted as a list. -/
theorem Ordered.pairwise {pos count : Nat} (h : Ordered key (t.record pos width) count) :
    (t.records pos width count).Pairwise (fun x y => key x ≤ key y) := by
  rw [Store.records_eq_map, List.pairwise_map]
  exact List.pairwise_lt_range.imp_of_mem fun _ hj hij => h _ _ (Nat.le_of_lt hij) (List.mem_range.1 hj)

/-- A sort of whole records that the view accepts, compared by a key and given a turn for each
    record, succeeds and leaves them in order. -/
theorem sortBy_run (hvwf : v.base.WellFormed) {recordSize start length turns : Nat}
    (hcmp : Induced cmp v recordSize key) (hsize : 0 < recordSize)
    (haligned : length % recordSize = 0)
    (hacc : ∀ i, i < length / recordSize → v.Accepts (start + i * recordSize) recordSize)
    (hturns : length / recordSize ≤ turns) (n : Nat) :
    ∃ t n', (sortBy cmp recordSize start length turns).run ⟨v, n⟩ = .ok () ⟨v.withBase t, n'⟩ ∧
      t.WellFormed ∧ Store.SameShape v.base t ∧
      Ordered key (t.record (v.origin + start) recordSize) (length / recordSize) := by
  have hlength : length / recordSize * recordSize = length :=
    Nat.div_mul_cancel (Nat.dvd_of_mod_eq_zero haligned)
  unfold sortBy
  rw [dif_neg (by omega)]
  by_cases hone : length ≤ recordSize
  · -- at most one record: nothing to do
    rw [if_pos hone]
    refine ⟨v.base, n, by rw [View.withBase_base]; rfl, hvwf, Store.SameShape.refl _,
      ordered_of_le_one ?_⟩
    exact Nat.div_le_of_le_mul (by omega)
  · rw [if_neg hone, run_bind]
    -- the range check passes, since the last record is accepted
    have hlast : (length / recordSize - 1) * recordSize + recordSize = length := by
      rw [← Nat.succ_mul, Nat.succ_eq_add_one, Nat.sub_add_cancel, hlength]
      exact Nat.div_pos (by omega) hsize
    obtain ⟨bs, hbs⟩ := (hacc (length / recordSize - 1)
      (Nat.sub_lt (Nat.div_pos (by omega) hsize) Nat.one_pos)).1
    have hcheck : checkRange start length v.size = .ok () := by
      have := (checkRange_eq_ok_iff _ _ _).1 (View.checkRange_of_getBytes hbs)
      exact (checkRange_eq_ok_iff _ _ _).2 (by omega)
    have hinspect : (inspect fun w => checkRange start length w.size).run ⟨v, n⟩ =
        .ok () ⟨v, n⟩ := by
      simp only [EStateM.run, inspect, hcheck]
    rw [hinspect]
    dsimp only
    -- more than one record, so at least two turns
    have hcount : 2 ≤ length / recordSize := two_le_records haligned hone
    have hsort := sortRange_run hcmp hvwf hsize turns turns start (start + length)
      (length / recordSize) (by rw [hlength]) hturns (by omega) (Nat.le_refl _) hacc v.base n hvwf
      (Store.SameShape.refl _)
    rw [View.withBase_base] at hsort
    exact hsort

/-- A sort by a comparator that compares records by a key, of an area of whole records that the
    view reads and writes, given at least a turn for each record, succeeds: afterwards the store
    under the view holds the records of the area in some order, sorted by key, and every other
    byte where it was, under the same adapters. -/
theorem sortBy_sorts (key : List UInt8 → κ) (cmp : Comparator) (v : View)
    (hwf : v.base.WellFormed) (recordSize start length turns : Nat)
    (hcmp : Induced cmp v recordSize key) (hsize : 0 < recordSize)
    (haligned : length % recordSize = 0)
    (hacc : ∀ i, i < length / recordSize → v.Accepts (start + i * recordSize) recordSize)
    (hturns : length / recordSize ≤ turns) (n : Nat) :
    ∃ t n', (sortBy cmp recordSize start length turns).run ⟨v, n⟩ = .ok () ⟨v.withBase t, n'⟩ ∧
      v.base.Rearranges t (v.origin + start) recordSize (length / recordSize) ∧
      (t.records (v.origin + start) recordSize (length / recordSize)).Pairwise
        (fun x y => key x ≤ key y) := by
  obtain ⟨t, n', hrun, -, -, hordered⟩ := sortBy_run hwf hcmp hsize haligned hacc hturns n
  have hrun' : (sortBy cmp recordSize start length turns).run ⟨v.withBase v.base, n⟩ =
      .ok () ⟨v.withBase t, n'⟩ := by
    rw [View.withBase_base]
    exact hrun
  have hre := (rearranging_sortBy (v := v) cmp recordSize start length turns).rearranges_of_run
    hwf (Store.SameShape.refl _) hrun'
  exact ⟨t, n', hrun, hre, hordered.pairwise⟩

end Sorts

/-! ## Records in byte order -/

/-- An ordering that agrees with the order of two keys is their comparison. -/
theorem eq_compare_of {κ : Type} [LinearOrder κ] {a b : κ} {o : Ordering} (hlt : o = .lt → a < b)
    (heq : o = .eq → a = b) (hgt : o = .gt → b < a) : o = compare a b := by
  cases o with
  | lt => exact (compare_lt_iff_lt.2 (hlt rfl)).symm
  | eq => exact (compare_eq_iff_eq.2 (heq rfl)).symm
  | gt => exact (compare_gt_iff_gt.2 (hgt rfl)).symm

/-- Lexicographic comparison of bytes answers `.lt` when the values of the first are
    lexicographically below those of the second, and `.eq` only for equal bytes. -/
theorem lexCompare_cases (x y : List UInt8) :
    (Bytes.lexCompare x y = .lt → List.Lex (· < ·) (x.map UInt8.toNat) (y.map UInt8.toNat)) ∧
      (Bytes.lexCompare x y = .eq → x = y) ∧
      (Bytes.lexCompare x y = .gt → List.Lex (· < ·) (y.map UInt8.toNat) (x.map UInt8.toNat)) := by
  induction x generalizing y with
  | nil =>
    cases y with
    | nil => simp [Bytes.lexCompare]
    | cons b bs => simp [Bytes.lexCompare]
  | cons a as ih =>
    cases y with
    | nil => simp [Bytes.lexCompare]
    | cons b bs =>
      simp only [Bytes.lexCompare, List.map_cons]
      rcases Nat.lt_trichotomy a.toNat b.toNat with h | h | h
      · rw [Nat.compare_eq_lt.2 h]
        exact ⟨fun _ => List.Lex.rel h, fun h => Ordering.noConfusion h, fun h => Ordering.noConfusion h⟩
      · have hab : a = b := UInt8.toNat_inj.1 h
        subst hab
        rw [Nat.compare_eq_eq.2 rfl]
        obtain ⟨hlt, heq, hgt⟩ := ih bs
        exact ⟨fun h => List.Lex.cons (hlt h), fun h => by rw [heq h], fun h => List.Lex.cons (hgt h)⟩
      · rw [Nat.compare_eq_gt.2 h]
        exact ⟨fun h => Ordering.noConfusion h, fun h => Ordering.noConfusion h, fun _ => List.Lex.rel h⟩

theorem compareBytes_eq_lexCompare (a b : ByteArray) :
    Bytes.compareBytes a b = Bytes.lexCompare a.data.toList b.data.toList := by
  unfold Bytes.compareBytes
  split
  · rename_i heq
    have hab : a.data = b.data := by simpa [ByteArray.beq] using heq
    rw [hab, Bytes.lexCompare_self]
  · rfl

/-- The byte comparator compares records lexicographically, over any view. -/
theorem byBytes_induced (v : View) (width : Nat) :
    Induced (byBytes width) v width (fun x => x.map UInt8.toNat) := by
  intro n t a b x y _ _ hx hy
  simp only [byBytes, hx, hy, bind, Except.bind, pure, Except.pure, compareBytes_eq_lexCompare]
  obtain ⟨hlt, heq, hgt⟩ := lexCompare_cases x.data.toList y.data.toList
  exact congrArg Except.ok (eq_compare_of hlt (fun h => by rw [heq h]) hgt)

/-- Two 2-byte records seen through a window into a flat store, sorted by their bytes with two
    turns. -/
theorem sortBy_sorts_window :
    let v := View.window 1 4 (.store (.flat (Flat.ofBytes ⟨#[9, 3, 1, 2, 0, 7]⟩ .big)))
    v.base.WellFormed ∧ Induced (byBytes 2) v 2 (fun x => x.map UInt8.toNat) ∧ 0 < 2 ∧
      4 % 2 = 0 ∧ (∀ i, i < 4 / 2 → v.Accepts (0 + i * 2) 2) ∧ 4 / 2 ≤ 2 ∧
      ∃ t n', (sortBy (byBytes 2) 2 0 4 2).run ⟨v, 0⟩ = .ok () ⟨v.withBase t, n'⟩ ∧
        v.base.Rearranges t (v.origin + 0) 2 (4 / 2) ∧
        (t.records (v.origin + 0) 2 (4 / 2)).Pairwise
          (fun x y => x.map UInt8.toNat ≤ y.map UInt8.toNat) := by
  intro v
  have hacc : ∀ i, i < 4 / 2 → v.Accepts (0 + i * 2) 2 := by
    intro i hi
    refine (View.accepts_iff (v := v) trivial).2 ⟨1 + i * 2, ?_, rfl, rfl, ?_, ?_⟩
    · rcases (show i = 0 ∨ i = 1 by omega) with rfl | rfl <;> rfl
    · unfold positionLimit
      omega
    · show 1 + i * 2 + 2 ≤ 6
      omega
  exact ⟨trivial, byBytes_induced v 2, by decide, by decide, hacc, by decide,
    sortBy_sorts _ (byBytes 2) v trivial 2 0 4 2 (byBytes_induced v 2) (by decide) (by decide) hacc
      (by decide) 0⟩

end Records

end ByteView
