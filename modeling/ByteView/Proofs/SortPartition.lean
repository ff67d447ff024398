import Mathlib
import ByteView.Proofs.SortOrders

/-!
# The contract of a partition

A partition scans its range once, one record per turn of its loop. A turn compares the record at
`eq` with the pivot record and, by the answer, exchanges it into the lesser band at `lt`, exchanges
it with the last record still to scan and shrinks the scan from the top, or leaves it where it is
in the equal band. The pivot record stays in the view and is compared in place; when an exchange
moves it, its offset moves along (`retarget`).

Over records compared by a key, the loop keeps one invariant (`Tracked`): the store holds the
records of the range rearranged, in the bands of `Bands` around the key of the record that was in
the middle when the partition began, and the tracked pivot offset holds that very record.

* `Pass.scan`: one turn of the loop, and `Pass.Reaches`: the loop states a partition goes
  through. `partitionFrom_scan` says that the loop is these turns, one after the other;
* `Tracked.scan`: a turn keeps the invariant, makes one comparison and scans one record more;
* `Tracked.partitionFrom_run` and `Tracked.reaches`: hence the loop ends after one comparison per
  record, and every loop state it goes through is tracked;
* `partition_contract`: the contract of a partition, assembled from these.
-/

namespace ByteView

namespace Records

/-- The variables of a partition's loop: the offset of the pivot record, the end `lt` of the
    lesser band, the end `eq` of the equal band, where the scan goes on, and the start `gt` of the
    greater band, where it stops. -/
structure Pass where
  /-- The offset of the pivot record. -/
  pivot : Nat
  /-- The end of the band of records below the pivot. -/
  lt : Nat
  /-- The end of the band of records equal to the pivot: the next record to scan. -/
  eq : Nat
  /-- The start of the band of records above the pivot. -/
  gt : Nat
  deriving DecidableEq, Repr

namespace Pass

/-- One turn of a partition's loop. The record at `eq` is compared with the pivot record: one
    found less is exchanged with the first record of the equal band, one found greater with the
    last record still to scan, and one found equal stays where it is. An exchange that moves the
    pivot record carries its offset along. -/
def scan (cmp : Comparator) (width : Nat) (p : Pass) : SortM Pass := do
  match ← compareAt cmp p.eq p.pivot with
  | .lt =>
    let pivot ← exchange width p.eq p.lt p.pivot
    pure ⟨pivot, p.lt + width, p.eq + width, p.gt⟩
  | .gt =>
    let pivot ← exchange width p.eq (p.gt - width) p.pivot
    pure ⟨pivot, p.lt, p.eq, p.gt - width⟩
  | .eq => pure ⟨p.pivot, p.lt, p.eq + width, p.gt⟩

/-- The loop states a partition goes through from `p` in the state `st`: each turn is taken
    while records are left to scan, from the state the turn before left. -/
inductive Reaches (cmp : Comparator) (width : Nat) (p : Pass) (st : Sorting) :
    Pass → Sorting → Prop
  | refl : Reaches cmp width p st p st
  | turn {q q' : Pass} {s s' : Sorting} : Reaches cmp width p st q s → q.eq < q.gt →
      (q.scan cmp width).run s = .ok q' s' → Reaches cmp width p st q' s'

/-- The loop state with the pivot at record `p` and the bands ending at records `lo`, `mid` and
    `hi` of the records of `width` bytes from `start`. -/
def ofIndices (start width p lo mid hi : Nat) : Pass :=
  ⟨start + p * width, start + lo * width, start + mid * width, start + hi * width⟩

end Pass

/-- A partition's loop is its turns, one after the other: while records are left to scan, it
    takes a turn and goes on from the loop state the turn leaves. -/
theorem partitionFrom_scan (cmp : Comparator) {width : Nat} (hw : 0 < width)
    {pivot lt eq gt : Nat} (h : eq < gt) :
    partitionFrom cmp width hw pivot lt eq gt =
      (Pass.scan cmp width ⟨pivot, lt, eq, gt⟩ >>= fun p =>
        partitionFrom cmp width hw p.pivot p.lt p.eq p.gt) := by
  rw [partitionFrom, dif_pos h, Pass.scan]
  simp only [bind_assoc]
  congr 1
  funext o
  cases o <;> simp

/-- With no record left to scan, a partition's loop ends with the bounds of the equal band. -/
theorem partitionFrom_done (cmp : Comparator) {width : Nat} (hw : 0 < width)
    {pivot lt eq gt : Nat} (h : ¬eq < gt) (st : Sorting) :
    (partitionFrom cmp width hw pivot lt eq gt).run st = .ok (lt, gt) st := by
  rw [partitionFrom, dif_neg h]
  rfl

section Tracked

variable {κ : Type} [LinearOrder κ] {key : List UInt8 → κ} {cmp : Comparator} {v : View}
  {t₀ : Store} {start width count : Nat} {P : List UInt8}

/-- A loop state of a partition of the `count` records of `width` bytes from `start` of `v`
    around the record `P`, over the store `t` that began as `t₀`: the records are those of `t₀`
    rearranged, they lie in the bands of `Bands` around the key of `P`, and the record at the
    pivot index is `P` itself. -/
structure Tracked (key : List UInt8 → κ) (v : View) (t₀ : Store) (start width count : Nat)
    (P : List UInt8) (t : Store) (p lo mid hi : Nat) : Prop where
  wellFormed : t.WellFormed
  shape : Store.SameShape v.base t
  rearranges : t₀.Rearranges t (v.origin + start) width count
  bands : Bands key (t.record (v.origin + start) width) (key P) p lo mid hi count
  pivot : t.record (v.origin + start) width p = P

/-- Before the first turn nothing is scanned, and the pivot is the record it started as. -/
theorem Tracked.init (hwf : t₀.WellFormed) (hshape : Store.SameShape v.base t₀) {p : Nat}
    (hp : p < count) :
    Tracked key v t₀ start width count (t₀.record (v.origin + start) width p) t₀ p 0 0
      count :=
  ⟨hwf, hshape, Store.Rearranges.refl _ _ _ _, Bands.init hp, rfl⟩

variable (hcmp : Induced cmp v width key) (hvwf : v.base.WellFormed) (hw : 0 < width)
  (hacc : ∀ i, i < count → v.Accepts (start + i * width) width)
include hcmp hvwf hw hacc

omit hcmp hw in
/-- In a tracked loop state the view reads the record `P` at the pivot offset. -/
theorem Tracked.getBytes_pivot {t : Store} {p lo mid hi : Nat}
    (h : Tracked key v t₀ start width count P t p lo mid hi) :
    (v.withBase t).getBytes (start + p * width) width = .ok P.toByteArray := by
  rw [getBytes_record hvwf h.wellFormed h.shape (hacc p h.bands.pivot_lt), h.pivot]

omit hcmp in
/-- An exchange of two records of the range, seen from a tracked loop state: it succeeds, rearranges
    the range and moves records as `retarget` says. -/
theorem Tracked.exchange {t : Store} {p lo mid hi : Nat}
    (h : Tracked key v t₀ start width count P t p lo mid hi) {i j : Nat} (hi : i < count)
    (hj : j < count) (n : Nat) :
    ∃ t', (exchange width (start + i * width) (start + j * width) (start + p * width)).run
        ⟨v.withBase t, n⟩ = .ok (start + retarget p i j * width) ⟨v.withBase t', n⟩ ∧
      t'.WellFormed ∧ Store.SameShape v.base t' ∧
      t₀.Rearranges t' (v.origin + start) width count ∧
      ∀ k, t'.record (v.origin + start) width k =
        t.record (v.origin + start) width (retarget k j i) := by
  obtain ⟨t', hrun, ht', hshape', hrec⟩ :=
    exchange_run hvwf h.wellFormed h.shape hw (hacc i hi) (hacc j hj) p n
  have hre := (rearranging_exchange (v := v) rfl (start + p * width) hi hj).rearranges_of_run
    h.wellFormed h.shape hrun
  exact ⟨t', hrun, ht', hshape', h.rearranges.trans hre, hrec⟩

/-- A turn from a tracked loop state with a record left to scan makes one comparison, scans that
    record into a band, and leaves a tracked loop state. -/
theorem Tracked.scan {t : Store} {p lo mid hi : Nat}
    (h : Tracked key v t₀ start width count P t p lo mid hi) (hmid : mid < hi) (n : Nat) :
    ∃ t' p' lo' mid' hi',
      ((Pass.ofIndices start width p lo mid hi).scan cmp width).run ⟨v.withBase t, n⟩ =
        .ok (Pass.ofIndices start width p' lo' mid' hi') ⟨v.withBase t', n + 1⟩ ∧
      Tracked key v t₀ start width count P t' p' lo' mid' hi' ∧
      mid' + (count - hi') = mid + (count - hi) + 1 ∧ hi' - mid' + 1 = hi - mid := by
  have hb := h.bands
  have hcount := hb.hi_le_count
  have hlo := hb.lo_le_mid
  simp only [Pass.scan, Pass.ofIndices]
  rw [run_bind, compareAt_run hcmp hvwf h.wellFormed h.shape (hacc mid (by omega))
    (hacc p hb.pivot_lt), hb.pivot_key]
  dsimp only
  rcases lt_trichotomy (key (t.record (v.origin + start) width mid)) (key P) with hord | hord | hord
  · -- a lesser record trades places with the first record of the equal band
    rw [compare_lt_iff_lt.2 hord]
    dsimp only
    obtain ⟨t', hrun, ht', hshape', hre, hrec⟩ := h.exchange hvwf hw hacc
      (i := mid) (j := lo) (by omega) (by omega) (n + 1)
    rw [run_bind, hrun]
    refine ⟨t', retarget p mid lo, lo + 1, mid + 1, hi, ?_, ⟨ht', hshape', hre, ?_, ?_⟩,
      by omega, by omega⟩
    · simp only [Nat.succ_mul, Nat.add_assoc]
      rfl
    · rw [funext hrec]
      exact hb.less hmid hord
    · rw [hrec, retarget_retarget, h.pivot]
  · -- an equal record joins the equal band where it is
    rw [compare_eq_iff_eq.2 hord]
    refine ⟨t, p, lo, mid + 1, hi, ?_, ⟨h.wellFormed, h.shape, h.rearranges, hb.same hmid hord,
      h.pivot⟩, by omega, by omega⟩
    simp only [Nat.succ_mul, Nat.add_assoc]
    rfl
  · -- a greater record trades places with the last record still to scan
    rw [compare_gt_iff_gt.2 hord]
    dsimp only
    have hlast : start + hi * width - width = start + (hi - 1) * width := by
      have : (hi - 1) * width + width = hi * width := by
        rw [← Nat.succ_mul, Nat.succ_eq_add_one, Nat.sub_add_cancel (by omega)]
      omega
    obtain ⟨t', hrun, ht', hshape', hre, hrec⟩ := h.exchange hvwf hw hacc
      (i := mid) (j := hi - 1) (by omega) (by omega) (n + 1)
    rw [hlast, run_bind, hrun]
    refine ⟨t', retarget p mid (hi - 1), lo, mid, hi - 1, ?_, ⟨ht', hshape', hre, ?_, ?_⟩,
      by omega, by omega⟩
    · rfl
    · rw [funext hrec]
      exact hb.greater hmid hord
    · rw [hrec, retarget_retarget, h.pivot]

/-- From a tracked loop state the loop ends, after one comparison for each record left to scan,
    in a tracked loop state with nothing left to scan; it gives the bounds of its equal band. -/
theorem Tracked.partitionFrom_run {t : Store} {p lo mid hi : Nat}
    (h : Tracked key v t₀ start width count P t p lo mid hi) (n : Nat) :
    ∃ t' p' lo' hi', (partitionFrom cmp width hw (start + p * width) (start + lo * width)
        (start + mid * width) (start + hi * width)).run ⟨v.withBase t, n⟩ =
        .ok (start + lo' * width, start + hi' * width) ⟨v.withBase t', n + (hi - mid)⟩ ∧
      Tracked key v t₀ start width count P t' p' lo' hi' hi' := by
  -- induction on the number of records left to scan
  obtain ⟨d, hd⟩ : ∃ d, hi - mid = d := ⟨_, rfl⟩
  induction d generalizing t p lo mid hi n with
  | zero =>
    have hmid : mid = hi := by
      have := h.bands.mid_le_hi
      omega
    subst hmid
    refine ⟨t, p, lo, mid, ?_, h⟩
    rw [partitionFrom_done cmp hw (fun hlt => by have := (record_lt_iff hw).1 hlt; omega),
      Nat.sub_self, Nat.add_zero]
  | succ d ih =>
    have hmid : mid < hi := by omega
    obtain ⟨t1, p1, lo1, mid1, hi1, hstep, h1, -, hleft⟩ := h.scan hcmp hvwf hw hacc hmid n
    obtain ⟨t', p', lo', hi', hrun, h'⟩ := ih h1 (n + 1) (by omega)
    refine ⟨t', p', lo', hi', ?_, h'⟩
    rw [partitionFrom_scan cmp hw ((record_lt_iff hw).2 hmid), run_bind]
    have hstep' : (Pass.scan cmp width ⟨start + p * width, start + lo * width,
        start + mid * width, start + hi * width⟩).run ⟨v.withBase t, n⟩ =
        .ok (Pass.ofIndices start width p1 lo1 mid1 hi1) ⟨v.withBase t1, n + 1⟩ := hstep
    rw [hstep']
    simp only [Pass.ofIndices]
    rw [hrun]
    congr 2
    omega

/-- Every loop state that a partition goes through from a tracked one is tracked. -/
theorem Tracked.reaches {t : Store} {p lo mid hi n : Nat}
    (h : Tracked key v t₀ start width count P t p lo mid hi) {q : Pass} {st : Sorting}
    (hr : Pass.Reaches cmp width (Pass.ofIndices start width p lo mid hi) ⟨v.withBase t, n⟩ q
      st) :
    ∃ t' p' lo' mid' hi', q = Pass.ofIndices start width p' lo' mid' hi' ∧
      st.view = v.withBase t' ∧ Tracked key v t₀ start width count P t' p' lo' mid' hi' := by
  induction hr with
  | refl => exact ⟨t, p, lo, mid, hi, rfl, rfl, h⟩
  | turn _ hscan hrun ih =>
    obtain ⟨t1, p1, lo1, mid1, hi1, rfl, hview, h1⟩ := ih
    have hmid : mid1 < hi1 := (record_lt_iff hw).1 hscan
    rename_i s _ _
    obtain ⟨t2, p2, lo2, mid2, hi2, hstep, h2, -, -⟩ :=
      h1.scan hcmp hvwf hw hacc hmid s.compares
    have hs : s = ⟨v.withBase t1, s.compares⟩ := by
      rw [← hview]
    rw [hs, hstep] at hrun
    cases hrun
    exact ⟨t2, p2, lo2, mid2, hi2, rfl, rfl, h2⟩

end Tracked

/-- The contract of a partition of the `count` records of `width` bytes from `start`, compared by
    a key, in a view that reads and writes each of them. Let `P` be the record in the middle,
    at index `(count - 1) / 2`, when the partition begins. The partition makes one comparison per
    record and succeeds with bounds `lt < gt` on record boundaries of the range. Afterwards the
    store holds the records of the range rearranged and every other byte where it was. The
    records before `lt` have keys below the key of `P`, those in `[lt, gt)` the key of `P`, and
    those from `gt` on keys above it. Throughout the loop, the tracked pivot offset lies in
    `[lt, gt)`, and the record read there through the view is `P`. -/
theorem partition_contract {κ : Type} [LinearOrder κ] (key : List UInt8 → κ) (cmp : Comparator)
    (v : View) (hvwf : v.base.WellFormed) {width : Nat} (hw : 0 < width)
    (hcmp : Induced cmp v width key) (start count : Nat) (hcount : 0 < count)
    (hacc : ∀ i, i < count → v.Accepts (start + i * width) width) (n : Nat) :
    let P := v.base.record (v.origin + start) width ((count - 1) / 2)
    (∃ lo hi t, (partition cmp width hw start (start + count * width)).run ⟨v, n⟩ =
        .ok (start + lo * width, start + hi * width) ⟨v.withBase t, n + count⟩ ∧
      lo < hi ∧ hi ≤ count ∧ v.base.Rearranges t (v.origin + start) width count ∧
      (∀ k, k < lo → key (t.record (v.origin + start) width k) < key P) ∧
      (∀ k, lo ≤ k → k < hi → key (t.record (v.origin + start) width k) = key P) ∧
      ∀ k, hi ≤ k → k < count → key P < key (t.record (v.origin + start) width k)) ∧
    ∀ q st, Pass.Reaches cmp width
        ⟨start + (count - 1) / 2 * width, start, start, start + count * width⟩ ⟨v, n⟩ q
        st →
      q.lt ≤ q.pivot ∧ q.pivot < q.gt ∧
        st.view.getBytes q.pivot width = v.getBytes (start + (count - 1) / 2 * width) width := by
  intro P
  have hmiddle : (count - 1) / 2 < count := by omega
  have hinit : Tracked key v v.base start width count P v.base ((count - 1) / 2) 0 0 count :=
    Tracked.init hvwf (Store.SameShape.refl _) hmiddle
  have hentry :
      (⟨start + (count - 1) / 2 * width, start, start, start + count * width⟩ : Pass) =
        Pass.ofIndices start width ((count - 1) / 2) 0 0 count := by
    simp [Pass.ofIndices]
  have hstate : (⟨v, n⟩ : Sorting) = ⟨v.withBase v.base, n⟩ := by rw [View.withBase_base]
  constructor
  · -- the loop runs to its end from the entry state
    obtain ⟨t, p, lo, hi, hrun, hend⟩ := hinit.partitionFrom_run hcmp hvwf hw hacc n
    have hlohi := hend.bands.pivot_mem
    refine ⟨lo, hi, t, ?_, by omega, hend.bands.hi_le_count, hend.rearranges, hend.bands.below,
      hend.bands.equal, hend.bands.above⟩
    have hrecords : (start + count * width - start) / width = count := by
      rw [Nat.add_sub_cancel_left, Nat.mul_div_cancel _ hw]
    simp only [partition, hrecords, Nat.zero_mul, Nat.add_zero, Nat.sub_zero] at hrun ⊢
    rw [hstate]
    simpa using hrun
  · -- every loop state on the way is tracked
    intro q st hr
    rw [hentry, hstate] at hr
    obtain ⟨t, p, lo, mid, hi, rfl, hview, htracked⟩ := hinit.reaches hcmp hvwf hw hacc hr
    have hmem := htracked.bands.pivot_mem
    have hlo : start + lo * width ≤ start + p * width :=
      Nat.add_le_add_left (Nat.mul_le_mul_right width hmem.1) start
    refine ⟨hlo, (record_lt_iff hw).2 hmem.2, ?_⟩
    -- the view reads the middle record at the pivot, in the store the loop has reached as in
    -- the one it began with
    have hnow := htracked.getBytes_pivot hvwf hacc
    have hthen := hinit.getBytes_pivot hvwf hacc
    rw [View.withBase_base] at hthen
    simp only [Pass.ofIndices]
    rw [hview, hnow, hthen]

/-- The partition of three one-byte records `3, 1, 2` compared by their bytes, around the middle
    record `1`. -/
theorem partition_contract_three_records :
    let v := View.store (.flat (Flat.ofBytes ⟨#[3, 1, 2]⟩ .big))
    let P := v.base.record (v.origin + 0) 1 ((3 - 1) / 2)
    v.base.WellFormed ∧ Induced (byBytes 1) v 1 (fun x => x.map UInt8.toNat) ∧ 0 < 3 ∧
      (∀ i, i < 3 → v.Accepts (0 + i * 1) 1) ∧
      (∃ lo hi t, (partition (byBytes 1) 1 Nat.one_pos 0 (0 + 3 * 1)).run ⟨v, 0⟩ =
          .ok (0 + lo * 1, 0 + hi * 1) ⟨v.withBase t, 0 + 3⟩ ∧
        lo < hi ∧ hi ≤ 3 ∧ v.base.Rearranges t (v.origin + 0) 1 3 ∧
        (∀ k, k < lo → (t.record (v.origin + 0) 1 k).map UInt8.toNat < P.map UInt8.toNat) ∧
        (∀ k, lo ≤ k → k < hi →
          (t.record (v.origin + 0) 1 k).map UInt8.toNat = P.map UInt8.toNat) ∧
        ∀ k, hi ≤ k → k < 3 →
          P.map UInt8.toNat < (t.record (v.origin + 0) 1 k).map UInt8.toNat) ∧
      ∀ q st, Pass.Reaches (byBytes 1) 1 ⟨0 + (3 - 1) / 2 * 1, 0, 0, 0 + 3 * 1⟩ ⟨v, 0⟩ q
        st →
        q.lt ≤ q.pivot ∧ q.pivot < q.gt ∧
          st.view.getBytes q.pivot 1 = v.getBytes (0 + (3 - 1) / 2 * 1) 1 := by
  intro v P
  have hacc : ∀ i, i < 3 → v.Accepts (0 + i * 1) 1 := by
    intro i hi
    refine (View.accepts_iff (v := v) trivial).2 ⟨0 + i * 1, rfl, rfl, rfl, ?_, ?_⟩
    · unfold positionLimit
      omega
    · show 0 + i * 1 + 1 ≤ 3
      omega
  exact ⟨trivial, byBytes_induced v 1, by decide, hacc,
    partition_contract _ (byBytes 1) v trivial Nat.one_pos (byBytes_induced v 1) 0 3 (by decide)
      hacc 0⟩

end Records

end ByteView
