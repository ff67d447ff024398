import Mathlib
import ByteView.Proofs.SortPermutes
import ByteView.Session.Run

/-!
# Every partition makes progress

A partition scans its range once around the middle record, the pivot, which it compares in place.
When the comparator finds the pivot equal to itself, the pivot is scanned into the band of records
equal to it, so that band is never empty when the scan ends: each of the two sides left to sort
holds fewer records than the range, and the loop of the sort, which goes on with one side after
sorting the other, always works on a smaller range.

Nothing else is asked of the comparator: it may be inconsistent, change its mind as the sort goes
on, or fail (`SelfEqual`). Every comparator that a sort request builds is such a comparator,
whatever its key, its direction and its failure point (`SortRequest.selfEqual_comparator`). A
comparator that finds a record less than itself is not: one that always answers `.lt` sends every
record to the lower side, and the partition gives back the whole range (`partition_always_less`):
the loop then repeats that range until its turns run out.

* `Scan`: what a pass keeps, knowing only that the pivot is neither less nor greater than itself;
* `partition_shrinks`: a partition that ends gives two sides, each of fewer records than the
  range;
* `sortRange_more_turns`: a sort that did not run out of turns runs the same with one more;
* `sortRange_turns_congr`: by a comparator that finds each record equal to itself, the sort of `n`
  records runs the same with `n` turns as with any more, so its turns never run out.
-/

namespace ByteView

namespace Records

/-- A comparator that never finds a record less or greater than itself: compared with itself, a
    record is equal, or the comparison fails. -/
def SelfEqual (cmp : Comparator) : Prop :=
  ∀ n v a o, cmp n v a a = .ok o → o = .eq

/-- A step of a sort whose value, whenever it ends with one, satisfies `P`. -/
def Yields {α : Type} (P : α → Prop) (m : SortM α) : Prop :=
  ∀ st a st', m.run st = .ok a st' → P a

section Yields

variable {α β : Type} {P : α → Prop} {Q : β → Prop}

theorem yields_pure {a : α} (h : P a) : Yields P (pure a) := by
  intro st b st' hrun
  cases hrun
  exact h

theorem yields_trivial (m : SortM α) : Yields (fun _ => True) m :=
  fun _ _ _ _ => trivial

theorem Yields.bind {m : SortM α} {f : α → SortM β} (hm : Yields P m)
    (hf : ∀ a, P a → Yields Q (f a)) : Yields Q (m >>= f) := by
  intro st b st' hrun
  rw [run_bind] at hrun
  cases hm' : m.run st with
  | ok a st₁ =>
    rw [hm'] at hrun
    exact hf a (hm st a st₁ hm') st₁ b st' hrun
  | error e st₁ =>
    rw [hm'] at hrun
    cases hrun

theorem yields_ite {c : Prop} [Decidable c] {m₁ m₂ : SortM α} (h₁ : c → Yields P m₁)
    (h₂ : ¬c → Yields P m₂) : Yields P (if c then m₁ else m₂) := by
  by_cases hc : c
  · rw [if_pos hc]
    exact h₁ hc
  · rw [if_neg hc]
    exact h₂ hc

/-- A comparison of a record with itself, by a comparator that never finds a record less or
    greater than itself, that ends with an answer finds it equal. -/
theorem yields_compareAt {cmp : Comparator} (hcmp : SelfEqual cmp) (a b : Nat) :
    Yields (fun o => a = b → o = .eq) (compareAt cmp a b) := by
  intro st o st' hrun hab
  subst hab
  simp only [EStateM.run, compareAt] at hrun
  split at hrun
  · next o' hcompare =>
    cases hrun
    exact hcmp _ _ _ _ hcompare
  · cases hrun

/-- An exchange that ends with a value gives where the pivot record went. -/
theorem yields_exchange (width a b pivot : Nat) :
    Yields (· = retarget pivot a b) (exchange width a b pivot) := by
  unfold exchange
  dsimp only
  refine yields_ite (fun _ => ?_) fun _ => yields_pure rfl
  exact Yields.bind (yields_trivial _) fun _ _ => Yields.bind (yields_trivial _) fun _ _ =>
    Yields.bind (yields_trivial _) fun _ _ => Yields.bind (yields_trivial _) fun _ _ =>
      yields_pure rfl

end Yields

/-- Two copies of the same bytes compare equal. -/
theorem compareBytes_self (x : ByteArray) : Bytes.compareBytes x x = .eq := by
  simp [Bytes.compareBytes, Bytes.lexCompare_self]

theorem byBytes_selfEqual (recordSize : Nat) : SelfEqual (byBytes recordSize) := by
  intro n v a o h
  cases hx : v.getBytes a recordSize with
  | error e => simp [byBytes, hx, bind, Except.bind] at h
  | ok x =>
    simp only [byBytes, hx, bind, Except.bind, pure, Except.pure, Except.ok.injEq] at h
    rw [← h, compareBytes_self]

/-- A record compared with itself, by its key or by its bytes, is equal to itself, unless it
    cannot be read. -/
theorem compareRecords_self (key : Option Key) (recordSize : Nat) (v : View) (a : Nat) {o : Ordering}
    (h : compareRecords key recordSize v a a = .ok o) : o = .eq := by
  cases key with
  | some k =>
    cases hx : k.value v a with
    | error e => simp [compareRecords, hx, bind, Except.bind] at h
    | ok x =>
      simp only [compareRecords, hx, bind, Except.bind, pure, Except.pure, Except.ok.injEq] at h
      rw [← h]
      exact Int.compare_eq_eq.2 rfl
  | none =>
    cases hx : v.getBytes a recordSize with
    | error e => simp [compareRecords, hx, bind, Except.bind] at h
    | ok x =>
      simp only [compareRecords, hx, bind, Except.bind, pure, Except.pure, Except.ok.injEq] at h
      rw [← h, compareBytes_self]

/-! ## The pivot ends in the equal band -/

/-- What a partition pass over `count` records keeps, in record indices: `[lo, mid)` is the band
    of records found equal to the pivot and `[mid, hi)` is still to be scanned. The pivot record
    `p` is still to be scanned, unless the equal band already holds a record. -/
structure Scan (p lo mid hi count : Nat) : Prop where
  lo_le_mid : lo ≤ mid
  mid_le_hi : mid ≤ hi
  hi_le_count : hi ≤ count
  pivot : lo < mid ∨ mid ≤ p ∧ p < hi

namespace Scan

variable {p lo mid hi count : Nat}

/-- Before the pass everything is to be scanned, the pivot included. -/
theorem init (hp : p < count) : Scan p 0 0 count count :=
  ⟨Nat.le_refl 0, Nat.zero_le _, Nat.le_refl _, .inr ⟨Nat.zero_le _, hp⟩⟩

/-- A scanned record found less than the pivot, and so not the pivot, trades places with the
    first record of the equal band. -/
theorem less (hs : Scan p lo mid hi count) (hscan : mid < hi) (hne : p ≠ mid) :
    Scan (retarget p mid lo) (lo + 1) (mid + 1) hi count where
  lo_le_mid := Nat.succ_le_succ hs.lo_le_mid
  mid_le_hi := hscan
  hi_le_count := hs.hi_le_count
  pivot := by
    rcases hs.pivot with hband | ⟨hmid, hhi⟩
    · exact .inl (Nat.succ_lt_succ hband)
    · -- the pivot lies further on, where the exchange does not reach
      have := hs.lo_le_mid
      rw [retarget_of_ne hne (by omega)]
      exact .inr ⟨by omega, hhi⟩

/-- A scanned record found greater than the pivot, and so not the pivot, trades places with the
    last record still to be scanned. -/
theorem greater (hs : Scan p lo mid hi count) (hscan : mid < hi) (hne : p ≠ mid) :
    Scan (retarget p mid (hi - 1)) lo mid (hi - 1) count where
  lo_le_mid := hs.lo_le_mid
  mid_le_hi := by omega
  hi_le_count := by
    have := hs.hi_le_count
    omega
  pivot := by
    rcases hs.pivot with hband | ⟨hmid, hhi⟩
    · exact .inl hband
    · by_cases hlast : p = hi - 1
      · -- the pivot was the last record to scan, and takes the scanned record's place
        rw [hlast, retarget_right]
        exact .inr ⟨Nat.le_refl _, by omega⟩
      · rw [retarget_of_ne hne hlast]
        exact .inr ⟨hmid, by omega⟩

/-- A scanned record found equal to the pivot joins the equal band where it is. -/
theorem same (hs : Scan p lo mid hi count) (hscan : mid < hi) : Scan p lo (mid + 1) hi count where
  lo_le_mid := Nat.le_succ_of_le hs.lo_le_mid
  mid_le_hi := hscan
  hi_le_count := hs.hi_le_count
  pivot := by
    rcases hs.pivot with hband | ⟨hmid, hhi⟩
    · exact .inl (by omega)
    · by_cases hp : p = mid
      · exact .inl (by have := hs.lo_le_mid; omega)
      · exact .inr ⟨by omega, hhi⟩

/-- When nothing is left to scan, the equal band is not empty. -/
theorem lo_lt_hi (hs : Scan p lo hi hi count) : lo < hi := by
  rcases hs.pivot with hband | ⟨hmid, hhi⟩
  · exact hband
  · omega

end Scan

/-- A pass of the partition, by a comparator that never finds a record less or greater than
    itself, that ends gives the bounds of an equal band that is not empty. -/
theorem yields_partitionFrom {cmp : Comparator} (hcmp : SelfEqual cmp) {width : Nat}
    (hw : 0 < width) {s count : Nat} (pivot lt eq gt p lo mid hi : Nat)
    (hp : pivot = s + p * width) (hlt : lt = s + lo * width) (heq : eq = s + mid * width)
    (hgt : gt = s + hi * width) (hs : Scan p lo mid hi count) :
    Yields (fun r => ∃ i j, r = (s + i * width, s + j * width) ∧ i < j ∧ j ≤ count)
      (partitionFrom cmp width hw pivot lt eq gt) := by
  fun_induction partitionFrom cmp width hw pivot lt eq gt generalizing p lo mid hi with
  | case1 pivot lt eq gt hscan ihLess ihGreater ihEqual =>
    subst hp hlt heq hgt
    have hmid : mid < hi := (record_lt_iff hw).1 hscan
    refine Yields.bind (yields_compareAt hcmp _ _) fun order hself => ?_
    -- a record found less or greater than the pivot is not the pivot
    have hne : order ≠ .eq → p ≠ mid := fun hord hpm => hord (hself (by rw [hpm]))
    cases order with
    | lt =>
      refine Yields.bind (yields_exchange _ _ _ _) fun pivot' hpivot => ?_
      exact ihLess pivot' (retarget p mid lo) (lo + 1) (mid + 1) hi
        (by rw [hpivot, retarget_offset hw]) (by rw [Nat.succ_mul]; omega)
        (by rw [Nat.succ_mul]; omega) rfl (hs.less hmid (hne (by decide)))
    | gt =>
      have hlast : s + hi * width - width = s + (hi - 1) * width := by
        have : (hi - 1) * width + width = hi * width := by
          rw [← Nat.succ_mul, Nat.succ_eq_add_one, Nat.sub_add_cancel (by omega)]
        omega
      refine Yields.bind (yields_exchange _ _ _ _) fun pivot' hpivot => ?_
      exact ihGreater pivot' (retarget p mid (hi - 1)) lo mid (hi - 1)
        (by rw [hpivot, hlast, retarget_offset hw]) rfl rfl hlast
        (hs.greater hmid (hne (by decide)))
    | eq =>
      exact ihEqual p lo (mid + 1) hi rfl rfl (by rw [Nat.succ_mul]; omega) rfl (hs.same hmid)
  | case2 pivot lt eq gt hdone =>
    subst hlt heq hgt
    have hmid : mid = hi := by
      have := hs.mid_le_hi
      have : ¬mid < hi := fun h => hdone ((record_lt_iff hw).2 h)
      omega
    subst hmid
    exact yields_pure ⟨lo, mid, rfl, hs.lo_lt_hi, hs.hi_le_count⟩

/-- A partition of `count` records, by a comparator that never finds a record less or greater
    than itself, that ends gives two sides of whole records, `[start, lt)` of `i` records and
    `[gt, start + count * width)` of `count - j`, with `i < j ≤ count`: each side holds fewer
    records than the range, so the loop of the sort, and each of its recursive calls, works on a
    smaller range. The comparator may be inconsistent, and may fail, which ends the partition
    with its fault. -/
theorem partition_shrinks {cmp : Comparator} (hcmp : SelfEqual cmp) {width : Nat} (hw : 0 < width)
    {start count : Nat} (hcount : 0 < count) {st st' : Sorting} {lt gt : Nat}
    (hrun : (partition cmp width hw start (start + count * width)).run st = .ok (lt, gt) st') :
    ∃ i j, lt = start + i * width ∧ gt = start + j * width ∧ i < j ∧ j ≤ count := by
  have hrecords : (start + count * width - start) / width = count := by
    rw [Nat.add_sub_cancel_left, Nat.mul_div_cancel _ hw]
  unfold partition at hrun
  simp only [hrecords] at hrun
  obtain ⟨i, j, hij, hlt, hle⟩ :=
    yields_partitionFrom hcmp hw _ start start (start + count * width) ((count - 1) / 2) 0 0 count
      rfl (by simp) (by simp) rfl (Scan.init (by omega)) st _ st' hrun
  simp only [Prod.mk.injEq] at hij
  exact ⟨i, j, hij.1, hij.2, hlt, hle⟩

/-- A partition of three one-byte records in order: the middle one is the pivot, and each side
    holds one record. -/
theorem partition_shrinks_sorted :
    SelfEqual (byBytes 1) ∧ 0 < 3 ∧
      (partition (byBytes 1) 1 Nat.one_pos 0 (0 + 3 * 1)).run
          ⟨.store (.flat (Flat.ofBytes ⟨#[1, 2, 3]⟩ .big)), 0⟩ =
        .ok (1, 2) ⟨.store (.flat (Flat.ofBytes ⟨#[1, 2, 3]⟩ .big)), 3⟩ ∧
      ∃ i j, 1 = 0 + i * 1 ∧ 2 = 0 + j * 1 ∧ i < j ∧ j ≤ 3 := by
  have hrun : (partition (byBytes 1) 1 Nat.one_pos 0 (0 + 3 * 1)).run
      ⟨.store (.flat (Flat.ofBytes ⟨#[1, 2, 3]⟩ .big)), 0⟩ =
        .ok (1, 2) ⟨.store (.flat (Flat.ofBytes ⟨#[1, 2, 3]⟩ .big)), 3⟩ := by
    cbv
  exact ⟨byBytes_selfEqual 1, by decide, hrun,
    partition_shrinks (byBytes_selfEqual 1) Nat.one_pos (by decide) hrun⟩

/-- With a comparator that answers `.lt` for every pair of records, a record and itself
    included, every record goes to the lower side: a partition of three records gives back the
    whole range, with both bounds at its end. -/
theorem partition_always_less :
    (partition (fun _ _ _ _ => .ok .lt) 1 Nat.one_pos 0 3).run
        ⟨.store (.flat (Flat.ofBytes ⟨#[1, 2, 3]⟩ .big)), 0⟩ =
      .ok (3, 3) ⟨.store (.flat (Flat.ofBytes ⟨#[1, 2, 3]⟩ .big)), 3⟩ := by
  cbv

/-! ## How many turns a sort takes -/

/-- A range of at most two records is sorted in one turn, whatever is left of the turns and of
    the stack. -/
theorem sortRange_small (cmp : Comparator) {width : Nat} (hw : 0 < width) {start stop : Nat}
    (hsmall : stop - start ≤ 2 * width) (frames turns frames' turns' : Nat) :
    sortRange cmp width hw (frames + 1) (turns + 1) start stop =
      sortRange cmp width hw (frames' + 1) (turns' + 1) start stop := by
  simp only [sortRange, if_pos hsmall]

/-- A larger range is partitioned, then one side is sorted by a nested call, one frame deeper,
    and the other by the loop, in the same frame. -/
theorem sortRange_large_run (cmp : Comparator) {width : Nat} (hw : 0 < width) {start stop : Nat}
    (hlarge : ¬stop - start ≤ 2 * width) (frames turns : Nat) (st : Sorting) :
    (sortRange cmp width hw (frames + 1) (turns + 1) start stop).run st =
      match (partition cmp width hw start stop).run st with
      | .ok (lt, gt) s =>
        (if lt - start < stop - gt then
          sortRange cmp width hw frames turns start lt >>= fun _ =>
            sortRange cmp width hw (frames + 1) turns gt stop
        else
          sortRange cmp width hw frames turns gt stop >>= fun _ =>
            sortRange cmp width hw (frames + 1) turns start lt).run s
      | .error e s => .error e s := by
  rw [sortRange, if_neg hlarge, run_bind]
  cases (partition cmp width hw start stop).run st <;> rfl

/-- Two steps followed by two continuations run alike when the steps do and the continuations do
    from where the steps leave. -/
theorem run_bind_congr {α β : Type} {m m' : SortM α} {f f' : α → SortM β} {st : Sorting}
    (hm : m.run st = m'.run st) (hf : ∀ a s, m'.run st = .ok a s → (f a).run s = (f' a).run s) :
    (m >>= f).run st = (m' >>= f').run st := by
  rw [run_bind, run_bind, hm]
  cases hrun : m'.run st with
  | ok a s => exact hf a s hrun
  | error e s => rfl

/-- Two steps are equal when they run alike from every state. -/
theorem run_ext {α : Type} {m m' : SortM α} (h : ∀ st, m.run st = m'.run st) : m = m' :=
  funext h

/-- A run that did not end with `Fault.endless`: its turns did not run out. -/
def NotEndless {α : Type} (r : EStateM.Result Fault Sorting α) : Prop :=
  ∀ s, r ≠ .error .endless s

/-- A bound step that did not run out of turns ran both of its parts without running out. -/
theorem NotEndless.of_bind {α β : Type} {m : SortM α} {f : α → SortM β} {st : Sorting}
    (h : NotEndless ((m >>= f).run st)) :
    NotEndless (m.run st) ∧ ∀ a s, m.run st = .ok a s → NotEndless ((f a).run s) := by
  rw [run_bind] at h
  constructor
  · intro s hm
    rw [hm] at h
    exact h s rfl
  · intro a s hm
    rw [hm] at h
    exact h

/-- Given one more turn, the sort of a range does what it did, unless its turns ran out: a run
    that ends within some number of turns ends the same way with any more. -/
theorem sortRange_more_turns (cmp : Comparator) {width : Nat} (hw : 0 < width)
    (frames turns start stop : Nat) (st : Sorting)
    (h : NotEndless ((sortRange cmp width hw frames turns start stop).run st)) :
    (sortRange cmp width hw frames (turns + 1) start stop).run st =
      (sortRange cmp width hw frames turns start stop).run st := by
  induction turns generalizing frames start stop st with
  | zero => exact absurd rfl (h st)
  | succ turns ih =>
  cases frames with
  | zero => rfl
  | succ frames =>
  by_cases hsmall : stop - start ≤ 2 * width
  · rw [sortRange_small cmp hw hsmall frames (turns + 1) frames turns]
  rw [sortRange_large_run cmp hw hsmall] at h
  rw [sortRange_large_run cmp hw hsmall, sortRange_large_run cmp hw hsmall]
  cases hpart : (partition cmp width hw start stop).run st with
  | error e s => rfl
  | ok x s =>
    obtain ⟨lt, gt⟩ := x
    rw [hpart] at h
    dsimp only at h ⊢
    -- each part ran without running out of turns, so each runs alike with one more
    by_cases hside : lt - start < stop - gt
    · simp only [if_pos hside] at h ⊢
      obtain ⟨h₁, h₂⟩ := NotEndless.of_bind h
      exact run_bind_congr (ih frames start lt s h₁) fun _ s' hrun =>
        ih (frames + 1) gt stop s' (h₂ _ s' hrun)
    · simp only [if_neg hside] at h ⊢
      obtain ⟨h₁, h₂⟩ := NotEndless.of_bind h
      exact run_bind_congr (ih frames gt stop s h₁) fun _ s' hrun =>
        ih (frames + 1) start lt s' (h₂ _ s' hrun)

/-- By a comparator that never finds a record less or greater than itself, the sort of `count`
    records ends within a turn for each record (and one at least): every side it sorts, nested or
    in its loop, holds fewer records than the range. Any more turns do not change the run. -/
theorem sortRange_turns_congr {cmp : Comparator} (hcmp : SelfEqual cmp) {width : Nat}
    (hw : 0 < width) (frames turns turns' start count : Nat) (hturns : count ≤ turns)
    (hpos : 0 < turns) (hle : turns ≤ turns') :
    sortRange cmp width hw frames turns' start (start + count * width) =
      sortRange cmp width hw frames turns start (start + count * width) := by
  induction turns generalizing frames turns' start count with
  | zero => exact absurd hpos (Nat.lt_irrefl 0)
  | succ turns ih =>
  obtain ⟨turns', rfl⟩ : ∃ u, turns' = u + 1 := ⟨turns' - 1, by omega⟩
  cases frames with
  | zero => rfl
  | succ frames =>
  by_cases hsmall : start + count * width - start ≤ 2 * width
  · exact sortRange_small cmp hw hsmall frames turns' frames turns
  refine run_ext fun st => ?_
  rw [sortRange_large_run cmp hw hsmall, sortRange_large_run cmp hw hsmall]
  have hcount : 2 < count := two_lt_of_large hsmall
  cases hpart : (partition cmp width hw start (start + count * width)).run st with
  | error e s => rfl
  | ok x s =>
    obtain ⟨lt, gt⟩ := x
    obtain ⟨i, j, rfl, rfl, hij, hj⟩ := partition_shrinks hcmp hw (by omega) hpart
    dsimp only
    -- both sides hold fewer records than the range, so one turn fewer is enough for each
    have hstop : start + count * width = start + j * width + (count - j) * width :=
      end_eq_split hj
    have hbelow : ∀ f, sortRange cmp width hw f turns' start (start + i * width) =
        sortRange cmp width hw f turns start (start + i * width) := fun f =>
      ih f turns' start i (by omega) (by omega) (by omega)
    have habove : ∀ f, sortRange cmp width hw f turns' (start + j * width)
        (start + count * width) =
        sortRange cmp width hw f turns (start + j * width) (start + count * width) := fun f => by
      rw [hstop]
      exact ih f turns' (start + j * width) (count - j) (by omega) (by omega) (by omega)
    split <;> rw [hbelow, habove]

end Records

namespace Session

/-- A direction put on comparisons that find a record equal to itself keeps them so. -/
theorem eq_of_map_direction {descending : Bool} {x : Except Fault Ordering} {o : Ordering}
    (hx : ∀ o', x = .ok o' → o' = .eq)
    (h : Except.map (fun o => if descending = true then o.swap else o) x = .ok o) : o = .eq := by
  cases x with
  | error e => cases h
  | ok o' =>
    simp only [Except.map, Except.ok.injEq] at h
    rw [← h, hx o' rfl]
    cases descending <;> rfl

/-- Every comparator a sort request builds, by key or by bytes, ascending or descending, failing
    or not, finds a record equal to itself whenever it answers. -/
theorem SortRequest.selfEqual_comparator (r : SortRequest) : Records.SelfEqual r.comparator := by
  intro n v a o h
  cases r with
  | mk recordSize start length descending shape =>
    simp only [SortRequest.comparator] at h
    refine eq_of_map_direction (fun o' hbase => ?_) h
    cases shape with
    | offsets key failAfter =>
      by_cases hfail : failAfter = some (n + 1)
      · simp [hfail] at hbase
      · simp only [hfail, if_false] at hbase
        exact Records.compareRecords_self key recordSize v a hbase
    | records => exact Records.byBytes_selfEqual recordSize n v a o' hbase

end Session

end ByteView
