import Mathlib
import ByteView.Proofs.SortOrders
import ByteView.View.Compare

/-!
# Comparing views by their contents

Two views are compared piece by piece, `chunkSize` bytes at a time, each piece read through the
windows of its view and gathered from the segments of its store. None of that shows in the
answer: a comparison is decided by the bytes the two views show and by nothing else.

* `View.bytesAt`: the bytes a view shows at a run of positions, its store's bytes moved by the
  view's origin;
* `View.getBytes_within`: a view that reads a range reads every range inside it, as that part of
  its bytes, so the pieces of a comparison are the pieces of the contents;
* `Bytes.lexCompare_append`: a comparison of two strings cut at the same place is decided by the
  first parts, unless they are equal;
* `View.compareWith_eq_compare`: two readable views compare as their contents do in the
  lexicographic order of byte lists, a strict prefix first;
* `View.rangeEquals_spec`: a comparison of two ranges reports the first range that does not fit,
  and otherwise says whether their bytes are equal.
-/

namespace ByteView

namespace Bytes

/-- Cut at the same place, two byte strings compare as their first parts do, and as the rest
    when the first parts are equal. -/
theorem lexCompare_append {x y : List UInt8} (x' y' : List UInt8) (h : x.length = y.length) :
    lexCompare (x ++ x') (y ++ y') = (lexCompare x y).then (lexCompare x' y') := by
  induction x generalizing y with
  | nil =>
    rw [List.eq_nil_of_length_eq_zero h.symm]
    rfl
  | cons a as ih =>
    obtain ⟨b, bs, rfl⟩ := List.exists_cons_of_length_eq_add_one h.symm
    simp only [List.cons_append, lexCompare]
    cases compare a.toNat b.toNat with
    | lt => rfl
    | eq => exact ih (by simpa using h)
    | gt => rfl

/-- Once one side has run out, byte strings compare by their lengths. -/
theorem lexCompare_of_nil {x y : List UInt8} (h : x = [] ∨ y = []) :
    lexCompare x y = compare x.length y.length := by
  rcases h with rfl | rfl
  · cases y with
    | nil => rfl
    | cons b bs => exact (Nat.compare_eq_lt.2 (Nat.succ_pos _)).symm
  · cases x with
    | nil => rfl
    | cons a as => exact (Nat.compare_eq_gt.2 (Nat.succ_pos _)).symm

/-- The comparison of byte strings is the lexicographic order of byte lists, unsigned byte by
    unsigned byte. -/
theorem lexCompare_eq_compare (x y : List UInt8) : lexCompare x y = compare x y := by
  induction x generalizing y with
  | nil =>
    cases y with
    | nil => rfl
    | cons b bs => simp [lexCompare]
  | cons a as ih =>
    cases y with
    | nil => simp [lexCompare]
    | cons b bs =>
      have hbyte : compare a.toNat b.toNat = compare a b := by
        simp [compare, compareOfLessAndEq, UInt8.lt_iff_toNat_lt, UInt8.toNat_inj]
      rw [lexCompare, List.compare_eq_compareLex, List.compareLex_cons_cons,
        ← List.compare_eq_compareLex, ← ih bs, hbyte]
      cases compare a b <;> rfl

end Bytes

namespace View

/-- The bytes a view shows at the positions `[pos, pos + len)`: its store's bytes, moved by the
    view's origin. -/
def bytesAt (v : View) (pos len : Nat) : List UInt8 := v.base.bytesAt (v.origin + pos) len

@[simp] theorem length_bytesAt (v : View) (pos len : Nat) : (v.bytesAt pos len).length = len := by
  simp [bytesAt, Store.bytesAt]

theorem bytesAt_add (v : View) (pos m n : Nat) :
    v.bytesAt pos (m + n) = v.bytesAt pos m ++ v.bytesAt (pos + m) n := by
  simp only [bytesAt, Store.bytesAt]
  rw [← List.map_append, ← Nat.add_assoc, List.range'_append_1]

/-- Where the windows place an access, they place every access inside it, as long as the placed
    access ends at a 64-bit position. -/
theorem place_within {v : View} {pos n p : Nat} (h : v.place pos n = .ok p)
    (hend : p + n < positionLimit) {d l : Nat} (hdl : d + l ≤ n) :
    v.place (pos + d) l = .ok (p + d) := by
  induction v generalizing pos p with
  | store s =>
    cases h
    rfl
  | window offset length inner ih =>
    simp only [place] at h ⊢
    cases hl : locate offset length inner.size pos n with
    | error e => simp [hl, bind, Except.bind] at h
    | ok target =>
      simp only [hl, bind, Except.bind] at h
      obtain ⟨hc, rfl⟩ := locate_eq_ok hl
      have hfit := (checkRange_eq_ok_iff pos n length).1 hc
      -- the placed access starts past the window's own start in the view inside it
      have hp : offset + pos ≤ p := by
        rw [place_eq_ok h]
        omega
      have hl' : locate offset length inner.size (pos + d) l = .ok (offset + (pos + d)) := by
        unfold locate
        rw [(checkRange_eq_ok_iff _ _ _).2 ⟨by omega, by omega⟩]
        simp only [bind, Except.bind]
        rw [if_pos (by omega)]
        rfl
      rw [hl']
      simp only [bind, Except.bind]
      rw [← Nat.add_assoc]
      exact ih h hend
  | reorder order inner ih => exact ih h hend

/-- A view that reads a range reads every range inside it, as the bytes it shows there. -/
theorem getBytes_within {v : View} (hwf : v.base.WellFormed) {pos n : Nat} {a : ByteArray}
    (h : v.getBytes pos n = .ok a) {d l : Nat} (hdl : d + l ≤ n) :
    v.getBytes (pos + d) l = .ok (v.bytesAt (pos + d) l).toByteArray := by
  obtain ⟨p, hp, hopen, hfit, -⟩ := (getBytes_eq_ok_iff hwf).1 h
  have hsub : v.base.Fits (p + d) l := ⟨by have := hfit.1; omega, by have := hfit.2; omega⟩
  refine (getBytes_eq_ok_iff hwf).2 ⟨p + d, place_within hp hfit.1 hdl, hopen, hsub, ?_⟩
  rw [bytesAt, place_eq_ok hp, Nat.add_assoc]

/-- What a view reads is the bytes it shows. -/
theorem eq_bytesAt_of_getBytes {v : View} (hwf : v.base.WellFormed) {pos n : Nat} {a : ByteArray}
    (h : v.getBytes pos n = .ok a) : a = (v.bytesAt pos n).toByteArray := by
  have hall := getBytes_within hwf h (d := 0) (l := n) (by omega)
  rw [Nat.add_zero, h] at hall
  exact Except.ok.inj hall

/-! ## Whole contents -/

variable {L R : View}

/-- The loop of a comparison compares the bytes `[pos, common)` of the two views, whatever the
    pieces it reads them in. -/
theorem compareFrom_eq (hL : L.base.WellFormed) (hR : R.base.WellFormed) {common : Nat}
    {a b : ByteArray} (ha : L.getBytes 0 common = .ok a) (hb : R.getBytes 0 common = .ok b)
    (pos : Nat) :
    compareFrom L R common pos =
      .ok (Bytes.lexCompare (L.bytesAt pos (common - pos)) (R.bytesAt pos (common - pos))) := by
  fun_induction compareFrom L R common pos with
  | case1 pos hpos len ih =>
    have hlen : len = min (common - pos) chunkSize := rfl
    -- the piece at `pos` lies inside the common bytes, which both views read
    have hA : L.getBytes pos len = .ok (L.bytesAt pos len).toByteArray := by
      simpa using getBytes_within hL ha (d := pos) (l := len) (by omega)
    have hB : R.getBytes pos len = .ok (R.bytesAt pos len).toByteArray := by
      simpa using getBytes_within hR hb (d := pos) (l := len) (by omega)
    rw [hA, hB, show common - pos = len + (common - (pos + len)) by omega, bytesAt_add,
      bytesAt_add, Bytes.lexCompare_append _ _ (by simp)]
    simp only [bind, Except.bind, Records.compareBytes_eq_lexCompare, List.toList_data_toByteArray]
    cases Bytes.lexCompare (L.bytesAt pos len) (R.bytesAt pos len) with
    | lt => rfl
    | eq => exact ih
    | gt => rfl
  | case2 pos hpos =>
    rw [show common - pos = 0 by omega]
    rfl

/-- Past their common part, two sizes compare as they do. -/
theorem compare_sub_min (m n : Nat) : compare (m - min m n) (n - min m n) = compare m n := by
  rcases Nat.lt_trichotomy m n with h | rfl | h
  · rw [Nat.compare_eq_lt.2 h, Nat.compare_eq_lt.2 (by omega)]
  · simp
  · rw [Nat.compare_eq_gt.2 h, Nat.compare_eq_gt.2 (by omega)]

/-- Two views whose bytes can all be read compare as their contents do: lexicographically,
    unsigned byte by unsigned byte, a strict prefix first. Their byte orders, the pieces the
    comparison reads and the segments their stores hold do not matter. -/
theorem compareWith_eq_compare (hL : L.base.WellFormed) (hR : R.base.WellFormed)
    {a b : ByteArray} (ha : L.getBytes 0 L.size = .ok a) (hb : R.getBytes 0 R.size = .ok b) :
    L.compareWith R = .ok (compare a.data.toList b.data.toList) := by
  have haC : L.getBytes 0 (min L.size R.size) =
      .ok (L.bytesAt 0 (min L.size R.size)).toByteArray := by
    simpa using getBytes_within hL ha (d := 0) (l := min L.size R.size) (by omega)
  have hbC : R.getBytes 0 (min L.size R.size) =
      .ok (R.bytesAt 0 (min L.size R.size)).toByteArray := by
    simpa using getBytes_within hR hb (d := 0) (l := min L.size R.size) (by omega)
  have hloop := compareFrom_eq hL hR haC hbC 0
  -- each content is the common part followed by what lies past it
  have hsplit : ∀ {v : View} {c : ByteArray}, v.base.WellFormed → v.getBytes 0 v.size = .ok c →
      min L.size R.size ≤ v.size → c.data.toList = v.bytesAt 0 (min L.size R.size) ++
        v.bytesAt (min L.size R.size) (v.size - min L.size R.size) := by
    intro v c hv hc hle
    rw [eq_bytesAt_of_getBytes hv hc, List.toList_data_toByteArray]
    conv_lhs => rw [← Nat.add_sub_cancel' hle]
    rw [bytesAt_add, Nat.zero_add]
  -- past the common part one side has nothing left, so the sizes decide
  have hrest : Bytes.lexCompare (L.bytesAt (min L.size R.size) (L.size - min L.size R.size))
      (R.bytesAt (min L.size R.size) (R.size - min L.size R.size)) = compare L.size R.size := by
    rw [Bytes.lexCompare_of_nil, length_bytesAt, length_bytesAt, compare_sub_min]
    by_cases hle : L.size ≤ R.size
    · exact .inl (List.eq_nil_of_length_eq_zero (by simp; omega))
    · exact .inr (List.eq_nil_of_length_eq_zero (by simp; omega))
  rw [← Bytes.lexCompare_eq_compare, hsplit hL ha (by omega), hsplit hR hb (by omega),
    Bytes.lexCompare_append _ _ (by simp), hrest]
  simp only [compareWith, hloop, Nat.sub_zero, bind, Except.bind]
  cases Bytes.lexCompare (L.bytesAt 0 (min L.size R.size)) (R.bytesAt 0 (min L.size R.size)) <;> rfl

/-- A window onto the bytes `01 02 ff` of a flat store, compared with a little-endian adapter over
    the bytes `01 02 00` held in segments of two bytes: the last byte decides, and it is compared
    unsigned. -/
theorem compareWith_eq_compare_segments :
    let L := View.window 1 3 (.store (.flat (Flat.ofBytes ⟨#[9, 1, 2, 255]⟩ .big)))
    let R := View.reorder .little (.store (.segmented
      { segments := #[.whole ⟨#[1, 2]⟩, .whole ⟨#[0]⟩], shift := 1, size := 3 }))
    L.base.WellFormed ∧ R.base.WellFormed ∧ L.getBytes 0 L.size = .ok ⟨#[1, 2, 255]⟩ ∧
      R.getBytes 0 R.size = .ok ⟨#[1, 2, 0]⟩ ∧ L.compareWith R = .ok .gt := by
  intro L R
  have hL : L.base.WellFormed := trivial
  have hR : R.base.WellFormed := by
    refine ⟨fun i => ?_, fun i => ?_⟩
    · rcases i with _ | _ | i
      · decide
      · decide
      · simp [Segmented.segment, Segmented.segmentLength, Block.size]
        omega
    · rcases i with _ | _ | i <;> simp [Segmented.segment, Block.WellFormed]
  have ha : L.getBytes 0 L.size = .ok ⟨#[1, 2, 255]⟩ := by cbv
  have hb : R.getBytes 0 R.size = .ok ⟨#[1, 2, 0]⟩ := by cbv
  exact ⟨hL, hR, ha, hb, (compareWith_eq_compare hL hR ha hb).trans (by decide)⟩

/-! ## Ranges -/

/-- Two byte strings built from lists are equal, byte for byte, exactly when the lists are. -/
theorem beq_toByteArray (x y : List UInt8) :
    ByteArray.beq x.toByteArray y.toByteArray = decide (x = y) := by
  simp [ByteArray.beq, Bool.beq_eq_decide_eq]

/-- The loop of a range comparison says whether the bytes `[done, length)` of the two ranges are
    equal, whatever the pieces it reads them in. -/
theorem equalFrom_eq (hL : L.base.WellFormed) (hR : R.base.WellFormed) {pos offset length : Nat}
    {a b : ByteArray} (ha : L.getBytes pos length = .ok a) (hb : R.getBytes offset length = .ok b)
    (done : Nat) :
    equalFrom L pos R offset length done =
      .ok (decide (L.bytesAt (pos + done) (length - done) =
        R.bytesAt (offset + done) (length - done))) := by
  fun_induction equalFrom L pos R offset length done with
  | case1 done hdone len ih =>
    have hlen : len = min (length - done) chunkSize := rfl
    have hA : L.getBytes (pos + done) len = .ok (L.bytesAt (pos + done) len).toByteArray :=
      getBytes_within hL ha (by omega)
    have hB : R.getBytes (offset + done) len = .ok (R.bytesAt (offset + done) len).toByteArray :=
      getBytes_within hR hb (by omega)
    rw [hA, hB, show length - done = len + (length - (done + len)) by omega, bytesAt_add,
      bytesAt_add]
    simp only [bind, Except.bind, beq_toByteArray, decide_eq_true_eq]
    -- the ranges agree exactly when this piece and the rest agree
    by_cases hpiece : L.bytesAt (pos + done) len = R.bytesAt (offset + done) len
    · rw [if_pos hpiece, ih, hpiece]
      simp only [List.append_cancel_left_eq, Nat.add_assoc]
    · rw [if_neg hpiece]
      have hne : L.bytesAt (pos + done) len ++ L.bytesAt (pos + done + len) (length - (done + len)) ≠
          R.bytesAt (offset + done) len ++ R.bytesAt (offset + done + len) (length - (done + len)) :=
        fun h => hpiece (List.append_inj h (by simp)).1
      simp [hne, pure, Except.pure]
  | case2 done hdone =>
    rw [show length - done = 0 by omega]
    rfl

/-- Comparing two ranges checks the left range and then the right one, before it reads a byte,
    and fails with the first check that fails. When both ranges can be read, it says whether their
    bytes are equal, whatever pieces it reads them in and however their stores are laid out. -/
theorem rangeEquals_spec (hL : L.base.WellFormed) (hR : R.base.WellFormed) (pos offset length : Nat) :
    (∀ e, checkRange pos length L.size = .error e → L.rangeEquals pos R offset length = .error e) ∧
      (∀ e, checkRange pos length L.size = .ok () → checkRange offset length R.size = .error e →
        L.rangeEquals pos R offset length = .error e) ∧
      ∀ a b, L.getBytes pos length = .ok a → R.getBytes offset length = .ok b →
        L.rangeEquals pos R offset length = .ok (decide (a = b)) := by
  refine ⟨fun e he => ?_, fun e hleft he => ?_, fun a b ha hb => ?_⟩
  · simp [rangeEquals, he, bind, Except.bind]
  · simp [rangeEquals, hleft, he, bind, Except.bind]
  · have hrun := equalFrom_eq hL hR ha hb 0
    simp only [Nat.add_zero, Nat.sub_zero] at hrun
    have hdecide : decide (a = b) = decide (L.bytesAt pos length = R.bytesAt offset length) := by
      rw [eq_bytesAt_of_getBytes hL ha, eq_bytesAt_of_getBytes hR hb]
      exact decide_eq_decide.2 ⟨fun h => by simpa using congrArg (·.data.toList) h,
        fun h => h ▸ rfl⟩
    simp [rangeEquals, checkRange_of_getBytes ha, checkRange_of_getBytes hb, hrun, hdecide, bind,
      Except.bind]

/-- The bytes `02 ff` of a window onto a flat store, and the same bytes across the boundary of
    two segments of another store, are found equal. -/
theorem rangeEquals_spec_segments :
    let L := View.window 1 4 (.store (.flat (Flat.ofBytes ⟨#[9, 1, 2, 255, 3]⟩ .big)))
    let R := View.store (.segmented
      { segments := #[.whole ⟨#[7, 2]⟩, .whole ⟨#[255, 4]⟩], shift := 1, size := 4 })
    L.base.WellFormed ∧ R.base.WellFormed ∧ L.getBytes 1 2 = .ok ⟨#[2, 255]⟩ ∧
      R.getBytes 1 2 = .ok ⟨#[2, 255]⟩ ∧ L.rangeEquals 1 R 1 2 = .ok true := by
  intro L R
  have hL : L.base.WellFormed := trivial
  have hR : R.base.WellFormed := by
    refine ⟨fun i => ?_, fun i => ?_⟩
    · rcases i with _ | _ | i
      · decide
      · decide
      · simp [Segmented.segment, Segmented.segmentLength, Block.size]
        omega
    · rcases i with _ | _ | i <;> simp [Segmented.segment, Block.WellFormed]
  have ha : L.getBytes 1 2 = .ok ⟨#[2, 255]⟩ := by cbv
  have hb : R.getBytes 1 2 = .ok ⟨#[2, 255]⟩ := by cbv
  exact ⟨hL, hR, ha, hb, ((rangeEquals_spec hL hR 1 1 2).2.2 _ _ ha hb).trans (by simp)⟩

end View

end ByteView
