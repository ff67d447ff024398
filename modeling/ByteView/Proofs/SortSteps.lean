import ByteView.Proofs.View
import ByteView.Records.Sort

/-!
# The steps of a sort

A sort changes its view only by exchanging two records, and an exchange is four accesses: two
reads, then two writes. This module says what one exchange does to the store under the view,
and packages what the other steps keep, so that the sort's own proofs are inductions over its
recursion with these as their steps.

* `Records.exchange_cases`: an exchange either fails and changes nothing at all, or trades the
  bytes of the two records in the store and changes nothing else (`Store.Trades`). It reads
  both records before it writes either, and once the first write is accepted the second is too;
* `Store.Rearranges`: a store holds the records of a range of another in some order, and its
  other bytes unchanged. Trading two records of a range rearranges it
  (`Store.Trades.rearranges`), and a rearrangement of a part of a range is one of the range
  (`Store.Rearranges.widen`);
* `Records.Rearranging`: a step that rearranges a range whether it ends with a value or with a
  fault. It is closed under `bind`, and comparisons, reads and exchanges inside the range have
  it.
-/

namespace ByteView

namespace Records

/-! ## Where an exchange sends a record -/

@[simp] theorem retarget_left (a b : Nat) : retarget a a b = b := by
  simp [retarget]

@[simp] theorem retarget_right (a b : Nat) : retarget b a b = a := by
  unfold retarget
  split <;> simp_all

@[simp] theorem retarget_self (k a : Nat) : retarget k a a = k := by
  unfold retarget
  split <;> simp_all

theorem retarget_of_ne {k a b : Nat} (ha : k ≠ a) (hb : k ≠ b) : retarget k a b = k := by
  simp [retarget, ha, hb]

/-- Exchanging the same two records again brings every record back. -/
theorem retarget_retarget (k a b : Nat) : retarget (retarget k a b) b a = k := by
  unfold retarget
  by_cases ha : k = a <;> by_cases hb : k = b <;> simp_all

theorem retarget_lt {k a b n : Nat} (hk : k < n) (ha : a < n) (hb : b < n) : retarget k a b < n := by
  unfold retarget
  split
  · exact hb
  · split
    · exact ha
    · exact hk

/-- Offsets of records of a range are exchanged as their indices are. -/
theorem retarget_offset {width : Nat} (hw : 0 < width) (s k i j : Nat) :
    retarget (s + k * width) (s + i * width) (s + j * width) = s + retarget k i j * width := by
  unfold retarget
  simp only [Nat.add_left_cancel_iff, Nat.mul_right_cancel_iff hw]
  by_cases hi : k = i
  · rw [if_pos hi, if_pos hi]
  · rw [if_neg hi, if_neg hi]
    by_cases hj : k = j
    · rw [if_pos hj, if_pos hj]
    · rw [if_neg hj, if_neg hj]

end Records

namespace Store

/-- `t` is `s` with the `w` bytes at `x` and the `w` bytes at `y` traded. -/
def Trades (s t : Store) (x y w : Nat) : Prop :=
  ∀ z, t.byte z =
    if y ≤ z ∧ z < y + w then s.byte (x + (z - y))
    else if x ≤ z ∧ z < x + w then s.byte (y + (z - x)) else s.byte z

@[simp] theorem length_bytesAt (s : Store) (pos len : Nat) : (s.bytesAt pos len).length = len := by
  simp [bytesAt]

theorem getD_bytesAt (s : Store) {pos len k : Nat} (hk : k < len) :
    (s.bytesAt pos len).toByteArray[k]?.getD 0 = s.byte (pos + k) := by
  rw [Bytes.getElem?_eq_toList, List.toList_data_toByteArray, bytesAt, List.getElem?_map,
    List.getElem?_range' hk]
  simp

/-- The `count` records of `width` bytes from position `pos`. -/
def records (s : Store) (pos width count : Nat) : List (List UInt8) :=
  (List.range count).map fun i => s.bytesAt (pos + i * width) width

/-- `t` holds the records of `s` at `[pos, pos + count * width)` in some order, and every other
    byte of `s` where it was. -/
structure Rearranges (s t : Store) (pos width count : Nat) : Prop where
  perm : (t.records pos width count).Perm (s.records pos width count)
  frame : ∀ x, x < pos ∨ pos + count * width ≤ x → t.byte x = s.byte x

@[simp] theorem length_records (s : Store) (pos width count : Nat) :
    (s.records pos width count).length = count := by
  simp [records]

theorem getElem_records (s : Store) {pos width count k : Nat} (hk : k < (s.records pos width count).length) :
    (s.records pos width count)[k] = s.bytesAt (pos + k * width) width := by
  simp [records]

theorem records_add (s : Store) (pos width a b : Nat) :
    s.records pos width (a + b) = s.records pos width a ++ s.records (pos + a * width) width b := by
  simp only [records, List.range_add, List.map_append, List.map_map]
  congr 2
  funext i
  simp only [Function.comp, Nat.add_mul, Nat.add_assoc]

/-- The record `k` of `width` bytes of the records from `pos` on. -/
def record (t : Store) (pos width k : Nat) : List UInt8 := t.bytesAt (pos + k * width) width

theorem records_eq_map (t : Store) (pos width count : Nat) :
    t.records pos width count = (List.range count).map (t.record pos width) := rfl

theorem record_shift (t : Store) (pos width a k : Nat) :
    t.record (pos + a * width) width k = t.record pos width (a + k) := by
  simp only [record, Nat.add_mul, Nat.add_assoc]

/-- Record `k` of a run of `count` records ends inside the run. -/
theorem record_end_le (width : Nat) {k count : Nat} (h : k < count) :
    k * width + width ≤ count * width := by
  have hle := Nat.mul_le_mul_right width (show k + 1 ≤ count from h)
  rwa [Nat.succ_mul] at hle

/-- Records whose bytes agree are the same records. -/
theorem records_congr {s t : Store} {pos width count : Nat}
    (h : ∀ x, pos ≤ x → x < pos + count * width → t.byte x = s.byte x) :
    t.records pos width count = s.records pos width count := by
  apply List.ext_getElem (by simp)
  intro k hk _
  simp only [length_records] at hk
  have hend := record_end_le width hk
  simp only [getElem_records, bytesAt]
  apply List.map_congr_left
  intro x hx
  rw [List.mem_range'_1] at hx
  exact h x (by omega) (by omega)

theorem Rearranges.refl (s : Store) (pos width count : Nat) : Rearranges s s pos width count :=
  ⟨List.Perm.refl _, fun _ _ => rfl⟩

theorem Rearranges.trans {s t u : Store} {pos width count : Nat} (h1 : Rearranges s t pos width count)
    (h2 : Rearranges t u pos width count) : Rearranges s u pos width count :=
  ⟨h2.perm.trans h1.perm, fun x hx => (h2.frame x hx).trans (h1.frame x hx)⟩

/-- Rearranging the records of a part of a range rearranges the records of the range. -/
theorem Rearranges.widen {s t : Store} {pos width count i m : Nat}
    (h : Rearranges s t (pos + i * width) width m) (him : i + m ≤ count) :
    Rearranges s t pos width count := by
  have hsplit : ∀ u : Store, u.records pos width count = u.records pos width i ++
      (u.records (pos + i * width) width m ++
        u.records (pos + (i + m) * width) width (count - i - m)) := by
    intro u
    have hcount : count = i + (m + (count - i - m)) := by omega
    calc u.records pos width count = u.records pos width (i + (m + (count - i - m))) :=
          congrArg _ hcount
      _ = _ := by
        rw [records_add, records_add]
        simp only [Nat.add_mul, Nat.add_assoc]
  have hlow : ∀ x, x < pos + i * width ∨ pos + i * width + m * width ≤ x → t.byte x = s.byte x :=
    h.frame
  refine ⟨?_, fun x hx => hlow x ?_⟩
  · have hbefore : t.records pos width i = s.records pos width i :=
      records_congr fun x _ hx => hlow x (.inl hx)
    have hafter : t.records (pos + (i + m) * width) width (count - i - m) =
        s.records (pos + (i + m) * width) width (count - i - m) :=
      records_congr fun x hx _ => hlow x (.inr (by rw [Nat.add_mul] at hx; omega))
    rw [hsplit t, hsplit s, hbefore, hafter]
    exact (h.perm.append_right _).append_left _
  · have hin : (i + m) * width ≤ count * width := Nat.mul_le_mul_right width him
    rw [Nat.add_mul] at hin
    omega

/-- A byte of record `k` lies in record `j` only when `k = j`. -/
theorem mem_record_iff {pos width j k q : Nat} (hq : q < width) :
    (pos + j * width ≤ pos + k * width + q ∧ pos + k * width + q < pos + j * width + width) ↔
      k = j := by
  constructor
  · rintro ⟨hlo, hhi⟩
    rcases Nat.lt_trichotomy k j with hkj | hkj | hkj
    · have := record_end_le width hkj
      omega
    · exact hkj
    · have := record_end_le width hkj
      omega
  · rintro rfl
    omega

/-- After a trade of records `i` and `j`, record `j` holds what record `i` held and the other way
    round; all other records are as they were. -/
theorem Trades.record {s t : Store} {pos width i j : Nat}
    (h : s.Trades t (pos + i * width) (pos + j * width) width) (k : Nat) :
    t.record pos width k = s.record pos width (Records.retarget k j i) := by
  apply List.ext_getElem (by simp [Store.record])
  intro q hq _
  simp only [Store.record, length_bytesAt] at hq
  simp only [Store.record, bytesAt, List.getElem_map, List.getElem_range', Nat.one_mul]
  rw [h]
  by_cases hkj : k = j
  · subst hkj
    rw [if_pos ((mem_record_iff hq).2 rfl), Records.retarget_left]
    congr 1
    omega
  · rw [if_neg (fun hin => hkj ((mem_record_iff hq).1 hin))]
    by_cases hki : k = i
    · subst hki
      rw [if_pos ((mem_record_iff hq).2 rfl), Records.retarget_right]
      congr 1
      omega
    · rw [if_neg (fun hin => hki ((mem_record_iff hq).1 hin)), Records.retarget_of_ne hkj hki]

/-- Trading two records of a range rearranges the range. -/
theorem Trades.rearranges {s t : Store} {pos width count i j : Nat}
    (h : s.Trades t (pos + i * width) (pos + j * width) width) (hi : i < count) (hj : j < count) :
    Rearranges s t pos width count := by
  refine ⟨?_, fun x hx => ?_⟩
  · -- record `j` now holds record `i` and record `i` holds record `j`
    have hilen : i < (s.records pos width count).length := by simpa using hi
    have hjlen : j < (s.records pos width count).length := by simpa using hj
    have hswap : t.records pos width count =
        ((s.records pos width count).set i (s.records pos width count)[j]).set j
          (s.records pos width count)[i] := by
      apply List.ext_getElem (by simp)
      intro k hk _
      simp only [length_records] at hk
      simp only [records_eq_map, List.getElem_map, List.getElem_range, List.getElem_set, h.record k]
      by_cases hkj : j = k
      · rw [if_pos hkj, ← hkj, Records.retarget_left]
      · rw [if_neg hkj]
        by_cases hki : i = k
        · rw [if_pos hki, ← hki, Records.retarget_right]
        · rw [if_neg hki, Records.retarget_of_ne (Ne.symm hkj) (Ne.symm hki)]
    rw [hswap]
    exact List.set_set_perm _ _
  · have hi' := record_end_le width hi
    have hj' := record_end_le width hj
    rw [h, if_neg (by omega), if_neg (by omega)]

/-- `r'` holds the records `[a, a + m)` of `r` in some order, each of them a record of that part,
    and every other record where it was. -/
structure Moves (r r' : Nat → List UInt8) (a m : Nat) : Prop where
  inside : ∀ k, a ≤ k → k < a + m → ∃ j, a ≤ j ∧ j < a + m ∧ r' k = r j
  outside : ∀ k, k < a ∨ a + m ≤ k → r' k = r k

/-- A rearrangement of a part of the records moves the records of that part among themselves. -/
theorem Rearranges.moves {s t : Store} {pos width a m : Nat}
    (h : s.Rearranges t (pos + a * width) width m) :
    Moves (s.record pos width) (t.record pos width) a m := by
  constructor
  · intro k hk hkm
    have hmem : t.record pos width k ∈ (List.range m).map (t.record (pos + a * width) width) := by
      rw [List.mem_map]
      exact ⟨k - a, List.mem_range.2 (by omega), by rw [record_shift, Nat.add_sub_cancel' hk]⟩
    have hperm := h.perm
    rw [records_eq_map, records_eq_map] at hperm
    obtain ⟨j, hj, hrec⟩ := List.mem_map.1 (hperm.subset hmem)
    have hj' := List.mem_range.1 hj
    refine ⟨a + j, by omega, by omega, ?_⟩
    rw [← hrec, record_shift]
  · intro k hk
    apply List.ext_getElem (by simp [Store.record])
    intro q hq _
    simp only [Store.record, length_bytesAt] at hq
    simp only [Store.record, bytesAt, List.getElem_map, List.getElem_range', Nat.one_mul]
    apply h.frame
    rcases hk with hk | hk
    · left
      have := record_end_le width hk
      omega
    · right
      have := Nat.mul_le_mul_right width hk
      rw [Nat.add_mul] at this
      omega

/-- Records moved within two disjoint parts, one part after the other: each record of either part
    is one of that part before, and every other record is where it was. -/
theorem Moves.disjoint {r₁ r₂ r₃ : Nat → List UInt8} {a m b l : Nat} (h₁ : Moves r₁ r₂ a m)
    (h₂ : Moves r₂ r₃ b l) (hd : a + m ≤ b ∨ b + l ≤ a) :
    (∀ k, a ≤ k → k < a + m → ∃ j, a ≤ j ∧ j < a + m ∧ r₃ k = r₁ j) ∧
      (∀ k, b ≤ k → k < b + l → ∃ j, b ≤ j ∧ j < b + l ∧ r₃ k = r₁ j) ∧
      ∀ k, (k < a ∨ a + m ≤ k) → (k < b ∨ b + l ≤ k) → r₃ k = r₁ k := by
  refine ⟨fun k hk hk' => ?_, fun k hk hk' => ?_, fun k ha hb => ?_⟩
  · obtain ⟨j, hj, hj', hrec⟩ := h₁.inside k hk hk'
    exact ⟨j, hj, hj', by rw [h₂.outside k (by omega), hrec]⟩
  · obtain ⟨j, hj, hj', hrec⟩ := h₂.inside k hk hk'
    exact ⟨j, hj, hj', by rw [hrec, h₁.outside j (by omega)]⟩
  · rw [h₂.outside k hb, h₁.outside k ha]

end Store

namespace Records

/-- The state a step of a sort ends in, with a value or with a fault. -/
def after {α : Type} : EStateM.Result Fault Sorting α → Sorting
  | .ok _ s => s
  | .error _ s => s

variable {v : View} {t : Store}

/-- An exchange of two records of a view trades their bytes in the store and changes nothing
    else, or fails and changes nothing at all: its two reads come first, and once the first
    write is accepted the second is too. -/
theorem exchange_cases (hwf : t.WellFormed) (hshape : Store.SameShape v.base t) (w a b pivot n : Nat)
    (hne : a ≠ b) :
    (∃ e, (exchange w a b pivot).run ⟨v.withBase t, n⟩ = .error e ⟨v.withBase t, n⟩ ∧
        ¬((v.withBase t).Accepts a w ∧ (v.withBase t).Accepts b w)) ∨
      ∃ t', (exchange w a b pivot).run ⟨v.withBase t, n⟩ =
          .ok (retarget pivot a b) ⟨v.withBase t', n⟩ ∧ t'.WellFormed ∧ Store.SameShape t t' ∧
        t.Trades t' (v.origin + a) (v.origin + b) w := by
  have hsize : t.size = v.base.size := hshape.size
  simp only [exchange, ne_eq, hne, not_false_eq_true, if_true]
  -- the two reads come first; a failed one changes nothing
  cases hl : (v.withBase t).getBytes a w with
  | error e =>
    refine .inl ⟨e, by simp only [EStateM.run, bind, EStateM.bind, inspect, hl], ?_⟩
    rintro ⟨⟨⟨bs, h⟩, -⟩, -⟩
    rw [hl] at h
    cases h
  | ok left =>
  cases hr : (v.withBase t).getBytes b w with
  | error e =>
    refine .inl ⟨e, by simp only [EStateM.run, bind, EStateM.bind, inspect, hl, hr], ?_⟩
    rintro ⟨-, ⟨bs, h⟩, -⟩
    rw [hr] at h
    cases h
  | ok right =>
  have hwf' : (v.withBase t).base.WellFormed := by rw [View.base_withBase]; exact hwf
  obtain ⟨pa, hpa, -, hfa, rfl⟩ := (View.getBytes_eq_ok_iff hwf').1 hl
  obtain ⟨pb, hpb, -, hfb, rfl⟩ := (View.getBytes_eq_ok_iff hwf').1 hr
  simp only [View.base_withBase] at hfa hfb hl hr ⊢
  have hplace_a := View.place_eq_ok hpa
  have hplace_b := View.place_eq_ok hpb
  simp only [View.origin_withBase] at hplace_a hplace_b
  -- the first write: a failed one changes nothing
  cases hw1 : (v.withBase t).putBytes a (t.bytesAt pb w).toByteArray with
  | error e =>
    refine .inl ⟨e, by simp only [EStateM.run, bind, EStateM.bind, inspect, change, hl, hr, hw1],
      ?_⟩
    rintro ⟨⟨-, hput⟩, -⟩
    obtain ⟨v1, h⟩ := hput (t.bytesAt pb w).toByteArray (by simp)
    rw [hw1] at h
    cases h
  | ok v1 =>
  obtain ⟨p1, t1, hp1, ht1, rfl⟩ := View.putBytes_eq_ok_iff.1 hw1
  simp only [View.base_withBase, List.size_toByteArray, Store.length_bytesAt] at hp1 ht1
  have hp1a : p1 = pa := by rw [View.place_eq_ok hp1, hplace_a, View.origin_withBase]
  subst hp1a
  have hw1' := Store.writes_of_putBytes hwf ht1
  have hwritable := (Store.putBytes_eq_ok_iff.1 ⟨t1, ht1⟩).1
  -- the second write lands where the read of `b` did, in a store that is still writable
  have hplace1 : (v.withBase t1).place b w = .ok pb := by
    rw [View.place_withBase v (hw1'.shape.size.trans hsize), ← View.place_withBase v hsize, hpb]
  obtain ⟨t2, ht2⟩ : ∃ t2, t1.putBytes pb (t.bytesAt p1 w).toByteArray = .ok t2 := by
    refine Store.putBytes_eq_ok_iff.2 ⟨hw1'.shape.isWritable.trans hwritable, ?_⟩
    simp only [Store.Fits, List.size_toByteArray, Store.length_bytesAt, hw1'.shape.size]
    exact hfb
  have hw2' := Store.writes_of_putBytes hw1'.wellFormed ht2
  have hw2 : ((v.withBase t).withBase t1).putBytes b (t.bytesAt p1 w).toByteArray =
      .ok (v.withBase t2) := by
    rw [View.withBase_withBase, View.putBytes_eq_place]
    simp only [List.size_toByteArray, Store.length_bytesAt, hplace1, View.base_withBase, ht2, bind,
      Except.bind, pure, Except.pure, View.withBase_withBase]
  refine .inr ⟨t2, ?_, hw2'.wellFormed, hw1'.shape.trans hw2'.shape, fun z => ?_⟩
  · simp only [EStateM.run, bind, EStateM.bind, inspect, change, hl, hr, hw1, hw2, pure,
      EStateM.pure]
  · -- the second write puts the bytes of `a` at `b`, over the first one's bytes of `b` at `a`
    rw [hw2'.byte, hw1'.byte, ← hplace_a, ← hplace_b]
    simp only [List.size_toByteArray, Store.length_bytesAt]
    by_cases hinb : pb ≤ z ∧ z < pb + w
    · rw [if_pos hinb, if_pos hinb, Store.getD_bytesAt _ (by omega)]
    · rw [if_neg hinb, if_neg hinb]
      by_cases hina : p1 ≤ z ∧ z < p1 + w
      · rw [if_pos hina, if_pos hina, Store.getD_bytesAt _ (by omega)]
      · rw [if_neg hina, if_neg hina]

/-- A record is not exchanged with itself. -/
theorem exchange_self (w a pivot : Nat) (st : Sorting) :
    (exchange w a a pivot).run st = .ok pivot st := by
  simp only [exchange, ne_eq, not_true_eq_false, if_false, retarget]
  by_cases h : pivot = a
  · rw [if_pos h, h]
    rfl
  · rw [if_neg h, if_neg h]
    rfl

/-! ## Steps that rearrange records -/

/-- A step of a sort of the view `v` that, from any state over a well-formed store of the shape of
    `v`'s own, ends over such a store again, with the same adapters and with the records of
    `[pos, pos + count * width)` rearranged, whether it ends with a value or with a fault; a value
    it ends with satisfies `Q`. -/
def Rearranging (v : View) (pos width count : Nat) {α : Type} (Q : α → Prop) (m : SortM α) :
    Prop :=
  ∀ t n, t.WellFormed → Store.SameShape v.base t →
    (∀ a st, m.run ⟨v.withBase t, n⟩ = .ok a st → Q a) ∧
    ∃ t', (after (m.run ⟨v.withBase t, n⟩)).view = v.withBase t' ∧ t'.WellFormed ∧
      Store.SameShape v.base t' ∧ t.Rearranges t' pos width count

theorem run_bind {α β : Type} (m : SortM α) (f : α → SortM β) (st : Sorting) :
    (m >>= f).run st = match m.run st with
      | .ok a s => (f a).run s
      | .error e s => .error e s := by
  simp only [EStateM.run, bind, EStateM.bind]
  cases m st <;> rfl

section Rearranging

variable {v : View} {pos width count : Nat}

theorem rearranging_pure {α : Type} {Q : α → Prop} {a : α} (h : Q a) :
    Rearranging v pos width count Q (pure a) := by
  intro t n hwf hshape
  refine ⟨fun b st hrun => ?_, t, rfl, hwf, hshape, Store.Rearranges.refl _ _ _ _⟩
  cases hrun
  exact h

theorem Rearranging.bind {α β : Type} {Q : α → Prop} {R : β → Prop} {m : SortM α}
    {f : α → SortM β} (hm : Rearranging v pos width count Q m)
    (hf : ∀ a, Q a → Rearranging v pos width count R (f a)) :
    Rearranging v pos width count R (m >>= f) := by
  intro t n hwf hshape
  obtain ⟨hvalue, t1, hview, hwf1, hshape1, hre1⟩ := hm t n hwf hshape
  cases hrun : m.run ⟨v.withBase t, n⟩ with
  | ok a st =>
    rw [hrun] at hview
    simp only [after] at hview
    have hst : st = ⟨v.withBase t1, st.compares⟩ := by rw [← hview]
    have hbind : (m >>= f).run ⟨v.withBase t, n⟩ = (f a).run ⟨v.withBase t1, st.compares⟩ := by
      rw [run_bind, hrun, ← hst]
    obtain ⟨hvalue2, t2, hview2, hwf2, hshape2, hre2⟩ :=
      hf a (hvalue a st hrun) t1 st.compares hwf1 hshape1
    rw [hbind]
    exact ⟨hvalue2, t2, hview2, hwf2, hshape2, hre1.trans hre2⟩
  | error e st =>
    rw [hrun] at hview
    have hbind : (m >>= f).run ⟨v.withBase t, n⟩ = .error e st := by
      rw [run_bind, hrun]
    rw [hbind]
    exact ⟨(fun _ _ h => nomatch h), t1, hview, hwf1, hshape1, hre1⟩

theorem rearranging_compareAt (cmp : Comparator) (a b : Nat) :
    Rearranging v pos width count (fun _ => True) (compareAt cmp a b) := by
  intro t n hwf hshape
  refine ⟨fun _ _ _ => trivial, t, ?_, hwf, hshape, Store.Rearranges.refl _ _ _ _⟩
  simp only [EStateM.run, compareAt]
  split <;> rfl

theorem rearranging_inspect {α : Type} (f : View → Except Fault α) :
    Rearranging v pos width count (fun _ => True) (inspect f) := by
  intro t n hwf hshape
  refine ⟨fun _ _ _ => trivial, t, ?_, hwf, hshape, Store.Rearranges.refl _ _ _ _⟩
  simp only [EStateM.run, inspect]
  split <;> rfl

/-- An exchange of two records of the range rearranges it, whether it succeeds or fails. -/
theorem rearranging_exchange {start : Nat} (hpos : pos = v.origin + start) (pivot : Nat)
    {i j : Nat} (hi : i < count) (hj : j < count) :
    Rearranging v pos width count (fun _ => True)
      (exchange width (start + i * width) (start + j * width) pivot) := by
  intro t n hwf hshape
  refine ⟨fun _ _ _ => trivial, ?_⟩
  by_cases hij : start + i * width = start + j * width
  · rw [hij, exchange_self]
    exact ⟨t, rfl, hwf, hshape, Store.Rearranges.refl _ _ _ _⟩
  · rcases exchange_cases hwf hshape width _ _ pivot n hij with ⟨e, hrun, -⟩ | ⟨t', hrun, hwf', hshape', htrades⟩
    · rw [hrun]
      exact ⟨t, rfl, hwf, hshape, Store.Rearranges.refl _ _ _ _⟩
    · rw [hrun]
      refine ⟨t', rfl, hwf', hshape.trans hshape', Store.Trades.rearranges ?_ hi hj⟩
      simpa only [hpos, Nat.add_assoc] using htrades

/-- A run that ends with a value, of a step that rearranges a range, ends with that range
    rearranged. -/
theorem Rearranging.rearranges_of_run {α : Type} {Q : α → Prop} {pos count : Nat} {m : SortM α}
    (h : Rearranging v pos width count Q m) (ht : t.WellFormed) (hshape : Store.SameShape v.base t)
    {n n' : Nat} {a : α} {t' : Store} (hrun : m.run ⟨v.withBase t, n⟩ = .ok a ⟨v.withBase t', n'⟩) :
    t.Rearranges t' pos width count := by
  obtain ⟨-, t'', hview, -, -, hre⟩ := h t n ht hshape
  rw [hrun] at hview
  have hbase := congrArg View.base hview
  simp only [after, View.base_withBase] at hbase
  rw [hbase]
  exact hre

end Rearranging

end Records

end ByteView
