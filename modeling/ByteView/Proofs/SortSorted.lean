import ByteView.Proofs.SortOrders
import ByteView.Tool.Command

/-!
# Sorting records that are already in order

A sort by a key of records already in order of their keys succeeds and keeps, at every place of
the area, a record with the key that was there: the keys of a rearrangement in order are the keys
in order. When the key tells records apart, as a comparison of whole records by their bytes does,
every byte of the store stays where it was.

A key narrower than the record does not tell records apart, and the partition moves records with
equal keys: it sends every record found greater than the pivot to the back of the range, one
exchange at a time, so two records above the pivot with equal keys trade places. Sorting a file
already in order of such a key can so write it back changed (`sort_sorted_file_swaps_equal_keys`).

* `Store.byte_eq_of_records_eq`: stores with the same records agree on every byte of the area;
* `Records.sortBy_of_sorted`: the sort of records in order keeps the key at every place, and
  every byte when the key tells records apart.
-/

namespace ByteView

namespace Store

/-- Stores whose records of an area are the same agree on every byte of the area. -/
theorem byte_eq_of_records_eq {s t : Store} {pos width count : Nat}
    (h : t.records pos width count = s.records pos width count) {x : Nat} (hlo : pos ≤ x)
    (hhi : x < pos + count * width) : t.byte x = s.byte x := by
  have hw : 0 < width := Nat.pos_of_ne_zero fun hzero => by
    rw [hzero, Nat.mul_zero] at hhi
    omega
  -- `x` is byte `k` of record `i`
  obtain ⟨i, k, hi, hk, rfl⟩ : ∃ i k, i < count ∧ k < width ∧ x = pos + i * width + k := by
    refine ⟨(x - pos) / width, (x - pos) % width, (Nat.div_lt_iff_lt_mul hw).2 (by omega),
      Nat.mod_lt _ hw, ?_⟩
    have := Nat.div_add_mod (x - pos) width
    rw [Nat.mul_comm] at this
    omega
  have hrecord : t.record pos width i = s.record pos width i := by
    have := congrArg (fun l => l[i]?) h
    simpa [records_eq_map, hi] using this
  have hbyte := congrArg (fun l => l[k]?) hrecord
  simpa [record, bytesAt, hk, List.getElem?_range', Nat.add_assoc] using hbyte

end Store

namespace Records

variable {κ : Type} [LinearOrder κ]

/-- A sort by a comparator that compares records by a key, of an area of whole records that the
    view reads and writes and that are already in order of their keys, given at least a turn for
    each record, succeeds and keeps at every place of the area a record with the key that was
    there. When the key tells records of the area's size apart, every byte of the store is where
    it was. -/
theorem sortBy_of_sorted (key : List UInt8 → κ) (cmp : Comparator) (v : View)
    (hwf : v.base.WellFormed) (recordSize start length turns : Nat)
    (hcmp : Induced cmp v recordSize key) (hsize : 0 < recordSize)
    (haligned : length % recordSize = 0)
    (hacc : ∀ i, i < length / recordSize → v.Accepts (start + i * recordSize) recordSize)
    (hsorted : Ordered key (v.base.record (v.origin + start) recordSize) (length / recordSize))
    (hturns : length / recordSize ≤ turns) (n : Nat) :
    ∃ t n', (sortBy cmp recordSize start length turns).run ⟨v, n⟩ = .ok () ⟨v.withBase t, n'⟩ ∧
      (∀ i, i < length / recordSize → key (t.record (v.origin + start) recordSize i) =
        key (v.base.record (v.origin + start) recordSize i)) ∧
      ((∀ x y, x.length = recordSize → y.length = recordSize → key x = key y → x = y) →
        ∀ z, t.byte z = v.base.byte z) := by
  obtain ⟨t, n', hrun, -, -, hordered⟩ := sortBy_run hwf hcmp hsize haligned hacc hturns n
  have hrun' : (sortBy cmp recordSize start length turns).run ⟨v.withBase v.base, n⟩ =
      .ok () ⟨v.withBase t, n'⟩ := by
    rw [View.withBase_base]
    exact hrun
  have hre := (rearranging_sortBy (v := v) cmp recordSize start length turns).rearranges_of_run
    hwf (Store.SameShape.refl _) hrun'
  -- both key sequences are in order and one is a rearrangement of the other
  have hkeys : (t.records (v.origin + start) recordSize (length / recordSize)).map key =
      (v.base.records (v.origin + start) recordSize (length / recordSize)).map key :=
    List.Perm.eq_of_pairwise' (List.pairwise_map.2 hordered.pairwise)
      (List.pairwise_map.2 hsorted.pairwise) (hre.perm.map key)
  have hkey : ∀ i, i < length / recordSize → key (t.record (v.origin + start) recordSize i) =
      key (v.base.record (v.origin + start) recordSize i) := by
    intro i hi
    have := congrArg (fun l => l[i]?) hkeys
    simpa [Store.records_eq_map, hi] using this
  refine ⟨t, n', hrun, hkey, fun hinj z => ?_⟩
  have hrecords : t.records (v.origin + start) recordSize (length / recordSize) =
      v.base.records (v.origin + start) recordSize (length / recordSize) := by
    apply List.ext_getElem (by simp)
    intro i hi _
    simp only [Store.length_records] at hi
    simp only [Store.getElem_records]
    exact hinj _ _ (Store.length_bytesAt _ _ _) (Store.length_bytesAt _ _ _) (hkey i hi)
  by_cases hz : v.origin + start ≤ z ∧ z < v.origin + start + length / recordSize * recordSize
  · exact Store.byte_eq_of_records_eq hrecords hz.1 hz.2
  · exact hre.frame z (by omega)

/-- Three one-byte records in order, seen through a window into a flat store, sorted by their
    bytes: a key that tells them apart. -/
theorem sortBy_of_sorted_window :
    let v := View.window 1 3 (.store (.flat (Flat.ofBytes ⟨#[9, 1, 2, 3, 0]⟩ .big)))
    v.base.WellFormed ∧ Induced (byBytes 1) v 1 (fun x => x.map UInt8.toNat) ∧ 0 < 1 ∧
      3 % 1 = 0 ∧ (∀ i, i < 3 / 1 → v.Accepts (0 + i * 1) 1) ∧
      Ordered (fun x => x.map UInt8.toNat) (v.base.record (v.origin + 0) 1) (3 / 1) ∧ 3 / 1 ≤ 3 ∧
      ∃ t n', (sortBy (byBytes 1) 1 0 3 3).run ⟨v, 0⟩ = .ok () ⟨v.withBase t, n'⟩ ∧
        (∀ i, i < 3 / 1 → (t.record (v.origin + 0) 1 i).map UInt8.toNat =
          (v.base.record (v.origin + 0) 1 i).map UInt8.toNat) ∧
        ((∀ x y : List UInt8, x.length = 1 → y.length = 1 →
          x.map UInt8.toNat = y.map UInt8.toNat → x = y) → ∀ z, t.byte z = v.base.byte z) := by
  intro v
  have hacc : ∀ i, i < 3 / 1 → v.Accepts (0 + i * 1) 1 := by
    intro i hi
    refine (View.accepts_iff (v := v) trivial).2 ⟨1 + i * 1, ?_, rfl, rfl, ?_, ?_⟩
    · rcases (show i = 0 ∨ i = 1 ∨ i = 2 by omega) with rfl | rfl | rfl <;> rfl
    · unfold positionLimit
      omega
    · show 1 + i * 1 + 1 ≤ 5
      omega
  have hsorted : Ordered (fun x => x.map UInt8.toNat) (v.base.record (v.origin + 0) 1) (3 / 1) := by
    intro i j hij hj
    interval_cases j <;> interval_cases i <;> decide
  exact ⟨trivial, byBytes_induced v 1, by decide, by decide, hacc, hsorted, Nat.le_refl 3,
    sortBy_of_sorted _ (byBytes 1) v trivial 1 0 3 3 (byBytes_induced v 1) (by decide) (by decide)
      hacc hsorted (Nat.le_refl 3) 0⟩

end Records

namespace Tool

/-- Four records of two bytes, in order of the one-byte key at their start, the last two with
    equal keys: on the host, a verify finds the file in order, and a sort writes it back with those
    two records traded. -/
theorem sort_sorted_file_swaps_equal_keys :
    (verify Platform.host { file := "input.bin", recordSize := 2, key := { offset := some 0, width := some 1 } }
        (.file ⟨#[1, 0xaa, 2, 0xbb, 3, 0xcc, 3, 0xdd]⟩ none)).output =
      .verified { records := 4, firstUnsorted := none } ∧
    (sort Platform.host { file := "input.bin", recordSize := 2, key := { offset := some 0, width := some 1 } }
        (.file ⟨#[1, 0xaa, 2, 0xbb, 3, 0xcc, 3, 0xdd]⟩ none)).written =
      some ⟨#[1, 0xaa, 2, 0xbb, 3, 0xdd, 3, 0xcc]⟩ :=
  ⟨by cbv, by cbv⟩

end Tool

end ByteView
