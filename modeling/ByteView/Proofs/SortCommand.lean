import Mathlib
import ByteView.Proofs.FileMapping
import ByteView.Proofs.SortOrders

/-!
# Sorting a file, then verifying it

The sort command checks its key, maps the file read-write, finds the record area and sorts its
records in place, by the key or by their bytes; the verify command maps the file read-only and
walks the pairs of neighbouring records. This module follows both over a file with any bytes and
any arguments whose key width is one that keys are read at.

A key that fits its records compares two records as their bytes say (`Records.keyOrder`), so the
sort's comparator is induced by a key of the record's bytes, and the results on sorting carry
over: the sort either fails before it moves a record or leaves the records of the area rearranged
and in key order (`Records.sortBy_keyed`). A check of records in key order finds none out of order
(`Records.verify_store`).

* `Tool.sort_then_verify`: a failed sort leaves the file as it was; a sort that succeeds writes
  back the file with the records of its area rearranged, each not greater than the next, and a
  verify of the written file reports them all in order.
-/

namespace ByteView

theorem Width.bytes_pos (w : Width) : 0 < w.bytes := by
  cases w <;> decide

namespace Store

/-- The bytes at `[pos + offset, pos + offset + n)` are those at `offset` on within the bytes
    at `[pos, pos + len)`. -/
theorem bytesAt_drop_take (s : Store) {pos len offset n : Nat} (h : offset + n ≤ len) :
    ((s.bytesAt pos len).drop offset).take n = s.bytesAt (pos + offset) n := by
  rw [bytesAt, bytesAt, ← List.map_drop, ← List.map_take, List.drop_range',
    List.take_range'_of_length_ge (by omega), Nat.mul_one]

theorem isClosed_of_isWritable {s : Store} (h : s.isWritable = true) : s.isClosed = false := by
  cases s <;> simp_all [isWritable, isClosed]

/-- Each record of an area that fits lies in the store. -/
theorem Fits.record {u : Store} {start count width i : Nat} (h : u.Fits start (count * width))
    (hi : i < count) : u.Fits (start + i * width) width := by
  have hend := record_end_le width hi
  unfold Store.Fits at *
  omega

/-- A well-formed open store shows the bytes it holds. -/
theorem shows_bytesAt {t : Store} (ht : t.WellFormed) (hopen : t.isClosed = false) :
    t.Shows (t.bytesAt 0 t.size).toByteArray where
  wellFormed := ht
  isClosed := hopen
  size := by simp
  byte x := by
    by_cases hx : x < t.size
    · rw [getD_bytesAt t hx, Nat.zero_add]
    · rw [byte_of_size_le ht (by omega), Bytes.getElem?_eq_toList, List.toList_data_toByteArray,
        List.getElem?_eq_none (by simp; omega)]
      rfl

/-- A flat store of some bytes shows them. -/
theorem shows_ofBytes (bytes : ByteArray) (order : ByteOrder) :
    (Store.flat (Flat.ofBytes bytes order)).Shows bytes :=
  ⟨trivial, rfl, rfl, fun _ => rfl⟩

/-- Stores that show the same bytes hold the same byte everywhere. -/
theorem Shows.byte_eq {s t : Store} {bytes : ByteArray} (hs : s.Shows bytes) (ht : t.Shows bytes) :
    s.byte = t.byte :=
  funext fun x => (hs.byte x).trans (ht.byte x).symm

/-- Stores that show the same bytes hold the same records. -/
theorem Shows.record_eq {s t : Store} {bytes : ByteArray} (hs : s.Shows bytes)
    (ht : t.Shows bytes) : s.record = t.record := by
  funext pos width k
  simp only [record, bytesAt, hs.byte_eq ht]

/-- A store shows the bytes it holds from its start and no others. -/
theorem Shows.bytesAt_size {s : Store} {bytes : ByteArray} (h : s.Shows bytes) :
    (s.bytesAt 0 s.size).toByteArray = bytes := by
  refine (eq_toByteArray ?_).symm
  rw [h.bytesAt_eq, h.size]
  apply List.ext_getElem (by simp)
  intro i h1 h2
  have hi : i < bytes.data.size := by simpa using h1
  simp [Bytes.getElem?_eq_toList, Array.getElem?_eq_getElem hi]

theorem flush_eq_ok {t : Store} (h : t.isClosed = false) : t.flush = .ok () := by
  cases t <;> simp_all [flush, Flat.flush, Segmented.flush, Flat.ensureOpen,
    Segmented.ensureOpen, isClosed]

/-- A rearrangement of records is one of any stores with the same bytes. -/
theorem Rearranges.of_byte_eq {s s' t t' : Store} {pos width count : Nat} (hs : s'.byte = s.byte)
    (ht : t'.byte = t.byte) (h : s.Rearranges t pos width count) :
    s'.Rearranges t' pos width count := by
  have hrecords : ∀ {u u' : Store}, u'.byte = u.byte →
      u'.records pos width count = u.records pos width count :=
    fun hu => records_congr fun x _ _ => congrFun hu x
  refine ⟨?_, fun x hx => ?_⟩
  · rw [hrecords hs, hrecords ht]
    exact h.perm
  · rw [hs, ht]
    exact h.frame x hx

end Store

namespace Records

namespace Key

/-- The key of a record read from its bytes in byte order `order`: the word at the key's
    offset, as two's complement when the key is signed. -/
def valueOf (k : Key) (order : ByteOrder) (record : List UInt8) : Int :=
  let word := order.decode ((record.drop k.offset).take k.wordWidth.bytes)
  if k.signed then k.wordWidth.toSigned word else word

/-- The word of the key lies inside a record of `recordSize` bytes. -/
def Fits (k : Key) (recordSize : Nat) : Prop := k.offset + k.wordWidth.bytes ≤ recordSize

/-- A key that fits its records reads, in an open store that holds the record, the key of the
    record's bytes. -/
theorem value_store {u : Store} (hu : u.WellFormed) (hopen : u.isClosed = false) {k : Key}
    {recordSize a : Nat} (hk : k.Fits recordSize) (ha : u.Fits a recordSize) :
    k.value (.store u) a = .ok (k.valueOf u.order (u.bytesAt a recordSize)) := by
  have hw := Width.bytes_pos k.wordWidth
  unfold Fits at hk
  unfold Store.Fits at ha
  have hfit : u.Fits (a + k.offset) k.wordWidth.bytes := by
    unfold Store.Fits
    omega
  have hread : View.read (.store u) k.wordWidth (a + k.offset) =
      .ok (u.order.decode (u.bytesAt (a + k.offset) k.wordWidth.bytes)) := by
    show u.read _ _ = _
    rw [Store.read_eq hu, hopen, Store.checkRange_eq_ok_iff_fits.2 hfit]
    rfl
  rw [valueOf, Store.bytesAt_drop_take u hk]
  simp [value, hread, show ¬ positionLimit ≤ a + k.offset by omega, bind, Except.bind, pure,
    Except.pure]

end Key

/-- How `compareRecords` orders two records, given their bytes: by the key when there is one,
    else lexicographically. -/
def keyOrder : Option Key → ByteOrder → List UInt8 → List UInt8 → Ordering
  | some k, order, x, y => compare (k.valueOf order x) (k.valueOf order y)
  | none, _, x, y => Bytes.lexCompare x y

/-- Over an open store that holds both records, comparing them succeeds and orders them as their
    bytes say. -/
theorem compareRecords_store {key : Option Key} {recordSize : Nat}
    (hkey : ∀ k, key = some k → k.Fits recordSize) {u : Store} (hu : u.WellFormed)
    (hopen : u.isClosed = false) {a b : Nat} (ha : u.Fits a recordSize) (hb : u.Fits b recordSize) :
    compareRecords key recordSize (.store u) a b =
      .ok (keyOrder key u.order (u.bytesAt a recordSize) (u.bytesAt b recordSize)) := by
  cases key with
  | some k =>
    have hk := hkey k rfl
    simp [compareRecords, keyOrder, Key.value_store hu hopen hk ha, Key.value_store hu hopen hk hb,
      bind, Except.bind, pure, Except.pure]
  | none =>
    have hread : ∀ x, u.Fits x recordSize →
        View.getBytes (.store u) x recordSize = .ok (u.bytesAt x recordSize).toByteArray :=
      fun x hx => (Store.getBytes_eq_ok_iff hu).2 ⟨hopen, hx, rfl⟩
    simp [compareRecords, keyOrder, hread a ha, hread b hb, bind, Except.bind, pure, Except.pure,
      compareBytes_eq_lexCompare]

/-- Comparing by a key that fits its records is comparing the keys of the records' bytes. -/
theorem keyed_induced {k : Key} {recordSize : Nat} (hk : k.Fits recordSize) (s : Store) :
    Induced (fun _ v a b => compareRecords (some k) recordSize v a b) (.store s) recordSize
      (k.valueOf s.order) := by
  intro n t a b x y ht hshape hx hy
  obtain ⟨hopen, ha, rfl⟩ := (Store.getBytes_eq_ok_iff ht).1 hx
  obtain ⟨-, hb, rfl⟩ := (Store.getBytes_eq_ok_iff ht).1 hy
  have hfit : ∀ k', some k = some k' → k'.Fits recordSize := fun k' h => Option.some_inj.1 h ▸ hk
  show compareRecords (some k) recordSize (.store t) a b = _
  rw [compareRecords_store hfit ht hopen ha hb, List.toList_data_toByteArray,
    List.toList_data_toByteArray, hshape.order]
  exact congrArg Except.ok (eq_compare_of (fun h => Int.compare_eq_lt.1 h)
    (fun h => Int.compare_eq_eq.1 h) (fun h => Int.compare_eq_gt.1 h))

/-- The comparator of a sort by `key`: by the key when there is one, else by the bytes. -/
def keyComparator (key : Option Key) (recordSize : Nat) : Comparator :=
  match key with
  | some k => fun _ v a b => compareRecords (some k) recordSize v a b
  | none => byBytes recordSize

/-- The comparison by `key` finds no record greater than the next one. -/
def InKeyOrder (key : Option Key) (order : ByteOrder) (r : Nat → List UInt8) (count : Nat) : Prop :=
  ∀ i, 0 < i → i < count → keyOrder key order (r (i - 1)) (r i) ≠ .gt

section Whole

variable {κ : Type} [LinearOrder κ] {key : List UInt8 → κ} {cmp : Comparator} {s : Store}

/-- Records in order are in key order for every comparison that finds a record greater only
    when its key is. -/
theorem Ordered.inKeyOrder {r : Nat → List UInt8} {count : Nat} (h : Ordered key r count)
    {k : Option Key} {order : ByteOrder}
    (hgt : ∀ x y, keyOrder k order x y = .gt → key y < key x) : InKeyOrder k order r count :=
  fun i hi hic hcmp => absurd (h (i - 1) i (by omega) hic) (not_le.2 (hgt _ _ hcmp))

/-- A sort of the records of a whole writable store either fails at once, leaving the store as
    it was, or rearranges the records of its area into order, given at least a turn for each
    record; the area then lies in the store whenever it holds two records or more. -/
theorem sortBy_store (hs : s.WellFormed) (hwritable : s.isWritable = true) {recordSize : Nat}
    (hcmp : Induced cmp (.store s) recordSize key) (start length turns : Nat)
    (hturns : length / recordSize ≤ turns) :
    (∃ e, (sortBy cmp recordSize start length turns).run ⟨.store s, 0⟩ = .error e ⟨.store s, 0⟩) ∨
      ∃ t n, (sortBy cmp recordSize start length turns).run ⟨.store s, 0⟩ = .ok () ⟨.store t, n⟩ ∧
        t.WellFormed ∧ Store.SameShape s t ∧ s.Rearranges t start recordSize (length / recordSize) ∧
        Ordered key (t.record start recordSize) (length / recordSize) ∧ 0 < recordSize ∧
        length % recordSize = 0 ∧ (1 < length / recordSize → s.Fits start length) := by
  by_cases hunaligned : recordSize = 0 ∨ length % recordSize ≠ 0
  · exact .inl ⟨_, sortBy_unaligned cmp hunaligned start turns _⟩
  have hsize : 0 < recordSize := by omega
  have haligned : length % recordSize = 0 := by omega
  by_cases hone : length ≤ recordSize
  · -- one record at most: nothing moves
    have hcount : length / recordSize ≤ 1 := Nat.div_le_of_le_mul (by omega)
    refine .inr ⟨s, 0, ?_, hs, Store.SameShape.refl s, Store.Rearranges.refl _ _ _ _,
      ordered_of_le_one hcount, hsize, haligned, by omega⟩
    unfold sortBy
    rw [dif_neg hunaligned, if_pos hone]
    rfl
  cases hrange : checkRange start length s.size with
  | error e => exact .inl ⟨e, sortBy_outside cmp hsize haligned (by omega) turns _ hrange⟩
  | ok u =>
    have hfits : s.Fits start length := Store.checkRange_eq_ok_iff_fits.1 hrange
    have hlength : length / recordSize * recordSize = length :=
      Nat.div_mul_cancel (Nat.dvd_of_mod_eq_zero haligned)
    have hfits' : s.Fits start (length / recordSize * recordSize) := by
      rw [hlength]
      exact hfits
    have hacc : ∀ i, i < length / recordSize →
        (View.store s).Accepts (start + i * recordSize) recordSize := fun i hi =>
      (View.accepts_iff (v := .store s) hs).2 ⟨_, rfl, Store.isClosed_of_isWritable hwritable,
        hwritable, hfits'.record hi⟩
    obtain ⟨t, n, hrun, ht, hshape, hord⟩ :=
      sortBy_run (v := .store s) hs hcmp hsize haligned hacc hturns 0
    have hre := (rearranging_sortBy (v := .store s) cmp recordSize start length turns).rearranges_of_run
      (t := s) hs (Store.SameShape.refl _) hrun
    refine .inr ⟨t, n, hrun, ht, hshape, ?_, ?_, hsize, haligned, fun _ => hfits⟩
    · simpa [View.origin] using hre
    · simpa [View.origin] using hord

end Whole

/-- What a sort by `key` of the records of `s` leaves in `t`: a store of the same shape with the
    records of the area rearranged into key order, and an area that lies in the store whenever
    it holds two records or more. -/
structure SortedArea (key : Option Key) (s t : Store) (start recordSize length : Nat) : Prop where
  wellFormed : t.WellFormed
  shape : Store.SameShape s t
  rearranges : s.Rearranges t start recordSize (length / recordSize)
  inKeyOrder : InKeyOrder key s.order (t.record start recordSize) (length / recordSize)
  size_pos : 0 < recordSize
  aligned : length % recordSize = 0
  fits : 1 < length / recordSize → s.Fits start length

/-- A sort by `key` of the records of a whole writable store, given at least a turn for each
    record, either fails at once, leaving the store as it was, or rearranges the records of its
    area into key order. -/
theorem sortBy_keyed {key : Option Key} {recordSize : Nat}
    (hkey : ∀ k, key = some k → k.Fits recordSize) {s : Store} (hs : s.WellFormed)
    (hwritable : s.isWritable = true) (start length turns : Nat)
    (hturns : length / recordSize ≤ turns) :
    (∃ e, (sortBy (keyComparator key recordSize) recordSize start length turns).run
        ⟨.store s, 0⟩ = .error e ⟨.store s, 0⟩) ∨
      ∃ t n, (sortBy (keyComparator key recordSize) recordSize start length turns).run
          ⟨.store s, 0⟩ =
          .ok () ⟨.store t, n⟩ ∧ SortedArea key s t start recordSize length := by
  cases key with
  | some k =>
    rcases sortBy_store hs hwritable (keyed_induced (hkey k rfl) s) start length turns hturns with
      hfail | ⟨t, n, hrun, ht, hshape, hre, hord, hsize, haligned, hfits⟩
    · exact .inl hfail
    · exact .inr ⟨t, n, hrun, ht, hshape, hre,
        hord.inKeyOrder fun x y h => Int.compare_eq_gt.1 h, hsize, haligned, hfits⟩
  | none =>
    rcases sortBy_store hs hwritable (byBytes_induced (.store s) recordSize) start length turns
        hturns with
      hfail | ⟨t, n, hrun, ht, hshape, hre, hord, hsize, haligned, hfits⟩
    · exact .inl hfail
    · exact .inr ⟨t, n, hrun, ht, hshape, hre,
        hord.inKeyOrder fun x y h => (lexCompare_cases x y).2.2 h, hsize, haligned, hfits⟩

/-- Records in key order compare, each with the next, as not greater. -/
theorem compareRecords_consecutive {key : Option Key} {recordSize : Nat}
    (hkey : ∀ k, key = some k → k.Fits recordSize) {u : Store} (hu : u.WellFormed)
    (hopen : u.isClosed = false) {start count : Nat}
    (hfits : 1 < count → u.Fits start (count * recordSize))
    (hsorted : InKeyOrder key u.order (u.record start recordSize) count) (i : Nat) (hi : 0 < i)
    (hic : i < count) :
    ∃ c, compareRecords key recordSize (.store u) (start + (i - 1) * recordSize)
        (start + i * recordSize) = .ok c ∧ c ≠ .gt := by
  have hcount : 1 < count := by omega
  have hprev := (hfits hcount).record (show i - 1 < count by omega)
  have hthis := (hfits hcount).record hic
  exact ⟨_, compareRecords_store hkey hu hopen hprev hthis, hsorted i hi hic⟩

/-- A check of records in key order finds none out of order, from every index on. -/
theorem firstUnsortedFrom_none {key : Option Key} {recordSize : Nat}
    (hkey : ∀ k, key = some k → k.Fits recordSize) {u : Store} (hu : u.WellFormed)
    (hopen : u.isClosed = false) {start count : Nat}
    (hfits : 1 < count → u.Fits start (count * recordSize))
    (hsorted : InKeyOrder key u.order (u.record start recordSize) count) (index : Nat)
    (hindex : 0 < index) :
    firstUnsortedFrom key recordSize (.store u) start count index = .ok none := by
  fun_induction firstUnsortedFrom key recordSize (.store u) start count index with
  | case1 index hlt current jp hcur ih =>
    -- every record of the area starts before the last position
    have hfit := (hfits (by omega)).record hlt
    unfold Store.Fits at hfit
    exact absurd hcur (by omega)
  | case2 index hlt current jp hcur ih =>
    have hsub : start + index * recordSize - recordSize = start + (index - 1) * recordSize := by
      have := Nat.le_mul_of_pos_left recordSize hindex
      rw [Nat.sub_one_mul]
      omega
    obtain ⟨c, hc, hne⟩ :=
      compareRecords_consecutive hkey hu hopen hfits hsorted index hindex hlt
    simp only [jp, current, hsub, hc, bind, Except.bind]
    cases c with
    | gt => exact absurd rfl hne
    | lt => exact ih (by omega)
    | eq => exact ih (by omega)
  | case3 => rfl

/-- A check of records in key order over an open store counts them all and finds none out of
    order. -/
theorem verify_store {key : Option Key} {recordSize : Nat}
    (hkey : ∀ k, key = some k → k.Fits recordSize) {u : Store} (hu : u.WellFormed)
    (hopen : u.isClosed = false) {start length : Nat} (hsize : 0 < recordSize)
    (haligned : length % recordSize = 0) (hfits : 1 < length / recordSize → u.Fits start length)
    (hsorted : InKeyOrder key u.order (u.record start recordSize) (length / recordSize)) :
    verify (.store u) recordSize start length key =
      .ok { records := length / recordSize, firstUnsorted := none } := by
  have hlength : length / recordSize * recordSize = length :=
    Nat.div_mul_cancel (Nat.dvd_of_mod_eq_zero haligned)
  have hfits' : 1 < length / recordSize → u.Fits start (length / recordSize * recordSize) := by
    rw [hlength]
    exact hfits
  have hfirst := firstUnsortedFrom_none hkey hu hopen hfits' hsorted 1 Nat.one_pos
  rw [verify, if_neg (by omega)]
  simp only [hfirst, bind, Except.bind, pure, Except.pure]

/-- A key of 1, 2, 4 or 8 bytes is read as a word of its own width. -/
theorem Key.bytes_wordWidth {k : Key}
    (h : k.width = 1 ∨ k.width = 2 ∨ k.width = 4 ∨ k.width = 8) : k.wordWidth.bytes = k.width := by
  unfold Key.wordWidth
  rcases h with h | h | h | h <;> rw [h] <;> rfl

/-- A key the arguments accept has their width, offset and sign, and its bytes lie inside the
    record. -/
theorem KeyArgs.key_eq_some {args : KeyArgs} {recordSize : Nat} {k : Key}
    (h : args.key recordSize = .ok (some k)) :
    args.width = some k.width ∧ k.offset = args.offset.getD 0 ∧ k.signed = args.signed ∧
      k.offset + k.width ≤ recordSize := by
  unfold KeyArgs.key at h
  cases hw : args.width with
  | none => simp [hw] at h
  | some w =>
    simp only [hw] at h
    split at h
    · cases h
    · next hfit =>
      obtain rfl := Option.some_inj.1 (Except.ok.inj h)
      exact ⟨rfl, rfl, rfl, by dsimp only; omega⟩

/-- A key of a width that is read as such (1, 2, 4 or 8 bytes) fits the records it was checked
    against. -/
theorem KeyArgs.key_fits {a : KeyArgs} {recordSize : Nat}
    (hwidth : ∀ w, a.width = some w → w = 1 ∨ w = 2 ∨ w = 4 ∨ w = 8) {key : Option Key}
    (h : a.key recordSize = .ok key) : ∀ k, key = some k → k.Fits recordSize := by
  intro k hk
  subst hk
  obtain ⟨hw, -, -, hfits⟩ := KeyArgs.key_eq_some h
  unfold Key.Fits
  rw [Key.bytes_wordWidth (hwidth k.width hw)]
  exact hfits

end Records

namespace Tool

open Records Mapping

variable {p : Platform}

/-- Whether a file maps depends on the segment shift of the arguments, not on the mode. -/
theorem admits_options (m : MapArgs) (mode mode' : Mode) (n : Nat) :
    Admits p (m.options mode) n ↔ Admits p (m.options mode') n :=
  Iff.rfl

/-- Verifying a file whose records are in key order counts them all and finds none out of
    order. -/
theorem verify_inKeyOrder {args : RecordArgs} {key : Option Key} {length : Nat} {g : ByteArray}
    (hkey : args.keySpec = .ok key) (hfit : ∀ k, key = some k → k.Fits args.recordSize)
    (hadmits : Admits p (args.map.options .readOnly) g.size) {t : Store} (ht : t.Shows g)
    (horder : t.order = args.map.byteOrder) (hsize : 0 < args.recordSize)
    (haligned : length % args.recordSize = 0)
    (hfits : 1 < length / args.recordSize → t.Fits args.start length)
    (hsorted : InKeyOrder key t.order (t.record args.start args.recordSize)
      (length / args.recordSize)) :
    verify p { args with length := some length } (.file g none) =
      { output := .verified { records := length / args.recordSize, firstUnsorted := none },
        failure := none } := by
  obtain ⟨u, hopen, hu, huorder, -⟩ := openFile_file args.file g rfl rfl hadmits
  have hsizes : u.size = t.size := hu.size.trans ht.size.symm
  have hreport := Records.verify_store hfit hu.wellFormed hu.isClosed hsize haligned
    (fun h => by simpa [Store.Fits, hsizes] using hfits h)
    (by rw [hu.record_eq ht, huorder.trans horder.symm]; exact hsorted)
  have hkey' : ({ args with length := some length } : RecordArgs).keySpec = .ok key := hkey
  simp [verify, hkey', hopen, hreport, RecordArgs.areaLength, areaLength]

/-- The bytes `g` of a store that a sort by key left, read as a file: as many as the file's, the
    file's records rearranged, each not greater than the next, and a verify that finds them in
    order. -/
theorem sortedArea_written {args : RecordArgs} {key : Option Key} {length : Nat}
    {f g : ByteArray} (hkey : args.keySpec = .ok key)
    (hfit : ∀ k, key = some k → k.Fits args.recordSize)
    (hadmits : Admits p (args.map.options .readWrite) f.size) {s t : Store} (hs : s.Shows f)
    (horder : s.order = args.map.byteOrder)
    (h : SortedArea key s t args.start args.recordSize length) (hg : t.Shows g) :
    g.size = f.size ∧
      (Store.flat (.ofBytes f args.map.byteOrder)).Rearranges
        (.flat (.ofBytes g args.map.byteOrder)) args.start args.recordSize
        (length / args.recordSize) ∧
      (∀ i, 0 < i → i < length / args.recordSize → ∃ c,
        compareRecords key args.recordSize (.store (.flat (.ofBytes g args.map.byteOrder)))
          (args.start + (i - 1) * args.recordSize) (args.start + i * args.recordSize) =
            .ok c ∧ c ≠ .gt) ∧
      verify p { args with length := some length } (.file g none) =
        { output := .verified { records := length / args.recordSize, firstUnsorted := none },
          failure := none } := by
  have hgsize : g.size = f.size := (hg.size.symm.trans h.shape.size).trans hs.size
  have hflat := Store.shows_ofBytes g args.map.byteOrder
  have hsorted := h.inKeyOrder
  rw [horder] at hsorted
  refine ⟨hgsize, ?_, fun i hi hic => ?_, ?_⟩
  · exact Store.Rearranges.of_byte_eq ((Store.shows_ofBytes f _).byte_eq hs) (hflat.byte_eq hg)
      h.rearranges
  · have hlength : length / args.recordSize * args.recordSize = length :=
      Nat.div_mul_cancel (Nat.dvd_of_mod_eq_zero h.aligned)
    refine compareRecords_consecutive hfit hflat.wellFormed rfl (fun hc => ?_) ?_ i hi hic
    · simpa [Store.Fits, hflat.size, hgsize, hlength, ← hs.size] using h.fits hc
    · rw [hflat.record_eq hg]
      exact hsorted
  · have htorder : t.order = args.map.byteOrder := h.shape.order.trans horder
    refine verify_inKeyOrder hkey hfit ?_ hg htorder h.size_pos h.aligned (fun hc => ?_) ?_
    · exact (admits_options args.map .readOnly .readWrite _).2 (hgsize ▸ hadmits)
    · simpa [Store.Fits, h.shape.size] using h.fits hc
    · rw [htorder]
      exact hsorted

/-- A sort of a file either fails and leaves the file as it was, or writes back the file with the
    records of its area rearranged so that none compares greater than the next; a verify of the
    written file with the area's length then counts the records and finds none out of order. -/
theorem sort_then_verify (p : Platform) (f : ByteArray) (args : RecordArgs)
    (hwidth : ∀ w, args.key.width = some w → w = 1 ∨ w = 2 ∨ w = 4 ∨ w = 8) :
    ((sort p args (.file f none)).failure ≠ none →
        (sort p args (.file f none)).written = none ∨ (sort p args (.file f none)).written = some f) ∧
      ((sort p args (.file f none)).failure = none →
        ∃ key length g, args.keySpec = .ok key ∧ args.areaLength f.size = .ok length ∧
          (sort p args (.file f none)).written = some g ∧ g.size = f.size ∧
          (Store.flat (.ofBytes f args.map.byteOrder)).Rearranges
            (.flat (.ofBytes g args.map.byteOrder)) args.start args.recordSize
            (length / args.recordSize) ∧
          (∀ i, 0 < i → i < length / args.recordSize → ∃ c,
            compareRecords key args.recordSize (.store (.flat (.ofBytes g args.map.byteOrder)))
              (args.start + (i - 1) * args.recordSize) (args.start + i * args.recordSize) =
                .ok c ∧ c ≠ .gt) ∧
          verify p { args with length := some length } (.file g none) =
            { output := .verified { records := length / args.recordSize, firstUnsorted := none },
              failure := none }) := by
  -- the stages before the sort: key, mapping, area; each can only fail
  cases hkey : args.keySpec with
  | error message => simp [sort, hkey, failedWith]
  | ok key =>
  cases hopen : openFile p args.file (.file f none) (args.map.options .readWrite) with
  | error failure => simp [sort, hkey, hopen, failedWith]
  | ok mapped =>
  obtain ⟨s, r⟩ := mapped
  obtain ⟨hadmits, rfl, hs, horder, hwritable⟩ := openFile_file_ok rfl rfl hopen
  cases harea : args.areaLength s.size with
  | error message => simp [sort, hkey, hopen, harea, failedWith]
  | ok length =>
  have hfit := KeyArgs.key_fits hwidth hkey
  rcases sortBy_keyed hfit hs.wellFormed (hwritable.trans rfl) args.start length
      (length / args.recordSize) (Nat.le_refl _) with
    ⟨e, hrun⟩ | ⟨t, n, hrun, hsorted⟩
  · -- the sort fails before it moves a record, and the file is written back as it was
    have hout : (sort p args (.file f none)).failure ≠ none ∧
        (sort p args (.file f none)).written = some f := by
      cases key <;> simp only [keyComparator] at hrun <;>
        simp [sort, hkey, hopen, harea, hrun, View.base, absorb_toByteArray hs.wellFormed hs.size,
          hs.bytesAt_size]
    exact ⟨fun _ => .inr hout.2, fun h => absurd h hout.1⟩
  · -- the sort succeeds, and the file is written back with the bytes the sort left
    have htopen : t.isClosed = false := hsorted.shape.isClosed.trans hs.isClosed
    have hout : sort p args (.file f none) =
        { output := .sorted { records := length / args.recordSize, recordSize := args.recordSize },
          failure := none, written := some (t.bytesAt 0 t.size).toByteArray } := by
      cases key <;> simp only [keyComparator] at hrun <;>
        simp [sort, hkey, hopen, harea, hrun, View.base, View.flush, Store.flush_eq_ok htopen,
          absorb_toByteArray hsorted.wellFormed (hsorted.shape.size.trans hs.size)]
    rw [hout]
    exact ⟨fun h => absurd rfl h, fun _ => ⟨key, length, _, rfl, hs.size ▸ harea, rfl,
      sortedArea_written hkey hfit hadmits hs horder hsorted
        (Store.shows_bytesAt hsorted.wellFormed htopen)⟩⟩

/-- Three 2-byte records sorted by a 2-byte key that fills them. -/
theorem sort_then_verify_three_records :
    let f : ByteArray := ⟨#[0, 9, 0, 3, 7, 7]⟩
    let args : RecordArgs := { file := "records", recordSize := 2, key := { width := some 2 } }
    (∀ w, args.key.width = some w → w = 1 ∨ w = 2 ∨ w = 4 ∨ w = 8) ∧
      ((sort Platform.host args (.file f none)).failure ≠ none →
          (sort Platform.host args (.file f none)).written = none ∨ (sort Platform.host args (.file f none)).written = some f) ∧
        ((sort Platform.host args (.file f none)).failure = none →
          ∃ key length g, args.keySpec = .ok key ∧ args.areaLength f.size = .ok length ∧
            (sort Platform.host args (.file f none)).written = some g ∧ g.size = f.size ∧
            (Store.flat (.ofBytes f args.map.byteOrder)).Rearranges
              (.flat (.ofBytes g args.map.byteOrder)) args.start args.recordSize
              (length / args.recordSize) ∧
            (∀ i, 0 < i → i < length / args.recordSize → ∃ c,
              compareRecords key args.recordSize (.store (.flat (.ofBytes g args.map.byteOrder)))
                (args.start + (i - 1) * args.recordSize) (args.start + i * args.recordSize) =
                  .ok c ∧ c ≠ .gt) ∧
            verify Platform.host { args with length := some length } (.file g none) =
              { output := .verified { records := length / args.recordSize, firstUnsorted := none },
                failure := none }) :=
  ⟨fun _ h => .inr (.inl (Option.some_inj.1 h).symm),
    sort_then_verify Platform.host ⟨#[0, 9, 0, 3, 7, 7]⟩
      { file := "records", recordSize := 2, key := { width := some 2 } }
      fun _ h => .inr (.inl (Option.some_inj.1 h).symm)⟩

end Tool

end ByteView
