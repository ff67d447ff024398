import Mathlib
import ByteView.Proofs.KeyBytes

/-!
# Offsets of a check of order

A check of the order of records walks the neighbouring pairs of its area and computes, for each,
the offset `start + index * recordSize` of the later record, the offset of the one before it, and,
when a key compares them, the position `record + offset` of each key. These are 64-bit sums, and
one that overflows stops the whole check (`Fault.overflow`) instead of giving a report or a fault
of the view.

Nothing in the check keeps its area inside the view before these sums are made, unlike the sort,
which checks its range first. An area that ends inside the 64-bit positions is enough: every offset
of the check lies before the area's end, and the key of an accepted key lies inside its record.

* `View.getBytes_ne_overflow`, `View.read_ne_overflow`: an access of a view is refused for its
  range or a closed store, never stopped;
* `Records.verify_ne_overflow`: a check of an area that ends inside the 64-bit positions, by a key
  the arguments accept, gives a report or a fault of the view;
* `Records.verify_eq_overflow`: a check whose second record starts past the last 64-bit position
  stops at once, whatever the view and the key;
* `Records.verify_start_overflows`: an area of two one-byte records at the last 64-bit position
  stops the check, and the verify command with it.
-/

namespace ByteView

/-- A computation whose first step and every continuation of it do not stop on an overflowing
    sum does not either. -/
theorem bind_ne_overflow {α β : Type} {x : Except Fault α} {f : α → Except Fault β}
    (hx : x ≠ .error .overflow) (hf : ∀ a, x = .ok a → f a ≠ .error .overflow) :
    x >>= f ≠ .error .overflow := by
  cases x with
  | error e => simpa [bind, Except.bind] using hx
  | ok a => exact hf a rfl

@[simp] theorem pure_ne_overflow {α : Type} (a : α) :
    (pure a : Except Fault α) ≠ .error .overflow := by
  simp [pure, Except.pure]

theorem checkRange_ne_overflow (pos len size : Nat) :
    checkRange pos len size ≠ .error .overflow := by
  rw [checkRange_eq_checkExact]
  unfold checkExact
  split_ifs <;> simp

/-- A value given after a guard and a range check stops only where the guard does. -/
theorem checked_ne_overflow {α : Type} {guard : Except Fault Unit}
    (hguard : guard ≠ .error .overflow) (pos len size : Nat) (x : α) :
    (do guard; checkRange pos len size; pure x) ≠ .error .overflow :=
  bind_ne_overflow hguard fun _ _ =>
    bind_ne_overflow (checkRange_ne_overflow _ _ _) fun _ _ => pure_ne_overflow _

theorem Flat.ensureOpen_ne_overflow (s : Flat) : s.ensureOpen ≠ .error .overflow := by
  unfold Flat.ensureOpen
  split <;> simp

theorem Segmented.ensureOpen_ne_overflow (s : Segmented) : s.ensureOpen ≠ .error .overflow := by
  unfold Segmented.ensureOpen
  split <;> simp

namespace Store

theorem getBytes_ne_overflow (s : Store) (pos len : Nat) :
    s.getBytes pos len ≠ .error .overflow := by
  cases s with
  | flat f => exact checked_ne_overflow f.ensureOpen_ne_overflow _ _ _ _
  | segmented g => exact checked_ne_overflow g.ensureOpen_ne_overflow _ _ _ _

theorem read_ne_overflow (s : Store) (w : Width) (pos : Nat) :
    s.read w pos ≠ .error .overflow := by
  cases s with
  | flat f =>
    exact bind_ne_overflow (getBytes_ne_overflow (.flat f) pos w.bytes) fun _ _ =>
      pure_ne_overflow _
  | segmented g => exact checked_ne_overflow g.ensureOpen_ne_overflow _ _ _ _

end Store

namespace View

theorem locate_ne_overflow (offset length innerSize pos len : Nat) :
    locate offset length innerSize pos len ≠ .error .overflow := by
  refine bind_ne_overflow (checkRange_ne_overflow _ _ _) fun _ _ => ?_
  split
  · exact pure_ne_overflow _
  · simp [throw, throwThe, MonadExceptOf.throw]

/-- A range of a view is read, or refused for its place or a closed store: the read never stops
    on an overflowing sum. -/
theorem getBytes_ne_overflow (v : View) (pos len : Nat) :
    v.getBytes pos len ≠ .error .overflow := by
  induction v generalizing pos with
  | store s => exact s.getBytes_ne_overflow pos len
  | window offset length inner ih =>
    exact bind_ne_overflow (locate_ne_overflow _ _ _ _ _) fun target _ => ih target
  | reorder order inner ih => exact ih pos

/-- A word of a view is read, or refused for its place or a closed store: the read never stops
    on an overflowing sum. -/
theorem read_ne_overflow (v : View) (w : Width) (pos : Nat) :
    v.read w pos ≠ .error .overflow := by
  induction v generalizing pos with
  | store s => exact s.read_ne_overflow w pos
  | window offset length inner ih =>
    exact bind_ne_overflow (locate_ne_overflow _ _ _ _ _) fun target _ => ih target
  | reorder order inner ih =>
    exact bind_ne_overflow (ih pos) fun _ _ => pure_ne_overflow _

end View

namespace Records

/-- The key of a record is read, or refused by the view, when its position is a 64-bit one. -/
theorem Key.value_ne_overflow (k : Key) (v : View) {record : Nat}
    (h : record + k.offset < positionLimit) : k.value v record ≠ .error .overflow := by
  simp only [Key.value, Nat.not_le.2 h, if_false]
  exact bind_ne_overflow (View.read_ne_overflow _ _ _) fun _ _ => pure_ne_overflow _

/-- Two records whose keys lie at 64-bit positions are compared, or refused by the view. -/
theorem compareRecords_ne_overflow (key : Option Key) (recordSize : Nat) (v : View) {a b : Nat}
    (ha : ∀ k, key = some k → a + k.offset < positionLimit)
    (hb : ∀ k, key = some k → b + k.offset < positionLimit) :
    compareRecords key recordSize v a b ≠ .error .overflow := by
  cases key with
  | some k =>
    exact bind_ne_overflow (k.value_ne_overflow v (ha k rfl)) fun _ _ =>
      bind_ne_overflow (k.value_ne_overflow v (hb k rfl)) fun _ _ => pure_ne_overflow _
  | none =>
    exact bind_ne_overflow (View.getBytes_ne_overflow _ _ _) fun _ _ =>
      bind_ne_overflow (View.getBytes_ne_overflow _ _ _) fun _ _ => pure_ne_overflow _

/-- The walk over the pairs of `records` records from `start` on computes every offset and key
    position inside the 64-bit positions when the records end inside them and the key starts
    within a record. -/
theorem firstUnsortedFrom_ne_overflow {key : Option Key} {recordSize : Nat}
    (hkey : ∀ k, key = some k → k.offset ≤ recordSize) (v : View) {start records : Nat}
    (hend : start + records * recordSize < positionLimit) (index : Nat) :
    firstUnsortedFrom key recordSize v start records index ≠ .error .overflow := by
  fun_induction firstUnsortedFrom key recordSize v start records index with
  | case1 index hlt current jp hcur ih =>
    -- the later record of the pair ends inside the area
    have hrecord := Store.record_end_le recordSize hlt
    exact absurd hcur (by omega)
  | case2 index hlt current jp hcur ih =>
    have hrecord := Store.record_end_le recordSize hlt
    -- both keys start inside the later record, which ends inside the area
    have hpos : ∀ k, key = some k → current + k.offset < positionLimit := fun k hk => by
      have := hkey k hk
      omega
    refine bind_ne_overflow (compareRecords_ne_overflow key recordSize v
      (fun k hk => by have := hpos k hk; omega) hpos) fun order _ => ?_
    cases order with
    | gt => exact pure_ne_overflow _
    | lt => exact ih
    | eq => exact ih
  | case3 index hdone => exact pure_ne_overflow _

/-- A check of the order of records, by a key that the arguments accept, of an area that ends
    inside the 64-bit positions computes every offset inside them: it gives a report or a fault
    of the view, and never stops on an overflowing sum. -/
theorem verify_ne_overflow (v : View) {recordSize start length : Nat} {args : KeyArgs}
    {key : Option Key} (hkey : args.key recordSize = .ok key)
    (hend : start + length < positionLimit) :
    verify v recordSize start length key ≠ .error .overflow := by
  have hoffset : ∀ k, key = some k → k.offset ≤ recordSize := fun k hk => by
    subst hk
    obtain ⟨-, -, -, hfits⟩ := KeyArgs.key_eq_some hkey
    omega
  have hrecords : start + length / recordSize * recordSize < positionLimit := by
    have := Nat.div_mul_le_self length recordSize
    omega
  unfold verify
  split
  · simp
  · exact bind_ne_overflow (firstUnsortedFrom_ne_overflow hoffset v hrecords 1) fun _ _ =>
      pure_ne_overflow _

/-- Two one-byte records that end at the last 64-bit position, far past a two-byte view, checked
    without a key: every offset is a 64-bit one, and the view refuses the first record. -/
theorem verify_ne_overflow_at_top :
    KeyArgs.key {} 1 = .ok none ∧ 18446744073709551613 + 2 < positionLimit ∧
      verify (.store (.flat (Flat.ofBytes ⟨#[1, 2]⟩ .big))) 1 18446744073709551613 2 none ≠
        .error .overflow :=
  ⟨rfl, by decide,
    @verify_ne_overflow (.store (.flat (Flat.ofBytes ⟨#[1, 2]⟩ .big))) 1 18446744073709551613 2
      {} none rfl (by decide)⟩

/-- A check of two records or more whose second record starts past the last 64-bit position
    stops at once, whatever the view and the key. -/
theorem verify_eq_overflow (v : View) {recordSize start length : Nat} (key : Option Key)
    (hsize : 0 < recordSize) (haligned : length % recordSize = 0)
    (htwo : 2 * recordSize ≤ length) (hover : positionLimit ≤ start + recordSize) :
    verify v recordSize start length key = .error .overflow := by
  have hrecords : 1 < length / recordSize := (Nat.le_div_iff_mul_le hsize).2 (by omega)
  -- the first pair's later record is the second one, at `start + recordSize`
  have hfirst :
      firstUnsortedFrom key recordSize v start (length / recordSize) 1 = .error .overflow := by
    rw [firstUnsortedFrom, dif_pos hrecords]
    simp [hover, throw, throwThe, MonadExceptOf.throw, bind, Except.bind]
  unfold verify
  rw [if_neg (by omega)]
  simp only [hfirst, bind, Except.bind]

/-- Two one-byte records from the last 64-bit position on: computing the offset of the second
    stops the check, and the verify command given that start and length stops with it on the
    host. -/
theorem verify_start_overflows :
    verify (.store (.flat (Flat.ofBytes ⟨#[1, 2]⟩ .big))) 1 18446744073709551615 2 none =
        .error .overflow ∧
      (Tool.verify Platform.host
          { file := "input.bin", recordSize := 1, start := 18446744073709551615, length := some 2 }
          (.file ⟨#[1, 2]⟩ none)).failure = some (.abort "attempt to add with overflow") := by
  have hover : positionLimit ≤ 18446744073709551615 + 1 := by decide
  refine ⟨verify_eq_overflow _ none Nat.one_pos rfl (Nat.le_refl 2) hover, ?_⟩
  -- the file maps, and the area the arguments give is its two records
  obtain ⟨s, hopen, -⟩ := Tool.openFile_file (p := Platform.host) "input.bin" ⟨#[1, 2]⟩
    (show (Tool.MapArgs.options {} .readOnly).offset = 0 from rfl) rfl
    ⟨by decide, fun h => absurd h (by decide)⟩
  unfold Tool.verify
  rw [show Tool.RecordArgs.keySpec _ = .ok none from rfl]
  simp only [hopen]
  rw [show Tool.RecordArgs.areaLength _ s.size = .ok 2 from rfl]
  dsimp only
  rw [verify_eq_overflow (.store s) none Nat.one_pos rfl (Nat.le_refl 2) hover]
  rfl

end Records

end ByteView
