import ByteView.Proofs.Store
import ByteView.View

/-!
# Views as windows onto their store

A view reaches its store through its windows: each window checks an access against its own
length and moves it by its offset; a byte-order adapter passes it on. `View.place` is where an
access lands in the store once every window has accepted it, `View.origin` the place of the
view's first byte, and `View.withBase` the same adapters over another store.

* `View.getBytes_eq_place`, `View.putBytes_eq_place`: a range is read or written through a view
  as the store reads or writes it at its place, and a write gives back the same adapters over
  the written store;
* `View.place_eq_ok`: an accepted access lands at its position moved by the origin;
* `View.place_withBase`: the windows accept the same accesses over any store of the same size.
-/

namespace ByteView

namespace View

/-- The place in the store of the view's first byte. -/
def origin : View → Nat
  | .store _ => 0
  | .window offset _ inner => inner.origin + offset
  | .reorder _ inner => inner.origin

/-- The same adapters over the store `t`. -/
def withBase : View → Store → View
  | .store _, t => .store t
  | .window offset length inner, t => .window offset length (inner.withBase t)
  | .reorder order inner, t => .reorder order (inner.withBase t)

/-- Where an access of `len` bytes at `pos` lands in the store, once every window accepted it. -/
def place : View → Nat → Nat → Except Fault Nat
  | .store _, pos, _ => .ok pos
  | .window offset length inner, pos, len => do
    let target ← locate offset length inner.size pos len
    inner.place target len
  | .reorder _ inner, pos, len => inner.place pos len

@[simp] theorem base_withBase (v : View) (t : Store) : (v.withBase t).base = t := by
  induction v with
  | store s => rfl
  | window offset length inner ih => exact ih
  | reorder order inner ih => exact ih

@[simp] theorem withBase_base (v : View) : v.withBase v.base = v := by
  induction v with
  | store s => rfl
  | window offset length inner ih => exact congrArg _ ih
  | reorder order inner ih => exact congrArg _ ih

@[simp] theorem withBase_withBase (v : View) (t u : Store) :
    (v.withBase t).withBase u = v.withBase u := by
  induction v with
  | store s => rfl
  | window offset length inner ih => exact congrArg _ ih
  | reorder order inner ih => exact congrArg _ ih

theorem getBytes_eq_place (v : View) (pos len : Nat) :
    v.getBytes pos len = (do let p ← v.place pos len; v.base.getBytes p len) := by
  induction v generalizing pos with
  | store s => rfl
  | window offset length inner ih =>
    simp only [getBytes, place, base, ih, bind_assoc]
  | reorder order inner ih => exact ih pos

theorem putBytes_eq_place (v : View) (pos : Nat) (src : ByteArray) :
    v.putBytes pos src =
      (do let p ← v.place pos src.size; let t ← v.base.putBytes p src; pure (v.withBase t)) := by
  induction v generalizing pos with
  | store s =>
    show View.store <$> s.putBytes pos src = (do let t ← s.putBytes pos src; pure (View.store t))
    cases s.putBytes pos src <;> rfl
  | window offset length inner ih =>
    simp only [putBytes, place, base, withBase, ih, map_bind, map_pure, bind_assoc]
  | reorder order inner ih =>
    simp only [putBytes, place, base, withBase, ih, map_bind, map_pure]

theorem locate_eq_ok {offset length innerSize pos len target : Nat}
    (h : locate offset length innerSize pos len = .ok target) :
    checkRange pos len length = .ok () ∧ target = offset + pos := by
  unfold locate at h
  cases hc : checkRange pos len length with
  | error e => simp [hc, bind, Except.bind] at h
  | ok u =>
    simp only [hc, bind, Except.bind] at h
    split at h
    · exact ⟨rfl, (Except.ok.inj h).symm⟩
    · exact absurd h (by simp [throw, throwThe, MonadExceptOf.throw])

/-- An access that every window accepts lands at its position moved by the view's origin. -/
theorem place_eq_ok {v : View} {pos len p : Nat} (h : v.place pos len = .ok p) :
    p = v.origin + pos := by
  induction v generalizing pos with
  | store s =>
    rw [origin, Nat.zero_add]
    exact (Except.ok.inj h).symm
  | window offset length inner ih =>
    simp only [place] at h
    cases hl : locate offset length inner.size pos len with
    | error e => simp [hl, bind, Except.bind] at h
    | ok target =>
      simp only [hl, bind, Except.bind] at h
      rw [ih h, (locate_eq_ok hl).2, origin]
      omega
  | reorder order inner ih => exact ih h

theorem size_withBase (v : View) {t : Store} (h : t.size = v.base.size) :
    (v.withBase t).size = v.size := by
  induction v with
  | store s => exact h
  | window offset length inner ih => rfl
  | reorder order inner ih => exact ih h

theorem byteOrder_withBase (v : View) {t : Store} (h : t.order = v.base.order) :
    (v.withBase t).byteOrder = v.byteOrder := by
  induction v with
  | store s => exact h
  | window offset length inner ih => exact ih h
  | reorder order inner ih => rfl

@[simp] theorem origin_withBase (v : View) (t : Store) : (v.withBase t).origin = v.origin := by
  induction v with
  | store s => rfl
  | window offset length inner ih => simp only [withBase, origin, ih]
  | reorder order inner ih => exact ih

/-- The windows accept the same accesses over any store of the same size. -/
theorem place_withBase (v : View) {t : Store} (h : t.size = v.base.size) (pos len : Nat) :
    (v.withBase t).place pos len = v.place pos len := by
  induction v generalizing pos with
  | store s => rfl
  | window offset length inner ih =>
    simp only [withBase, place, size_withBase inner h, ih h]
  | reorder order inner ih => exact ih h pos

/-- A range that a view reads passes the view's own range check. -/
theorem checkRange_of_getBytes {v : View} {pos len : Nat} {bs : ByteArray}
    (h : v.getBytes pos len = .ok bs) : checkRange pos len v.size = .ok () := by
  induction v generalizing pos with
  | store s =>
    cases s with
    | flat f => exact (checked_eq_ok.1 h).2.1
    | segmented g => exact (checked_eq_ok.1 h).2.1
  | window offset length inner ih =>
    simp only [getBytes] at h
    cases hl : locate offset length inner.size pos len with
    | error e => simp [hl, bind, Except.bind] at h
    | ok target => exact (locate_eq_ok hl).1
  | reorder order inner ih => exact ih h

/-- The view reads and writes every range of `len` bytes at `pos`. -/
def Accepts (v : View) (pos len : Nat) : Prop :=
  (∃ bs, v.getBytes pos len = .ok bs) ∧ ∀ src : ByteArray, src.size = len → ∃ w, v.putBytes pos src = .ok w

/-- A read through the view is the store's read at the place the windows give. -/
theorem getBytes_eq_ok_iff {v : View} (hwf : v.base.WellFormed) {pos len : Nat} {bs : ByteArray} :
    v.getBytes pos len = .ok bs ↔ ∃ p, v.place pos len = .ok p ∧ v.base.isClosed = false ∧
      v.base.Fits p len ∧ bs = (v.base.bytesAt p len).toByteArray := by
  rw [getBytes_eq_place]
  cases v.place pos len with
  | error e => simp [bind, Except.bind]
  | ok p => simp [bind, Except.bind, Store.getBytes_eq_ok_iff hwf]

/-- A write through the view is the store's write at the place the windows give, under the same
    adapters. -/
theorem putBytes_eq_ok_iff {v w : View} {pos : Nat} {src : ByteArray} :
    v.putBytes pos src = .ok w ↔ ∃ p t, v.place pos src.size = .ok p ∧
      v.base.putBytes p src = .ok t ∧ w = v.withBase t := by
  rw [putBytes_eq_place]
  cases v.place pos src.size with
  | error e => simp [bind, Except.bind]
  | ok p =>
    cases h : v.base.putBytes p src with
    | error e => simp [h, bind, Except.bind]
    | ok t => simp [h, bind, Except.bind, pure, Except.pure, eq_comm]

/-- A view reads and writes a range exactly when its windows place it, and the store is open,
    writable and holds the placed range. -/
theorem accepts_iff {v : View} (hvwf : v.base.WellFormed) {pos len : Nat} :
    v.Accepts pos len ↔ ∃ p, v.place pos len = .ok p ∧ v.base.isClosed = false ∧
      v.base.isWritable = true ∧ v.base.Fits p len := by
  constructor
  · rintro ⟨⟨bs, hbs⟩, hput⟩
    obtain ⟨p, hp, hopen, hfit, -⟩ := (getBytes_eq_ok_iff hvwf).1 hbs
    obtain ⟨w, hw⟩ := hput (Bytes.zeros len) (Bytes.size_zeros len)
    obtain ⟨p', t1, -, ht1, -⟩ := putBytes_eq_ok_iff.1 hw
    exact ⟨p, hp, hopen, (Store.putBytes_eq_ok_iff.1 ⟨t1, ht1⟩).1, hfit⟩
  · rintro ⟨p, hp, hopen, hwritable, hfit⟩
    refine ⟨⟨_, (getBytes_eq_ok_iff hvwf).2 ⟨p, hp, hopen, hfit, rfl⟩⟩, fun src hsrc => ?_⟩
    subst hsrc
    obtain ⟨t1, ht1⟩ := Store.putBytes_eq_ok_iff.2 ⟨hwritable, hfit⟩
    exact ⟨_, putBytes_eq_ok_iff.2 ⟨p, t1, hp, ht1, rfl⟩⟩

/-- What a view accepts over its store it accepts over every well-formed store of the same
    shape. -/
theorem Accepts.withBase {v : View} {t : Store} (hvwf : v.base.WellFormed) (ht : t.WellFormed)
    (hshape : Store.SameShape v.base t) {pos len : Nat} (h : v.Accepts pos len) :
    (v.withBase t).Accepts pos len := by
  have hwf' : (v.withBase t).base.WellFormed := by rw [base_withBase]; exact ht
  obtain ⟨p, hp, hopen, hwritable, hfit⟩ := (accepts_iff hvwf).1 h
  refine (accepts_iff hwf').2 ⟨p, ?_, ?_, ?_, ?_⟩
  · rw [place_withBase v hshape.size]
    exact hp
  · rw [base_withBase, hshape.isClosed]
    exact hopen
  · rw [base_withBase, hshape.isWritable]
    exact hwritable
  · rw [base_withBase]
    unfold Store.Fits
    rw [hshape.size]
    exact hfit

/-- A range that a view accepts reads, over any well-formed store of the same shape, as the bytes
    of that store at the range's place. -/
theorem getBytes_withBase {v : View} {t : Store} (hvwf : v.base.WellFormed) (ht : t.WellFormed)
    (hshape : Store.SameShape v.base t) {pos len : Nat} (h : v.Accepts pos len) :
    (v.withBase t).getBytes pos len = .ok (t.bytesAt (v.origin + pos) len).toByteArray := by
  have hwf' : (v.withBase t).base.WellFormed := by rw [base_withBase]; exact ht
  obtain ⟨bs, hbs⟩ := (h.withBase hvwf ht hshape).1
  obtain ⟨p, hp, -, -, rfl⟩ := (getBytes_eq_ok_iff hwf').1 hbs
  rw [hbs, base_withBase, place_eq_ok hp, origin_withBase]

end View

end ByteView
