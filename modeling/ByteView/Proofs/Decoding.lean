import ByteView.Proofs.View
import ByteView.Proofs.Word
import ByteView.Session.Run

/-!
# Words through adapters

However a view is nested, it reads a word as the bytes it reads at the word's position, decoded
in its own byte order, and writes a word as the bytes that encode it in that order would be
written. A store decodes the bytes in place; a window only moves the word; a byte-order adapter
swaps the bytes of a word exactly when its order differs from the order of the view inside it,
and swapping the bytes read in one order is reading them in the other (`View.decode_swaps`).

Views that no window separates from their stores (`View.whole`), with the same byte order, over
well-formed stores that hold the same bytes in the same state (`View.Alike`), cannot be told
apart by any sequence of accesses of the view interface (`Access`). So a stack of byte-order
adapters over a store acts as the store itself with its byte order set to the outermost one.

* `View.read_eq_decode`: a word is the bytes at its position decoded in the view's byte order,
  and a read that fails fails as the read of those bytes does;
* `View.write_agrees`: writing a word has the outcome of writing its bytes, the same fault or
  the same bytes in the store (`View.Agree`);
* `View.Alike.trace`: alike views answer every sequence of accesses alike, with the same bytes
  in their stores after each;
* `decoding_law`: the three together, with the stacks of byte-order adapters alike to the store.
-/

namespace ByteView

/-- The accesses of the interface every view offers: its size and byte order, reads and writes
    of words (a signed one as two's complement) and of ranges of bytes, comparisons of a range
    with given bytes, a flush and a close. -/
inductive Access where
  | size
  | byteOrder
  | read (w : Width) (signed : Bool) (pos : Nat)
  | write (w : Width) (pos : Nat) (value : Int)
  | getBytes (pos len : Nat)
  | bytesAt (pos len : Nat)
  | putBytes (pos : Nat) (bytes : ByteArray)
  | compareBytes (pos : Nat) (bytes : ByteArray)
  | equalsBytes (pos : Nat) (bytes : ByteArray)
  | flush
  | close

namespace Access

/-- The operation of a session that makes the access. -/
def action : Access → Session.Action
  | .size => .size
  | .byteOrder => .byteOrder
  | .read w signed pos => .read w signed pos
  | .write w pos value => .write w pos value
  | .getBytes pos len => .getBytes pos len
  | .bytesAt pos len => .bytesAt pos len
  | .putBytes pos bytes => .putBytes pos bytes
  | .compareBytes pos bytes => .compareBytes pos bytes
  | .equalsBytes pos bytes => .equalsBytes pos bytes
  | .flush => .flush
  | .close => .close

/-- The answers of accesses made one after the other through the adapters `via`, each with the
    bytes of the store after it. -/
def trace (via : List Session.Adapter) : List Access → Store → List (Session.Answer × ByteArray)
  | [], _ => []
  | a :: as, s =>
    ((a.action.run s via).1, (a.action.run s via).2.contents) :: trace via as (a.action.run s via).2

end Access

/-! ## Swapping is reading in the other order -/

namespace View

/-- A byte-order adapter reads the bytes of a word in its own order, whether it swaps them or
    not. -/
theorem decode_swaps (order inner : ByteOrder) (w : Width) {bs : List UInt8}
    (h : bs.length = w.bytes) :
    (if swaps order inner w then w.swapBytes (inner.decode bs) else inner.decode bs) =
      order.decode bs := by
  by_cases hone : w = .one
  · -- a single byte is never swapped, and reads alike in both orders
    subst hone
    rw [if_neg (by simp [swaps])]
    exact ByteOrder.decode_of_length_one inner order h
  · by_cases hsame : order = inner
    · subst hsame
      rw [if_neg (by simp [swaps])]
    · have hother : order = inner.swapped := by
        cases order <;> cases inner <;> simp_all [ByteOrder.swapped]
      rw [if_pos (by simp [swaps, hone, hsame]), Width.swapBytes_decode w inner h, hother]

/-- A byte-order adapter stores a word as its own order does, whether it swaps it or not. -/
theorem encode_swaps (order inner : ByteOrder) (w : Width) (value : Nat) :
    inner.encode w.bytes (if swaps order inner w then w.swapBytes value else value) =
      order.encode w.bytes value := by
  by_cases hone : w = .one
  · subst hone
    rw [if_neg (by simp [swaps])]
    simp only [show Width.one.bytes = 1 from rfl, ByteOrder.encode_one]
  · by_cases hsame : order = inner
    · subst hsame
      rw [if_neg (by simp [swaps])]
    · have hother : order = inner.swapped := by
        cases order <;> cases inner <;> simp_all [ByteOrder.swapped]
      rw [if_pos (by simp [swaps, hone, hsame]), Width.encode_swapBytes w inner value, hother]

end View

/-! ## Outcomes of writes -/

namespace Store

/-- The well-formed store `t` holds the bytes of the well-formed store `s` in the same state. -/
structure Same (s t : Store) : Prop where
  left : s.WellFormed
  right : t.WellFormed
  shape : SameShape s t
  byte : ∀ x, t.byte x = s.byte x

theorem SameShape.symm {s t : Store} (h : SameShape s t) : SameShape t s :=
  ⟨h.size.symm, h.order.symm, h.isWritable.symm, h.isClosed.symm⟩

theorem Same.refl {s : Store} (hs : s.WellFormed) : Same s s :=
  ⟨hs, hs, SameShape.refl s, fun _ => rfl⟩

/-- Two writes of the same bytes at the same place leave the same bytes. -/
theorem Writes.same {s t₁ t₂ : Store} {pos : Nat} {src : ByteArray} (h₁ : Writes s t₁ pos src)
    (h₂ : Writes s t₂ pos src) : Same t₁ t₂ := by
  refine ⟨h₁.wellFormed, h₂.wellFormed, ⟨?_, ?_, ?_, ?_⟩, fun x => by rw [h₁.byte, h₂.byte]⟩
  · rw [h₁.shape.size, h₂.shape.size]
  · rw [h₁.shape.order, h₂.shape.order]
  · rw [h₁.shape.isWritable, h₂.shape.isWritable]
  · rw [h₁.shape.isClosed, h₂.shape.isClosed]

end Store

namespace View

/-- Two outcomes of a write: the same fault, or the same adapters over stores that hold the same
    bytes in the same state. -/
def Agree : Except Fault View → Except Fault View → Prop
  | .error e₁, .error e₂ => e₁ = e₂
  | .ok v₁, .ok v₂ => v₁ = v₂.withBase v₁.base ∧ Store.Same v₁.base v₂.base
  | _, _ => False

theorem Agree.refl {r : Except Fault View} (h : ∀ v, r = .ok v → v.base.WellFormed) :
    Agree r r := by
  cases r with
  | error e => exact rfl
  | ok v => exact ⟨(withBase_base v).symm, Store.Same.refl (h v rfl)⟩

/-- An adapter put around both outcomes keeps them in agreement. -/
theorem Agree.map (f : View → View) (hbase : ∀ v, (f v).base = v.base)
    (hwith : ∀ v t, (f v).withBase t = f (v.withBase t)) {r₁ r₂ : Except Fault View}
    (h : Agree r₁ r₂) : Agree (f <$> r₁) (f <$> r₂) := by
  cases r₁ with
  | error e₁ =>
    cases r₂ with
    | error e₂ => exact h
    | ok v₂ => exact h.elim
  | ok v₁ =>
    cases r₂ with
    | error e₂ => exact h.elim
    | ok v₂ =>
      obtain ⟨hv, hsame⟩ := h
      refine ⟨?_, ?_⟩
      · show f v₁ = (f v₂).withBase (f v₁).base
        rw [hbase, hwith, ← hv]
      · show Store.Same (f v₁).base (f v₂).base
        rw [hbase, hbase]
        exact hsame

end View

/-- Two writes of the same bytes at the same place leave stores with the same bytes in the same
    state. -/
theorem Segmented.Writes.same {g t₁ t₂ : Segmented} {pos : Nat} {bs : List UInt8}
    (h₁ : Segmented.Writes g t₁ pos bs) (h₂ : Segmented.Writes g t₂ pos bs) :
    Store.Same (.segmented t₁) (.segmented t₂) := by
  have f₁ := h₁.frame
  have f₂ := h₂.frame
  refine ⟨h₁.wellFormed, h₂.wellFormed, ⟨?_, ?_, ?_, ?_⟩, fun x => ?_⟩
  · show t₂.size = t₁.size
    rw [f₁, f₂]
  · show t₂.order = t₁.order
    rw [f₁, f₂]
  · show (t₂.writable && !t₂.closed) = (t₁.writable && !t₁.closed)
    rw [f₁, f₂]
  · show t₂.closed = t₁.closed
    rw [f₁, f₂]
  · show t₂.byte x = t₁.byte x
    rw [h₁.byte, h₂.byte]

namespace Store

variable {s : Store}

/-- A word read from a store is the bytes read at its position, decoded in the store's order. -/
theorem read_eq_decode (hs : s.WellFormed) (w : Width) (pos : Nat) :
    s.read w pos = (fun bs => s.order.decode bs.data.toList) <$> s.getBytes pos w.bytes := by
  rw [read_eq hs, getBytes_eq hs]
  cases (if s.isClosed then Except.error Fault.closed else Except.ok ()) <;>
    cases checkRange pos w.bytes s.size <;>
    simp [bind, Except.bind, pure, Except.pure, Functor.map, Except.map]

/-- Writing a word into a store has the outcome of writing its bytes in the store's order. -/
theorem agree_write (hs : s.WellFormed) (w : Width) (pos value : Nat) :
    View.Agree (View.store <$> s.write w pos value)
      (View.store <$> s.putBytes pos (s.order.encode w.bytes value).toByteArray) := by
  cases s with
  | flat f =>
    -- a flat store writes a word as its bytes
    refine View.Agree.refl fun v h => ?_
    obtain ⟨t, ht, rfl⟩ := map_eq_ok h
    exact (writes_of_putBytes hs ht).wellFormed
  | segmented g =>
    -- both check the same guard and the same range; they differ in how they write the bytes
    simp only [Store.write, Store.putBytes, Segmented.write, Segmented.putBytes, checkAccess,
      List.size_toByteArray, ByteOrder.length_encode, order]
    cases g.ensureWritable with
    | error e => exact rfl
    | ok u =>
      cases hc : checkRange pos w.bytes g.size with
      | error e => exact rfl
      | ok u' =>
        have hfit := ((checkRange_eq_ok_iff pos w.bytes g.size).1 hc).2
        have hword := Segmented.writes_writeWord hs w pos value hfit
        have hscatter := Segmented.writes_scatter hs
          (show pos + (g.order.encode w.bytes value).toByteArray.size ≤ g.size by
            rw [List.size_toByteArray, ByteOrder.length_encode]
            exact hfit)
        rw [List.toList_data_toByteArray] at hscatter
        exact ⟨rfl, hword.same hscatter⟩

/-- The guard of a write: the store must be open, then writable. -/
def writeGuard (s : Store) : Except Fault Unit :=
  if s.isClosed then .error .closed else if s.isWritable then .ok () else .error .readOnly

/-- A value computed after a guard and a range check fails exactly as the two checks do. -/
theorem map_checked_eq_error {α β : Type} (k : α → β) {guard range : Except Fault Unit} {x : α}
    {e : Fault} :
    (k <$> (do guard; range; pure x : Except Fault α)) = .error e ↔
      (do guard; range : Except Fault Unit) = .error e := by
  cases guard <;> cases range <;> simp [bind, Except.bind, pure, Except.pure, Functor.map, Except.map]

/-- A write of bytes fails exactly as its guard and its range check do. -/
theorem putBytes_eq_error_iff {pos : Nat} {src : ByteArray} {e : Fault} :
    s.putBytes pos src = .error e ↔
      (do s.writeGuard; checkRange pos src.size s.size : Except Fault Unit) = .error e := by
  cases s with
  | flat f =>
    have hguard : (Store.flat f).writeGuard = f.ensureWritable := by
      cases f with
      | mk bytes writable order closed => cases closed <;> cases writable <;> rfl
    rw [hguard]
    exact map_checked_eq_error _
  | segmented g =>
    have hguard : (Store.segmented g).writeGuard = g.ensureWritable := by
      cases g with
      | mk segments shift size order writable closed => cases closed <;> cases writable <;> rfl
    rw [hguard]
    exact map_checked_eq_error _

theorem flush_eq (s : Store) : s.flush = if s.isClosed then .error .closed else .ok () := by
  cases s <;> rfl

theorem wellFormed_withByteOrder (hs : s.WellFormed) (o : ByteOrder) :
    (s.withByteOrder o).WellFormed := by
  cases s with
  | flat f => exact hs
  | segmented g => exact ⟨hs.length, hs.blocks⟩

theorem wellFormed_close (hs : s.WellFormed) : s.close.WellFormed := by
  cases s with
  | flat f => exact hs
  | segmented g => exact ⟨hs.length, hs.blocks⟩

@[simp] theorem byte_withByteOrder (s : Store) (o : ByteOrder) : (s.withByteOrder o).byte = s.byte := by
  cases s <;> rfl

@[simp] theorem size_withByteOrder (s : Store) (o : ByteOrder) : (s.withByteOrder o).size = s.size := by
  cases s <;> rfl

@[simp] theorem order_withByteOrder (s : Store) (o : ByteOrder) : (s.withByteOrder o).order = o := by
  cases s <;> rfl

@[simp] theorem isWritable_withByteOrder (s : Store) (o : ByteOrder) :
    (s.withByteOrder o).isWritable = s.isWritable := by
  cases s <;> rfl

@[simp] theorem isClosed_withByteOrder (s : Store) (o : ByteOrder) :
    (s.withByteOrder o).isClosed = s.isClosed := by
  cases s <;> rfl

@[simp] theorem byte_close (s : Store) : s.close.byte = s.byte := by
  cases s <;> rfl

@[simp] theorem size_close (s : Store) : s.close.size = s.size := by
  cases s <;> rfl

@[simp] theorem order_close (s : Store) : s.close.order = s.order := by
  cases s <;> rfl

@[simp] theorem isClosed_close (s : Store) : s.close.isClosed = true := by
  cases s <;> rfl

@[simp] theorem isWritable_close (s : Store) : s.close.isWritable = false := by
  cases s <;> simp [close, isWritable, Flat.close, Segmented.close]

/-- Stores with the same bytes and size hold the same contents. -/
theorem contents_eq {t : Store} (hs : s.WellFormed) (ht : t.WellFormed) (hsize : t.size = s.size)
    (hbyte : ∀ x, t.byte x = s.byte x) : t.contents = s.contents := by
  apply ByteArray.ext
  apply Array.toList_inj.1
  rw [contents_toList ht, contents_toList hs, hsize, bytesAt, bytesAt, funext hbyte]

end Store

/-! ## The decoding law -/

namespace View

variable {v : View}

@[simp] theorem base_store (s : Store) : (View.store s).base = s := rfl

/-- A range read through a view has as many bytes as asked for. -/
theorem size_of_getBytes (hwf : v.base.WellFormed) {pos len : Nat} {bs : ByteArray}
    (h : v.getBytes pos len = .ok bs) : bs.size = len := by
  obtain ⟨p, -, -, -, rfl⟩ := (getBytes_eq_ok_iff hwf).1 h
  simp [Store.bytesAt]

/-- A view reads a word as the bytes at its position, decoded in the view's byte order; a read
    that fails fails as the read of those bytes does. -/
theorem read_eq_decode (v : View) (hwf : v.base.WellFormed) (w : Width) (pos : Nat) :
    v.read w pos = (fun bs => v.byteOrder.decode bs.data.toList) <$> v.getBytes pos w.bytes := by
  induction v generalizing pos with
  | store s => exact Store.read_eq_decode hwf w pos
  | window offset length inner ih =>
    simp only [read, getBytes, byteOrder, map_bind]
    congr 1
    funext target
    exact ih hwf target
  | reorder order inner ih =>
    -- the adapter swaps the decoded word, or not, and reads it in its own order either way
    show (do let value ← inner.read w pos
             pure (if swaps order inner.byteOrder w then w.swapBytes value else value)) = _
    rw [ih hwf]
    cases h : inner.getBytes pos w.bytes with
    | error e => simp only [getBytes, h, Functor.map, Except.map, bind, Except.bind]
    | ok bs =>
      have hlen : bs.data.toList.length = w.bytes := by
        rw [Array.length_toList, ByteArray.size_data]
        exact size_of_getBytes hwf h
      simp only [getBytes, h, Functor.map, Except.map, bind, Except.bind, pure, Except.pure,
        byteOrder, decode_swaps order inner.byteOrder w hlen]

/-- A view writes a word as the bytes that encode it in the view's byte order would be written:
    with the same fault, or leaving the same bytes in the store. -/
theorem write_agrees (v : View) (hwf : v.base.WellFormed) (w : Width) (pos value : Nat) :
    Agree (v.write w pos value) (v.putBytes pos (v.byteOrder.encode w.bytes value).toByteArray) := by
  induction v generalizing pos value with
  | store s => exact Store.agree_write hwf w pos value
  | window offset length inner ih =>
    simp only [write, putBytes, byteOrder, List.size_toByteArray, ByteOrder.length_encode]
    cases locate offset length inner.size pos w.bytes with
    | error e => exact rfl
    | ok target => exact (ih hwf target value).map (View.window offset length) (fun _ => rfl) (fun _ _ => rfl)
  | reorder order inner ih =>
    -- the inner view writes the stored value in its own order, which encodes the word in ours
    have h := ih hwf pos (if swaps order inner.byteOrder w then w.swapBytes value else value)
    rw [encode_swaps] at h
    exact h.map (View.reorder order) (fun _ => rfl) (fun _ _ => rfl)

/-! ## Views without windows -/

/-- No window stands between the view and its store: the view shows the whole store. -/
def whole : View → Bool
  | .store _ => true
  | .window .. => false
  | .reorder _ inner => inner.whole

theorem place_of_whole (h : v.whole = true) (pos len : Nat) : v.place pos len = .ok pos := by
  induction v with
  | store s => rfl
  | window offset length inner ih => exact absurd h (by simp [whole])
  | reorder order inner ih => exact ih h

theorem size_of_whole (h : v.whole = true) : v.size = v.base.size := by
  induction v with
  | store s => rfl
  | window offset length inner ih => exact absurd h (by simp [whole])
  | reorder order inner ih => exact ih h

theorem close_of_whole (h : v.whole = true) : v.close = v.withBase v.base.close := by
  induction v with
  | store s => rfl
  | window offset length inner ih => exact absurd h (by simp [whole])
  | reorder order inner ih => exact congrArg _ (ih h)

@[simp] theorem whole_withBase (v : View) (t : Store) : (v.withBase t).whole = v.whole := by
  induction v with
  | store s => rfl
  | window offset length inner ih => rfl
  | reorder order inner ih => exact ih

/-- A flush always reaches the store. -/
theorem flush_eq_base (v : View) : v.flush = v.base.flush := by
  induction v with
  | store s => rfl
  | window offset length inner ih => exact ih
  | reorder order inner ih => exact ih

theorem getBytes_of_whole (h : v.whole = true) (pos len : Nat) :
    v.getBytes pos len = v.base.getBytes pos len := by
  rw [getBytes_eq_place, place_of_whole h]
  rfl

theorem putBytes_of_whole (h : v.whole = true) (pos : Nat) (src : ByteArray) :
    v.putBytes pos src = v.withBase <$> v.base.putBytes pos src := by
  rw [putBytes_eq_place, place_of_whole h]
  show (v.base.putBytes pos src >>= fun t => pure (v.withBase t)) = _
  cases v.base.putBytes pos src <;> rfl

/-! ## Views that cannot be told apart -/

/-- Two views without windows, with the same byte order, over well-formed stores that hold the
    same bytes in the same state; their stores' own byte orders may differ. -/
structure Alike (v w : View) : Prop where
  whole_left : v.whole = true
  whole_right : w.whole = true
  order : w.byteOrder = v.byteOrder
  wellFormed_left : v.base.WellFormed
  wellFormed_right : w.base.WellFormed
  storeSize : w.base.size = v.base.size
  isWritable : w.base.isWritable = v.base.isWritable
  isClosed : w.base.isClosed = v.base.isClosed
  byte : ∀ x, w.base.byte x = v.base.byte x

namespace Alike

variable {w : View}

theorem getBytes (h : Alike v w) (pos len : Nat) : w.getBytes pos len = v.getBytes pos len := by
  rw [getBytes_of_whole h.whole_left, getBytes_of_whole h.whole_right,
    Store.getBytes_eq h.wellFormed_left, Store.getBytes_eq h.wellFormed_right, h.isClosed, h.storeSize,
    Store.bytesAt, Store.bytesAt, funext h.byte]

theorem read (h : Alike v w) (width : Width) (pos : Nat) :
    w.read width pos = v.read width pos := by
  rw [read_eq_decode v h.wellFormed_left, read_eq_decode w h.wellFormed_right, h.getBytes, h.order]

theorem size (h : Alike v w) : w.size = v.size := by
  rw [size_of_whole h.whole_left, size_of_whole h.whole_right, h.storeSize]

theorem flush (h : Alike v w) : w.flush = v.flush := by
  rw [flush_eq_base, flush_eq_base, Store.flush_eq, Store.flush_eq, h.isClosed]

/-- Alike views stay alike over new stores of the shapes of their old ones that hold the same
    bytes. -/
theorem withBase (h : Alike v w) {t₁ t₂ : Store} (ht₁ : t₁.WellFormed) (ht₂ : t₂.WellFormed)
    (hshape₁ : Store.SameShape v.base t₁) (hshape₂ : Store.SameShape w.base t₂)
    (hbyte : ∀ x, t₂.byte x = t₁.byte x) : Alike (v.withBase t₁) (w.withBase t₂) where
  whole_left := by rw [whole_withBase]; exact h.whole_left
  whole_right := by rw [whole_withBase]; exact h.whole_right
  order := by
    rw [byteOrder_withBase v hshape₁.order, byteOrder_withBase w hshape₂.order]
    exact h.order
  wellFormed_left := by rw [base_withBase]; exact ht₁
  wellFormed_right := by rw [base_withBase]; exact ht₂
  storeSize := by
    rw [base_withBase, base_withBase, hshape₁.size, hshape₂.size]
    exact h.storeSize
  isWritable := by
    rw [base_withBase, base_withBase, hshape₁.isWritable, hshape₂.isWritable]
    exact h.isWritable
  isClosed := by
    rw [base_withBase, base_withBase, hshape₁.isClosed, hshape₂.isClosed]
    exact h.isClosed
  byte := by rw [base_withBase, base_withBase]; exact hbyte

/-- A write of bytes fails alike through alike views, or succeeds through both and leaves them
    alike. -/
theorem putBytes (h : Alike v w) (pos : Nat) (src : ByteArray) :
    (∃ e, v.putBytes pos src = .error e ∧ w.putBytes pos src = .error e) ∨
      ∃ t₁ t₂, v.putBytes pos src = .ok (v.withBase t₁) ∧ w.putBytes pos src = .ok (w.withBase t₂) ∧
        Alike (v.withBase t₁) (w.withBase t₂) := by
  rw [putBytes_of_whole h.whole_left, putBytes_of_whole h.whole_right]
  -- both stores check the same guard and the same range
  have hchecks : (do w.base.writeGuard; checkRange pos src.size w.base.size : Except Fault Unit) =
      (do v.base.writeGuard; checkRange pos src.size v.base.size) := by
    simp only [Store.writeGuard, h.isClosed, h.isWritable, h.storeSize]
  cases h₁ : v.base.putBytes pos src with
  | error e =>
    have h₂ : w.base.putBytes pos src = .error e :=
      Store.putBytes_eq_error_iff.2 (hchecks.trans (Store.putBytes_eq_error_iff.1 h₁))
    exact .inl ⟨e, rfl, by rw [h₂]; rfl⟩
  | ok t₁ =>
    cases h₂ : w.base.putBytes pos src with
    | error e =>
      have := Store.putBytes_eq_error_iff.2 (hchecks.symm.trans (Store.putBytes_eq_error_iff.1 h₂))
      rw [h₁] at this
      cases this
    | ok t₂ =>
      have hw₁ := Store.writes_of_putBytes h.wellFormed_left h₁
      have hw₂ := Store.writes_of_putBytes h.wellFormed_right h₂
      refine .inr ⟨t₁, t₂, rfl, rfl, h.withBase hw₁.wellFormed hw₂.wellFormed hw₁.shape hw₂.shape
        fun x => ?_⟩
      rw [hw₁.byte, hw₂.byte, h.byte]

/-- A write of a word fails alike through alike views, or succeeds through both and leaves them
    alike. -/
theorem write (h : Alike v w) (width : Width) (pos value : Nat) :
    (∃ e, v.write width pos value = .error e ∧ w.write width pos value = .error e) ∨
      ∃ t₁ t₂, v.write width pos value = .ok (v.withBase t₁) ∧
        w.write width pos value = .ok (w.withBase t₂) ∧ Alike (v.withBase t₁) (w.withBase t₂) := by
  -- each write has the outcome of writing the same bytes, which fails or succeeds alike
  have hv := write_agrees v h.wellFormed_left width pos value
  have hw := write_agrees w h.wellFormed_right width pos value
  rw [h.order] at hw
  rcases h.putBytes pos (v.byteOrder.encode width.bytes value).toByteArray with
    ⟨e, h₁, h₂⟩ | ⟨t₁, t₂, h₁, h₂, halike⟩
  · rw [h₁] at hv
    rw [h₂] at hw
    cases hv₁ : v.write width pos value with
    | ok v₁ => rw [hv₁] at hv; exact hv.elim
    | error e₁ =>
      cases hw₁ : w.write width pos value with
      | ok w₁ => rw [hw₁] at hw; exact hw.elim
      | error e₂ =>
        rw [hv₁] at hv
        rw [hw₁] at hw
        exact .inl ⟨e, by rw [← hv], by rw [← hw]⟩
  · rw [h₁] at hv
    rw [h₂] at hw
    cases hv₁ : v.write width pos value with
    | error e => rw [hv₁] at hv; exact hv.elim
    | ok v₁ =>
      cases hw₁ : w.write width pos value with
      | error e => rw [hw₁] at hw; exact hw.elim
      | ok w₁ =>
        rw [hv₁] at hv
        rw [hw₁] at hw
        obtain ⟨hv₁', hsame₁⟩ := hv
        obtain ⟨hw₁', hsame₂⟩ := hw
        rw [withBase_withBase] at hv₁' hw₁'
        rw [base_withBase] at hsame₁ hsame₂
        refine .inr ⟨v₁.base, w₁.base, by rw [← hv₁'], by rw [← hw₁'], ?_⟩
        -- the stores the words left hold the bytes the writes of bytes left
        have := halike.withBase hsame₁.left hsame₂.left
          (by rw [base_withBase]; exact hsame₁.shape.symm) (by rw [base_withBase]; exact hsame₂.shape.symm)
          (fun x => by
            rw [← hsame₁.byte, ← hsame₂.byte]
            simpa only [base_withBase] using halike.byte x)
        rwa [withBase_withBase, withBase_withBase] at this

/-- Closing alike views closes their stores and leaves them alike. -/
theorem close (h : Alike v w) : Alike v.close w.close := by
  rw [close_of_whole h.whole_left, close_of_whole h.whole_right]
  exact {
    whole_left := by rw [whole_withBase]; exact h.whole_left
    whole_right := by rw [whole_withBase]; exact h.whole_right
    order := by
      rw [byteOrder_withBase v (Store.order_close _), byteOrder_withBase w (Store.order_close _)]
      exact h.order
    wellFormed_left := by rw [base_withBase]; exact Store.wellFormed_close h.wellFormed_left
    wellFormed_right := by rw [base_withBase]; exact Store.wellFormed_close h.wellFormed_right
    storeSize := by simp only [base_withBase, Store.size_close]; exact h.storeSize
    isWritable := by simp only [base_withBase, Store.isWritable_close]
    isClosed := by simp only [base_withBase, Store.isClosed_close]
    byte := by simp only [base_withBase, Store.byte_close]; exact h.byte }

/-- Alike views hold the same contents. -/
theorem contents (h : Alike v w) : w.base.contents = v.base.contents :=
  Store.contents_eq h.wellFormed_left h.wellFormed_right h.storeSize h.byte

end Alike

end View

/-! ## Sequences of accesses -/

namespace Session.Adapter

@[simp] theorem base_wrapAll (via : List Adapter) (v : View) : (wrapAll via v).base = v.base := by
  induction via generalizing v with
  | nil => rfl
  | cons a as ih =>
    show (wrapAll as (a.wrap v)).base = v.base
    rw [ih]
    cases a <;> rfl

theorem withBase_wrapAll (via : List Adapter) (v : View) (t : Store) :
    (wrapAll via v).withBase t = wrapAll via (v.withBase t) := by
  induction via generalizing v with
  | nil => rfl
  | cons a as ih =>
    show (wrapAll as (a.wrap v)).withBase t = wrapAll as (a.wrap (v.withBase t))
    rw [ih]
    cases a <;> rfl

end Session.Adapter

namespace View.Alike

open Session in
/-- An access through alike views answers alike and leaves them alike. -/
theorem step {via₁ via₂ : List Adapter} {s₁ s₂ : Store}
    (h : Alike (Adapter.wrapAll via₁ (.store s₁)) (Adapter.wrapAll via₂ (.store s₂))) (a : Access) :
    (a.action.run s₂ via₂).1 = (a.action.run s₁ via₁).1 ∧
      Alike (Adapter.wrapAll via₁ (.store (a.action.run s₁ via₁).2))
        (Adapter.wrapAll via₂ (.store (a.action.run s₂ via₂).2)) := by
  -- a new store seen through the same adapters is the old view over the new store
  have hview : ∀ (via : List Adapter) (s t : Store),
      Adapter.wrapAll via (.store t) = (Adapter.wrapAll via (.store s)).withBase t :=
    fun via s t => by rw [Adapter.withBase_wrapAll]; rfl
  have hwrites : ∀ {r₁ r₂ : Except Fault View},
      ((∃ e, r₁ = .error e ∧ r₂ = .error e) ∨ ∃ t₁ t₂,
        r₁ = .ok ((Adapter.wrapAll via₁ (.store s₁)).withBase t₁) ∧
        r₂ = .ok ((Adapter.wrapAll via₂ (.store s₂)).withBase t₂) ∧
        Alike ((Adapter.wrapAll via₁ (.store s₁)).withBase t₁)
          ((Adapter.wrapAll via₂ (.store s₂)).withBase t₂)) →
      (afterWrite s₂ r₂).1 = (afterWrite s₁ r₁).1 ∧
        Alike (Adapter.wrapAll via₁ (.store (afterWrite s₁ r₁).2))
          (Adapter.wrapAll via₂ (.store (afterWrite s₂ r₂).2)) := by
    rintro r₁ r₂ (⟨e, rfl, rfl⟩ | ⟨t₁, t₂, rfl, rfl, halike⟩)
    · exact ⟨rfl, h⟩
    · refine ⟨rfl, ?_⟩
      simp only [afterWrite, base_withBase]
      rwa [hview via₁ s₁, hview via₂ s₂]
  cases a with
  | size => exact ⟨by simp only [Access.action, Action.run, h.size], h⟩
  | byteOrder => exact ⟨by simp only [Access.action, Action.run, h.order], h⟩
  | read w signed pos => exact ⟨by simp only [Access.action, Action.run, h.read], h⟩
  | write w pos value => exact hwrites (h.write w pos (w.ofSigned value))
  | getBytes pos len => exact ⟨by simp only [Access.action, Action.run, h.getBytes], h⟩
  | bytesAt pos len => exact ⟨by simp only [Access.action, Action.run, h.getBytes], h⟩
  | putBytes pos bytes => exact hwrites (h.putBytes pos bytes)
  | compareBytes pos bytes =>
    exact ⟨by simp only [Access.action, Action.run, compareBytes, h.getBytes], h⟩
  | equalsBytes pos bytes =>
    exact ⟨by simp only [Access.action, Action.run, equalsBytes, compareBytes, h.getBytes], h⟩
  | flush => exact ⟨by simp only [Access.action, Action.run, h.flush], h⟩
  | close =>
    refine ⟨rfl, ?_⟩
    have hclose := h.close
    rw [close_of_whole h.whole_left, close_of_whole h.whole_right] at hclose
    simp only [Access.action, Action.run]
    rwa [hview via₁ s₁, hview via₂ s₂, close_of_whole h.whole_left, close_of_whole h.whole_right,
      base_withBase, base_withBase]

/-- Accesses made one after the other through alike views answer alike, and leave the same bytes
    in the stores after each of them. -/
theorem trace {via₁ via₂ : List Session.Adapter} {s₁ s₂ : Store}
    (h : Alike (Session.Adapter.wrapAll via₁ (.store s₁)) (Session.Adapter.wrapAll via₂ (.store s₂)))
    (accesses : List Access) : Access.trace via₂ accesses s₂ = Access.trace via₁ accesses s₁ := by
  induction accesses generalizing s₁ s₂ with
  | nil => rfl
  | cons a as ih =>
    obtain ⟨hanswer, h'⟩ := h.step a
    have hcontents := h'.contents
    simp only [Session.Adapter.base_wrapAll, base] at hcontents
    simp only [Access.trace, hanswer, hcontents, ih h']

end View.Alike

/-- A stack of byte-order adapters over a well-formed store, the outermost of order `o`, is alike
    to the store with its byte order set to `o`. -/
theorem alike_reorders {s : Store} (hs : s.WellFormed) (via : List Session.Adapter) {o : ByteOrder}
    (hwhole : (Session.Adapter.wrapAll via (.store s)).whole = true)
    (horder : (Session.Adapter.wrapAll via (.store s)).byteOrder = o) :
    View.Alike (Session.Adapter.wrapAll via (.store s))
      (Session.Adapter.wrapAll [] (.store (s.withByteOrder o))) where
  whole_left := hwhole
  whole_right := rfl
  order := by
    rw [horder]
    exact Store.order_withByteOrder s o
  wellFormed_left := by rw [Session.Adapter.base_wrapAll]; exact hs
  wellFormed_right := Store.wellFormed_withByteOrder hs o
  storeSize := by simp
  isWritable := by simp
  isClosed := by simp
  byte x := by simp

/-- However views are nested, a word is the bytes at its position decoded in the view's byte
    order, and a read of it fails as the read of those bytes does; writing a word has the outcome
    of writing the bytes that encode it in that order, with the same fault or the same bytes left
    in the store. So one byte-order adapter over a store, or two, act as the store with its byte
    order set to the outermost adapter's: every sequence of accesses answers alike and leaves the
    same bytes after each access. -/
theorem decoding_law (v : View) (hwf : v.base.WellFormed) (w : Width) (pos value : Nat) :
    v.read w pos = (fun bs => v.byteOrder.decode bs.data.toList) <$> v.getBytes pos w.bytes ∧
      View.Agree (v.write w pos value)
        (v.putBytes pos (v.byteOrder.encode w.bytes value).toByteArray) ∧
      ∀ s : Store, s.WellFormed → ∀ (o₁ o₂ : ByteOrder) (accesses : List Access),
        Access.trace [.reorder o₂] accesses s =
            Access.trace [] accesses (s.withByteOrder o₂) ∧
          Access.trace [.reorder o₁, .reorder o₂] accesses s =
            Access.trace [] accesses (s.withByteOrder o₂) := by
  refine ⟨View.read_eq_decode v hwf w pos, View.write_agrees v hwf w pos value,
    fun s hs o₁ o₂ accesses => ⟨?_, ?_⟩⟩
  · exact ((alike_reorders hs [.reorder o₂] rfl rfl).trace accesses).symm
  · exact ((alike_reorders hs [.reorder o₁, .reorder o₂] rfl rfl).trace accesses).symm

/-- The law through a little-endian adapter over a window into a big-endian flat store. -/
theorem decoding_law_window :
    let v := View.reorder .little (.window 1 4 (.store (.flat (Flat.ofBytes ⟨#[9, 3, 1, 2, 0, 7]⟩ .big))))
    v.base.WellFormed ∧
      v.read .four 0 = (fun bs => v.byteOrder.decode bs.data.toList) <$> v.getBytes 0 Width.four.bytes ∧
      View.Agree (v.write .four 0 7)
        (v.putBytes 0 (v.byteOrder.encode Width.four.bytes 7).toByteArray) ∧
      ∀ s : Store, s.WellFormed → ∀ (o₁ o₂ : ByteOrder) (accesses : List Access),
        Access.trace [.reorder o₂] accesses s =
            Access.trace [] accesses (s.withByteOrder o₂) ∧
          Access.trace [.reorder o₁, .reorder o₂] accesses s =
            Access.trace [] accesses (s.withByteOrder o₂) :=
  ⟨trivial, decoding_law
    (.reorder .little (.window 1 4 (.store (.flat (Flat.ofBytes ⟨#[9, 3, 1, 2, 0, 7]⟩ .big)))))
    trivial .four 0 7⟩

end ByteView
