import ByteView.Proofs.Segmented
import ByteView.Store

/-!
# Stores as functions of their positions

Both kinds of store are read through one denotation, `Store.byte`, the byte at each position,
under the layout invariant of their kind (`Store.WellFormed`). Every access first checks the
store's state (open, writable) and then the range, and fails without change; what it does when
it succeeds is said through `Store.byte`:

* `Store.getBytes_eq_ok_iff`: a range is read, exactly when the store is open and the range
  fits, as the bytes at its positions;
* `Store.read_eq_ok_iff`: a word likewise, decoded in the store's byte order;
* `Store.putBytes_eq_ok_iff`, `Store.Writes`: a range is written, exactly when the store is
  writable and the range fits, at its positions and nowhere else, keeping the layout and
  the store's size, byte order and state.
-/

namespace ByteView

/-- An access that checks a guard and then a range, and gives a value when both pass. -/
theorem checked_eq_ok {α : Type} {guard range : Except Fault Unit} {x r : α} :
    (do guard; range; pure x : Except Fault α) = .ok r ↔
      guard = .ok () ∧ range = .ok () ∧ x = r := by
  cases guard <;> cases range <;> simp [bind, Except.bind, pure, Except.pure]

/-- An access that checks a guard and then a range gives a value exactly when both pass. -/
theorem checked_ok_iff {α : Type} {guard range : Except Fault Unit} {x : α} :
    (∃ r, (do guard; range; pure x : Except Fault α) = .ok r) ↔
      guard = .ok () ∧ range = .ok () := by
  simp only [checked_eq_ok]
  exact ⟨fun ⟨_, h1, h2, _⟩ => ⟨h1, h2⟩, fun ⟨h1, h2⟩ => ⟨x, h1, h2, rfl⟩⟩

/-- A result wrapped by a function succeeds exactly when the result does. -/
theorem map_ok_iff {α β : Type} (k : α → β) (r : Except Fault α) :
    (∃ b, (k <$> r) = .ok b) ↔ ∃ a, r = .ok a := by
  cases r <;> simp [Functor.map, Except.map]

/-- An access that checks a guard and then a range gives the same as another with the same checks
    when their values agree on ranges that pass. -/
theorem checked_congr {α : Type} {guard range : Except Fault Unit} {x y : α}
    (h : range = .ok () → x = y) :
    (do guard; range; pure x : Except Fault α) = (do guard; range; pure y) := by
  cases guard with
  | error e => rfl
  | ok u =>
    cases hr : range with
    | error e => rfl
    | ok v => rw [h hr]

namespace Store

/-- The byte at position `x`. -/
def byte : Store → Nat → UInt8
  | .flat s, x => s.bytes.get x
  | .segmented s, x => s.byte x

/-- The layout invariant of the store's kind. -/
def WellFormed : Store → Prop
  | .flat s => s.bytes.WellFormed
  | .segmented s => s.WellFormed

/-- The bytes at the positions `[pos, pos + len)`. -/
def bytesAt (s : Store) (pos len : Nat) : List UInt8 := (List.range' pos len).map s.byte

/-- A range of `len` bytes at `pos` lies inside the store, as 64-bit positions. -/
def Fits (s : Store) (pos len : Nat) : Prop := pos + len < positionLimit ∧ pos + len ≤ s.size

/-- What a write leaves of a store: its size, byte order and state. -/
structure SameShape (s t : Store) : Prop where
  size : t.size = s.size
  order : t.order = s.order
  isWritable : t.isWritable = s.isWritable
  isClosed : t.isClosed = s.isClosed

/-- `t` is the store `s` with `src` written at `pos`, and nothing else changed. -/
structure Writes (s t : Store) (pos : Nat) (src : ByteArray) : Prop where
  wellFormed : t.WellFormed
  shape : SameShape s t
  byte : ∀ x, t.byte x = if pos ≤ x ∧ x < pos + src.size then src[x - pos]?.getD 0 else s.byte x

variable {s : Store}

theorem checkRange_eq_ok_iff_fits {pos len : Nat} :
    checkRange pos len s.size = .ok () ↔ s.Fits pos len :=
  checkRange_eq_ok_iff pos len s.size

/-- A byte string equals the bytes of a list when its bytes are the list. -/
theorem eq_toByteArray {bs : ByteArray} {l : List UInt8} (h : bs.data.toList = l) :
    bs = l.toByteArray := by
  apply ByteArray.ext
  apply Array.toList_inj.1
  rw [h, List.toList_data_toByteArray]

/-- Reading a range: the store must be open and the range must fit, and then it reads the bytes
    at its positions. -/
theorem getBytes_eq (hs : s.WellFormed) (pos len : Nat) :
    s.getBytes pos len =
      (do (if s.isClosed then .error .closed else .ok ()); checkRange pos len s.size
          pure (s.bytesAt pos len).toByteArray) := by
  cases s with
  | flat f =>
    apply checked_congr
    intro hc
    have hfit := ((checkRange_eq_ok_iff pos len f.size).1 hc).2
    apply eq_toByteArray
    rw [Block.slice_toList hs, show min len (f.bytes.size - pos) = len by
      simp only [Flat.size] at hfit; omega]
    rfl
  | segmented g =>
    apply checked_congr
    intro hc
    exact eq_toByteArray (Segmented.gather_toList hs ((checkRange_eq_ok_iff pos len g.size).1 hc).2)

/-- Reading a range succeeds exactly when the store is open and the range fits. -/
theorem getBytes_eq_ok_iff (hs : s.WellFormed) {pos len : Nat} {bs : ByteArray} :
    s.getBytes pos len = .ok bs ↔
      s.isClosed = false ∧ s.Fits pos len ∧ bs = (s.bytesAt pos len).toByteArray := by
  rw [getBytes_eq hs, checked_eq_ok, checkRange_eq_ok_iff_fits, eq_comm (a := bs)]
  cases s.isClosed <;> simp

/-- Reading a word: the store must be open and the word must fit, and then it decodes the bytes
    at its positions in the store's byte order. -/
theorem read_eq (hs : s.WellFormed) (w : Width) (pos : Nat) :
    s.read w pos =
      (do (if s.isClosed then .error .closed else .ok ()); checkRange pos w.bytes s.size
          pure (s.order.decode (s.bytesAt pos w.bytes))) := by
  cases s with
  | flat f =>
    show (do let bs ← Store.getBytes (.flat f) pos w.bytes; pure (f.order.decode bs.data.toList)) = _
    rw [getBytes_eq hs]
    cases (if (Store.flat f).isClosed then Except.error Fault.closed else Except.ok ()) <;>
      cases checkRange pos w.bytes (Store.flat f).size <;>
      simp [bind, Except.bind, pure, Except.pure, order]
  | segmented g =>
    apply checked_congr
    intro _
    exact Segmented.readWord_eq hs w pos

/-- The check of a write: open first, then writable. -/
theorem writableGuard_eq_ok_iff (closed writable : Bool) :
    ((if closed then Except.error Fault.closed else if writable then Except.ok ()
      else Except.error Fault.readOnly) = .ok ()) ↔ (writable && !closed) = true := by
  cases closed <;> cases writable <;> simp

/-- Writing a range succeeds exactly when the store is writable and the range fits. -/
theorem putBytes_eq_ok_iff {pos : Nat} {src : ByteArray} :
    (∃ t, s.putBytes pos src = .ok t) ↔ s.isWritable = true ∧ s.Fits pos src.size := by
  cases s with
  | flat f =>
    rw [show Store.putBytes (.flat f) pos src = .flat <$> f.putBytes pos src from rfl,
      map_ok_iff]
    exact checked_ok_iff.trans (and_congr (writableGuard_eq_ok_iff _ _) (checkRange_eq_ok_iff _ _ _))
  | segmented g =>
    rw [show Store.putBytes (.segmented g) pos src = .segmented <$> g.putBytes pos src from rfl,
      map_ok_iff]
    exact checked_ok_iff.trans (and_congr (writableGuard_eq_ok_iff _ _) (checkRange_eq_ok_iff _ _ _))

/-- A result wrapped by a function succeeds with the wrapped value of its own. -/
theorem map_eq_ok {α β : Type} {k : α → β} {r : Except Fault α} {b : β} (h : (k <$> r) = .ok b) :
    ∃ a, r = .ok a ∧ b = k a := by
  cases r with
  | error e => exact absurd h (by simp [Functor.map, Except.map])
  | ok a => exact ⟨a, rfl, by simpa [Functor.map, Except.map] using h.symm⟩

/-- A write that succeeds writes its bytes at their positions and changes nothing else. -/
theorem writes_of_putBytes (hs : s.WellFormed) {pos : Nat} {src : ByteArray} {t : Store}
    (h : s.putBytes pos src = .ok t) : Writes s t pos src := by
  cases s with
  | flat f =>
    obtain ⟨f', hf, rfl⟩ := map_eq_ok h
    obtain ⟨-, hc, rfl⟩ := checked_eq_ok.1 hf
    have hfit := ((checkRange_eq_ok_iff pos src.size f.size).1 hc).2
    refine ⟨Block.WellFormed.overwrite hs pos src, ⟨Block.size_overwrite _ _ _, rfl, rfl, rfl⟩,
      fun x => ?_⟩
    show (f.bytes.overwrite pos src).get x = _
    rw [Block.get_overwrite hs]
    by_cases hin : pos ≤ x ∧ x < pos + src.size
    · rw [if_pos ⟨hin.1, hin.2, by simp only [Flat.size] at hfit; omega⟩, if_pos hin]
    · rw [if_neg fun h => hin ⟨h.1, h.2.1⟩, if_neg hin]
      rfl
  | segmented g =>
    obtain ⟨g', hg, rfl⟩ := map_eq_ok h
    obtain ⟨-, hc, rfl⟩ := checked_eq_ok.1 hg
    have hw := Segmented.writes_scatter hs ((checkRange_eq_ok_iff pos src.size g.size).1 hc).2
    have hframe := hw.frame
    refine ⟨hw.wellFormed, ⟨?_, ?_, ?_, ?_⟩, fun x => ?_⟩
    · show (g.scatter pos src).size = g.size
      rw [hframe]
    · show (g.scatter pos src).order = g.order
      rw [hframe]
    · show ((g.scatter pos src).writable && !(g.scatter pos src).closed) = (g.writable && !g.closed)
      rw [hframe]
    · show (g.scatter pos src).closed = g.closed
      rw [hframe]
    · show (g.scatter pos src).byte x = _
      rw [hw.byte, Array.length_toList, ByteArray.size_data, ← Bytes.getElem?_eq_toList]
      rfl

/-- All bytes of a store, also after it was closed, are its bytes at their positions. -/
theorem contents_toList (hs : s.WellFormed) : s.contents.data.toList = s.bytesAt 0 s.size := by
  cases s with
  | flat f => exact Block.toByteArray_toList hs
  | segmented g => exact Segmented.contents_toList hs

theorem SameShape.refl (s : Store) : SameShape s s := ⟨rfl, rfl, rfl, rfl⟩

theorem SameShape.trans {t u : Store} (h1 : SameShape s t) (h2 : SameShape t u) :
    SameShape s u :=
  ⟨h2.size.trans h1.size, h2.order.trans h1.order, h2.isWritable.trans h1.isWritable,
    h2.isClosed.trans h1.isClosed⟩

end Store

end ByteView
