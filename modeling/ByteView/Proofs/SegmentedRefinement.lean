import ByteView.Proofs.Segmented
import ByteView.Session.Run

/-!
# Segmented stores answer as flat ones

A segmented store made from a byte string and a flat store made from the same bytes answer every
call of the store interface alike, step after step, and hold the same bytes after each step.

`Segmented.Mirrors g f` says that `g` holds the bytes of `f` in a well-formed layout, in the same
state (size, byte order, writability, closing). Every call keeps it and answers the same on both
sides (`Segmented.Mirrors.run`); a store built from bytes mirrors the flat store of those bytes
(`Segmented.mirrors_ofBytes`). The main statement, `segmented_trace_eq_flat`, follows by
induction on the calls.
-/

namespace ByteView

/-- A call of the interface every store offers: a read or a write of a word (a signed one as
    two's complement), of a range of bytes, a comparison of a range with given bytes, a change of
    the byte order, a flush or a close. -/
inductive Call where
  | read (w : Width) (signed : Bool) (pos : Nat)
  | write (w : Width) (pos : Nat) (value : Int)
  | getBytes (pos len : Nat)
  | bytesAt (pos len : Nat)
  | putBytes (pos : Nat) (bytes : ByteArray)
  | compareBytes (pos : Nat) (bytes : ByteArray)
  | equalsBytes (pos : Nat) (bytes : ByteArray)
  | withByteOrder (order : ByteOrder)
  | flush
  | close

namespace Call

/-- Makes the call on a store: the answer, and the store after the call. Every call but a change
    of byte order is the session's action of the same name on the bare store. -/
def run : Call → Store → Session.Answer × Store
  | .read w signed pos, s => (Session.Action.read w signed pos).run s []
  | .write w pos value, s => (Session.Action.write w pos value).run s []
  | .getBytes pos len, s => (Session.Action.getBytes pos len).run s []
  | .bytesAt pos len, s => (Session.Action.bytesAt pos len).run s []
  | .putBytes pos bytes, s => (Session.Action.putBytes pos bytes).run s []
  | .compareBytes pos bytes, s => (Session.Action.compareBytes pos bytes).run s []
  | .equalsBytes pos bytes, s => (Session.Action.equalsBytes pos bytes).run s []
  | .withByteOrder order, s => (.done, s.withByteOrder order)
  | .flush, s => Session.Action.flush.run s []
  | .close, s => Session.Action.close.run s []

/-- The answers of calls made one after the other, each with the bytes of the store after it. -/
def trace : List Call → Store → List (Session.Answer × ByteArray)
  | [], _ => []
  | c :: cs, s => ((c.run s).1, (c.run s).2.contents) :: trace cs (c.run s).2

/-- A call that fails leaves the store as it was. -/
theorem run_of_fault (c : Call) (s : Store) {f : Fault} (h : (c.run s).1 = .fault f) :
    (c.run s).2 = s := by
  -- only writes change the store, and a write that fails keeps it
  have hwrite : ∀ r : Except Fault View, (Session.afterWrite s r).1 = .fault f →
      (Session.afterWrite s r).2 = s := by
    rintro (e | v) hr
    · rfl
    · simp [Session.afterWrite] at hr
  cases c <;> simp only [run, Session.Action.run] at h ⊢
  case write => exact hwrite _ h
  case putBytes => exact hwrite _ h
  all_goals simp at h

end Call

namespace Segmented

/-- `g` holds the bytes of the flat store `f`, in a well-formed layout and in the same state. -/
structure Mirrors (g : Segmented) (f : Flat) : Prop where
  wellFormed : g.WellFormed
  flat : f.bytes.WellFormed
  size : g.size = f.size
  byte : ∀ x, x < g.size → g.byte x = f.bytes.get x
  order : g.order = f.order
  writable : g.writable = f.writable
  closed : g.closed = f.closed

variable {g : Segmented} {f : Flat}

namespace Mirrors

/-- Both stores hold the same bytes in a range inside them. -/
theorem slice_toList (hm : g.Mirrors f) {pos len : Nat} (h : pos + len ≤ g.size) :
    (f.bytes.slice pos len).data.toList = (List.range' pos len).map g.byte := by
  rw [Block.slice_toList hm.flat, show min len (f.bytes.size - pos) = len by
    rw [← Flat.size, ← hm.size]; omega]
  apply List.map_congr_left
  intro x hx
  rw [List.mem_range'_1] at hx
  exact (hm.byte x (by omega)).symm

theorem ensureOpen (hm : g.Mirrors f) : g.ensureOpen = f.ensureOpen := by
  simp only [Segmented.ensureOpen, Flat.ensureOpen, hm.closed]

theorem ensureWritable (hm : g.Mirrors f) : g.ensureWritable = f.ensureWritable := by
  simp only [Segmented.ensureWritable, Flat.ensureWritable, hm.closed, hm.writable]

theorem getBytes (hm : g.Mirrors f) (pos len : Nat) : g.getBytes pos len = f.getBytes pos len := by
  simp only [Segmented.getBytes, Flat.getBytes, hm.ensureOpen, hm.size]
  cases f.ensureOpen with
  | error e => rfl
  | ok u =>
    cases hc : checkRange pos len f.size with
    | error e => rfl
    | ok v =>
      have hfit := ((checkRange_eq_ok_iff pos len f.size).1 hc).2
      simp only [bind, Except.bind, pure, Except.pure, Except.ok.injEq]
      apply ByteArray.ext
      apply Array.toList_inj.1
      rw [gather_toList hm.wellFormed (by rw [hm.size]; exact hfit),
        hm.slice_toList (by rw [hm.size]; exact hfit)]

theorem read (hm : g.Mirrors f) (w : Width) (pos : Nat) : g.read w pos = f.read w pos := by
  simp only [Segmented.read, Flat.read, Flat.getBytes, checkAccess, hm.ensureOpen, hm.size]
  cases f.ensureOpen with
  | error e => rfl
  | ok u =>
    cases hc : checkRange pos w.bytes f.size with
    | error e => rfl
    | ok v =>
      have hfit := ((checkRange_eq_ok_iff pos w.bytes f.size).1 hc).2
      simp only [bind, Except.bind, pure, Except.pure, Except.ok.injEq]
      rw [readWord_eq hm.wellFormed, hm.slice_toList (by rw [hm.size]; exact hfit), hm.order]

/-- Writing the same bytes at the same place inside both stores keeps them alike. -/
theorem writes (hm : g.Mirrors f) {g' : Segmented} {pos : Nat} {src : ByteArray}
    (hw : Writes g g' pos src.data.toList) :
    g'.Mirrors { f with bytes := f.bytes.overwrite pos src } := by
  have hframe := hw.frame
  refine ⟨hw.wellFormed, hm.flat.overwrite pos src, ?_, fun x hx => ?_, ?_, ?_, ?_⟩
  · rw [hframe]
    exact hm.size.trans (Block.size_overwrite _ _ _).symm
  · rw [hframe] at hx
    rw [hw.byte, Block.get_overwrite hm.flat, Array.length_toList, ByteArray.size_data,
      ← Bytes.getElem?_eq_toList]
    by_cases hin : pos ≤ x ∧ x < pos + src.size
    · rw [if_pos hin, if_pos ⟨hin.1, hin.2, by rw [← Flat.size, ← hm.size]; exact hx⟩]
    · rw [if_neg hin, if_neg fun h => hin ⟨h.1, h.2.1⟩, hm.byte x hx]
  · rw [hframe]
    exact hm.order
  · rw [hframe]
    exact hm.writable
  · rw [hframe]
    exact hm.closed

/-- A write fails alike on both stores, or succeeds on both and keeps them alike. -/
theorem write (hm : g.Mirrors f) (w : Width) (pos value : Nat) :
    (∃ e, g.write w pos value = .error e ∧ f.write w pos value = .error e) ∨
      ∃ g' f', g.write w pos value = .ok g' ∧ f.write w pos value = .ok f' ∧ g'.Mirrors f' := by
  simp only [Segmented.write, Flat.write, Flat.putBytes, checkAccess, hm.ensureWritable, hm.size,
    List.size_toByteArray, ByteOrder.length_encode]
  cases f.ensureWritable with
  | error e => exact .inl ⟨e, rfl, rfl⟩
  | ok u =>
    cases hc : checkRange pos w.bytes f.size with
    | error e => exact .inl ⟨e, rfl, rfl⟩
    | ok v =>
      have hfit := ((checkRange_eq_ok_iff pos w.bytes f.size).1 hc).2
      refine .inr ⟨_, _, rfl, rfl, hm.writes ?_⟩
      rw [List.toList_data_toByteArray, ← hm.order]
      exact writes_writeWord hm.wellFormed w pos value (by rw [hm.size]; exact hfit)

/-- A write of bytes fails alike on both stores, or succeeds on both and keeps them alike. -/
theorem putBytes (hm : g.Mirrors f) (pos : Nat) (src : ByteArray) :
    (∃ e, g.putBytes pos src = .error e ∧ f.putBytes pos src = .error e) ∨
      ∃ g' f', g.putBytes pos src = .ok g' ∧ f.putBytes pos src = .ok f' ∧ g'.Mirrors f' := by
  simp only [Segmented.putBytes, Flat.putBytes, hm.ensureWritable, hm.size]
  cases f.ensureWritable with
  | error e => exact .inl ⟨e, rfl, rfl⟩
  | ok u =>
    cases hc : checkRange pos src.size f.size with
    | error e => exact .inl ⟨e, rfl, rfl⟩
    | ok v =>
      have hfit := ((checkRange_eq_ok_iff pos src.size f.size).1 hc).2
      exact .inr ⟨_, _, rfl, rfl,
        hm.writes (writes_scatter hm.wellFormed (by rw [hm.size]; exact hfit))⟩

theorem close (hm : g.Mirrors f) : g.close.Mirrors f.close :=
  ⟨⟨hm.wellFormed.length, hm.wellFormed.blocks⟩, hm.flat, hm.size, hm.byte, hm.order,
    hm.writable, rfl⟩

theorem withByteOrder (hm : g.Mirrors f) (o : ByteOrder) :
    (g.withByteOrder o).Mirrors (f.withByteOrder o) :=
  ⟨⟨hm.wellFormed.length, hm.wellFormed.blocks⟩, hm.flat, hm.size, hm.byte, rfl, hm.writable,
    hm.closed⟩

/-- Both stores hold the same bytes. -/
theorem contents (hm : g.Mirrors f) : g.contents = f.bytes.toByteArray := by
  apply ByteArray.ext
  apply Array.toList_inj.1
  rw [contents_toList hm.wellFormed, Block.toByteArray_toList hm.flat, ← Flat.size, ← hm.size]
  apply List.map_congr_left
  intro x hx
  rw [List.mem_range'_1] at hx
  exact hm.byte x (by omega)

/-- Every call answers alike on both stores, and leaves stores that are again alike. -/
theorem run (hm : g.Mirrors f) (c : Call) :
    (c.run (.segmented g)).1 = (c.run (.flat f)).1 ∧ ∃ g' f',
      (c.run (.segmented g)).2 = .segmented g' ∧ (c.run (.flat f)).2 = .flat f' ∧
        g'.Mirrors f' := by
  cases c with
  | read w signed pos =>
    refine ⟨?_, g, f, rfl, rfl, hm⟩
    simp only [Call.run, Session.Action.run, Session.Adapter.wrapAll, List.foldl, View.read,
      Store.read, hm.read]
  | write w pos value =>
    simp only [Call.run, Session.Action.run, Session.Adapter.wrapAll, List.foldl, View.write,
      Store.write]
    rcases hm.write w pos (w.ofSigned value) with ⟨e, hg, hf⟩ | ⟨g', f', hg, hf, hm'⟩
    · rw [hg, hf]
      exact ⟨rfl, g, f, rfl, rfl, hm⟩
    · rw [hg, hf]
      exact ⟨rfl, g', f', rfl, rfl, hm'⟩
  | getBytes pos len =>
    refine ⟨?_, g, f, rfl, rfl, hm⟩
    simp only [Call.run, Session.Action.run, Session.Adapter.wrapAll, List.foldl, View.getBytes,
      Store.getBytes, hm.getBytes]
  | bytesAt pos len =>
    refine ⟨?_, g, f, rfl, rfl, hm⟩
    simp only [Call.run, Session.Action.run, Session.Adapter.wrapAll, List.foldl, View.getBytes,
      Store.getBytes, hm.getBytes]
  | putBytes pos src =>
    simp only [Call.run, Session.Action.run, Session.Adapter.wrapAll, List.foldl, View.putBytes,
      Store.putBytes]
    rcases hm.putBytes pos src with ⟨e, hg, hf⟩ | ⟨g', f', hg, hf, hm'⟩
    · rw [hg, hf]
      exact ⟨rfl, g, f, rfl, rfl, hm⟩
    · rw [hg, hf]
      exact ⟨rfl, g', f', rfl, rfl, hm'⟩
  | compareBytes pos src =>
    refine ⟨?_, g, f, rfl, rfl, hm⟩
    simp only [Call.run, Session.Action.run, Session.Adapter.wrapAll, List.foldl,
      View.compareBytes, View.getBytes, Store.getBytes, hm.getBytes]
  | equalsBytes pos src =>
    refine ⟨?_, g, f, rfl, rfl, hm⟩
    simp only [Call.run, Session.Action.run, Session.Adapter.wrapAll, List.foldl,
      View.equalsBytes, View.compareBytes, View.getBytes, Store.getBytes, hm.getBytes]
  | withByteOrder o => exact ⟨rfl, _, _, rfl, rfl, hm.withByteOrder o⟩
  | flush =>
    refine ⟨?_, g, f, rfl, rfl, hm⟩
    simp only [Call.run, Session.Action.run, Session.Adapter.wrapAll, List.foldl, View.flush,
      Store.flush, Segmented.flush, Flat.flush, hm.ensureOpen]
  | close => exact ⟨rfl, _, _, rfl, rfl, hm.close⟩

/-- Calls made one after the other answer alike on both stores, which hold the same bytes after
    each of them. -/
theorem trace (hm : g.Mirrors f) (calls : List Call) :
    Call.trace calls (.segmented g) = Call.trace calls (.flat f) := by
  induction calls generalizing g f with
  | nil => rfl
  | cons c cs ih =>
    obtain ⟨hanswer, g', f', hg, hf, hm'⟩ := hm.run c
    simp only [Call.trace, hanswer, hg, hf, Store.contents, hm'.contents, ih hm']

end Mirrors

/-- A segmented store built from bytes mirrors the flat store of those bytes. -/
theorem mirrors_ofBytes {p : Platform} {bytes : ByteArray} {shift : Nat} {order : ByteOrder}
    {g : Segmented} (h : ofBytes p bytes shift order = .ok g) : g.Mirrors (Flat.ofBytes bytes order) := by
  obtain ⟨hwf, -, hsize, horder, hwritable, hclosed, hbyte⟩ := ofBytes_spec h
  exact ⟨hwf, trivial, hsize, fun x _ => hbyte x, horder, hwritable, hclosed⟩

end Segmented

/-- The segmented store made from bytes takes a valid shift, and holds a copy of the bytes. -/
theorem Mapping.segmentedOfBytes_eq_ok {p : Platform} {bytes : ByteArray} {o : Mapping.Options}
    {s : Segmented} (h : Mapping.segmentedOfBytes p bytes o = .ok s) :
    o.segmentShift ≤ Mapping.maxShift ∧ Segmented.ofBytes p bytes o.segmentShift o.byteOrder = .ok s := by
  unfold Mapping.segmentedOfBytes Mapping.Options.validate at h
  by_cases hshift : Mapping.maxShift < o.segmentShift
  · simp [hshift, bind, Except.bind] at h
  · simp only [hshift, if_false, bind, Except.bind] at h
    exact ⟨Nat.le_of_not_lt hshift, h⟩

/-- A segmented store made from a byte string, on any platform, answers every sequence of calls as
    the flat store of the same bytes in the same byte order does: the same answer at every step,
    the faults with their numbers included, and the same bytes after every step. A call that fails
    changes nothing. -/
theorem segmented_trace_eq_flat (p : Platform) (bytes : ByteArray) (shift : Nat) (order : ByteOrder)
    (g : Segmented)
    (hg : Mapping.segmentedOfBytes p bytes { segmentShift := shift, byteOrder := order } = .ok g)
    (calls : List Call) :
    Call.trace calls (.segmented g) =
        Call.trace calls (.flat ((Flat.ofBytes bytes .big).withByteOrder order)) ∧
      ∀ (c : Call) (s : Store) (f : Fault), (c.run s).1 = .fault f → (c.run s).2 = s :=
  ⟨(Segmented.mirrors_ofBytes (Mapping.segmentedOfBytes_eq_ok hg).2).trace calls,
    fun c s _ h => c.run_of_fault s h⟩

/-- Five bytes in segments of two bytes on the host, where every word of two or more bytes
    straddles a segment boundary. -/
theorem segmented_trace_eq_flat_five_bytes :
    Mapping.segmentedOfBytes Platform.host ⟨#[1, 2, 3, 4, 5]⟩ { segmentShift := 1, byteOrder := .little } =
        .ok { segments := #[.whole ⟨#[1, 2]⟩, .whole ⟨#[3, 4]⟩, .whole ⟨#[5]⟩]
              shift := 1, size := 5, order := .little } ∧
      Call.trace [.write .four 1 (-2), .read .eight false 0, .read .two true 3,
          .putBytes 0 ⟨#[9, 8, 7]⟩, .withByteOrder .big, .read .four false 1, .close]
          (.segmented { segments := #[.whole ⟨#[1, 2]⟩, .whole ⟨#[3, 4]⟩, .whole ⟨#[5]⟩]
                        shift := 1, size := 5, order := .little }) =
        Call.trace [.write .four 1 (-2), .read .eight false 0, .read .two true 3,
          .putBytes 0 ⟨#[9, 8, 7]⟩, .withByteOrder .big, .read .four false 1, .close]
          (.flat ((Flat.ofBytes ⟨#[1, 2, 3, 4, 5]⟩ .big).withByteOrder .little)) :=
  ⟨rfl, (segmented_trace_eq_flat Platform.host _ 1 .little _ rfl _).1⟩

end ByteView
