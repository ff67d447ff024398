import ByteView.Proofs.Decoding
import ByteView.Proofs.SortSteps

/-!
# Windows confine what is done through them

A window of `length` bytes from `offset` on checks every access against its length first and
then moves it by its offset into the view inside it; nothing is checked when the window is
made, so it may reach past the view inside it, or past the last 64-bit position. Whatever is
done through a window, or through windows and adapters put around it, lands in its footprint:
the store positions `[origin + offset, origin + offset + length)`, where `origin` is where the
view inside it starts in the store (`View.Within`).

A change that only touches a footprint is `Store.ChangesOnly`: it keeps the store well formed
and of the same shape (so a window never closes what it looks into), and every byte outside the
footprint where it was. It is a preorder, so it is carried along a sort step by step
(`Records.Confined`) and along the steps of a session.

* `locate_eq_ok_iff`: an access passes a window exactly when it fits the window's length as a
  64-bit range and its moved position is a 64-bit position;
* `Records.confined_sortBy`: a sort through a view inside a footprint changes only the footprint,
  whatever its comparator answers and whether it succeeds or fails;
* `Session.changesOnly_run_window`: so does every operation of a session made through a window;
* `Access.run_window`: an access through a window is the access to the view inside it at the
  moved position, or the window's fault with nothing changed;
* `window_confines`: the whole contract of a window (`WindowContract`).
-/

namespace ByteView

/-! ## Changes inside a footprint -/

namespace Store

/-- `t` is `s` changed at most in the bytes of `[lo, hi)`: a well-formed store of the same
    shape, with every byte outside the range where it was. -/
structure ChangesOnly (s t : Store) (lo hi : Nat) : Prop where
  wellFormed : t.WellFormed
  shape : SameShape s t
  frame : ∀ x, x < lo ∨ hi ≤ x → t.byte x = s.byte x

variable {s t u : Store} {lo hi : Nat}

theorem ChangesOnly.refl (hs : s.WellFormed) : s.ChangesOnly s lo hi :=
  ⟨hs, SameShape.refl s, fun _ _ => rfl⟩

theorem ChangesOnly.trans (h₁ : s.ChangesOnly t lo hi) (h₂ : t.ChangesOnly u lo hi) :
    s.ChangesOnly u lo hi :=
  ⟨h₂.wellFormed, h₁.shape.trans h₂.shape, fun x hx => (h₂.frame x hx).trans (h₁.frame x hx)⟩

/-- A store with the same bytes as a change is that change too. -/
theorem ChangesOnly.same (h : s.ChangesOnly t lo hi) (hsame : Same t u) : s.ChangesOnly u lo hi :=
  ⟨hsame.right, h.shape.trans hsame.shape, fun x hx => (hsame.byte x).trans (h.frame x hx)⟩

theorem ChangesOnly.mono {lo' hi' : Nat} (h : s.ChangesOnly t lo hi) (hlo : lo' ≤ lo)
    (hhi : hi ≤ hi') : s.ChangesOnly t lo' hi' :=
  ⟨h.wellFormed, h.shape, fun x hx => h.frame x (by omega)⟩

/-- A write of bytes inside the range changes only the range. -/
theorem Writes.changesOnly {pos : Nat} {src : ByteArray} (h : Writes s t pos src)
    (hlo : lo ≤ pos) (hhi : pos + src.size ≤ hi) : s.ChangesOnly t lo hi := by
  refine ⟨h.wellFormed, h.shape, fun x hx => ?_⟩
  rw [h.byte, if_neg (by omega)]

/-- A trade of two runs of bytes inside the range changes only the range. -/
theorem Trades.changesOnly {x y w : Nat} (h : s.Trades t x y w) (ht : t.WellFormed)
    (hshape : SameShape s t) (hx : lo ≤ x ∧ x + w ≤ hi) (hy : lo ≤ y ∧ y + w ≤ hi) :
    s.ChangesOnly t lo hi := by
  refine ⟨ht, hshape, fun z hz => ?_⟩
  rw [h, if_neg (by omega), if_neg (by omega)]

end Store

/-! ## Footprints -/

namespace View

variable {v : View} {lo hi : Nat}

/-- Every access the view accepts lands in the store positions `[lo, hi)`. -/
def Within (v : View) (lo hi : Nat) : Prop :=
  ∀ pos len p, v.place pos len = .ok p → lo ≤ p ∧ p + len ≤ hi

/-- An access passes a window exactly when it fits the window's length as a 64-bit range and its
    moved position is a 64-bit position; it then lands at the moved position. -/
theorem locate_eq_ok_iff {offset length innerSize pos len q : Nat} :
    locate offset length innerSize pos len = .ok q ↔
      pos + len < positionLimit ∧ pos + len ≤ length ∧ offset + pos < positionLimit ∧
        q = offset + pos := by
  unfold locate
  cases hc : checkRange pos len length with
  | error e =>
    simp only [bind, Except.bind, reduceCtorEq, false_iff]
    rintro ⟨h₁, h₂, -⟩
    rw [(checkRange_eq_ok_iff pos len length).2 ⟨h₁, h₂⟩] at hc
    cases hc
  | ok u =>
    have hfit := (checkRange_eq_ok_iff pos len length).1 hc
    simp only [bind, Except.bind]
    split
    · simp only [pure, Except.pure, Except.ok.injEq]
      constructor
      · rintro rfl
        exact ⟨hfit.1, hfit.2, by assumption, rfl⟩
      · rintro ⟨-, -, -, rfl⟩
        rfl
    · simp only [throw, throwThe, MonadExceptOf.throw, reduceCtorEq, false_iff]
      rintro ⟨-, -, h, -⟩
      contradiction

/-- A window's footprint is its range of the view inside it, moved to the store. -/
theorem within_window (v : View) (offset length : Nat) :
    (View.window offset length v).Within (v.origin + offset) (v.origin + offset + length) := by
  intro pos len p h
  simp only [place] at h
  cases hl : locate offset length v.size pos len with
  | error e => simp [hl, bind, Except.bind] at h
  | ok q =>
    simp only [hl, bind, Except.bind] at h
    obtain ⟨-, hfit, -, rfl⟩ := locate_eq_ok_iff.1 hl
    rw [place_eq_ok h]
    omega

/-- An adapter put around a view accepts only what the view accepts, and moves nothing further
    out. -/
theorem Within.wrap (h : v.Within lo hi) (a : Session.Adapter) : (a.wrap v).Within lo hi := by
  intro pos len p hp
  cases a with
  | window offset length =>
    simp only [Session.Adapter.wrap, place] at hp
    cases hl : locate offset length v.size pos len with
    | error e => simp [hl, bind, Except.bind] at hp
    | ok q =>
      simp only [hl, bind, Except.bind] at hp
      exact h q len p hp
  | reorder order => exact h pos len p hp

theorem Within.wrapAll (h : v.Within lo hi) (via : List Session.Adapter) :
    (Session.Adapter.wrapAll via v).Within lo hi := by
  induction via generalizing v with
  | nil => exact h
  | cons a as ih => exact ih (h.wrap a)

theorem Within.withBase (h : v.Within lo hi) {t : Store} (ht : t.size = v.base.size) :
    (v.withBase t).Within lo hi := by
  intro pos len p hp
  rw [place_withBase v ht] at hp
  exact h pos len p hp

/-- A range that a view reads lies in its footprint. -/
theorem Within.of_getBytes (h : v.Within lo hi) (hwf : v.base.WellFormed) {pos len : Nat}
    {bs : ByteArray} (hbs : v.getBytes pos len = .ok bs) :
    lo ≤ v.origin + pos ∧ v.origin + pos + len ≤ hi := by
  obtain ⟨p, hp, -, -, -⟩ := (getBytes_eq_ok_iff hwf).1 hbs
  rw [← place_eq_ok hp]
  exact h pos len p hp

/-- A write of bytes through a view changes only the bytes it writes. -/
theorem changesOnly_putBytes (hwf : v.base.WellFormed) {pos : Nat} {src : ByteArray} {v' : View}
    (hput : v.putBytes pos src = .ok v') :
    ∃ t, v' = v.withBase t ∧ v.base.ChangesOnly t (v.origin + pos) (v.origin + pos + src.size) := by
  obtain ⟨p, t, hp, ht, rfl⟩ := putBytes_eq_ok_iff.1 hput
  refine ⟨t, rfl, ?_⟩
  rw [← place_eq_ok hp]
  exact (Store.writes_of_putBytes hwf ht).changesOnly (Nat.le_refl p) (Nat.le_refl _)

/-- A write of a word through a view that succeeds is a write of its bytes that succeeds and
    leaves the same bytes. -/
theorem write_as_putBytes (hwf : v.base.WellFormed) {w : Width} {pos value : Nat} {v' : View}
    (hwrite : v.write w pos value = .ok v') :
    ∃ v₂, v.putBytes pos (v.byteOrder.encode w.bytes value).toByteArray = .ok v₂ ∧
      v' = v₂.withBase v'.base ∧ Store.Same v₂.base v'.base := by
  have hagree := write_agrees v hwf w pos value
  rw [hwrite] at hagree
  cases hput : v.putBytes pos (v.byteOrder.encode w.bytes value).toByteArray with
  | error e => rw [hput] at hagree; exact hagree.elim
  | ok v₂ =>
    rw [hput] at hagree
    obtain ⟨hv', hsame⟩ := hagree
    exact ⟨v₂, rfl, hv', hsame.right, hsame.left, hsame.shape.symm, fun x => (hsame.byte x).symm⟩

/-- A write of a word through a view changes only the bytes of the word. -/
theorem changesOnly_write (hwf : v.base.WellFormed) {w : Width} {pos value : Nat} {v' : View}
    (hwrite : v.write w pos value = .ok v') :
    ∃ t, v' = v.withBase t ∧ v.base.ChangesOnly t (v.origin + pos) (v.origin + pos + w.bytes) := by
  obtain ⟨v₂, hput, hv', hsame⟩ := write_as_putBytes hwf hwrite
  obtain ⟨t, rfl, hchange⟩ := changesOnly_putBytes hwf hput
  rw [base_withBase] at hsame
  rw [List.size_toByteArray, ByteOrder.length_encode] at hchange
  exact ⟨v'.base, hv'.trans (withBase_withBase v t v'.base), hchange.same hsame⟩

/-- A write of bytes through a view changes only its footprint. -/
theorem Within.putBytes (h : v.Within lo hi) (hwf : v.base.WellFormed) {pos : Nat}
    {src : ByteArray} {v' : View} (hput : v.putBytes pos src = .ok v') :
    ∃ t, v' = v.withBase t ∧ v.base.ChangesOnly t lo hi := by
  obtain ⟨p, t₀, hp, -, -⟩ := putBytes_eq_ok_iff.1 hput
  have hin := h pos src.size p hp
  rw [place_eq_ok hp] at hin
  obtain ⟨t, hv', hchange⟩ := changesOnly_putBytes hwf hput
  exact ⟨t, hv', hchange.mono hin.1 hin.2⟩

/-- A write of a word through a view changes only its footprint. -/
theorem Within.write (h : v.Within lo hi) (hwf : v.base.WellFormed) {w : Width}
    {pos value : Nat} {v' : View} (hwrite : v.write w pos value = .ok v') :
    ∃ t, v' = v.withBase t ∧ v.base.ChangesOnly t lo hi := by
  obtain ⟨v₂, hput, hv', hsame⟩ := write_as_putBytes hwf hwrite
  obtain ⟨t, rfl, hchange⟩ := h.putBytes hwf hput
  rw [base_withBase] at hsame
  exact ⟨v'.base, hv'.trans (withBase_withBase v t v'.base), hchange.same hsame⟩

end View

/-! ## Sorts inside a footprint -/

namespace Records

/-- A step of a sort of the view `v` that, from any state over a well-formed store of the shape of
    `v`'s own, ends over a change of that store in `[lo, hi)` only, with the same adapters,
    whether it ends with a value or with a fault. -/
def Confined (v : View) (lo hi : Nat) {α : Type} (m : SortM α) : Prop :=
  ∀ t n, t.WellFormed → Store.SameShape v.base t →
    ∃ t', (after (m.run ⟨v.withBase t, n⟩)).view = v.withBase t' ∧ t.ChangesOnly t' lo hi

section Confined

variable {v : View} {lo hi : Nat}

theorem confined_pure {α : Type} (a : α) : Confined v lo hi (pure a) :=
  fun t _ hwf _ => ⟨t, rfl, .refl hwf⟩

theorem confined_throw {α : Type} (f : Fault) : Confined v lo hi (throw f : SortM α) :=
  fun t _ hwf _ => ⟨t, rfl, .refl hwf⟩

theorem Confined.bind {α β : Type} {m : SortM α} {f : α → SortM β} (hm : Confined v lo hi m)
    (hf : ∀ a, Confined v lo hi (f a)) : Confined v lo hi (m >>= f) := by
  intro t n hwf hshape
  obtain ⟨t1, hview, hchange1⟩ := hm t n hwf hshape
  cases hrun : m.run ⟨v.withBase t, n⟩ with
  | ok a st =>
    rw [hrun] at hview
    simp only [after] at hview
    have hst : st = ⟨v.withBase t1, st.compares⟩ := by rw [← hview]
    have hbind : (m >>= f).run ⟨v.withBase t, n⟩ = (f a).run ⟨v.withBase t1, st.compares⟩ := by
      rw [run_bind, hrun, ← hst]
    obtain ⟨t2, hview2, hchange2⟩ :=
      hf a t1 st.compares hchange1.wellFormed (hshape.trans hchange1.shape)
    rw [hbind]
    exact ⟨t2, hview2, hchange1.trans hchange2⟩
  | error e st =>
    rw [hrun] at hview
    have hbind : (m >>= f).run ⟨v.withBase t, n⟩ = .error e st := by
      rw [run_bind, hrun]
    rw [hbind]
    exact ⟨t1, hview, hchange1⟩

theorem confined_ite {α : Type} {c : Prop} [Decidable c] {m₁ m₂ : SortM α}
    (h₁ : c → Confined v lo hi m₁) (h₂ : ¬c → Confined v lo hi m₂) :
    Confined v lo hi (if c then m₁ else m₂) := by
  by_cases hc : c
  · rw [if_pos hc]
    exact h₁ hc
  · rw [if_neg hc]
    exact h₂ hc

theorem confined_dite {α : Type} {c : Prop} [Decidable c] {m₁ : c → SortM α}
    {m₂ : ¬c → SortM α} (h₁ : ∀ hc, Confined v lo hi (m₁ hc)) (h₂ : ∀ hc, Confined v lo hi (m₂ hc)) :
    Confined v lo hi (if hc : c then m₁ hc else m₂ hc) := by
  by_cases hc : c
  · rw [dif_pos hc]
    exact h₁ hc
  · rw [dif_neg hc]
    exact h₂ hc

theorem confined_compareAt (cmp : Comparator) (a b : Nat) : Confined v lo hi (compareAt cmp a b) := by
  intro t n hwf _
  refine ⟨t, ?_, .refl hwf⟩
  simp only [EStateM.run, compareAt]
  split <;> rfl

theorem confined_inspect {α : Type} (f : View → Except Fault α) : Confined v lo hi (inspect f) := by
  intro t n hwf _
  refine ⟨t, ?_, .refl hwf⟩
  simp only [EStateM.run, inspect]
  split <;> rfl

/-- An exchange of two records that succeeds has read both of them. -/
theorem exchange_reads {w a b pivot r : Nat} {st st' : Sorting} (hne : a ≠ b)
    (hrun : (exchange w a b pivot).run st = .ok r st') :
    (∃ x, st.view.getBytes a w = .ok x) ∧ ∃ y, st.view.getBytes b w = .ok y := by
  simp only [exchange, ne_eq, hne, not_false_eq_true, if_true] at hrun
  cases hl : st.view.getBytes a w with
  | error e =>
    simp only [EStateM.run, bind, EStateM.bind, inspect, hl] at hrun
    cases hrun
  | ok left =>
  cases hr : st.view.getBytes b w with
  | error e =>
    simp only [EStateM.run, bind, EStateM.bind, inspect, hl, hr] at hrun
    cases hrun
  | ok right => exact ⟨⟨left, rfl⟩, right, rfl⟩

/-- An exchange through a view inside a footprint changes only the footprint: it reads both
    records before it writes either. -/
theorem confined_exchange (hv : v.Within lo hi) (w a b pivot : Nat) :
    Confined v lo hi (exchange w a b pivot) := by
  intro t n hwf hshape
  by_cases hab : a = b
  · subst hab
    rw [exchange_self]
    exact ⟨t, rfl, .refl hwf⟩
  rcases exchange_cases hwf hshape w a b pivot n hab with
    ⟨e, hrun, -⟩ | ⟨t', hrun, hwf', hshape', htrades⟩
  · rw [hrun]
    exact ⟨t, rfl, .refl hwf⟩
  · obtain ⟨⟨x, hx⟩, y, hy⟩ := exchange_reads hab hrun
    have hvt : (v.withBase t).Within lo hi := hv.withBase hshape.size
    have hwft : (v.withBase t).base.WellFormed := by rwa [View.base_withBase]
    have ha := hvt.of_getBytes hwft hx
    have hb := hvt.of_getBytes hwft hy
    rw [View.origin_withBase] at ha hb
    rw [hrun]
    exact ⟨t', rfl, htrades.changesOnly hwf' hshape' ha hb⟩

section Sorts

variable (hv : v.Within lo hi)
include hv

theorem confined_partitionFrom (cmp : Comparator) {width : Nat} (hw : 0 < width)
    (pivot lt eq gt : Nat) : Confined v lo hi (partitionFrom cmp width hw pivot lt eq gt) := by
  fun_induction partitionFrom cmp width hw pivot lt eq gt with
  | case1 pivot lt eq gt hscan ihLess ihGreater ihEqual =>
    refine Confined.bind (confined_compareAt cmp _ _) fun order => ?_
    cases order with
    | lt => exact Confined.bind (confined_exchange hv _ _ _ _) ihLess
    | gt => exact Confined.bind (confined_exchange hv _ _ _ _) ihGreater
    | eq => exact ihEqual
  | case2 => exact confined_pure _

theorem confined_sortRange (cmp : Comparator) {width : Nat} (hw : 0 < width)
    (frames turns start stop : Nat) :
    Confined v lo hi (sortRange cmp width hw frames turns start stop) := by
  fun_induction sortRange cmp width hw frames turns start stop with
  | case1 => exact confined_throw _
  | case2 => exact confined_throw _
  | case3 =>
    refine Confined.bind (confined_compareAt cmp _ _) fun _ =>
      confined_ite (fun _ => ?_) fun _ => confined_pure _
    exact Confined.bind (confined_exchange hv _ _ _ _) fun _ => confined_pure _
  | case4 => exact confined_pure _
  | case5 frames turns start stop hlarge ihBelow ihAbove ihAbove' ihBelow' =>
    refine Confined.bind (confined_partitionFrom hv cmp hw _ _ _ _) fun r => ?_
    dsimp only
    -- whichever side is nested, each is one of the recursive calls
    refine confined_ite (fun _ => ?_) fun _ => ?_
    · exact Confined.bind (ihBelow _) fun _ => ihAbove _
    · exact Confined.bind (ihAbove' _) fun _ => ihBelow' _

/-- A sort through a view inside a footprint, whatever its comparator answers, changes only the
    footprint, whether it succeeds or fails. -/
theorem confined_sortBy (cmp : Comparator) (recordSize start length turns : Nat) :
    Confined v lo hi (sortBy cmp recordSize start length turns) := by
  unfold sortBy
  refine confined_dite (fun _ => confined_throw _) fun _ =>
    confined_ite (fun _ => confined_pure _) fun _ => ?_
  exact Confined.bind (confined_inspect _) fun _ => confined_sortRange hv cmp _ _ _ _ _

end Sorts

end Confined

end Records

/-! ## Sessions through a footprint -/

namespace Session

variable {lo hi : Nat}

open Store in
/-- A sort request through a view inside a footprint changes only the footprint. -/
theorem SortRequest.changesOnly_run (r : SortRequest) {v : View} (hv : v.Within lo hi)
    (hwf : v.base.WellFormed) : v.base.ChangesOnly (r.run v).2 lo hi := by
  obtain ⟨t', hview, hchange⟩ :=
    Records.confined_sortBy hv r.comparator r.recordSize r.start (r.length.getD (v.size - r.start))
      (r.length.getD (v.size - r.start) / r.recordSize) v.base 0 hwf (SameShape.refl v.base)
  rw [View.withBase_base] at hview
  have hrun : (r.run v).2 = (Records.after ((Records.sortBy r.comparator r.recordSize r.start
      (r.length.getD (v.size - r.start)) (r.length.getD (v.size - r.start) / r.recordSize)).run
        ⟨v, 0⟩)).view.base := by
    unfold SortRequest.run
    dsimp only
    split <;> next _ _ _ hsort => simp only [hsort, Records.after]
  rw [hrun, hview, View.base_withBase]
  exact hchange

theorem close_wrapAll {v : View} (h : v.close = v) (via : List Adapter) :
    (Adapter.wrapAll via v).close = Adapter.wrapAll via v := by
  induction via generalizing v with
  | nil => exact h
  | cons a as ih =>
    apply ih
    cases a with
    | window offset length => rfl
    | reorder order => simp only [Adapter.wrap, View.close, h]

/-- A write through a window leaves what the write inside it leaves. -/
theorem afterWrite_window (s : Store) (o l : Nat) (r : Except Fault View) :
    afterWrite s (View.window o l <$> r) = afterWrite s r := by
  cases r <;> rfl

/-- A write that, when it succeeds, changes the store under the adapters `via` only in
    `[lo, hi)` changes at most that range of the session's store. -/
theorem changesOnly_afterWrite {s : Store} (hs : s.WellFormed) {via : List Adapter}
    {r : Except Fault View}
    (h : ∀ v', r = .ok v' → ∃ t, v' = (Adapter.wrapAll via (.store s)).withBase t ∧
      (Adapter.wrapAll via (.store s)).base.ChangesOnly t lo hi) :
    s.ChangesOnly (afterWrite s r).2 lo hi := by
  cases r with
  | error e => exact .refl hs
  | ok v' =>
    obtain ⟨t, rfl, hchange⟩ := h v' rfl
    simpa only [afterWrite, View.base_withBase, Adapter.base_wrapAll, View.base_store]
      using hchange

/-- Every operation of a session made through a view inside a footprint, a sort included,
    changes only the footprint, when closing the view closes nothing. -/
theorem changesOnly_run {s : Store} (hs : s.WellFormed) {via : List Adapter}
    (hv : (Adapter.wrapAll via (.store s)).Within lo hi)
    (hclose : (Adapter.wrapAll via (.store s)).close = Adapter.wrapAll via (.store s))
    (action : Action) : s.ChangesOnly (action.run s via).2 lo hi := by
  have hwf : (Adapter.wrapAll via (.store s)).base.WellFormed := by
    rw [Adapter.base_wrapAll]
    exact hs
  cases action
  case write w pos value => exact changesOnly_afterWrite hs fun _ hw => hv.write hwf hw
  case putBytes pos bytes => exact changesOnly_afterWrite hs fun _ hp => hv.putBytes hwf hp
  case close =>
    simp only [Action.run, hclose, Adapter.base_wrapAll]
    exact .refl hs
  case sort r =>
    simpa only [Action.run, Adapter.base_wrapAll, View.base_store] using r.changesOnly_run hv hwf
  -- every other operation only reads
  all_goals exact .refl hs

/-- A step of a session that succeeds leaves the rest of the session to run from the store the
    step left. -/
theorem runSteps_cons_eq_ok {s s' : Store} {step : Step} {rest : List (Except String Step)}
    {answers : List Answer} (h : runSteps s (.ok step :: rest) = .ok (answers, s')) :
    ∃ answers', runSteps (step.action.run s step.via).2 rest = .ok (answers', s') := by
  simp only [runSteps] at h
  generalize step.action.run s step.via = p at h ⊢
  obtain ⟨answer, s₁⟩ := p
  dsimp only at h
  cases hrest : runSteps s₁ rest with
  | error e =>
    rw [hrest] at h
    -- a failed rest fails the session, whatever the step answered
    split at h
    · split at h <;> cases h
    · cases h
  | ok r =>
    rw [hrest] at h
    have hstore : r.2 = s' := by
      split at h
      · split at h
        · cases h
        · simp only [bind, Except.bind, pure, Except.pure, Except.ok.injEq, Prod.mk.injEq] at h
          exact h.2
      · simp only [bind, Except.bind, pure, Except.pure, Except.ok.injEq, Prod.mk.injEq] at h
        exact h.2
    exact ⟨r.1, by rw [← hstore]⟩

/-- A session whose every step, from any well-formed store, changes only a footprint changes only
    the footprint. -/
theorem changesOnly_runSteps {steps : List Step}
    (hstep : ∀ step ∈ steps, ∀ s : Store, s.WellFormed →
      s.ChangesOnly (step.action.run s step.via).2 lo hi)
    {s s' : Store} {answers : List Answer} (hs : s.WellFormed)
    (hrun : runSteps s (steps.map .ok) = .ok (answers, s')) : s.ChangesOnly s' lo hi := by
  induction steps generalizing s answers with
  | nil =>
    simp only [List.map_nil, runSteps, Except.ok.injEq, Prod.mk.injEq] at hrun
    rw [← hrun.2]
    exact .refl hs
  | cons step rest ih =>
    have hfirst := hstep step List.mem_cons_self s hs
    obtain ⟨answers', hrest⟩ := runSteps_cons_eq_ok hrun
    exact hfirst.trans
      (ih (fun st hst => hstep st (List.mem_cons_of_mem _ hst)) hfirst.wellFormed hrest)

theorem Adapter.wrapAll_append (as bs : List Adapter) (v : View) :
    Adapter.wrapAll (as ++ bs) v = Adapter.wrapAll bs (Adapter.wrapAll as v) := by
  induction as generalizing v with
  | nil => rfl
  | cons a as ih => exact ih (a.wrap v)

/-- Where a view built over a store starts does not depend on the store. -/
theorem Adapter.origin_wrapAll_store (via : List Adapter) (s t : Store) :
    (Adapter.wrapAll via (.store t)).origin = (Adapter.wrapAll via (.store s)).origin := by
  have h := withBase_wrapAll via (.store s) t
  rw [View.withBase] at h
  rw [← h, View.origin_withBase]

/-- Every operation made through a window, or through adapters put around it, changes only the
    window's footprint: closing it closes nothing. -/
theorem changesOnly_run_window {s : Store} (hs : s.WellFormed) (pre : List Adapter) (o l : Nat)
    (rest : List Adapter) (action : Action) :
    s.ChangesOnly (action.run s (pre ++ .window o l :: rest)).2
      ((Adapter.wrapAll pre (.store s)).origin + o) ((Adapter.wrapAll pre (.store s)).origin + o + l) := by
  have hview : Adapter.wrapAll (pre ++ .window o l :: rest) (.store s) =
      Adapter.wrapAll rest (.window o l (Adapter.wrapAll pre (.store s))) :=
    Adapter.wrapAll_append pre (.window o l :: rest) (.store s)
  apply changesOnly_run hs
  · rw [hview]
    exact (View.within_window _ o l).wrapAll rest
  · rw [hview]
    exact close_wrapAll rfl rest

end Session

/-! ## Accesses through a window -/

namespace Access

/-- The range an access reads or writes: its position and its number of bytes. The size, the
    byte order, a flush and a close have none. -/
def span : Access → Option (Nat × Nat)
  | .read w _ pos => some (pos, w.bytes)
  | .write w pos _ => some (pos, w.bytes)
  | .getBytes pos len => some (pos, len)
  | .bytesAt pos len => some (pos, len)
  | .putBytes pos bytes => some (pos, bytes.size)
  | .compareBytes pos bytes => some (pos, bytes.size)
  | .equalsBytes pos bytes => some (pos, bytes.size)
  | .size | .byteOrder | .flush | .close => none

/-- The same access at the position `q`. -/
def moveTo : Access → Nat → Access
  | .read w signed _, q => .read w signed q
  | .write w _ value, q => .write w q value
  | .getBytes _ len, q => .getBytes q len
  | .bytesAt _ len, q => .bytesAt q len
  | .putBytes _ bytes, q => .putBytes q bytes
  | .compareBytes _ bytes, q => .compareBytes q bytes
  | .equalsBytes _ bytes, q => .equalsBytes q bytes
  | a, _ => a

open Session

/-- An access through a window is the access to the view inside it at the moved position, or
    the window's fault with nothing changed. -/
theorem run_window (a : Access) {pos len : Nat} (hspan : a.span = some (pos, len)) (s : Store)
    (via : List Adapter) (o l : Nat) :
    a.action.run s (via ++ [.window o l]) =
      match View.locate o l (Adapter.wrapAll via (.store s)).size pos len with
      | .ok q => (a.moveTo q).action.run s via
      | .error f => (.fault f, s) := by
  have hview : Adapter.wrapAll (via ++ [.window o l]) (.store s) =
      .window o l (Adapter.wrapAll via (.store s)) :=
    Adapter.wrapAll_append via [.window o l] (.store s)
  cases a with
  | read w signed p =>
    simp only [span, Option.some.injEq, Prod.mk.injEq] at hspan
    obtain ⟨rfl, rfl⟩ := hspan
    simp only [action, moveTo, Action.run, hview, View.read]
    cases View.locate o l (Adapter.wrapAll via (.store s)).size p w.bytes <;> rfl
  | write w p value =>
    simp only [span, Option.some.injEq, Prod.mk.injEq] at hspan
    obtain ⟨rfl, rfl⟩ := hspan
    simp only [action, moveTo, Action.run, hview, View.write]
    cases View.locate o l (Adapter.wrapAll via (.store s)).size p w.bytes with
    | error f => rfl
    | ok q => exact Session.afterWrite_window s o l _
  | getBytes p n =>
    simp only [span, Option.some.injEq, Prod.mk.injEq] at hspan
    obtain ⟨rfl, rfl⟩ := hspan
    simp only [action, moveTo, Action.run, hview, View.getBytes]
    cases View.locate o l (Adapter.wrapAll via (.store s)).size p n <;> rfl
  | bytesAt p n =>
    simp only [span, Option.some.injEq, Prod.mk.injEq] at hspan
    obtain ⟨rfl, rfl⟩ := hspan
    simp only [action, moveTo, Action.run, hview, View.getBytes]
    cases View.locate o l (Adapter.wrapAll via (.store s)).size p n <;> rfl
  | putBytes p bytes =>
    simp only [span, Option.some.injEq, Prod.mk.injEq] at hspan
    obtain ⟨rfl, rfl⟩ := hspan
    simp only [action, moveTo, Action.run, hview, View.putBytes]
    cases View.locate o l (Adapter.wrapAll via (.store s)).size p bytes.size with
    | error f => rfl
    | ok q => exact Session.afterWrite_window s o l _
  | compareBytes p bytes =>
    simp only [span, Option.some.injEq, Prod.mk.injEq] at hspan
    obtain ⟨rfl, rfl⟩ := hspan
    simp only [action, moveTo, Action.run, hview, View.compareBytes, View.getBytes]
    cases View.locate o l (Adapter.wrapAll via (.store s)).size p bytes.size <;> rfl
  | equalsBytes p bytes =>
    simp only [span, Option.some.injEq, Prod.mk.injEq] at hspan
    obtain ⟨rfl, rfl⟩ := hspan
    simp only [action, moveTo, Action.run, hview, View.equalsBytes, View.compareBytes,
      View.getBytes]
    cases View.locate o l (Adapter.wrapAll via (.store s)).size p bytes.size <;> rfl
  | size => cases hspan
  | byteOrder => cases hspan
  | flush => cases hspan
  | close => cases hspan

theorem span_moveTo {a : Access} {pos len : Nat} (h : a.span = some (pos, len)) (q : Nat) :
    (a.moveTo q).span = some (q, len) := by
  cases a <;> simp_all [span, moveTo]

/-- An access changes at most the bytes it reaches. -/
theorem changesOnly_run (a : Access) {pos len : Nat} (hspan : a.span = some (pos, len)) {s : Store}
    (hs : s.WellFormed) (via : List Adapter) :
    s.ChangesOnly (a.action.run s via).2 ((Adapter.wrapAll via (.store s)).origin + pos)
      ((Adapter.wrapAll via (.store s)).origin + pos + len) := by
  have hwf : (Adapter.wrapAll via (.store s)).base.WellFormed := by
    rw [Adapter.base_wrapAll]
    exact hs
  cases a with
  | write w p value =>
    simp only [span, Option.some.injEq, Prod.mk.injEq] at hspan
    obtain ⟨rfl, rfl⟩ := hspan
    exact changesOnly_afterWrite hs fun _ hw => View.changesOnly_write hwf hw
  | putBytes p bytes =>
    simp only [span, Option.some.injEq, Prod.mk.injEq] at hspan
    obtain ⟨rfl, rfl⟩ := hspan
    exact changesOnly_afterWrite hs fun _ hp => View.changesOnly_putBytes hwf hp
  | size => cases hspan
  | byteOrder => cases hspan
  | flush => cases hspan
  | close => cases hspan
  -- the rest only read
  | read | getBytes | bytesAt | compareBytes | equalsBytes => exact .refl hs

end Access

/-! ## The contract of a window -/

open Session in
/-- The contract of the window of `length` bytes from `offset` on, put around the view built by
    the adapters `pre` over the store `s`. Its footprint starts at `offset` past where that view
    starts in the store. -/
structure WindowContract (s : Store) (pre : List Adapter) (offset length : Nat) : Prop where
  /-- Every session of operations through the window, or through adapters put around it, sorts
      included, changes only the footprint. -/
  sessions : ∀ (steps : List Step) (answers : List Answer) (s' : Store),
    (∀ step ∈ steps, ∃ rest, step.via = pre ++ .window offset length :: rest) →
    runSteps s (steps.map .ok) = .ok (answers, s') →
    s.ChangesOnly s' ((Adapter.wrapAll pre (.store s)).origin + offset)
      ((Adapter.wrapAll pre (.store s)).origin + offset + length)
  /-- An access that fits the window as a 64-bit range, and whose moved position is a 64-bit
      position, is the access to the view inside it at the moved position, and changes at most
      the bytes it reaches there. -/
  accepted : ∀ (a : Access) (pos len : Nat), a.span = some (pos, len) →
    pos + len < positionLimit → pos + len ≤ length → offset + pos < positionLimit →
    a.action.run s (pre ++ [.window offset length]) = (a.moveTo (offset + pos)).action.run s pre ∧
      s.ChangesOnly (a.action.run s (pre ++ [.window offset length])).2
        ((Adapter.wrapAll pre (.store s)).origin + offset + pos)
        ((Adapter.wrapAll pre (.store s)).origin + offset + pos + len)
  /-- Any other access is refused with a fault and changes nothing. -/
  refused : ∀ (a : Access) (pos len : Nat), a.span = some (pos, len) →
    ¬(pos + len < positionLimit ∧ pos + len ≤ length ∧ offset + pos < positionLimit) →
    ∃ f, a.action.run s (pre ++ [.window offset length]) = (.fault f, s)
  /-- Closing the window, or adapters put around it, closes nothing. -/
  close : ∀ rest, Action.close.run s (pre ++ .window offset length :: rest) = (.done, s)

open Session in
/-- A window confines and moves every access: whatever is done through it, or through windows and
    adapters put around it, sorts included, changes only its footprint; an access it accepts is
    the access to the view inside it at the moved position, any other is its fault with nothing
    changed; and closing it leaves the view inside it open. Nothing is checked when the window is
    made, so this holds of every offset and length, also past the end of the view inside it. -/
theorem window_confines (s : Store) (hs : s.WellFormed) (pre : List Adapter) (offset length : Nat) :
    WindowContract s pre offset length where
  sessions steps answers s' hvia hrun := by
    -- every step, from whatever store the steps before it left, changes only the footprint
    refine changesOnly_runSteps (fun step hstep t ht => ?_) hs hrun
    obtain ⟨rest, hrest⟩ := hvia step hstep
    rw [hrest, ← Adapter.origin_wrapAll_store pre s t]
    exact changesOnly_run_window ht pre offset length rest step.action
  accepted a pos len hspan hlimit hfit hmove := by
    have hlocate : View.locate offset length (Adapter.wrapAll pre (.store s)).size pos len =
        .ok (offset + pos) :=
      View.locate_eq_ok_iff.2 ⟨hlimit, hfit, hmove, rfl⟩
    have hrun := Access.run_window a hspan s pre offset length
    rw [hlocate] at hrun
    refine ⟨hrun, ?_⟩
    rw [hrun, Nat.add_assoc _ offset pos]
    exact Access.changesOnly_run _ (Access.span_moveTo hspan _) hs pre
  refused a pos len hspan hfit := by
    cases hlocate : View.locate offset length (Adapter.wrapAll pre (.store s)).size pos len with
    | ok q =>
      obtain ⟨hlimit, hlen, hmove, -⟩ := View.locate_eq_ok_iff.1 hlocate
      exact absurd ⟨hlimit, hlen, hmove⟩ hfit
    | error f =>
      refine ⟨f, ?_⟩
      rw [Access.run_window a hspan s pre offset length, hlocate]
  close rest := by
    have hview : Adapter.wrapAll (pre ++ .window offset length :: rest) (.store s) =
        Adapter.wrapAll rest (.window offset length (Adapter.wrapAll pre (.store s))) :=
      Adapter.wrapAll_append pre _ (.store s)
    -- a window closes nothing, so nothing around it does
    have hclose : (View.window offset length (Adapter.wrapAll pre (.store s))).close =
        .window offset length (Adapter.wrapAll pre (.store s)) := rfl
    simp only [Action.run, hview, close_wrapAll hclose rest, Adapter.base_wrapAll, View.base]

/-- The contract of a window of two bytes from the second byte on, inside a window of four bytes
    into a flat store of six. -/
theorem window_confines_nested :
    (Store.flat (Flat.ofBytes ⟨#[1, 2, 3, 4, 5, 6]⟩ .little)).WellFormed ∧
      WindowContract (.flat (Flat.ofBytes ⟨#[1, 2, 3, 4, 5, 6]⟩ .little)) [.window 1 4] 1 2 :=
  ⟨trivial, window_confines (.flat (Flat.ofBytes ⟨#[1, 2, 3, 4, 5, 6]⟩ .little)) trivial
    [.window 1 4] 1 2⟩

end ByteView
