import Mathlib
import ByteView.Proofs.Segmented

/-!
# Walking a range segment by segment

A range of bytes of a segmented store is read and written one piece at a time (`chunks`): a
piece is the part of the range that lies in one segment, given as the segment's index, the place
where the piece starts within it and its number of bytes. The walk starts at the range's first
byte. Each piece runs to the end of its segment or to the end of the range, whichever comes first,
and the next piece starts where it stopped.

`Walks` says what the pieces of a walk are: each holds bytes and lies inside one segment. Each
starts in the store where the pieces before it end, which is `pos` plus the bytes they hold
(`Chunk.done`, also where its bytes go in the buffer of the access). Each piece but the last ends
at the end of its segment, and together the pieces hold the whole range.

* `chunks_walks`: the pieces of every range form such a walk, for every segment size, position
  and length, with no piece at all for an empty range;
* `flatMap_chunks_slices`: in a well-formed store, the bytes of the pieces, one after the other,
  are the bytes of the range;
* `chunks_walk_range`: both together.
-/

namespace ByteView

/-- The number of bytes of the pieces before piece `k` of `cs`: how far into the range, and into
    the buffer of the access, piece `k` starts. -/
def Chunk.done (cs : List Chunk) (k : Nat) : Nat := ((cs.take k).map Chunk.length).sum

@[simp] theorem Chunk.done_zero (cs : List Chunk) : Chunk.done cs 0 = 0 := by
  simp [Chunk.done]

@[simp] theorem Chunk.done_cons_succ (c : Chunk) (cs : List Chunk) (k : Nat) :
    Chunk.done (c :: cs) (k + 1) = c.length + Chunk.done cs k := by
  simp [Chunk.done]

/-- A piece ends in the buffer of the access no later than all the pieces together. -/
theorem Chunk.done_add_length_le (cs : List Chunk) {k : Nat} (hk : k < cs.length) :
    Chunk.done cs k + cs[k].length ≤ (cs.map Chunk.length).sum := by
  induction cs generalizing k with
  | nil => simp at hk
  | cons c cs ih =>
    cases k with
    | zero => simp
    | succ k =>
      have := ih (k := k) (by simpa using hk)
      simp only [Chunk.done_cons_succ, List.getElem_cons_succ, List.map_cons, List.sum_cons]
      omega

/-- The pieces `cs` walk the `len` bytes at `pos` in segments of `Nat.pow 2 shift` bytes. -/
structure Walks (shift pos len : Nat) (cs : List Chunk) : Prop where
  /-- Every piece holds bytes. -/
  length_pos : ∀ c ∈ cs, 0 < c.length
  /-- Every piece lies inside its segment. -/
  inside : ∀ c ∈ cs, c.start + c.length ≤ Nat.pow 2 shift
  /-- Piece `k` starts in the store where the pieces before it end. -/
  offset : ∀ k (hk : k < cs.length), cs[k].offset shift = pos + Chunk.done cs k
  /-- Every piece but the last ends at the end of its segment. -/
  boundary : ∀ k (hk : k + 1 < cs.length), cs[k].start + cs[k].length = Nat.pow 2 shift
  /-- The pieces hold the whole range. -/
  total : (cs.map Chunk.length).sum = len

namespace Walks

variable {shift pos len : Nat}

theorem nil (shift pos : Nat) : Walks shift pos 0 [] where
  length_pos := by simp
  inside := by simp
  offset := by simp
  boundary := by simp
  total := rfl

/-- A piece at the start of the range, followed by a walk of the rest of it, walks the range,
    provided the piece ends at the end of its segment when more pieces follow it. -/
theorem cons {c : Chunk} {rest : List Chunk} (hoffset : c.offset shift = pos)
    (hpos : 0 < c.length) (hinside : c.start + c.length ≤ Nat.pow 2 shift)
    (hend : rest ≠ [] → c.start + c.length = Nat.pow 2 shift) (hle : c.length ≤ len)
    (h : Walks shift (pos + c.length) (len - c.length) rest) : Walks shift pos len (c :: rest) where
  length_pos := by
    intro d hd
    rcases List.mem_cons.1 hd with rfl | hd
    · exact hpos
    · exact h.length_pos d hd
  inside := by
    intro d hd
    rcases List.mem_cons.1 hd with rfl | hd
    · exact hinside
    · exact h.inside d hd
  offset := by
    intro k hk
    cases k with
    | zero => simpa using hoffset
    | succ k =>
      have := h.offset k (by simpa using hk)
      simp only [List.getElem_cons_succ, Chunk.done_cons_succ]
      omega
  boundary := by
    intro k hk
    cases k with
    | zero => exact hend (List.ne_nil_of_length_pos (by simp at hk; omega))
    | succ k => exact h.boundary k (by simpa using hk)
  total := by
    have := h.total
    simp only [List.map_cons, List.sum_cons]
    omega

/-- A walk has pieces exactly when the range has bytes. -/
theorem eq_nil_iff {cs : List Chunk} (h : Walks shift pos len cs) : cs = [] ↔ len = 0 := by
  constructor
  · rintro rfl
    exact h.total.symm
  · intro hlen
    cases cs with
    | nil => rfl
    | cons c cs =>
      have hc := h.length_pos c List.mem_cons_self
      have htotal := h.total
      simp only [List.map_cons, List.sum_cons] at htotal
      omega

end Walks

/-- The pieces of every range walk it: for every segment size, position and length. -/
theorem chunks_walks (shift pos len : Nat) : Walks shift pos len (chunks shift pos len) := by
  fun_induction chunks shift pos len with
  | case1 pos => exact Walks.nil shift pos
  | case2 pos rem hrem inSegment length ih =>
    have hmod : inSegment < Nat.pow 2 shift := Nat.mod_lt _ (Nat.two_pow_pos shift)
    refine Walks.cons (Nat.div_add_mod' pos _) (by simp only [length]; omega)
      (by simp only [length]; omega) (fun hrest => ?_) (Nat.min_le_right _ _) ih
    -- more pieces follow only when the range goes on past the end of this segment
    have hmore : rem - length ≠ 0 := fun h0 => hrest (by rw [h0, chunks_zero])
    simp only [length] at hmore ⊢
    omega

namespace Segmented

variable {s : Segmented}

/-- In a well-formed store, the bytes of the pieces of a range inside it, one after the other,
    are the bytes of the range. -/
theorem flatMap_chunks_slices (hs : s.WellFormed) {pos len : Nat} (h : pos + len ≤ s.size) :
    (chunks s.shift pos len).flatMap
        (fun c => ((s.segment c.segment).slice c.start c.length).data.toList) =
      (List.range' pos len).map s.byte := by
  have hgather := gather_toList hs h
  rw [gather, Bytes.foldl_append_toList] at hgather
  simpa using hgather

/-- The bytes of a range inside a well-formed store are its part of the store's contents. -/
theorem range_eq_contents (hs : s.WellFormed) {pos len : Nat} (h : pos + len ≤ s.size) :
    (List.range' pos len).map s.byte = (s.contents.data.toList.drop pos).take len := by
  rw [contents_toList hs, ← List.map_drop, ← List.map_take, List.drop_range',
    List.take_range'_of_length_ge (by omega)]
  simp

end Segmented

/-- The pieces of a range walk it, segment by segment, for every segment size, position and
    length: each holds bytes, lies inside its segment and starts where the ones before it end,
    each but the last ends at the end of its segment, and together they hold the range, so an
    empty range has none. In a well-formed segmented store, the bytes of the pieces of a range
    inside it, one after the other, are the store's contents over the range. -/
theorem chunks_walk_range (shift pos len : Nat) :
    Walks shift pos len (chunks shift pos len) ∧ (chunks shift pos len = [] ↔ len = 0) ∧
      ∀ s : Segmented, s.WellFormed → s.shift = shift → pos + len ≤ s.size →
        (chunks shift pos len).flatMap
            (fun c => ((s.segment c.segment).slice c.start c.length).data.toList) =
          (s.contents.data.toList.drop pos).take len := by
  have hwalk := chunks_walks shift pos len
  refine ⟨hwalk, hwalk.eq_nil_iff, fun s hs hshift h => ?_⟩
  subst hshift
  rw [Segmented.flatMap_chunks_slices hs h, Segmented.range_eq_contents hs h]

/-- Three bytes from position `3` of the bytes `1, …, 6` in segments of four bytes: a piece at
    the end of the first segment and one at the start of the second. -/
theorem chunks_walk_range_two_segments :
    let s : Segmented :=
      { segments := #[.whole ⟨#[1, 2, 3, 4]⟩, .whole ⟨#[5, 6]⟩], shift := 2, size := 6 }
    s.WellFormed ∧ s.shift = 2 ∧ 3 + 3 ≤ s.size ∧
      Walks 2 3 3 (chunks 2 3 3) ∧ (chunks 2 3 3 = [] ↔ 3 = 0) ∧
      (chunks 2 3 3).flatMap
          (fun c => ((s.segment c.segment).slice c.start c.length).data.toList) =
        (s.contents.data.toList.drop 3).take 3 := by
  intro s
  have hbuilt : Segmented.ofBytes Platform.host ⟨#[1, 2, 3, 4, 5, 6]⟩ 2 .big = .ok s := by
    rfl
  have hwf : s.WellFormed := (Segmented.ofBytes_spec hbuilt).1
  obtain ⟨hwalk, hnil, hbytes⟩ := chunks_walk_range 2 3 3
  exact ⟨hwf, rfl, by decide, hwalk, hnil, hbytes s hwf rfl (by decide)⟩

end ByteView
