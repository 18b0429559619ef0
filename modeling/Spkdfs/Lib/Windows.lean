import Mathlib.Algebra.Ring.Nat
import Mathlib.Data.List.Basic

/-!
# Windows over blocks

A sequence of positions is cut into blocks of `bs` positions, and a window goes from `offset`
up to `last`.  `share` is the number of positions of the window in a block.

The shares of the blocks that the window reaches add up to the window (`sum_share`), and a
list that starts at `offset` is cut into the pieces of these blocks (`piece`).

`overwriteAt` writes a list over a longer one.  Where the list goes on to the end of a block,
the block is what was in front of the list, and its piece (`chunk_overwriteAt`).
-/

namespace Windows

variable {bs offset last i : ℕ}

/-- The number of positions of the window in the block `i`. -/
def share (bs offset last i : ℕ) : ℕ := min last ((i + 1) * bs) - max offset (i * bs)

/-- The block `i` and the window have a position in common. -/
def Meets (bs offset last i : ℕ) : Prop :=
  ∃ p, (i * bs ≤ p ∧ p < (i + 1) * bs) ∧ offset ≤ p ∧ p < last

theorem meets_iff : Meets bs offset last i ↔ 0 < share bs offset last i := by
  rw [share]
  constructor
  · rintro ⟨p, ⟨hp, hp'⟩, hoffset, hlast⟩
    omega
  · intro h
    exact ⟨max offset (i * bs), ⟨by omega, by omega⟩, by omega, by omega⟩

/-- The shares of the blocks from the first one on. -/
theorem sum_share {first : ℕ} (hfirst : first * bs ≤ offset) (n : ℕ) :
    ((List.range' first n).map (share bs offset last)).sum =
      min last ((first + n) * bs) - offset := by
  induction n with
  | zero =>
    rw [List.range'_zero, List.map_nil, List.sum_nil, Nat.add_zero]
    omega
  | succ n ih =>
    have hmul : (first + n + 1) * bs = (first + n) * bs + bs := Nat.succ_mul _ _
    rw [List.range'_1_concat, List.map_append, List.sum_append, ih, List.map_singleton,
      List.sum_singleton, share, ← Nat.add_assoc, hmul]
    omega

/-- A block is behind the start of the window, and not behind its end. -/
theorem div_le_iff (hbs : 0 < bs) : offset / bs ≤ i ↔ offset < (i + 1) * bs := by
  rw [← Nat.lt_succ_iff, Nat.div_lt_iff_lt_mul hbs]

theorem le_div_iff (hbs : 0 < bs) : i ≤ last / bs ↔ i * bs ≤ last := Nat.le_div_iff_mul_le hbs

/-! ## The pieces of a list -/

variable {α : Type*} {s : List α}

/-- The part of a list that starts at `offset` in the block `i`. -/
def piece (bs offset : ℕ) (s : List α) (i : ℕ) : List α :=
  (s.drop (i * bs - offset)).take (share bs offset (offset + s.length) i)

theorem length_piece : (piece bs offset s i).length = share bs offset (offset + s.length) i := by
  rw [piece, List.length_take, List.length_drop, share]
  omega

/-- Behind its piece, the list goes on in the next block. -/
theorem drop_share (hi : offset < (i + 1) * bs) :
    (s.drop (i * bs - offset)).drop (share bs offset (offset + s.length) i) =
      s.drop ((i + 1) * bs - offset) := by
  rw [List.drop_drop, share]
  rcases Nat.lt_or_ge (offset + s.length) ((i + 1) * bs) with hlast | hlast
  · rw [List.drop_of_length_le (by omega), List.drop_of_length_le (by omega)]
  · congr 1
    have hmul : (i + 1) * bs = i * bs + bs := Nat.succ_mul _ _
    omega

/-- The pieces of the blocks from the first one on, and what is behind them. -/
theorem flatten_pieces {first : ℕ} (hfirst : offset < (first + 1) * bs) (n : ℕ) :
    ((List.range' first n).map (piece bs offset s)).flatten ++ s.drop ((first + n) * bs - offset) =
      s.drop (first * bs - offset) := by
  induction n generalizing first with
  | zero => rfl
  | succ n ih =>
    have hnext : offset < (first + 1 + 1) * bs :=
      Nat.lt_of_lt_of_le hfirst (Nat.mul_le_mul_right bs (Nat.le_succ _))
    rw [List.range'_succ, List.map_cons, List.flatten_cons, List.append_assoc,
      show first + (n + 1) = first + 1 + n by omega, ih hnext, ← drop_share hfirst, piece,
      List.take_append_drop]

/-! ## Writing over a list -/

variable {flat : List α}

/-- The elements of the block `i`. -/
def chunk (bs : ℕ) (flat : List α) (i : ℕ) : List α := (flat.drop (i * bs)).take bs

/-- A list with `s` written over it from `offset` on. -/
def overwriteAt (flat : List α) (offset : ℕ) (s : List α) : List α :=
  flat.take offset ++ s ++ flat.drop (offset + s.length)

theorem getElem?_chunk (bs : ℕ) (flat : List α) (i j : ℕ) :
    (chunk bs flat i)[j]? = if j < bs then flat[i * bs + j]? else none := by
  rw [chunk, List.getElem?_take, List.getElem?_drop]

theorem length_chunk (bs : ℕ) (flat : List α) (i : ℕ) :
    (chunk bs flat i).length = min bs (flat.length - i * bs) := by
  rw [chunk, List.length_take, List.length_drop]

theorem chunk_eq_nil (h : flat.length ≤ i * bs) : chunk bs flat i = [] := by
  refine List.length_eq_zero_iff.mp ?_
  rw [length_chunk]
  omega

theorem length_overwriteAt (h : offset ≤ flat.length) (s : List α) :
    (overwriteAt flat offset s).length = max flat.length (offset + s.length) := by
  simp only [overwriteAt, List.length_append, List.length_take, List.length_drop]
  omega

theorem getElem?_overwriteAt (h : offset ≤ flat.length) (s : List α) (p : ℕ) :
    (overwriteAt flat offset s)[p]? =
      if offset ≤ p ∧ p < offset + s.length then s[p - offset]? else flat[p]? := by
  have htake : (flat.take offset).length = offset := List.length_take_of_le h
  have hfront : (flat.take offset ++ s).length = offset + s.length := by
    rw [List.length_append, htake]
  rw [overwriteAt, List.getElem?_append, List.getElem?_append, hfront, htake, List.getElem?_take,
    List.getElem?_drop]
  rcases Nat.lt_or_ge p offset with hlt | hge
  · rw [if_pos (by omega), if_pos hlt, if_pos hlt, if_neg (by omega)]
  · rcases Nat.lt_or_ge p (offset + s.length) with hin | hbehind
    · rw [if_pos hin, if_neg (by omega), if_pos ⟨hge, hin⟩]
    · rw [if_neg (by omega), if_neg (by omega), Nat.add_sub_of_le hbehind]

/-- A block that the list does not reach stays as it is. -/
theorem chunk_overwriteAt_of_share (h : offset ≤ flat.length)
    (hshare : share bs offset (offset + s.length) i = 0) :
    chunk bs (overwriteAt flat offset s) i = chunk bs flat i := by
  have hmeets : ¬ Meets bs offset (offset + s.length) i := by
    rw [meets_iff, hshare]
    exact Nat.lt_irrefl 0
  refine List.ext_getElem? fun j => ?_
  rw [getElem?_chunk, getElem?_chunk]
  by_cases hj : j < bs
  · have hmul : (i + 1) * bs = i * bs + bs := Nat.succ_mul _ _
    rw [if_pos hj, if_pos hj, getElem?_overwriteAt h, if_neg]
    exact fun hin => hmeets ⟨i * bs + j, ⟨by omega, by omega⟩, hin⟩
  · rw [if_neg hj, if_neg hj]

/-- A block with nothing behind the list: what was in front of it, and its piece. -/
theorem chunk_overwriteAt (h : offset ≤ flat.length) (hfirst : offset ≤ (i + 1) * bs)
    (hlast : i * bs ≤ offset + s.length)
    (hend : flat.length ≤ offset + s.length ∨ (i + 1) * bs ≤ offset + s.length) :
    chunk bs (overwriteAt flat offset s) i =
      (chunk bs flat i).take (offset - i * bs) ++ piece bs offset s i := by
  have hmul : (i + 1) * bs = i * bs + bs := Nat.succ_mul _ _
  have hfront : ((chunk bs flat i).take (offset - i * bs)).length = offset - i * bs := by
    rw [List.length_take, length_chunk]
    omega
  refine List.ext_getElem? fun j => ?_
  rw [getElem?_chunk, List.getElem?_append, hfront, List.getElem?_take, getElem?_chunk, piece,
    List.getElem?_take, List.getElem?_drop, getElem?_overwriteAt h, share]
  by_cases hj : j < bs
  · rw [if_pos hj, if_pos hj]
    rcases Nat.lt_or_ge (i * bs + j) offset with hlt | hge
    · rw [if_neg (by omega), if_pos (by omega), if_pos (by omega)]
    · rw [if_neg (show ¬ j < offset - i * bs by omega)]
      rcases Nat.lt_or_ge (i * bs + j) (offset + s.length) with hin | hbehind
      · rw [if_pos ⟨hge, hin⟩, if_pos (by omega)]
        congr 1
        omega
      · rw [if_neg (by omega), if_neg (by omega)]
        exact List.getElem?_eq_none_iff.mpr (by omega)
  · rw [if_neg hj, if_neg (by omega), if_neg (by omega)]

/-- A list that is put behind the end is appended. -/
theorem overwriteAt_length (flat s : List α) : overwriteAt flat flat.length s = flat ++ s := by
  rw [overwriteAt, List.take_length, List.drop_of_length_le (Nat.le_add_right _ _), List.append_nil]

theorem chunk_append (hfirst : flat.length ≤ (i + 1) * bs)
    (hlast : i * bs ≤ flat.length + s.length) :
    chunk bs (flat ++ s) i = chunk bs flat i ++ piece bs flat.length s i := by
  have hall : (chunk bs flat i).length ≤ flat.length - i * bs := by
    rw [length_chunk]
    omega
  rw [← overwriteAt_length, chunk_overwriteAt le_rfl hfirst hlast (Or.inl (Nat.le_add_right _ _)),
    List.take_of_length_le hall]

/-- A block and the bytes that come behind it. -/
theorem chunk_append_take (bs : ℕ) (flat : List α) (i n : ℕ) :
    chunk bs flat i ++ (flat.drop ((i + 1) * bs)).take n = (flat.drop (i * bs)).take (bs + n) := by
  rw [chunk, Nat.succ_mul, ← List.drop_drop, ← List.take_add]

end Windows
