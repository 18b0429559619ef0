import Mathlib.Data.List.Basic

/-!
# Reading into a buffer

A loop that reads a file into one buffer of `n` elements, again and again.  A read
overwrites the front of the buffer, so the last buffer keeps what the read before
it has left behind the end of the data.

`bufferReads` is the list of the buffers.  They have the length of the first
buffer, and written one behind the other they start with the data
(`exists_flatten_bufferReads`).  In a list of blocks of one length, the blocks of some indices
are a window of the whole (`flatten_drop`, `flatten_take`).
-/

namespace Chunks

variable {α : Type*}

/-- A read of some data into a buffer. -/
def overwrite (buffer data : List α) : List α := data ++ buffer.drop data.length

/-- The buffers of a loop that reads `n` elements at a time.  The loop ends with the
first read that has nothing left to read. -/
def bufferReads (n : ℕ) (buffer data : List α) : List (List α) :=
  if _hstop : n = 0 ∨ data = [] then []
  else
    overwrite buffer (data.take n) ::
      bufferReads n (overwrite buffer (data.take n)) (data.drop n)
  termination_by data.length
  decreasing_by
    obtain ⟨hn, hdata⟩ := not_or.mp _hstop
    have hpos := List.length_pos_iff.mpr hdata
    rw [List.length_drop]
    omega

theorem length_overwrite {buffer data : List α} (h : data.length ≤ buffer.length) :
    (overwrite buffer data).length = buffer.length := by
  rw [overwrite, List.length_append, List.length_drop]
  omega

/-- A full read leaves nothing of the buffer. -/
theorem overwrite_of_length_eq {buffer data : List α} (h : data.length = buffer.length) :
    overwrite buffer data = data := by
  rw [overwrite, h, List.drop_length, List.append_nil]

theorem bufferReads_nil (n : ℕ) (buffer : List α) : bufferReads n buffer [] = [] := by
  rw [bufferReads, dif_pos (Or.inr rfl)]

theorem bufferReads_of_ne_nil {n : ℕ} (hn : 0 < n) (buffer : List α) {data : List α}
    (hdata : data ≠ []) :
    bufferReads n buffer data =
      overwrite buffer (data.take n) ::
        bufferReads n (overwrite buffer (data.take n)) (data.drop n) := by
  rw [bufferReads, dif_neg]
  rintro (rfl | rfl)
  · exact absurd hn (Nat.lt_irrefl 0)
  · exact hdata rfl

/-- A read takes at least one element. -/
theorem length_bufferReads_le (n : ℕ) (buffer data : List α) :
    (bufferReads n buffer data).length ≤ data.length := by
  fun_induction bufferReads n buffer data with
  | case1 => exact Nat.zero_le _
  | case2 buffer data hmore ih =>
    obtain ⟨hn, hdata⟩ := not_or.mp hmore
    have hpos := List.length_pos_iff.mpr hdata
    rw [List.length_drop] at ih
    rw [List.length_cons]
    omega

theorem length_of_mem_bufferReads {n : ℕ} {buffer data : List α} (hbuffer : buffer.length = n)
    {b : List α} (hb : b ∈ bufferReads n buffer data) : b.length = n := by
  induction hlen : data.length using Nat.strongRecOn generalizing buffer data with
  | _ len ih =>
    by_cases hstop : n = 0 ∨ data = []
    · rw [bufferReads, dif_pos hstop] at hb
      cases hb
    · obtain ⟨hn, hdata⟩ := not_or.mp hstop
      have hpos := List.length_pos_iff.mpr hdata
      have hfirst : (overwrite buffer (data.take n)).length = n := by
        rw [length_overwrite (by rw [List.length_take]; omega), hbuffer]
      rw [bufferReads_of_ne_nil (by omega) _ hdata] at hb
      rcases List.mem_cons.mp hb with rfl | hb
      · exact hfirst
      · exact ih (data.drop n).length (by rw [List.length_drop]; omega) hfirst hb rfl

/-- Behind each other, the buffers start with the data. -/
theorem exists_flatten_bufferReads {n : ℕ} (hn : 0 < n) {buffer : List α}
    (hbuffer : buffer.length = n) (data : List α) :
    ∃ rest, (bufferReads n buffer data).flatten = data ++ rest := by
  induction hlen : data.length using Nat.strongRecOn generalizing buffer data with
  | _ len ih =>
    by_cases hdata : data = []
    · rw [hdata, bufferReads_nil]
      exact ⟨[], rfl⟩
    · have hpos := List.length_pos_iff.mpr hdata
      have hfirst : (overwrite buffer (data.take n)).length = n := by
        rw [length_overwrite (by rw [List.length_take]; omega), hbuffer]
      obtain ⟨rest, hrest⟩ :=
        ih (data.drop n).length (by rw [List.length_drop]; omega) hfirst (data.drop n) rfl
      rw [bufferReads_of_ne_nil hn _ hdata, List.flatten_cons, hrest]
      rcases Nat.lt_or_ge data.length n with hshort | hfull
      · -- The last block: the data ends inside of it.
        rw [List.take_of_length_le (by omega), List.drop_of_length_le (by omega), overwrite]
        exact ⟨buffer.drop data.length ++ ([] ++ rest), by rw [List.append_assoc]⟩
      · rw [overwrite_of_length_eq (by rw [List.length_take]; omega), ← List.append_assoc,
          List.take_append_drop]
        exact ⟨rest, rfl⟩

/-! ## Blocks of one length -/

theorem length_flatten_of_length {n : ℕ} {blocks : List (List α)} (h : ∀ b ∈ blocks, b.length = n) :
    blocks.flatten.length = blocks.length * n := by
  induction blocks with
  | nil => simp
  | cons b blocks ih =>
    rw [List.flatten_cons, List.length_append, h b List.mem_cons_self,
      ih fun c hc => h c (List.mem_cons_of_mem b hc), List.length_cons, Nat.succ_mul, Nat.add_comm]

theorem flatten_drop {n : ℕ} {blocks : List (List α)} (h : ∀ b ∈ blocks, b.length = n) (i : ℕ) :
    (blocks.drop i).flatten = blocks.flatten.drop (i * n) := by
  induction i generalizing blocks with
  | zero => simp
  | succ i ih =>
    cases blocks with
    | nil => simp
    | cons b blocks =>
      have hb := h b List.mem_cons_self
      have hindex : (i + 1) * n = b.length + i * n := by
        rw [Nat.succ_mul, hb, Nat.add_comm]
      rw [List.drop_succ_cons, ih fun c hc => h c (List.mem_cons_of_mem b hc), List.flatten_cons,
        hindex, ← List.drop_drop, List.drop_left]

theorem flatten_take {n : ℕ} {blocks : List (List α)} (h : ∀ b ∈ blocks, b.length = n) (k : ℕ) :
    (blocks.take k).flatten = blocks.flatten.take (k * n) := by
  induction k generalizing blocks with
  | zero => simp
  | succ k ih =>
    cases blocks with
    | nil => simp
    | cons b blocks =>
      have hb := h b List.mem_cons_self
      have hindex : (k + 1) * n = b.length + k * n := by
        rw [Nat.succ_mul, hb, Nat.add_comm]
      rw [List.take_succ_cons, List.flatten_cons, ih fun c hc => h c (List.mem_cons_of_mem b hc),
        List.flatten_cons, hindex, List.take_length_add_append]

/-- If all blocks but the last one have the length `n`, an element is where its index says. -/
theorem getElem?_flatten {n : ℕ} {blocks : List (List α)}
    (h : ∀ i b, blocks[i]? = some b → i + 1 < blocks.length → b.length = n) {i j : ℕ}
    (hj : j < n) (hi : i < blocks.length) :
    blocks.flatten[i * n + j]? = blocks[i]?.bind fun b => b[j]? := by
  induction blocks generalizing i with
  | nil => cases hi
  | cons b blocks ih =>
    have hlen : blocks ≠ [] → b.length = n := by
      intro hne
      have hpos := List.length_pos_iff.mpr hne
      exact h 0 b rfl (by rw [List.length_cons]; omega)
    rw [List.flatten_cons]
    cases i with
    | zero =>
      rw [Nat.zero_mul, Nat.zero_add, List.getElem?_cons_zero, Option.bind_some]
      by_cases hne : blocks = []
      · rw [hne, List.flatten_nil, List.append_nil]
      · exact List.getElem?_append_left (by rw [hlen hne]; exact hj)
    | succ i =>
      rw [List.length_cons] at hi
      have hb := hlen (List.ne_nil_of_length_pos (by omega))
      have hindex : (i + 1) * n + j = b.length + (i * n + j) := by
        rw [hb, Nat.succ_mul]
        omega
      rw [hindex, List.getElem?_append_right (Nat.le_add_right _ _), Nat.add_sub_cancel_left,
        List.getElem?_cons_succ]
      refine ih (fun k c hc hk => h (k + 1) c ?_ ?_) (by omega)
      · rw [List.getElem?_cons_succ]
        exact hc
      · rw [List.length_cons]
        omega

end Chunks
