import Mathlib.Data.List.Basic

/-!
# A file that several writers write at once

Each writer opens the file, which cuts it to nothing, and then writes its data from the
front on, piece by piece, at a position of its own.  The pieces of several writers come
in any order, and an opening may come between them.

When all of them write the same data, the file is never wrong where nobody is going to
write any more: every position holds its byte, or some writer stands at it or before it
(`Covered`).  So the file is the data when no writer is left (`Covered.eq`), whatever the
order was.
-/

namespace SharedFile

variable {α : Type*}

/-- The file after a write of `chunk` at `offset`.  A gap in front of it is filled. -/
def writeAt (fill : α) (file : List α) (offset : ℕ) (chunk : List α) : List α :=
  (file ++ List.replicate (offset - file.length) fill).take offset ++ chunk ++
    file.drop (offset + chunk.length)

theorem length_front (fill : α) (file : List α) (offset : ℕ) :
    ((file ++ List.replicate (offset - file.length) fill).take offset).length = offset := by
  simp only [List.length_take, List.length_append, List.length_replicate]
  omega

theorem length_writeAt (fill : α) (file : List α) (offset : ℕ) (chunk : List α) :
    (writeAt fill file offset chunk).length = max file.length (offset + chunk.length) := by
  rw [writeAt, List.length_append, List.length_append, length_front, List.length_drop]
  omega

theorem getElem?_writeAt_front {fill : α} {file : List α} {offset p : ℕ} (chunk : List α)
    (hp : p < offset) (hfile : p < file.length) :
    (writeAt fill file offset chunk)[p]? = file[p]? := by
  have hfront := length_front fill file offset
  rw [writeAt, List.append_assoc, List.getElem?_append_left (by omega), List.getElem?_take,
    if_pos hp, List.getElem?_append_left hfile]

theorem getElem?_writeAt_chunk {fill : α} {file chunk : List α} {offset p : ℕ}
    (hp : offset ≤ p) (hlast : p < offset + chunk.length) :
    (writeAt fill file offset chunk)[p]? = chunk[p - offset]? := by
  have hfront := length_front fill file offset
  rw [writeAt, List.append_assoc, List.getElem?_append_right (by omega), hfront,
    List.getElem?_append_left (by omega)]

/-! ## Writers of the same data -/

/-- The file `content` on its way to `data`: a position holds its byte, or a writer will
still come to it.  `Writes o` says that some writer stands at `o`. -/
structure Covered (data content : List α) (Writes : ℕ → Prop) : Prop where
  length_le : content.length ≤ data.length
  byte : ∀ p < data.length, content[p]? = data[p]? ∨ ∃ o ≤ p, Writes o

variable {data content : List α} {W W' : ℕ → Prop}

/-- More writers do not hurt. -/
theorem Covered.mono (h : Covered data content W) (hW : ∀ o < data.length, W o → W' o) :
    Covered data content W' := by
  refine ⟨h.length_le, fun p hp => ?_⟩
  rcases h.byte p hp with hbyte | ⟨o, ho, hw⟩
  · exact Or.inl hbyte
  · exact Or.inr ⟨o, ho, hW o (by omega) hw⟩

/-- Behind an opening, the writer that opened the file has everything to write. -/
theorem Covered.opened (data : List α) (h : W 0) : Covered data [] W :=
  ⟨Nat.zero_le _, fun p _ => Or.inr ⟨0, Nat.zero_le p, h⟩⟩

/-- A writer moves on from `o` and leaves its bytes there. -/
theorem Covered.write {fill : α} {o n : ℕ} (h : Covered data content W)
    (hlast : o + n ≤ data.length) (hmoved : W' (o + n)) (hothers : ∀ o', o' ≠ o → W o' → W' o') :
    Covered data (writeAt fill content o ((data.drop o).take n)) W' := by
  have hchunk : ((data.drop o).take n).length = n := by
    rw [List.length_take, List.length_drop]
    omega
  refine ⟨?_, fun p hp => ?_⟩
  · rw [length_writeAt, hchunk]
    have hle := h.length_le
    omega
  · rcases Nat.lt_or_ge p o with hfront | hge
    · -- What is in front of the writer is the business of another one.
      rcases h.byte p hp with hbyte | ⟨o', ho', hw⟩
      · have hfile : p < content.length := by
          refine (List.getElem?_eq_some_iff.mp (hbyte.trans (List.getElem?_eq_getElem hp))).1
        exact Or.inl ((getElem?_writeAt_front _ hfront hfile).trans hbyte)
      · exact Or.inr ⟨o', ho', hothers o' (by omega) hw⟩
    · rcases Nat.lt_or_ge p (o + n) with hin | hbehind
      · refine Or.inl ?_
        rw [getElem?_writeAt_chunk hge (by omega), List.getElem?_take, if_pos (by omega),
          List.getElem?_drop, Nat.add_sub_of_le hge]
      · exact Or.inr ⟨o + n, hbehind, hmoved⟩

/-- When nobody writes any more, the file is the data. -/
theorem Covered.eq (h : Covered data content W) (hW : ∀ o < data.length, ¬ W o) :
    content = data := by
  refine List.ext_getElem? fun p => ?_
  rcases Nat.lt_or_ge p data.length with hp | hp
  · rcases h.byte p hp with hbyte | ⟨o, ho, hw⟩
    · exact hbyte
    · exact absurd hw (hW o (by omega))
  · have hle := h.length_le
    rw [List.getElem?_eq_none hp, List.getElem?_eq_none (by omega)]

end SharedFile
