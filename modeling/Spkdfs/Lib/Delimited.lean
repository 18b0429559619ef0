import Mathlib.Data.List.TakeWhile

/-!
# Texts with delimiters

What successive calls of `getline` with a delimiter read from a text.

* `field` is the first piece, and `behind` is what follows its delimiter.
* `pieces` is the list of all pieces that a loop over `getline` sees.  A
  delimiter at the very end does not open another piece.
* `terminated` writes every piece with a delimiter behind it.

`pieces_dropLast_terminated` is the round trip: a text that is written with
delimiters, less the last one, is read back piece by piece.  `pieces_terminated` is
the same with the last delimiter.
-/

namespace Delimited

variable {α : Type*} [DecidableEq α]

/-- The text up to the first delimiter. -/
def field (d : α) (cs : List α) : List α := cs.takeWhile fun c => c ≠ d

/-- The text behind the first delimiter. -/
def behind (d : α) (cs : List α) : List α := (cs.dropWhile fun c => c ≠ d).tail

/-- The pieces that a loop over `getline` reads. -/
def pieces (d : α) : List α → List (List α)
  | [] => []
  | c :: cs =>
    if c = d then [] :: pieces d cs
    else
      match pieces d cs with
      | [] => [[c]]
      | p :: ps => (c :: p) :: ps

/-- Every piece with a delimiter behind it. -/
def terminated (d : α) (ps : List (List α)) : List α := ps.flatMap fun p => p ++ [d]

/-- The check that none of the delimiters is in a text. -/
theorem forall_not_mem_of_all {ds x : List α} (h : ds.all (fun d => decide (d ∉ x)) = true) :
    ∀ d ∈ ds, d ∉ x := by
  intro d hd
  exact of_decide_eq_true (List.all_eq_true.mp h d hd)

theorem takeWhile_of_not_mem {d : α} {x : List α} (hx : d ∉ x) (cs : List α) :
    (x ++ cs).takeWhile (fun c => c ≠ d) = x ++ cs.takeWhile fun c => c ≠ d := by
  refine List.takeWhile_append_of_pos fun c hc => ?_
  simpa using fun h : c = d => hx (h ▸ hc)

theorem dropWhile_of_not_mem {d : α} {x : List α} (hx : d ∉ x) (cs : List α) :
    (x ++ cs).dropWhile (fun c => c ≠ d) = cs.dropWhile fun c => c ≠ d := by
  refine List.dropWhile_append_of_pos fun c hc => ?_
  simpa using fun h : c = d => hx (h ▸ hc)

theorem field_append_cons {d : α} {x : List α} (hx : d ∉ x) (cs : List α) :
    field d (x ++ d :: cs) = x := by
  rw [field, takeWhile_of_not_mem hx, List.takeWhile_cons_of_neg (by simp), List.append_nil]

theorem behind_append_cons {d : α} {x : List α} (hx : d ∉ x) (cs : List α) :
    behind d (x ++ d :: cs) = cs := by
  rw [behind, dropWhile_of_not_mem hx, List.dropWhile_cons_of_neg (by simp), List.tail_cons]

theorem field_of_not_mem {d : α} {x : List α} (hx : d ∉ x) : field d x = x := by
  have h := takeWhile_of_not_mem hx []
  simpa [field] using h

theorem pieces_append_cons {d : α} {x : List α} (hx : d ∉ x) (cs : List α) :
    pieces d (x ++ d :: cs) = x :: pieces d cs := by
  induction x with
  | nil => rw [List.nil_append, pieces, if_pos rfl]
  | cons c x ih =>
    have hc : c ≠ d := fun h => hx (h ▸ List.mem_cons_self)
    rw [List.cons_append, pieces, if_neg hc, ih fun h => hx (List.mem_cons_of_mem _ h)]

theorem pieces_of_not_mem {d : α} {x : List α} (hx : d ∉ x) (hne : x ≠ []) :
    pieces d x = [x] := by
  induction x with
  | nil => exact absurd rfl hne
  | cons c x ih =>
    have hc : c ≠ d := fun h => hx (h ▸ List.mem_cons_self)
    rw [pieces, if_neg hc]
    cases x with
    | nil => rfl
    | cons c' x => rw [ih (fun h => hx (List.mem_cons_of_mem _ h)) (by simp)]

omit [DecidableEq α] in
theorem terminated_cons (d : α) (p : List α) (ps : List (List α)) :
    terminated d (p :: ps) = p ++ d :: terminated d ps := by
  simp [terminated]

omit [DecidableEq α] in
theorem terminated_ne_nil {d : α} {ps : List (List α)} (h : ps ≠ []) : terminated d ps ≠ [] := by
  obtain ⟨p, ps, rfl⟩ := List.exists_cons_of_ne_nil h
  rw [terminated_cons]
  simp

/-- A text that is written with delimiters, less the last one, is read back piece by
piece. -/
theorem pieces_dropLast_terminated {d : α} {ps : List (List α)} (hps : ∀ p ∈ ps, d ∉ p ∧ p ≠ []) :
    pieces d (terminated d ps).dropLast = ps := by
  induction ps with
  | nil => rfl
  | cons p ps ih =>
    obtain ⟨hp, hne⟩ := hps p List.mem_cons_self
    rw [terminated_cons]
    cases ps with
    | nil =>
      rw [show terminated d ([] : List (List α)) = [] from rfl, List.dropLast_concat]
      exact pieces_of_not_mem hp hne
    | cons q ps =>
      have hrest : terminated d (q :: ps) ≠ [] := terminated_ne_nil (by simp)
      rw [List.dropLast_append_of_ne_nil (by simp), List.dropLast_cons_of_ne_nil hrest,
        pieces_append_cons hp, ih fun p hp => hps p (List.mem_cons_of_mem _ hp)]

omit [DecidableEq α] in
theorem terminated_concat (d : α) (ps : List (List α)) (p : List α) :
    terminated d (ps ++ [p]) = (terminated d ps ++ p) ++ [d] := by
  simp [terminated]

/-- A text that is written with delimiters is read back piece by piece. -/
theorem pieces_terminated {d : α} {ps : List (List α)} (hps : ∀ p ∈ ps, d ∉ p) :
    pieces d (terminated d ps) = ps := by
  induction ps with
  | nil => rfl
  | cons p ps ih =>
    rw [terminated_cons, pieces_append_cons (hps p List.mem_cons_self),
      ih fun q hq => hps q (List.mem_cons_of_mem _ hq)]

/-- A delimiter at the end does not open another piece. -/
theorem pieces_concat {d : α} {cs : List α} (hne : cs ≠ []) (hlast : cs.getLast? ≠ some d) :
    pieces d (cs ++ [d]) = pieces d cs := by
  induction cs with
  | nil => exact absurd rfl hne
  | cons c cs ih =>
    cases cs with
    | nil =>
      have hc : c ≠ d := by simpa using hlast
      simp [pieces, hc]
    | cons c' cs =>
      rw [List.getLast?_cons_cons] at hlast
      have htail := ih (List.cons_ne_nil c' cs) hlast
      rw [List.cons_append, pieces, htail]
      rfl

theorem length_pieces_concat (d : α) (cs : List α) :
    (pieces d (cs ++ [d])).length = cs.count d + 1 := by
  induction cs with
  | nil => simp [pieces]
  | cons c cs ih =>
    rw [List.cons_append, pieces, List.count_cons]
    by_cases hc : c = d
    · simp [hc, ih]
    · obtain ⟨p, ps, hps⟩ : ∃ p ps, pieces d (cs ++ [d]) = p :: ps :=
        List.exists_cons_of_length_eq_add_one ih
      rw [hps] at ih
      simpa [hc, hps] using ih

/-- Every delimiter closes a piece, those inside of the written pieces too. -/
theorem length_pieces_terminated (d : α) (ps : List (List α)) :
    (pieces d (terminated d ps)).length = (terminated d ps).count d := by
  by_cases hne : ps = []
  · rw [hne]
    rfl
  · rw [← List.dropLast_concat_getLast hne, terminated_concat, length_pieces_concat]
    simp [Nat.add_assoc]

theorem length_le_count_terminated (d : α) (ps : List (List α)) :
    ps.length ≤ (terminated d ps).count d := by
  induction ps with
  | nil => simp
  | cons p ps ih =>
    rw [terminated_cons, List.count_append, List.count_cons_self, List.length_cons]
    omega

/-- With as many delimiters as pieces, none is inside of a piece. -/
theorem not_mem_of_count_terminated {d : α} {ps : List (List α)}
    (h : (terminated d ps).count d ≤ ps.length) : ∀ p ∈ ps, d ∉ p := by
  induction ps with
  | nil => simp
  | cons p ps ih =>
    have hrest := length_le_count_terminated d ps
    rw [terminated_cons, List.count_append, List.count_cons_self, List.length_cons] at h
    intro q hq
    rcases List.mem_cons.mp hq with rfl | hq
    · exact List.count_eq_zero.mp (by omega)
    · exact ih (by omega) q hq

theorem not_mem_field (d : α) (cs : List α) : d ∉ field d cs := by
  intro h
  have := List.mem_takeWhile_imp h
  simp at this

end Delimited
