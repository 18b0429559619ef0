import Mathlib.Data.List.Basic
import Mathlib.Order.Lattice

/-!
# Search in a sorted list

`lowerBound` and `binarySearch` halve a range of the list, as `std::lower_bound` and
`std::binary_search` do.  The elements are compared by a key.

On a list that is sorted by the key the search finds every key that is there
(`binarySearch_iff`).  On any other list its answer says nothing.
-/

namespace SortedSearch

variable {α κ : Type} [LinearOrder κ]

/-- The loop of `lower_bound` over the `len` elements from `first` on.  One unit of fuel is one
round. -/
def lowerBoundLoop (key : α → κ) (k : κ) (xs : List α) : ℕ → ℕ → ℕ → ℕ
  | 0, first, _ => first
  | fuel + 1, first, len =>
    if len = 0 then first
    else
      match xs[first + len / 2]? with
      | none => first
      | some x =>
        if key x < k then
          lowerBoundLoop key k xs fuel (first + len / 2 + 1) (len - len / 2 - 1)
        else lowerBoundLoop key k xs fuel first (len / 2)

/-- The first position whose element is not below the key. -/
def lowerBound (key : α → κ) (k : κ) (xs : List α) : ℕ :=
  lowerBoundLoop key k xs xs.length 0 xs.length

/-- The key is in the list, as far as the search can see. -/
def binarySearch (key : α → κ) (k : κ) (xs : List α) : Bool :=
  match xs[lowerBound key k xs]? with
  | none => false
  | some x => ¬ k < key x

variable {key : α → κ} {k : κ} {xs : List α}

theorem le_of_sorted (hsorted : xs.Pairwise fun a b => key a ≤ key b) {i j : ℕ} {x y : α}
    (hij : i ≤ j) (hx : xs[i]? = some x) (hy : xs[j]? = some y) : key x ≤ key y := by
  obtain ⟨hi, rfl⟩ := List.getElem?_eq_some_iff.mp hx
  obtain ⟨hj, rfl⟩ := List.getElem?_eq_some_iff.mp hy
  rcases Nat.lt_or_eq_of_le hij with hlt | rfl
  · exact List.pairwise_iff_getElem.mp hsorted i j hi hj hlt
  · exact le_refl _

/-- The loop separates the elements below the key from the others, if everything before the
range is below it and nothing behind the range is. -/
theorem lowerBoundLoop_spec (hsorted : xs.Pairwise fun a b => key a ≤ key b) {fuel first len : ℕ}
    (hfuel : len ≤ fuel) (hrange : first + len ≤ xs.length)
    (hbefore : ∀ i x, xs[i]? = some x → i < first → key x < k)
    (hbehind : ∀ i x, xs[i]? = some x → first + len ≤ i → ¬ key x < k) {i : ℕ} {x : α}
    (hx : xs[i]? = some x) : key x < k ↔ i < lowerBoundLoop key k xs fuel first len := by
  induction fuel generalizing first len with
  | zero =>
    rw [lowerBoundLoop]
    exact ⟨fun hlt => by_contra fun hi => hbehind i x hx (by omega) hlt, hbefore i x hx⟩
  | succ fuel ih =>
    rw [lowerBoundLoop]
    by_cases hlen : len = 0
    · rw [if_pos hlen]
      exact ⟨fun hlt => by_contra fun hi => hbehind i x hx (by omega) hlt, hbefore i x hx⟩
    rw [if_neg hlen]
    have hmid : first + len / 2 < xs.length := by omega
    rw [List.getElem?_eq_getElem hmid]
    simp only
    split
    · rename_i hlt
      refine ih (by omega) (by omega) (fun j y hy hj => ?_) fun j y hy hj =>
        hbehind j y hy (by omega)
      have hle := le_of_sorted hsorted (show j ≤ first + len / 2 by omega) hy
        (List.getElem?_eq_getElem hmid)
      exact lt_of_le_of_lt hle hlt
    · rename_i hge
      refine ih (by omega) (by omega) hbefore fun j y hy hj => ?_
      have hle := le_of_sorted hsorted hj (List.getElem?_eq_getElem hmid) hy
      exact fun hlt => hge (lt_of_le_of_lt hle hlt)

theorem lowerBound_spec (hsorted : xs.Pairwise fun a b => key a ≤ key b) {i : ℕ} {x : α}
    (hx : xs[i]? = some x) : key x < k ↔ i < lowerBound key k xs :=
  lowerBoundLoop_spec hsorted (Nat.le_refl _) (by omega) (fun _ _ _ h => by omega)
    (fun j y hy h => by
      have := (List.getElem?_eq_some_iff.mp hy).1
      omega) hx

/-- On a sorted list the search finds exactly the keys that are there. -/
theorem binarySearch_iff (hsorted : xs.Pairwise fun a b => key a ≤ key b) :
    binarySearch key k xs = true ↔ ∃ x ∈ xs, key x = k := by
  unfold binarySearch
  constructor
  · intro h
    split at h
    · cases h
    · rename_i x hx
      refine ⟨x, List.mem_of_getElem? hx, le_antisymm ?_ ?_⟩
      · exact not_lt.mp (by simpa using h)
      · refine not_lt.mp fun hlt => ?_
        exact absurd ((lowerBound_spec hsorted hx).mp hlt) (Nat.lt_irrefl _)
  · rintro ⟨x, hmem, rfl⟩
    obtain ⟨i, hi⟩ := List.mem_iff_getElem?.mp hmem
    have hle : lowerBound key (key x) xs ≤ i := by
      refine Nat.not_lt.mp fun hlt => ?_
      exact lt_irrefl _ ((lowerBound_spec hsorted hi).mpr hlt)
    have hbound : lowerBound key (key x) xs < xs.length :=
      Nat.lt_of_le_of_lt hle (List.getElem?_eq_some_iff.mp hi).1
    rw [List.getElem?_eq_getElem hbound]
    have hkey := le_of_sorted hsorted hle (List.getElem?_eq_getElem hbound) hi
    simpa using hkey

end SortedSearch
