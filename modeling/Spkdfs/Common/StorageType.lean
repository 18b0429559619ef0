import Mathlib.Algebra.Group.Int.Defs
import Mathlib.Algebra.Group.Nat.Defs
import Mathlib.Data.List.Basic
import Spkdfs.Common.Node

/-!
# Storage types

`StorageType` of `common/inode.h` with its two subclasses, and
`StorageType::from_string`, which reads `RS<k,m,b>` and `RE<replications,b>`.

The regular expression of `from_string` is deterministic: a run of digits ends
at the first other character, and that character must be the one that the
pattern asks for.  `digits` is one such group.
-/

namespace Spkdfs

/-- The value fits in an `int`. -/
def IsInt (n : Int) : Prop := -2 ^ 31 ≤ n ∧ n < 2 ^ 31

theorem bmod_of_isInt {n : Int} (h : IsInt n) : n.bmod (2 ^ 32) = n := by
  unfold IsInt at h
  exact Int.bmod_eq_of_le (by omega) (by omega)

/-- `RSStorageType` and `REStorageType`.  The fields are C++ `int`s. -/
inductive StorageType
  | rs (k m b : Int)
  | re (replications b : Int)
  deriving DecidableEq

namespace StorageType

/-- One group `(\d+)` of the pattern with the character behind it: the digits,
and the text behind that character. -/
def digits (stop : Char) (cs : List Char) : Option (List Char × List Char) :=
  match cs.takeWhile Char.isDigit, cs.dropWhile Char.isDigit with
  | d :: ds, c :: rest => if c = stop then some (d :: ds, rest) else none
  | _, _ => none

/-- The three groups of `RS<(\d+),(\d+),(\d+)>`. -/
def matchRS (input : List Char) : Option (List Char × List Char × List Char) :=
  match input with
  | 'R' :: 'S' :: '<' :: cs => do
    let (k, cs) ← digits ',' cs
    let (m, cs) ← digits ',' cs
    let (b, cs) ← digits '>' cs
    if cs = [] then some (k, m, b) else none
  | _ => none

/-- The two groups of `RE<(\d+),(\d+)>`. -/
def matchRE (input : List Char) : Option (List Char × List Char) :=
  match input with
  | 'R' :: 'E' :: '<' :: cs => do
    let (replications, cs) ← digits ',' cs
    let (b, cs) ← digits '>' cs
    if cs = [] then some (replications, b) else none
  | _ => none

/-- `StorageType::from_string`. -/
def fromString (input : String) : Except Exception StorageType :=
  match matchRS input.toList with
  | some (k, m, b) => do
    let k ← stoi k
    let m ← stoi m
    let b ← stoi b
    return .rs k m b
  | none =>
    match matchRE input.toList with
    | some (replications, b) => do
      let replications ← stoi replications
      let b ← stoi b
      return .re replications b
    | none => .error (.runtime ("cannot solve " ++ input))

example : fromString "RS<7,5,16>" = .ok (.rs 7 5 16) := by rfl

/-! ## The pattern -/

/-- Digits, at least one. -/
def IsGroup (ds : List Char) : Prop := ds ≠ [] ∧ ∀ c ∈ ds, c.isDigit = true

/-- One group matches the digits in front of the character that it asks for. -/
theorem digits_eq_some_iff {stop : Char} (hstop : stop.isDigit = false) {cs ds rest : List Char} :
    digits stop cs = some (ds, rest) ↔
      cs = ds ++ stop :: rest ∧ IsGroup ds := by
  constructor
  · intro h
    unfold digits at h
    split at h
    · rename_i d ds' c rest' htake hdrop
      split at h
      · rename_i hc
        cases h
        refine ⟨?_, List.cons_ne_nil d ds', ?_⟩
        · rw [← hc, ← htake, ← hdrop, List.takeWhile_append_dropWhile]
        · intro c' hc'
          rw [← htake] at hc'
          exact List.mem_takeWhile_imp hc'
      · cases h
    · cases h
  · rintro ⟨rfl, hne, hds⟩
    have hneg : ¬ stop.isDigit = true := by simp [hstop]
    obtain ⟨d, ds, rfl⟩ := List.exists_cons_of_ne_nil hne
    rw [digits, List.takeWhile_append_of_pos hds, List.dropWhile_append_of_pos hds,
      List.takeWhile_cons_of_neg hneg, List.dropWhile_cons_of_neg hneg, List.append_nil]
    exact if_pos rfl

theorem matchRS_eq_some_iff {cs k m b : List Char} :
    matchRS cs = some (k, m, b) ↔
      cs = 'R' :: 'S' :: '<' :: (k ++ ',' :: (m ++ ',' :: (b ++ ['>']))) ∧
        IsGroup k ∧ IsGroup m ∧ IsGroup b := by
  constructor
  · intro h
    unfold matchRS at h
    split at h
    · rename_i cs
      simp only [Option.bind_eq_bind, Option.bind_eq_some_iff, Prod.exists] at h
      obtain ⟨k', cs₁, hk, m', cs₂, hm, b', cs₃, hb, h⟩ := h
      split at h
      · rename_i hend
        cases h
        obtain ⟨rfl, hkg⟩ := (digits_eq_some_iff (by decide)).mp hk
        obtain ⟨rfl, hmg⟩ := (digits_eq_some_iff (by decide)).mp hm
        obtain ⟨rfl, hbg⟩ := (digits_eq_some_iff (by decide)).mp hb
        rw [hend]
        exact ⟨rfl, hkg, hmg, hbg⟩
      · cases h
    · cases h
  · rintro ⟨rfl, hk, hm, hb⟩
    simp only [matchRS, Option.bind_eq_bind, Option.bind_eq_some_iff, Prod.exists]
    exact ⟨k, _, (digits_eq_some_iff (by decide)).mpr ⟨rfl, hk⟩, m, _,
      (digits_eq_some_iff (by decide)).mpr ⟨rfl, hm⟩, b, _,
      (digits_eq_some_iff (by decide)).mpr ⟨rfl, hb⟩, if_pos rfl⟩

theorem matchRE_eq_some_iff {cs replications b : List Char} :
    matchRE cs = some (replications, b) ↔
      cs = 'R' :: 'E' :: '<' :: (replications ++ ',' :: (b ++ ['>'])) ∧
        IsGroup replications ∧ IsGroup b := by
  constructor
  · intro h
    unfold matchRE at h
    split at h
    · rename_i cs
      simp only [Option.bind_eq_bind, Option.bind_eq_some_iff, Prod.exists] at h
      obtain ⟨r', cs₁, hr, b', cs₂, hb, h⟩ := h
      split at h
      · rename_i hend
        cases h
        obtain ⟨rfl, hrg⟩ := (digits_eq_some_iff (by decide)).mp hr
        obtain ⟨rfl, hbg⟩ := (digits_eq_some_iff (by decide)).mp hb
        rw [hend]
        exact ⟨rfl, hrg, hbg⟩
      · cases h
    · cases h
  · rintro ⟨rfl, hr, hb⟩
    simp only [matchRE, Option.bind_eq_bind, Option.bind_eq_some_iff, Prod.exists]
    exact ⟨replications, _, (digits_eq_some_iff (by decide)).mpr ⟨rfl, hr⟩, b, _,
      (digits_eq_some_iff (by decide)).mpr ⟨rfl, hb⟩, if_pos rfl⟩

/-- What `std::stoi` makes of a group. -/
theorem IsGroup.stoi_eq_ok_iff {ds : List Char} (h : IsGroup ds) {n : Int} :
    stoi ds = .ok n ↔ Nat.ofDigitChars 10 ds 0 ≤ 2147483647 ∧ n = Nat.ofDigitChars 10 ds 0 :=
  stoi_eq_ok_iff_of_isDigit h.2 h.1

/-- A group has no sign. -/
theorem IsGroup.stoi_nonneg {ds : List Char} (h : IsGroup ds) {n : Int} (hn : stoi ds = .ok n) :
    0 ≤ n := by
  rw [(h.stoi_eq_ok_iff.mp hn).2]
  exact Int.natCast_nonneg _

/-- The two ways to be accepted: the groups of a branch, and their numbers. -/
theorem fromString_cases {input : String} {t : StorageType} (h : fromString input = .ok t) :
    (∃ ks ms bs k m b, matchRS input.toList = some (ks, ms, bs) ∧
        stoi ks = .ok k ∧ stoi ms = .ok m ∧ stoi bs = .ok b ∧ t = .rs k m b) ∨
      ∃ rs bs r b, matchRE input.toList = some (rs, bs) ∧
        stoi rs = .ok r ∧ stoi bs = .ok b ∧ t = .re r b := by
  unfold fromString at h
  split at h
  · rename_i ks ms bs hmatch
    obtain ⟨k, hk, h⟩ := bind_eq_ok.mp h
    obtain ⟨m, hm, h⟩ := bind_eq_ok.mp h
    obtain ⟨b, hb, h⟩ := bind_eq_ok.mp h
    exact Or.inl ⟨ks, ms, bs, k, m, b, hmatch, hk, hm, hb, (Except.ok.inj h).symm⟩
  · split at h
    · rename_i rs bs hmatch
      obtain ⟨r, hr, h⟩ := bind_eq_ok.mp h
      obtain ⟨b, hb, h⟩ := bind_eq_ok.mp h
      exact Or.inr ⟨rs, bs, r, b, hmatch, hr, hb, (Except.ok.inj h).symm⟩
    · cases h

end StorageType

end Spkdfs
