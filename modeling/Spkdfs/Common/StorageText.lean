import Spkdfs.Common.InodeJson
import Spkdfs.Common.Node

/-!
# The three forms of a storage type

A storage type is an object, a text (`from_string`, `to_string`) and a JSON value
(`from_json`, `to_json` of `common/inode.cpp`).

`from_string` matches a pattern and hands its groups to `std::stoi`.  `fromString_eq_ok_iff`
says which texts it accepts and what it makes of them, and `representations_agree` that a
storage type comes back from the other two forms.
-/

namespace Spkdfs

namespace StorageType

/-- `RSStorageType::to_string` and `REStorageType::to_string`. -/
def toText : StorageType → String
  | .rs k m b => "RS<" ++ k.repr ++ "," ++ m.repr ++ "," ++ b.repr ++ ">"
  | .re replications b => "RE<" ++ replications.repr ++ "," ++ b.repr ++ ">"

/-- Decimal digits, at least one, whose value is at most `INT_MAX`. -/
structure IsNumber (ds : String) : Prop where
  ne : ds ≠ ""
  digits : ∀ c ∈ ds.toList, c.isDigit = true
  le : Nat.ofDigitChars 10 ds.toList 0 ≤ 2147483647

/-- The value of a digit string. -/
def value (ds : String) : Int := Nat.ofDigitChars 10 ds.toList 0

def rsText (k m b : String) : String := "RS<" ++ k ++ "," ++ m ++ "," ++ b ++ ">"

def reText (replications b : String) : String := "RE<" ++ replications ++ "," ++ b ++ ">"

/-- The texts of storage types. -/
def IsStorageText (s : String) : Prop :=
  (∃ k m b, IsNumber k ∧ IsNumber m ∧ IsNumber b ∧ s = rsText k m b) ∨
    ∃ replications b, IsNumber replications ∧ IsNumber b ∧ s = reText replications b

/-! ## The texts that are accepted -/

theorem isNumber_ofList {ds : List Char} (h : IsGroup ds)
    (hle : Nat.ofDigitChars 10 ds 0 ≤ 2147483647) : IsNumber (String.ofList ds) := by
  refine ⟨?_, by rw [String.toList_ofList]; exact h.2, by rw [String.toList_ofList]; exact hle⟩
  intro hempty
  have := congrArg String.toList hempty
  rw [String.toList_ofList] at this
  exact h.1 this

theorem IsNumber.isGroup {ds : String} (h : IsNumber ds) : IsGroup ds.toList :=
  ⟨fun hnil => h.ne (String.toList_inj.mp hnil), h.digits⟩

theorem IsNumber.stoi_eq {ds : String} (h : IsNumber ds) : stoi ds.toList = .ok (value ds) :=
  h.isGroup.stoi_eq_ok_iff.mpr ⟨h.le, rfl⟩

theorem toList_rsText (k m b : String) : (rsText k m b).toList =
    'R' :: 'S' :: '<' :: (k.toList ++ ',' :: (m.toList ++ ',' :: (b.toList ++ ['>']))) := by
  simp [rsText]

theorem toList_reText (replications b : String) : (reText replications b).toList =
    'R' :: 'E' :: '<' :: (replications.toList ++ ',' :: (b.toList ++ ['>'])) := by
  simp [reText]

theorem fromString_rsText {k m b : String} (hk : IsNumber k) (hm : IsNumber m) (hb : IsNumber b) :
    fromString (rsText k m b) = .ok (.rs (value k) (value m) (value b)) := by
  have hmatch : matchRS (rsText k m b).toList = some (k.toList, m.toList, b.toList) :=
    matchRS_eq_some_iff.mpr ⟨toList_rsText k m b, hk.isGroup, hm.isGroup, hb.isGroup⟩
  rw [fromString, hmatch]
  simp only [hk.stoi_eq, hm.stoi_eq, hb.stoi_eq]
  rfl

theorem fromString_reText {replications b : String} (hr : IsNumber replications)
    (hb : IsNumber b) :
    fromString (reText replications b) = .ok (.re (value replications) (value b)) := by
  have hmatch : matchRE (reText replications b).toList = some (replications.toList, b.toList) :=
    matchRE_eq_some_iff.mpr ⟨toList_reText replications b, hr.isGroup, hb.isGroup⟩
  have hother : matchRS (reText replications b).toList = none := by
    rw [toList_reText]
    rfl
  rw [fromString, hother, hmatch]
  simp only [hr.stoi_eq, hb.stoi_eq]
  rfl

/-- The texts that `from_string` accepts, with what it makes of them. -/
theorem fromString_eq_ok_iff {s : String} {t : StorageType} :
    fromString s = .ok t ↔
      (∃ k m b, IsNumber k ∧ IsNumber m ∧ IsNumber b ∧ s = rsText k m b ∧
        t = .rs (value k) (value m) (value b)) ∨
      ∃ replications b, IsNumber replications ∧ IsNumber b ∧ s = reText replications b ∧
        t = .re (value replications) (value b) := by
  constructor
  · intro h
    rcases fromString_cases h with
      ⟨ks, ms, bs, k, m, b, hmatch, hk, hm, hb, rfl⟩ | ⟨rs, bs, r, b, hmatch, hr, hb, rfl⟩
    · obtain ⟨htext, hks, hms, hbs⟩ := matchRS_eq_some_iff.mp hmatch
      obtain ⟨hkle, rfl⟩ := hks.stoi_eq_ok_iff.mp hk
      obtain ⟨hmle, rfl⟩ := hms.stoi_eq_ok_iff.mp hm
      obtain ⟨hble, rfl⟩ := hbs.stoi_eq_ok_iff.mp hb
      refine Or.inl ⟨_, _, _, isNumber_ofList hks hkle, isNumber_ofList hms hmle,
        isNumber_ofList hbs hble, ?_, ?_⟩
      · rw [← String.toList_inj, htext, toList_rsText]
        simp only [String.toList_ofList]
      · simp only [value, String.toList_ofList]
    · obtain ⟨htext, hrs, hbs⟩ := matchRE_eq_some_iff.mp hmatch
      obtain ⟨hrle, rfl⟩ := hrs.stoi_eq_ok_iff.mp hr
      obtain ⟨hble, rfl⟩ := hbs.stoi_eq_ok_iff.mp hb
      refine Or.inr ⟨_, _, isNumber_ofList hrs hrle, isNumber_ofList hbs hble, ?_, ?_⟩
      · rw [← String.toList_inj, htext, toList_reText]
        simp only [String.toList_ofList]
      · simp only [value, String.toList_ofList]
  · rintro (⟨k, m, b, hk, hm, hb, rfl, rfl⟩ | ⟨replications, b, hr, hb, rfl, rfl⟩)
    · exact fromString_rsText hk hm hb
    · exact fromString_reText hr hb

theorem accepts_iff (s : String) : (∃ t, fromString s = .ok t) ↔ IsStorageText s := by
  constructor
  · rintro ⟨t, h⟩
    rcases fromString_eq_ok_iff.mp h with
      ⟨k, m, b, hk, hm, hb, htext, _⟩ | ⟨replications, b, hr, hb, htext, _⟩
    · exact Or.inl ⟨k, m, b, hk, hm, hb, htext⟩
    · exact Or.inr ⟨replications, b, hr, hb, htext⟩
  · rintro (⟨k, m, b, hk, hm, hb, rfl⟩ | ⟨replications, b, hr, hb, rfl⟩)
    · exact ⟨_, fromString_rsText hk hm hb⟩
    · exact ⟨_, fromString_reText hr hb⟩

/-! ## The way back -/

/-- The value of a number, written by `std::to_string`. -/
theorem IsNumber.repr_value {ds : String} (h : IsNumber ds) :
    IsNumber (value ds).repr ∧ value (value ds).repr = value ds := by
  have htext : (value ds).repr = (Nat.ofDigitChars 10 ds.toList 0).repr := rfl
  have hvalue := ofDigitChars_repr (Nat.ofDigitChars 10 ds.toList 0)
  refine ⟨⟨?_, ?_, ?_⟩, ?_⟩
  · intro hempty
    exact toList_repr_ne_nil _ (congrArg String.toList (htext.symm.trans hempty))
  · intro c hc
    exact isDigit_of_mem_repr hc
  · rw [htext, hvalue]
    exact h.le
  · show (Nat.ofDigitChars 10 (value ds).repr.toList 0 : Int) = _
    rw [htext, hvalue]
    rfl

theorem IsNumber.isInt {ds : String} (h : IsNumber ds) : IsInt (value ds) := by
  have hle := h.le
  unfold IsInt value
  omega

theorem fromString_toText {s : String} {t : StorageType} (h : fromString s = .ok t) :
    fromString t.toText = .ok t := by
  rcases fromString_eq_ok_iff.mp h with
    ⟨k, m, b, hk, hm, hb, _, rfl⟩ | ⟨replications, b, hr, hb, _, rfl⟩
  · have hread := fromString_rsText hk.repr_value.1 hm.repr_value.1 hb.repr_value.1
    rwa [hk.repr_value.2, hm.repr_value.2, hb.repr_value.2] at hread
  · have hread := fromString_reText hr.repr_value.1 hb.repr_value.1
    rwa [hr.repr_value.2, hb.repr_value.2] at hread

theorem areInts_of_fromString {s : String} {t : StorageType} (h : fromString s = .ok t) :
    t.AreInts := by
  rcases fromString_eq_ok_iff.mp h with
    ⟨k, m, b, hk, hm, hb, _, rfl⟩ | ⟨replications, b, hr, hb, _, rfl⟩
  · exact ⟨hk.isInt, hm.isInt, hb.isInt⟩
  · exact ⟨hr.isInt, hb.isInt⟩

/-- `from_string` accepts the texts of storage types and throws on all others.  What it makes
of a text comes back from the text and from the JSON value that it is written as. -/
theorem representations_agree (s : String) :
    ((∃ t, fromString s = .ok t) ↔ IsStorageText s) ∧
      ((∃ e, fromString s = .error e) ↔ ¬ IsStorageText s) ∧
      ∀ t, fromString s = .ok t → fromString t.toText = .ok t ∧ fromJson t.toJson = .ok t := by
  refine ⟨accepts_iff s, ?_, fun t h =>
    ⟨fromString_toText h, fromJson_toJson (areInts_of_fromString h)⟩⟩
  rw [← accepts_iff]
  cases fromString s with
  | error e => simp
  | ok t => simp

/-- A text with leading zeros and the greatest value. -/
theorem representations_agree_zeros :
    fromString "RS<007,0,2147483647>" = .ok (.rs 7 0 2147483647) ∧
      fromString (toText (.rs 7 0 2147483647)) = .ok (.rs 7 0 2147483647) ∧
      fromJson (toJson (.rs 7 0 2147483647)) = .ok (.rs 7 0 2147483647) := by
  have h : fromString "RS<007,0,2147483647>" = .ok (.rs 7 0 2147483647) := by decide
  exact ⟨h, (representations_agree "RS<007,0,2147483647>").2.2 _ h⟩

end StorageType

end Spkdfs
