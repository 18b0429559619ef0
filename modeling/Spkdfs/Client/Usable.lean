import Spkdfs.Client.Session

/-!
# The numbers of a storage type

`StorageType::from_string` takes every number that fits in an `int`.  The block size and the
number of the fragments are products and sums of these numbers, and the block size is what the
loop of `put` reads at a time and what an offset is divided by.

`Usable` is what these places need.  A zero or a large number in the text breaks it, and
`usable_iff` says which numbers are fine.
-/

namespace Spkdfs

namespace StorageType

/-- What the rest of the client needs of a storage type. -/
structure Usable (t : StorageType) : Prop where
  /-- Neither product of `get_block_size` overflows. -/
  isInt_blockSize : IsInt (t.b * 1024) ∧ IsInt (t.b * 1024 * 1024)
  blockSize : t.getBlockSize = t.b * 2 ^ 20 ∧ 0 < t.getBlockSize
  isInt_blocks : ∀ k m b, t = .rs k m b → IsInt (k + m)
  blocks : 1 ≤ t.getDecodeBlocks ∧ t.getDecodeBlocks ≤ t.getBlocks
  /-- When every upload succeeds, the loop of `put` comes to the end of the file. -/
  progress : ∀ (x : External) (file : Bytes) (ups : List SDK.Uploads),
    (∀ block, ∀ up ∈ ups, ∃ s, SDK.encodeOne x t block up = .ok s) → file.length ≤ ups.length →
    ∃ sub, SDK.encodeFile x t file ups = .ok sub
  division : ∀ n, (∃ i, alignIndexDown n t.getBlockSize = .ok i) ∧
    (∃ i, alignIndexUp n t.getBlockSize = .ok i) ∧ ∃ i, alignUp n t.getBlockSize = .ok i

/-- The numbers for which all of this holds. -/
def InRange : StorageType → Prop
  | .rs k m b => 1 ≤ k ∧ k + m ≤ 2147483647 ∧ 1 ≤ b ∧ b ≤ 2047
  | .re replications b => 1 ≤ replications ∧ 1 ≤ b ∧ b ≤ 2047

/-- No number of a text has a sign. -/
def Unsigned : StorageType → Prop
  | .rs k m b => 0 ≤ k ∧ 0 ≤ m ∧ 0 ≤ b
  | .re replications b => 0 ≤ replications ∧ 0 ≤ b

theorem unsigned_of_fromString {input : String} {t : StorageType}
    (h : fromString input = .ok t) : t.Unsigned := by
  rcases fromString_cases h with
    ⟨_, _, _, k, m, b, hmatch, hk, hm, hb, rfl⟩ | ⟨_, _, replications, b, hmatch, hr, hb, rfl⟩
  · obtain ⟨_, hkg, hmg, hbg⟩ := matchRS_eq_some_iff.mp hmatch
    exact ⟨hkg.stoi_nonneg hk, hmg.stoi_nonneg hm, hbg.stoi_nonneg hb⟩
  · obtain ⟨_, hrg, hbg⟩ := matchRE_eq_some_iff.mp hmatch
    exact ⟨hrg.stoi_nonneg hr, hbg.stoi_nonneg hb⟩

variable {t : StorageType}

theorem getBlockSize_of_le (hlow : 0 ≤ t.b) (hhigh : t.b ≤ 2047) :
    t.getBlockSize = t.b * 2 ^ 20 := by
  have hint : IsInt (t.b * 1024 * 1024) := by
    unfold IsInt
    omega
  rw [getBlockSize, bmod_of_isInt hint]
  omega

/-- An upload for each block. -/
theorem exists_encodeBlocks {x : External} {blocks : List Bytes} {ups : List SDK.Uploads}
    (hups : ∀ block, ∀ up ∈ ups, ∃ s, SDK.encodeOne x t block up = .ok s)
    (hlen : blocks.length ≤ ups.length) : ∃ sub, SDK.encodeBlocks x t blocks ups = .ok sub := by
  induction blocks generalizing ups with
  | nil => exact ⟨[], rfl⟩
  | cons block blocks ih =>
    cases ups with
    | nil => exact absurd hlen (by simp)
    | cons up ups =>
      obtain ⟨s, hs⟩ := hups block up List.mem_cons_self
      have hrest : ∀ block, ∀ up ∈ ups, ∃ s, SDK.encodeOne x t block up = .ok s :=
        fun block up hmem => hups block up (List.mem_cons_of_mem _ hmem)
      obtain ⟨sub, hsub⟩ := ih hrest (by simpa using hlen)
      refine ⟨s :: sub, ?_⟩
      rw [SDK.encodeBlocks, hs, hsub]
      rfl

/-- A positive block size, and an upload for each byte of the file. -/
theorem exists_encodeFile (hpos : 0 < t.getBlockSize) {x : External} {file : Bytes}
    {ups : List SDK.Uploads} (hups : ∀ block, ∀ up ∈ ups, ∃ s, SDK.encodeOne x t block up = .ok s)
    (hlen : file.length ≤ ups.length) : ∃ sub, SDK.encodeFile x t file ups = .ok sub := by
  have hcount : (SDK.putBlocks t file).length ≤ file.length := Chunks.length_bufferReads_le ..
  rw [SDK.encodeFile, if_neg (by omega), if_neg (by omega)]
  exact exists_encodeBlocks hups (by omega)

theorem division_of_pos {alignment : Int} (h : 0 < alignment) (n : Int) :
    (∃ i, alignIndexDown n alignment = .ok i) ∧ (∃ i, alignIndexUp n alignment = .ok i) ∧
      ∃ i, alignUp n alignment = .ok i := by
  have hne : alignment ≠ 0 := by omega
  exact ⟨⟨_, if_neg hne⟩, ⟨_, if_neg hne⟩, ⟨_, if_neg hne⟩⟩

theorem b_of_inRange (h : t.InRange) : 1 ≤ t.b ∧ t.b ≤ 2047 := by
  cases t with
  | rs k m b => exact ⟨h.2.2.1, h.2.2.2⟩
  | re replications b => exact ⟨h.2.1, h.2.2⟩

theorem blocks_of_inRange (hunsigned : t.Unsigned) (h : t.InRange) :
    (∀ k m b, t = .rs k m b → IsInt (k + m)) ∧
      1 ≤ t.getDecodeBlocks ∧ t.getDecodeBlocks ≤ t.getBlocks := by
  cases t with
  | rs k m b =>
    obtain ⟨hk, hm, hb⟩ := hunsigned
    obtain ⟨hkpos, hsum, _⟩ := h
    have hint : IsInt (k + m) := by
      unfold IsInt
      omega
    refine ⟨?_, hkpos, ?_⟩
    · rintro _ _ _ ⟨rfl, rfl, rfl⟩
      exact hint
    · show k ≤ (k + m).bmod (2 ^ 32)
      rw [bmod_of_isInt hint]
      omega
  | re replications b =>
    refine ⟨?_, Int.le_refl 1, h.1⟩
    intro k m b' hrs
    cases hrs

/-- A storage type that `from_string` accepts is usable exactly when its numbers are in range. -/
theorem usable_iff {input : String} (h : fromString input = .ok t) : t.Usable ↔ t.InRange := by
  have hunsigned := unsigned_of_fromString h
  constructor
  · intro husable
    have hb : 1 ≤ t.b ∧ t.b ≤ 2047 := by
      have hint := husable.isInt_blockSize.2
      have hpos := husable.blockSize.2
      rw [husable.blockSize.1] at hpos
      unfold IsInt at hint
      omega
    cases t with
    | rs k m b =>
      have hint := husable.isInt_blocks k m b rfl
      unfold IsInt at hint
      exact ⟨husable.blocks.1, by omega, hb⟩
    | re replications b => exact ⟨husable.blocks.2, hb⟩
  · intro hrange
    obtain ⟨hlow, hhigh⟩ := b_of_inRange hrange
    obtain ⟨hint, hblocks⟩ := blocks_of_inRange hunsigned hrange
    have hsize := getBlockSize_of_le (by omega) hhigh
    have hpos : 0 < t.getBlockSize := by omega
    exact {
      isInt_blockSize := by unfold IsInt; omega
      blockSize := ⟨hsize, hpos⟩
      isInt_blocks := hint
      blocks := hblocks
      progress := fun _ _ _ hups hlen => exists_encodeFile hpos hups hlen
      division := division_of_pos hpos }

theorem usable_rs : fromString "RS<7,5,16>" = .ok (.rs 7 5 16) ∧ Usable (.rs 7 5 16) := by
  have htext : fromString "RS<7,5,16>" = .ok (.rs 7 5 16) := by rfl
  exact ⟨htext, (usable_iff htext).mpr (by unfold InRange; omega)⟩

/-- `RS<7,5,0>` is accepted, and its blocks have no byte. -/
theorem not_usable_zeroBlocks :
    ¬ ∀ (input : String) (t : StorageType), fromString input = .ok t → t.Usable := by
  intro h
  have husable := h "RS<7,5,0>" (.rs 7 5 0) (by rfl)
  exact absurd husable.blockSize.2 (by decide)

end StorageType

end Spkdfs
