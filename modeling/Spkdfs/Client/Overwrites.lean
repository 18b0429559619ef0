import Spkdfs.Client.Extent

/-!
# The bytes that `write_data` leaves in the block files

A file is a flat string of bytes, and a write puts its bytes over the string.  The block files
should hold the blocks of that string.  But `write_data` opens them for appending, so a byte is
where it belongs only if the file ends there.

`PlacedAt` is a condition on one block of a write.  In a run of writes that meet it for all of
their blocks, the block files hold the string, and the bytes of the last write are at their
offset (`holdsFlat_of_placed`).
-/

namespace Spkdfs

open Effects Windows

namespace SDK

/-! ## The string -/

/-- The file of a block that counts: it is not empty, or `fsync` uploads it. -/
def OnDisk (st : State) (path : String) (i : ℕ) (data : Bytes) : Prop :=
  st.block path i = some data ∧ (data ≠ [] ∨ i ∈ st.dirty path)

/-- Each block file starts with its block of the string. -/
def HoldsFlat (st : State) (path : String) (bs : ℕ) (flat : Bytes) : Prop :=
  ∀ i data, OnDisk st path i data → chunk bs flat i <+: data

/-- The bytes are found at this offset in the block files. -/
def Found (st : State) (path : String) (bs offset : ℕ) (s : Bytes) : Prop :=
  ∀ p, offset ≤ p → p < offset + s.length →
    ∃ data, st.block path (p / bs) = some data ∧ data[p % bs]? = s[p - offset]?

/-- The string can be the content of a file with this inode. -/
structure ContentOf (inode : Inode) (flat : Bytes) : Prop where
  positive : 0 < inode.getBlockSize
  length : flat.length = inode.filesize.toNat
  cover : inode.filesize.toNat ≤ inode.sub.length * inode.blockSize

/-- What the datanodes answer for a block starts with the block of the string, and an `int`
can hold its length. -/
def AnswersFlat (x : External) (net : Net) (inode : Inode) (flat : Bytes) : Prop :=
  ∀ i s data, inode.sub[i]? = some s → decodeEntry x net inode s = .ok data →
    chunk inode.blockSize flat i <+: data ∧ data.length < 2 ^ 31

/-- The files that `read_data` may read are not too long for an `int`. -/
def SmallFolder (st : State) (path : String) : Prop :=
  ∀ i data, st.block path i = some data → data.length < 2 ^ 31

/-- A block of a write from `offset` up to `last` gets its bytes. -/
inductive PlacedAt (inode : Inode) (st : State) (path : String) (flat : Bytes)
    (offset last i : ℕ) : Prop
  /-- The file ends where the bytes belong, and no byte of the string is behind them. -/
  | append (hlength : ((st.block path i).getD []).length = offset - i * inode.blockSize)
    (hend : flat.length ≤ last ∨ (i + 1) * inode.blockSize ≤ last)
  /-- There are no bytes for the block, and its file is there. -/
  | there (hshare : share inode.blockSize offset last i = 0)
    (hfile : (st.block path i).getD [] ≠ [])
  /-- There are no bytes for the block, and it is fetched. -/
  | fetched (hshare : share inode.blockSize offset last i = 0)
    (hpath : path = inode.fullpath.text) (hfirst : i = offset / inode.blockSize)
    (hfetch : Exact.FetchesFirst inode offset)
  /-- There are no bytes for the block, and the string ends before it. -/
  | behind (hshare : share inode.blockSize offset last i = 0)
    (hend : flat.length ≤ i * inode.blockSize)

variable {x : External} {net : Net} {inode : Inode} {st : State} {path : String} {folder : Folder}
  {flat flat₀ : Bytes} {offset i : ℕ} {s : Bytes}

theorem getD_answers (hanswers : AnswersFlat x net inode flat₀) (i : ℕ) :
    ((Exact.answers x net inode)[i]?.getD []).length < 2 ^ 31 := by
  rw [Exact.answers, List.getElem?_map]
  cases hs : inode.sub[i]? with
  | none => exact Nat.two_pow_pos 31
  | some s =>
    rw [Option.map_some, Option.getD_some]
    cases hdecode : decodeEntry x net inode s with
    | error e => exact Nat.two_pow_pos 31
    | ok data => exact (hanswers i s data hs hdecode).2

theorem length_currentBlock {block : ℕ → Option Bytes}
    (hanswers : AnswersFlat x net inode flat₀) {i : ℕ}
    (hsmall : ((block i).getD []).length < 2 ^ 31) :
    (Exact.currentBlock block (Exact.answers x net inode) i).length < 2 ^ 31 := by
  by_cases hempty : (block i).getD [] = []
  · rw [Exact.currentBlock_of_empty hempty]
    exact getD_answers hanswers i
  · rw [Exact.currentBlock_of_ne_nil hempty]
    exact hsmall

/-- What the fetches leave can be read again. -/
theorem SmallFolder.withBlocks (hsmall : SmallFolder st inode.fullpath.text)
    (hanswers : AnswersFlat x net inode flat₀) (is : List ℕ) :
    SmallFolder (Exact.withBlocks st inode.fullpath.text (Exact.answers x net inode) is)
      inode.fullpath.text := by
  induction is generalizing st with
  | nil => exact hsmall
  | cons i is ih =>
    have hfile : ∀ j data, (st.folder inode.fullpath.text).block j = some data →
        data.length < 2 ^ 31 := by
      intro j data hdata
      cases htmp : st.tmp inode.fullpath.text with
      | none =>
        rw [State.folder, htmp] at hdata
        cases hdata
      | some folder =>
        rw [State.folder_of_tmp htmp, ← State.block_of_tmp htmp] at hdata
        exact hsmall j data hdata
    refine ih fun j data hdata => ?_
    rw [State.block_withBlock] at hdata
    split at hdata
    · rw [← Option.some.inj hdata]
      refine length_currentBlock hanswers ?_
      cases hblock : (st.folder inode.fullpath.text).block i with
      | none => exact Nat.two_pow_pos 31
      | some data => exact hfile i data hblock
    · exact hfile j data hdata

/-! ## One block of a write -/

/-- The file of a block after the fetches of a write. -/
def fetchedFile (x : External) (net : Net) (inode : Inode) (path : String) (folder : Folder)
    (offset size i : ℕ) : Bytes :=
  (Exact.fetchedBlock inode.fullpath.text path (Exact.answers x net inode)
    (Exact.fetches inode offset size) folder.block i).getD []

theorem fetchedFile_of_ne_nil {size : ℕ} (hfile : (folder.block i).getD [] ≠ []) :
    fetchedFile x net inode path folder offset size i = (folder.block i).getD [] := by
  rw [fetchedFile, Exact.fetchedBlock]
  split
  · rw [Option.getD_some, Exact.currentBlock_of_ne_nil hfile]
  · rfl

theorem fetchedFile_of_not_mem {size : ℕ} (hi : i ∉ Exact.fetches inode offset size) :
    fetchedFile x net inode path folder offset size i = (folder.block i).getD [] := by
  rw [fetchedFile, Exact.fetchedBlock, if_neg fun h => hi h.2]

/-- A block whose file is empty, and whose first byte is written, is not fetched if nothing of
the string is behind the write. -/
theorem not_mem_fetches {size : ℕ} (hbs : 0 < inode.blockSize)
    (hsize : inode.filesize.toNat ≤ flat.length) (hfirst : offset ≤ i * inode.blockSize)
    (hend : flat.length ≤ offset + size ∨ (i + 1) * inode.blockSize ≤ offset + size) :
    i ∉ Exact.fetches inode offset size := by
  intro hmem
  rcases Exact.mem_prefetched.mp (Exact.mem_fetches.mp hmem).1 with ⟨rfl, _, hmod⟩ | ⟨rfl, hlt, _⟩
  · have hdiv := Nat.div_add_mod' offset inode.blockSize
    omega
  · have hlast := (div_le_iff hbs).mp (le_refl ((offset + size) / inode.blockSize))
    omega

/-- A block with a file that ends where the bytes belong. -/
theorem chunk_of_append (x : External) (net : Net) (hbs : 0 < inode.blockSize)
    (hfolder : st.tmp path = some folder)
    (hholds : HoldsFlat st path inode.blockSize flat)
    (hsize : inode.filesize.toNat ≤ flat.length) (hoffset : offset ≤ flat.length)
    (hi : i ∈ Exact.touched inode.blockSize offset s.length)
    (hlength : ((st.block path i).getD []).length = offset - i * inode.blockSize)
    (hend : flat.length ≤ offset + s.length ∨ (i + 1) * inode.blockSize ≤ offset + s.length) :
    chunk inode.blockSize (overwriteAt flat offset s) i =
      fetchedFile x net inode path folder offset s.length i ++
        piece inode.blockSize offset s i := by
  obtain ⟨hfirst, hlast⟩ := Exact.mem_touched.mp hi
  have hfirst' := (div_le_iff hbs).mp hfirst
  rw [chunk_overwriteAt hoffset hfirst'.le ((le_div_iff hbs).mp hlast) hend]
  congr 1
  have hblock := State.block_of_tmp hfolder i
  by_cases hempty : (folder.block i).getD [] = []
  · rw [hblock, hempty, List.length_nil] at hlength
    rw [← hlength, List.take_zero, fetchedFile_of_not_mem
      (not_mem_fetches hbs hsize (Nat.le_of_sub_eq_zero hlength.symm) hend), hempty]
  · obtain ⟨data, hdata⟩ : ∃ data, folder.block i = some data := by
      cases hfile : folder.block i with
      | none =>
        rw [hfile] at hempty
        exact absurd rfl hempty
      | some data => exact ⟨data, rfl⟩
    rw [hblock, hdata, Option.getD_some] at hlength
    rw [fetchedFile_of_ne_nil hempty, hdata, Option.getD_some]
    rw [hdata, Option.getD_some] at hempty
    have hmul : (i + 1) * inode.blockSize = i * inode.blockSize + inode.blockSize :=
      Nat.succ_mul _ _
    -- The block of the string is as long as the file, at least.
    have hle : data.length ≤ (chunk inode.blockSize flat i).length := by
      rw [length_chunk]
      omega
    have hsame : chunk inode.blockSize flat i = data :=
      (hholds i data ⟨hblock.trans hdata, Or.inl hempty⟩).eq_of_length_le hle
    rw [hsame, ← hlength, List.take_length]

/-- A block without bytes of the write. -/
theorem chunk_of_share (hfolder : st.tmp path = some folder)
    (hholds : HoldsFlat st path inode.blockSize flat) (hoffset : offset ≤ flat.length)
    (hshare : share inode.blockSize offset (offset + s.length) i = 0)
    (hfile : (∃ data, OnDisk st path i data) ∨ chunk inode.blockSize flat i <+:
      fetchedFile x net inode path folder offset s.length i) :
    chunk inode.blockSize (overwriteAt flat offset s) i <+:
      fetchedFile x net inode path folder offset s.length i ++
        piece inode.blockSize offset s i := by
  have hpiece : piece inode.blockSize offset s i = [] :=
    List.length_eq_zero_iff.mp (length_piece.trans hshare)
  rw [chunk_overwriteAt_of_share hoffset hshare, hpiece, List.append_nil]
  rcases hfile with ⟨data, hdisk⟩ | hfile
  · have hchunk := hholds i data hdisk
    have hdata : folder.block i = some data := (State.block_of_tmp hfolder i).symm.trans hdisk.1
    by_cases hempty : data = []
    · rw [hempty] at hchunk
      obtain ⟨rest, hrest⟩ := hchunk
      rw [(List.append_eq_nil_iff.mp hrest).1]
      exact ⟨_, rfl⟩
    · rw [fetchedFile_of_ne_nil (by rw [hdata]; exact hempty), hdata]
      exact hchunk
  · exact hfile

theorem share_of_not_touched {size : ℕ} (hbs : 0 < inode.blockSize)
    (hi : i ∉ Exact.touched inode.blockSize offset size) :
    share inode.blockSize offset (offset + size) i = 0 := by
  rw [Exact.mem_touched, div_le_iff hbs, le_div_iff hbs] at hi
  rw [share]
  omega

theorem exists_onDisk (hfile : (st.block path i).getD [] ≠ []) : ∃ data, OnDisk st path i data := by
  cases hdata : st.block path i with
  | none =>
    rw [hdata] at hfile
    exact absurd rfl hfile
  | some data =>
    rw [hdata, Option.getD_some] at hfile
    exact ⟨data, hdata, Or.inl hfile⟩

/-- The string still has the bytes of the file at `open` in the blocks that are not on the
disk. -/
def OldBlocks (st : State) (path : String) (bs : ℕ) (flat₀ flat : Bytes) : Prop :=
  ∀ i, (¬ ∃ data, OnDisk st path i data) → chunk bs flat i = chunk bs flat₀ i

/-- After a write, a block that is placed has its part of the new string in its file. -/
theorem chunk_of_placedAt {st₁ : State} (hbs : 0 < inode.blockSize)
    (hcontent : ContentOf inode flat₀) (hfolder : st.tmp path = some folder)
    (hholds : HoldsFlat st path inode.blockSize flat)
    (hold : OldBlocks st path inode.blockSize flat₀ flat)
    (hanswers : AnswersFlat x net inode flat₀)
    (hfetch : (Exact.prefetch x net inode offset s.length).run st = .ok () st₁)
    (hsize : inode.filesize.toNat ≤ flat.length) (hoffset : offset ≤ flat.length)
    (hi : i ∈ Exact.touched inode.blockSize offset s.length)
    (hplaced : PlacedAt inode st path flat offset (offset + s.length) i) :
    chunk inode.blockSize (overwriteAt flat offset s) i <+:
      fetchedFile x net inode path folder offset s.length i ++
        piece inode.blockSize offset s i := by
  cases hplaced with
  | append hlength hend =>
    have hchunk := chunk_of_append x net hbs hfolder hholds hsize hoffset hi hlength hend
    exact ⟨[], (List.append_nil _).trans hchunk⟩
  | there hshare hfile =>
    exact chunk_of_share hfolder hholds hoffset hshare (Or.inl (exists_onDisk hfile))
  | behind hshare hend =>
    refine chunk_of_share hfolder hholds hoffset hshare (Or.inr ?_)
    rw [chunk_eq_nil hend]
    exact ⟨_, rfl⟩
  | fetched hshare hpath hfirst hfirstFetch =>
    refine chunk_of_share hfolder hholds hoffset hshare ?_
    by_cases hdisk : ∃ data, OnDisk st path i data
    · exact Or.inl hdisk
    refine Or.inr ?_
    subst hpath hfirst
    have hempty : (st.block inode.fullpath.text (offset / inode.blockSize)).getD [] = [] :=
      not_not.mp fun hne => hdisk (exists_onDisk hne)
    have hlt := Exact.div_lt_length hcontent.cover hfirstFetch.1
    have hs := List.getElem?_eq_getElem hlt
    obtain ⟨block, hdecode⟩ := Exact.decoded_of_run_prefetch hfetch hfirstFetch hs hempty
    have hmem : offset / inode.blockSize ∈ Exact.fetches inode offset s.length :=
      Exact.mem_fetches.mpr ⟨Exact.mem_prefetched.mpr (Or.inl ⟨rfl, hfirstFetch⟩), hlt⟩
    rw [State.block_of_tmp hfolder] at hempty
    rw [hold _ hdisk, fetchedFile, Exact.fetchedBlock, if_pos ⟨rfl, hmem⟩, Option.getD_some,
      Exact.currentBlock_of_empty hempty, Exact.getElem?_answers hs hdecode]
    exact (hanswers _ _ block hs hdecode).1

/-- Such a file is not longer than it may be. -/
theorem length_of_placedAt (hbs : 0 < inode.blockSize) (hfolder : st.tmp path = some folder)
    (hholds : HoldsFlat st path inode.blockSize flat)
    (hsize : inode.filesize.toNat ≤ flat.length) (hoffset : offset ≤ flat.length)
    (hi : i ∈ Exact.touched inode.blockSize offset s.length)
    (hsmall : (fetchedFile x net inode path folder offset s.length i).length < 2 ^ 31)
    (hplaced : PlacedAt inode st path flat offset (offset + s.length) i) :
    (fetchedFile x net inode path folder offset s.length i ++
      piece inode.blockSize offset s i).length < 2 ^ 31 := by
  have hshort : share inode.blockSize offset (offset + s.length) i = 0 →
      (fetchedFile x net inode path folder offset s.length i ++
        piece inode.blockSize offset s i).length < 2 ^ 31 := by
    intro hshare
    rw [List.length_append, length_piece, hshare, Nat.add_zero]
    exact hsmall
  cases hplaced with
  | append hlength hend =>
    rw [← chunk_of_append x net hbs hfolder hholds hsize hoffset hi hlength hend, length_chunk]
    exact lt_of_le_of_lt (Nat.min_le_left _ _) inode.blockSize_lt
  | there hshare hfile => exact hshort hshare
  | fetched hshare hpath hfirst hfetch => exact hshort hshare
  | behind hshare hend => exact hshort hshare

/-- The bytes of a write are found, once its blocks are on the disk. -/
theorem found_of_holdsFlat {bs : ℕ} (hbs : 0 < bs) (hoffset : offset ≤ flat.length)
    (hdisk : ∀ i ∈ Exact.touched bs offset s.length, ∃ data, OnDisk st path i data)
    (hholds : HoldsFlat st path bs (overwriteAt flat offset s)) : Found st path bs offset s := by
  intro p hp hp'
  obtain ⟨data, hdata⟩ := hdisk (p / bs) (Exact.mem_touched.mpr
    ⟨Nat.div_le_div_right hp, Nat.div_le_div_right hp'.le⟩)
  refine ⟨data, hdata.1, ?_⟩
  obtain ⟨rest, hrest⟩ := hholds (p / bs) data hdata
  have hchunk : (chunk bs (overwriteAt flat offset s) (p / bs))[p % bs]? = s[p - offset]? := by
    rw [getElem?_chunk, if_pos (Nat.mod_lt p hbs), Nat.div_add_mod', getElem?_overwriteAt hoffset,
      if_pos ⟨hp, hp'⟩]
  have hlt : p - offset < s.length := by omega
  rw [List.getElem?_eq_getElem hlt] at hchunk ⊢
  obtain ⟨hlt', _⟩ := List.getElem?_eq_some_iff.mp hchunk
  rw [← hrest, List.getElem?_append_left hlt', hchunk]

/-! ## Runs -/

/-- An open file, with the string that it should hold and the last write. -/
structure Overwritten where
  st : State
  flat : Bytes
  offset : ℕ
  s : Bytes

namespace Overwritten

/-- A call of `write_data`, with what the datanodes answer meanwhile. -/
structure Event where
  net : Net
  offset : UInt64
  s : Bytes

/-- Right after an `open` for writing: the string is the content of the file, and what is on
the disk are blocks of it. -/
structure Start (x : External) (path : String) (inode : Inode) (w : Overwritten) : Prop where
  opened : ∃ flags clock st, flags.write = true ∧ (openFile x path flags clock).run st = .ok () w.st
  cache : w.st.localInodeCache path = some inode
  content : ContentOf inode w.flat
  holds : HoldsFlat w.st path inode.blockSize w.flat
  small : SmallFolder w.st inode.fullpath.text
  fresh : w.s = []

/-- A write that returns. -/
def step (x : External) (path : String) (w : Overwritten) (ev : Event) : Option Overwritten :=
  match (writeData x ev.net path ev.offset ev.s).run w.st with
  | .ok _ st => some ⟨st, overwriteAt w.flat ev.offset.toNat ev.s, ev.offset.toNat, ev.s⟩
  | .error _ _ => none

/-- The write does not start behind the end of the string, and the datanodes have the blocks of
the file. -/
def Allowed (x : External) (inode : Inode) (flat₀ : Bytes) (w : Overwritten) (ev : Event) : Prop :=
  ev.offset.toNat ≤ w.flat.length ∧ AnswersFlat x ev.net inode flat₀

/-- It ends below 2 GiB, and all of its blocks get their bytes. -/
def Placed (inode : Inode) (path : String) (w : Overwritten) (ev : Event) : Prop :=
  ev.offset.toNat + ev.s.length < 2 ^ 31 ∧
    ∀ i ∈ Exact.touched inode.blockSize ev.offset.toNat ev.s.length,
      PlacedAt inode w.st path w.flat ev.offset.toNat (ev.offset.toNat + ev.s.length) i

structure Invariant (path : String) (inode : Inode) (flat₀ : Bytes) (w : Overwritten) : Prop where
  opened : ∃ folder, Exact.OpenFile w.st path inode folder
  holds : HoldsFlat w.st path inode.blockSize w.flat
  old : OldBlocks w.st path inode.blockSize flat₀ w.flat
  size : inode.filesize.toNat ≤ w.flat.length
  small : SmallFolder w.st inode.fullpath.text
  found : Found w.st path inode.blockSize w.offset w.s

theorem invariant_start {w : Overwritten} (h : w.Start x path inode) :
    w.Invariant path inode w.flat := by
  obtain ⟨flags, clock, st, hwrite, hrun⟩ := h.opened
  obtain ⟨inode', folder, hopen, _⟩ := Exact.openFile_of_run hwrite hrun
  obtain rfl := Option.some.inj (hopen.cache.symm.trans h.cache)
  refine ⟨⟨folder, hopen⟩, h.holds, fun _ _ => rfl, h.content.length.ge, h.small, ?_⟩
  intro p hp hp'
  rw [h.fresh, List.length_nil] at hp'
  omega

section Write

variable {st₁ : State}

/-- The state that a write leaves behind its fetches. -/
def written (x : External) (net : Net) (inode : Inode) (path : String) (offset : ℕ) (s : Bytes)
    (folder : Folder) (st₁ : State) : State :=
  st₁.setFolder path (Exact.extended inode path (Exact.answers x net inode) offset s folder)

theorem block_written (hfolder : st.tmp path = some folder) (i : ℕ) :
    (written x net inode path offset s folder st₁).block path i =
      if i ∈ Exact.touched inode.blockSize offset s.length then
        some (fetchedFile x net inode path folder offset s.length i ++
          piece inode.blockSize offset s i)
      else st.block path i := by
  rw [written, State.block_setFolder, Exact.block_extended]
  split
  · rfl
  · rename_i hi
    have hnot : i ∉ Exact.fetches inode offset s.length := fun hmem =>
      hi (Exact.mem_touched_of_mem_prefetched (Exact.mem_fetches.mp hmem).1)
    rw [Exact.fetchedBlock, if_neg fun h => hnot h.2, State.block_of_tmp hfolder]

theorem mem_dirty_written (hfolder : st.tmp path = some folder) (i : ℕ) :
    i ∈ (written x net inode path offset s folder st₁).dirty path ↔
      i ∈ Exact.touched inode.blockSize offset s.length ∨ i ∈ st.dirty path := by
  rw [written, State.dirty_of_tmp (State.tmp_setFolder _ _ _), Exact.mem_dirty_extended,
    State.dirty_of_tmp hfolder]

theorem onDisk_of_touched (hfolder : st.tmp path = some folder)
    (hi : i ∈ Exact.touched inode.blockSize offset s.length) :
    OnDisk (written x net inode path offset s folder st₁) path i
      (fetchedFile x net inode path folder offset s.length i ++
        piece inode.blockSize offset s i) := by
  refine ⟨?_, Or.inr ((mem_dirty_written hfolder i).mpr (Or.inl hi))⟩
  rw [block_written hfolder, if_pos hi]

theorem onDisk_of_not_touched (hfolder : st.tmp path = some folder)
    (hi : i ∉ Exact.touched inode.blockSize offset s.length) {data : Bytes} :
    OnDisk (written x net inode path offset s folder st₁) path i data ↔ OnDisk st path i data := by
  rw [OnDisk, block_written hfolder, mem_dirty_written hfolder, if_neg hi, or_iff_right hi, OnDisk]

variable {w : Overwritten} {ev : Event}

theorem holdsFlat_written (hcontent : ContentOf inode flat₀) (hs : w.Invariant path inode flat₀)
    (hfolder : w.st.tmp path = some folder) (hallowed : w.Allowed x inode flat₀ ev)
    (hplaced : w.Placed inode path ev)
    (hfetch : (Exact.prefetch x ev.net inode ev.offset.toNat ev.s.length).run w.st = .ok () st₁) :
    HoldsFlat (written x ev.net inode path ev.offset.toNat ev.s folder st₁) path inode.blockSize
      (overwriteAt w.flat ev.offset.toNat ev.s) := by
  obtain ⟨hoffset, hanswers⟩ := hallowed
  have hbs := Inode.blockSize_pos hcontent.positive
  intro i data hdisk
  by_cases hi : i ∈ Exact.touched inode.blockSize ev.offset.toNat ev.s.length
  · rw [← Option.some.inj ((onDisk_of_touched hfolder hi).1.symm.trans hdisk.1)]
    exact chunk_of_placedAt hbs hcontent hfolder hs.holds hs.old hanswers hfetch hs.size
      hoffset hi (hplaced.2 i hi)
  · rw [chunk_overwriteAt_of_share hoffset (share_of_not_touched hbs hi)]
    exact hs.holds i data ((onDisk_of_not_touched hfolder hi).mp hdisk)

theorem oldBlocks_written (hcontent : ContentOf inode flat₀) (hs : w.Invariant path inode flat₀)
    (hfolder : w.st.tmp path = some folder) (hoffset : ev.offset.toNat ≤ w.flat.length) :
    OldBlocks (written x ev.net inode path ev.offset.toNat ev.s folder st₁) path inode.blockSize
      flat₀ (overwriteAt w.flat ev.offset.toNat ev.s) := by
  have hbs := Inode.blockSize_pos hcontent.positive
  intro i hnot
  have hi : i ∉ Exact.touched inode.blockSize ev.offset.toNat ev.s.length :=
    fun hi => hnot ⟨_, onDisk_of_touched hfolder hi⟩
  rw [chunk_overwriteAt_of_share hoffset (share_of_not_touched hbs hi)]
  exact hs.old i fun ⟨data, hdata⟩ => hnot ⟨data, (onDisk_of_not_touched hfolder hi).mpr hdata⟩

theorem smallFolder_written (hcontent : ContentOf inode flat₀) (hs : w.Invariant path inode flat₀)
    (hfolder : w.st.tmp path = some folder) (hallowed : w.Allowed x inode flat₀ ev)
    (hplaced : w.Placed inode path ev)
    (hst₁ : st₁ = Exact.withBlocks w.st inode.fullpath.text (Exact.answers x ev.net inode)
      (Exact.fetches inode ev.offset.toNat ev.s.length)) :
    SmallFolder (written x ev.net inode path ev.offset.toNat ev.s folder st₁)
      inode.fullpath.text := by
  obtain ⟨hoffset, hanswers⟩ := hallowed
  have hbs := Inode.blockSize_pos hcontent.positive
  have hsmall := hs.small.withBlocks hanswers (Exact.fetches inode ev.offset.toNat ev.s.length)
  rw [← hst₁] at hsmall
  intro i data hdata
  by_cases hpath : inode.fullpath.text = path
  · rw [hpath, block_written hfolder] at hdata
    split at hdata
    · rename_i hi
      rw [← Option.some.inj hdata]
      refine length_of_placedAt hbs hfolder hs.holds hs.size hoffset hi ?_ (hplaced.2 i hi)
      have htmp := Exact.tmp_withBlocks hfolder inode.fullpath.text (Exact.answers x ev.net inode)
        (Exact.fetches inode ev.offset.toNat ev.s.length)
      rw [← hst₁] at htmp
      rw [fetchedFile]
      cases hfile : Exact.fetchedBlock inode.fullpath.text path (Exact.answers x ev.net inode)
          (Exact.fetches inode ev.offset.toNat ev.s.length) folder.block i with
      | none => exact Nat.two_pow_pos 31
      | some file =>
        refine hsmall i file ?_
        rw [hpath, State.block_of_tmp htmp]
        exact hfile
    · exact hs.small i data (hpath ▸ hdata)
  · rw [written, State.block, State.tmp_setFolder_of_ne hpath] at hdata
    exact hsmall i data hdata

end Write

theorem invariant_step (hcontent : ContentOf inode flat₀) {w w' : Overwritten} {ev : Event}
    (hs : w.Invariant path inode flat₀) (hallowed : w.Allowed x inode flat₀ ev)
    (hplaced : w.Placed inode path ev) (hstep : w.step x path ev = some w') :
    w'.Invariant path inode flat₀ := by
  obtain ⟨folder, hopen⟩ := hs.opened
  have hbs := Inode.blockSize_pos hcontent.positive
  rw [step, Exact.run_writeData_exact hopen.cache hcontent.positive hcontent.cover hplaced.1
    fun i data _ _ hdata => hs.small i data hdata] at hstep
  split at hstep
  · rename_i hrun
    cases hstep
    obtain ⟨st₁, hfetch, hst₁, rfl⟩ := Exact.run_writeData_eq_ok hcontent.positive hopen hrun
    have hholds := holdsFlat_written hcontent hs hopen.tmp hallowed hplaced hfetch
    refine ⟨⟨_, Exact.openFile_extended hopen hst₁⟩, hholds,
      oldBlocks_written hcontent hs hopen.tmp hallowed.1, ?_,
      smallFolder_written hcontent hs hopen.tmp hallowed hplaced hst₁,
      found_of_holdsFlat hbs hallowed.1 (fun i hi => ⟨_, onDisk_of_touched hopen.tmp hi⟩) hholds⟩
    rw [length_overwriteAt hallowed.1]
    exact hs.size.trans (le_max_left _ _)
  · cases hstep

end Overwritten

/-- In a run of writes whose blocks all get their bytes, the block files hold the string, and
the bytes of the last write are at their offset. -/
theorem holdsFlat_of_placed {w₀ w : Overwritten} (hstart : w₀.Start x path inode)
    (h : Runs.Reach (Overwritten.step x path)
      (fun w ev => w.Allowed x inode w₀.flat ev ∧ w.Placed inode path ev) w₀ w) :
    HoldsFlat w.st path inode.blockSize w.flat ∧
      Found w.st path inode.blockSize w.offset w.s := by
  have hs : w.Invariant path inode w₀.flat :=
    h.invariant (Overwritten.invariant_start hstart) fun _ _ _ _ hs hok hstep =>
      Overwritten.invariant_step hstart.content hs hok.1 hok.2 hstep
  exact ⟨hs.holds, hs.found⟩

/-- The empty file, when it has just been opened. -/
def emptyOverwritten : Overwritten := ⟨openedFile, [], 0, []⟩

theorem openedFile_block (i : ℕ) : openedFile.block "/f" i = none := by
  with_unfolding_all rfl

theorem start_emptyOverwritten :
    emptyOverwritten.Start byteExternal "/f" Exact.openedInode where
  opened := ⟨⟨false, true, false⟩, fun _ => 200, emptyFile, rfl, run_openFile_emptyFile⟩
  cache := Exact.openedFile_cache
  content := ⟨by decide +kernel, by decide +kernel, by decide +kernel⟩
  holds i data _ := by
    rw [chunk_eq_nil (Nat.zero_le _)]
    exact ⟨data, rfl⟩
  small i data hdata := by
    have hpath : Exact.openedInode.fullpath.text = "/f" := by decide +kernel
    rw [hpath, show emptyOverwritten.st.block "/f" i = none from openedFile_block i] at hdata
    cases hdata
  fresh := rfl

theorem answersFlat_openedInode (net : Net) (flat : Bytes) :
    AnswersFlat byteExternal net Exact.openedInode flat := by
  have hsub : Exact.openedInode.sub = [] := by decide +kernel
  intro i s data hs
  rw [hsub] at hs
  cases hs

/-- A byte is written to the start of the file. -/
def firstWrite : Overwritten :=
  ⟨after (writeData byteExternal byteNet "/f" 0 [7]) openedFile, [7], 0, [7]⟩

theorem step_firstWrite :
    emptyOverwritten.step byteExternal "/f" ⟨byteNet, 0, [7]⟩ = some firstWrite := by
  have hrun : (writeData byteExternal byteNet "/f" 0 [7]).run openedFile =
      .ok () (after (writeData byteExternal byteNet "/f" 0 [7]) openedFile) :=
    run_of_returned (by decide +kernel)
  rw [Overwritten.step, show emptyOverwritten.st = openedFile from rfl, hrun]
  rfl

/-- Another byte is written behind it. -/
theorem found_secondWrite :
    ∃ w : Overwritten, w.flat = [7, 8] ∧ HoldsFlat w.st "/f" Exact.openedInode.blockSize w.flat ∧
      Found w.st "/f" Exact.openedInode.blockSize 1 [8] := by
  have hbs : Exact.openedInode.blockSize = 1048576 := by decide +kernel
  have hfirst : Exact.touched 1048576 0 1 = [0] := by decide
  have hsecond : Exact.touched 1048576 1 1 = [0] := by decide
  have hplaced : emptyOverwritten.Placed Exact.openedInode "/f" ⟨byteNet, 0, [7]⟩ := by
    refine ⟨by decide, fun i hi => ?_⟩
    rw [hbs] at hi
    obtain rfl := List.mem_singleton.mp (hfirst ▸ hi)
    exact .append (by decide +kernel) (Or.inl (by decide))
  have hplaced' : firstWrite.Placed Exact.openedInode "/f" ⟨byteNet, 1, [8]⟩ := by
    refine ⟨by decide, fun i hi => ?_⟩
    rw [hbs] at hi
    obtain rfl := List.mem_singleton.mp (hsecond ▸ hi)
    exact .append (by decide +kernel) (Or.inl (by decide))
  have hrun : (writeData byteExternal byteNet "/f" 1 [8]).run firstWrite.st =
      .ok () (after (writeData byteExternal byteNet "/f" 1 [8]) firstWrite.st) :=
    run_of_returned (by decide +kernel)
  have hstep : firstWrite.step byteExternal "/f" ⟨byteNet, 1, [8]⟩ =
      some ⟨after (writeData byteExternal byteNet "/f" 1 [8]) firstWrite.st, [7, 8], 1, [8]⟩ := by
    rw [Overwritten.step, hrun]
    rfl
  exact ⟨_, rfl, holdsFlat_of_placed start_emptyOverwritten
    ((Runs.Reach.refl.tail ⟨⟨by decide, answersFlat_openedInode _ _⟩, hplaced⟩ step_firstWrite).tail
      ⟨⟨by decide, answersFlat_openedInode _ _⟩, hplaced'⟩ hstep)⟩

/-- Another byte is written over it, and gets behind it. -/
theorem not_holdsFlat_overwrite :
    ¬ ∀ (x : External) (path : String) (inode : Inode) (w₀ w : Overwritten),
      w₀.Start x path inode →
      Runs.Reach (Overwritten.step x path) (fun w ev => w.Allowed x inode w₀.flat ev) w₀ w →
      HoldsFlat w.st path inode.blockSize w.flat ∧
        Found w.st path inode.blockSize w.offset w.s := by
  intro h
  have hrun : (writeData byteExternal byteNet "/f" 0 [8]).run firstWrite.st =
      .ok () (after (writeData byteExternal byteNet "/f" 0 [8]) firstWrite.st) :=
    run_of_returned (by decide +kernel)
  have hstep : firstWrite.step byteExternal "/f" ⟨byteNet, 0, [8]⟩ =
      some ⟨after (writeData byteExternal byteNet "/f" 0 [8]) firstWrite.st, [8], 0, [8]⟩ := by
    rw [Overwritten.step, hrun]
    rfl
  obtain ⟨_, hfound⟩ := h byteExternal "/f" Exact.openedInode emptyOverwritten _
    start_emptyOverwritten
    ((Runs.Reach.refl.tail ⟨by decide, answersFlat_openedInode _ _⟩ step_firstWrite).tail
      ⟨by decide, answersFlat_openedInode _ _⟩ hstep)
  have hbs : Exact.openedInode.blockSize = 1048576 := by decide +kernel
  obtain ⟨data, hdata, hbyte⟩ := hfound 0 (le_refl 0) (by decide)
  rw [hbs] at hdata hbyte
  have hfile : (after (writeData byteExternal byteNet "/f" 0 [8]) firstWrite.st).block "/f" 0 =
      some [7, 8] := by
    decide +kernel
  cases hfile.symm.trans hdata
  cases hbyte

end SDK

end Spkdfs
