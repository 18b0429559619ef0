import Spkdfs.Client.Exact

/-!
# What `read_data` answers

`read_data` widens a window to whole blocks, takes each of them from its file or from the
datanodes, and cuts the window out of what it has got.

When the datanodes serve the blocks of the inode (`Served`) and the files on the disk are some
of these blocks (`Cached`), it answers the window (`run_readData_window`), whatever is on the
disk.
-/

namespace Spkdfs

open Effects

namespace SDK

/-- The entries of the inode decode to these blocks, of whatever lengths, and there are enough
of them for the file. -/
structure Decodes (x : External) (net : Net) (inode : Inode) (blocks : List Bytes) : Prop where
  positive : 0 < inode.getBlockSize
  count : blocks.length = inode.sub.length
  decode : ∀ (i : ℕ) s block, inode.sub[i]? = some s → blocks[i]? = some block →
    decodeEntry x net inode s = .ok block
  cover : inode.filesize.toNat ≤ inode.sub.length * inode.blockSize

/-- All of these blocks are full, and they hold the file. -/
structure Served (x : External) (net : Net) (inode : Inode) (blocks : List Bytes) : Prop
    extends Decodes x net inode blocks where
  length : ∀ block ∈ blocks, block.length = inode.blockSize

/-- The directory is there, and each of its files that is not empty is a block. -/
structure Cached (inode : Inode) (blocks : List Bytes) (st : State) : Prop where
  folder : ∃ folder, st.tmp inode.fullpath.text = some folder
  coherent : ∀ (i : ℕ) data block, st.block inode.fullpath.text i = some data → data ≠ [] →
    blocks[i]? = some block → data = block

variable {x : External} {net : Net} {inode : Inode} {blocks : List Bytes}

theorem Decodes.getElem? (h : Decodes x net inode blocks) {i : ℕ} {s : String}
    (hs : inode.sub[i]? = some s) :
    ∃ block, blocks[i]? = some block ∧ decodeEntry x net inode s = .ok block := by
  obtain ⟨hi, _⟩ := List.getElem?_eq_some_iff.mp hs
  rw [← h.count] at hi
  have hblock := List.getElem?_eq_getElem hi
  exact ⟨_, hblock, h.decode i s _ hs hblock⟩

theorem Served.length_flatten (hserved : Served x net inode blocks) :
    blocks.flatten.length = inode.sub.length * inode.blockSize := by
  rw [Chunks.length_flatten_of_length hserved.length, hserved.count]

/-- The state after a block was read: its file has it, and nothing else has changed. -/
def State.withBlock (st : State) (path : String) (i : ℕ) (block : Bytes) : State :=
  st.setFolder path ((st.folder path).setBlock i block)

theorem State.block_withBlock (st : State) (path : String) (i : ℕ) (block : Bytes) (j : ℕ) :
    (st.withBlock path i block).block path j = if j = i then some block else
      (st.folder path).block j := by
  rw [withBlock, block_setFolder]
  exact Function.update_apply _ _ _ _

theorem State.block_of_tmp {st : State} {path : String} {folder : Folder}
    (h : st.tmp path = some folder) (i : ℕ) : st.block path i = folder.block i := by
  rw [State.block, h, Option.bind_some]

/-- A block that is on the disk already. -/
theorem State.withBlock_self {st : State} {path : String} {folder : Folder} {i : ℕ} {block : Bytes}
    (hfolder : st.tmp path = some folder) (h : st.block path i = some block) :
    st.withBlock path i block = st := by
  rw [State.block_of_tmp hfolder] at h
  have hblock : folder.setBlock i block = folder := by
    rw [Folder.setBlock, ← h, Function.update_eq_self]
  rw [withBlock, State.folder_of_tmp hfolder, hblock, State.setFolder, ← hfolder,
    Function.update_eq_self]

/-! ## Reading blocks -/

namespace Exact

variable {st : State}

/-- What `read_data` finds for a block: its file, unless that is missing or empty. -/
def currentBlock (block : ℕ → Option Bytes) (blocks : List Bytes) (i : ℕ) : Bytes :=
  match block i with
  | some (byte :: bytes) => byte :: bytes
  | none | some [] => blocks[i]?.getD []

/-- A block of the list is read, and it is on the disk then. -/
theorem run_readBlock (hdecodes : Decodes x net inode blocks) {folder : Folder}
    (hfolder : st.tmp inode.fullpath.text = some folder) {i : ℕ} {s : String}
    (hs : inode.sub[i]? = some s) :
    (readBlock x net inode i s).run st =
      .ok (currentBlock folder.block blocks i)
        (st.withBlock inode.fullpath.text i (currentBlock folder.block blocks i)) := by
  obtain ⟨block, hblock, hdecode⟩ := hdecodes.getElem? hs
  have hfetch : (fetchBlock x net inode i s).run st =
      .ok block (st.withBlock inode.fullpath.text i block) := by
    rw [run_fetchBlock x hfolder hdecode, State.withBlock, State.folder_of_tmp hfolder]
  rw [readBlock, run_get_bind]
  cases hfile : st.block inode.fullpath.text i with
  | none =>
    have hcurrent : currentBlock folder.block blocks i = block := by
      rw [currentBlock, ← State.block_of_tmp hfolder, hfile, hblock]
      rfl
    rw [hcurrent]
    exact hfetch
  | some data =>
    cases data with
    | nil =>
      have hcurrent : currentBlock folder.block blocks i = block := by
        rw [currentBlock, ← State.block_of_tmp hfolder, hfile, hblock]
        rfl
      rw [hcurrent]
      exact hfetch
    | cons byte bytes =>
      have hcurrent : currentBlock folder.block blocks i = byte :: bytes := by
        rw [currentBlock, ← State.block_of_tmp hfolder, hfile]
      rw [hcurrent, State.withBlock_self hfolder hfile]
      rfl

/-- In a coherent directory that is the block. -/
theorem currentBlock_of_cached (hcached : Cached inode blocks st) {folder : Folder}
    (hfolder : st.tmp inode.fullpath.text = some folder) {i : ℕ} {block : Bytes}
    (hblock : blocks[i]? = some block) : currentBlock folder.block blocks i = block := by
  rw [currentBlock, ← State.block_of_tmp hfolder]
  split
  · rename_i hfile
    exact hcached.coherent i _ block hfile (List.cons_ne_nil _ _) hblock
  · rw [hblock]
    rfl
  · rw [hblock]
    rfl

theorem cached_withBlock (hcached : Cached inode blocks st) {i : ℕ} {block : Bytes}
    (hblock : blocks[i]? = some block) :
    Cached inode blocks (st.withBlock inode.fullpath.text i block) := by
  obtain ⟨folder, hfolder⟩ := hcached.folder
  refine ⟨⟨_, State.tmp_setFolder _ _ _⟩, fun j data block' hdata hne hblock' => ?_⟩
  rw [State.block_withBlock] at hdata
  split at hdata
  · rename_i hj
    rw [hj, hblock] at hblock'
    rw [← Option.some.inj hdata, Option.some.inj hblock']
  · rw [State.folder_of_tmp hfolder, ← State.block_of_tmp hfolder] at hdata
    exact hcached.coherent j data block' hdata hne hblock'

/-- The loop answers its blocks, and zeros behind the last one. -/
theorem run_readLoop (hserved : Served x net inode blocks) (hcached : Cached inode blocks st)
    {second n index : ℕ} (hn : index + n = second) :
    ∃ st', (readLoop x net inode second n index).run st =
        .ok (((blocks.drop index).take n).flatten ++
          List.replicate ((second - max index inode.sub.length) * inode.blockSize) 0) st' ∧
      Cached inode blocks st' := by
  induction n generalizing index st with
  | zero =>
    have hzero : second - max index inode.sub.length = 0 := by omega
    refine ⟨st, ?_, hcached⟩
    rw [hzero, Nat.zero_mul, List.take_zero]
    rfl
  | succ n ih =>
    rw [readLoop]
    cases hs : inode.sub[index]? with
    | none =>
      have hlen : inode.sub.length ≤ index := List.getElem?_eq_none_iff.mp hs
      refine ⟨st, ?_, hcached⟩
      rw [List.drop_of_length_le (by rw [hserved.count]; exact hlen), List.take_nil,
        Nat.max_eq_left hlen]
      rfl
    | some s =>
      obtain ⟨hindex, _⟩ := List.getElem?_eq_some_iff.mp hs
      obtain ⟨block, hblock, _⟩ := hserved.getElem? hs
      obtain ⟨hi, hget⟩ := List.getElem?_eq_some_iff.mp hblock
      obtain ⟨folder, hfolder⟩ := hcached.folder
      obtain ⟨st', hrun, hcached'⟩ := ih (cached_withBlock hcached hblock)
        (show index + 1 + n = second by omega)
      have hread := run_readBlock hserved.toDecodes hfolder hs
      rw [currentBlock_of_cached hcached hfolder hblock] at hread
      refine ⟨st', ?_, hcached'⟩
      simp only
      rw [run_bind_of_ok hread, run_bind_of_ok hrun,
        List.drop_eq_getElem_cons hi, hget, List.take_succ_cons, List.flatten_cons,
        List.append_assoc, Nat.max_eq_right hindex, Nat.max_eq_right hindex.le]
      rfl

/-- The blocks of a window, with at most one block behind the end. -/
theorem run_readBlocks (hserved : Served x net inode blocks) (hcached : Cached inode blocks st)
    {first second : ℕ} (hfirst : first ≤ inode.sub.length) (hle : first ≤ second) :
    ∃ bytes st', (readBlocks x net inode (first, second)).run st = .ok bytes st' ∧
      Cached inode blocks st' ∧
      bytes = (blocks.flatten.drop (first * inode.blockSize)).take
        ((second - first) * inode.blockSize) ++
          List.replicate ((second - max first inode.sub.length) * inode.blockSize) 0 := by
  obtain ⟨st', hrun, hcached'⟩ := run_readLoop hserved hcached (Nat.add_sub_of_le hle)
  refine ⟨_, st', ?_, hcached', rfl⟩
  rw [readBlocks, if_neg (Nat.not_lt.mpr hfirst)]
  have hdrop : ∀ b ∈ blocks.drop first, b.length = inode.blockSize :=
    fun b hb => hserved.length b (List.mem_of_mem_drop hb)
  rw [← Chunks.flatten_drop hserved.length, ← Chunks.flatten_take hdrop]
  exact hrun

/-! ## The window -/

/-- The bytes of the file. -/
def fileBytes (inode : Inode) (blocks : List Bytes) : Bytes :=
  blocks.flatten.take inode.filesize.toNat

/-- A window that ends inside of the file is cut out of its blocks. -/
theorem slice_window (hserved : Served x net inode blocks) {offset size : ℕ}
    (h : offset + size ≤ inode.filesize.toNat) (pad : Bytes) :
    slice ((blocks.flatten.drop ((getIndexs inode.blockSize offset size).1 * inode.blockSize)).take
        (((getIndexs inode.blockSize offset size).2 - (getIndexs inode.blockSize offset size).1) *
          inode.blockSize) ++ pad)
      (offset - ((getIndexs inode.blockSize offset size).1 * inode.blockSize : ℕ)) size =
        .ok ((blocks.flatten.take (offset + size)).drop offset) := by
  have hpos := Inode.blockSize_pos hserved.positive
  have hbase : (getIndexs inode.blockSize offset size).1 * inode.blockSize ≤ offset :=
    Nat.div_mul_le_self _ _
  have hend : offset + size < (getIndexs inode.blockSize offset size).2 * inode.blockSize := by
    rw [Nat.mul_comm]
    exact Nat.lt_mul_div_succ _ hpos
  have hlen := hserved.length_flatten
  have hcover := hserved.cover
  rw [Nat.sub_mul]
  generalize (getIndexs inode.blockSize offset size).1 * inode.blockSize = base at hbase ⊢
  generalize (getIndexs inode.blockSize offset size).2 * inode.blockSize = stop at hend ⊢
  generalize blocks.flatten = bytes at hlen ⊢
  have hblocks : offset - base + size ≤ ((bytes.drop base).take (stop - base)).length := by
    rw [List.length_take, List.length_drop]
    omega
  have hcut : (bytes.take (offset + size)).drop offset = (bytes.drop offset).take size := by
    rw [List.drop_take, Nat.add_sub_cancel_left]
  have hstart : ((offset : Int) - base).toNat = offset - base := by omega
  rw [slice, if_pos ⟨by omega, by rw [List.length_append]; omega⟩, hstart, hcut,
    List.drop_append_of_le_length (by omega), List.take_append_of_le_length
      (by rw [List.length_drop]; omega), List.drop_take, List.drop_drop, List.take_take,
    Nat.add_sub_of_le hbase, Nat.min_eq_left (by omega)]

/-- `read_data` answers the window, whatever is on the disk.  It does not slice outside of
the bytes that it has got, and its iterator does not go behind the end of the list. -/
theorem run_readData_window {path : String} (hserved : Served x net inode blocks)
    (hcached : Cached inode blocks st) (hinode : st.localInodeCache path = some inode)
    (offset size : ℕ) :
    ∃ st', (readData x net path offset size).run st =
        .ok (((fileBytes inode blocks).take (min (offset + size) inode.filesize.toNat)).drop offset)
          st' ∧
      Cached inode blocks st' := by
  have hcover := hserved.cover
  have htake : (fileBytes inode blocks).take (min (offset + size) inode.filesize.toNat) =
      blocks.flatten.take (min (offset + size) inode.filesize.toNat) := by
    rw [fileBytes, List.take_take, Nat.min_assoc, Nat.min_self]
  rw [htake, readData, run_bind_of_ok (run_getInode_of_some hinode)]
  by_cases hoffset : inode.filesize.toNat < offset
  · refine ⟨st, ?_, hcached⟩
    rw [if_pos hoffset, List.drop_of_length_le (by rw [List.length_take]; omega)]
    rfl
  · rw [if_neg hoffset]
    -- The size is clipped to the file.
    have hclip : ∃ size', (if inode.filesize.toNat < offset + size then
        inode.filesize.toNat - offset else size) = size' ∧
          offset + size' = min (offset + size) inode.filesize.toNat := by
      refine ⟨_, rfl, ?_⟩
      split <;> omega
    obtain ⟨size', hsize, hstop⟩ := hclip
    simp only [hsize]
    rw [← hstop]
    have hwindow : offset + size' ≤ inode.filesize.toNat := by omega
    obtain ⟨hfirst, hle, _⟩ := getIndexs_le hcover hwindow
    obtain ⟨bytes, st', hrun, hcached', hbytes⟩ := run_readBlocks hserved hcached hfirst hle
    refine ⟨st', ?_, hcached'⟩
    rw [run_bind_of_ok hrun, hbytes]
    exact run_lift_eq_ok.mpr ⟨slice_window hserved hwindow _, rfl⟩

/-- A file of three bytes. -/
def threeBytes : Inode :=
  { Inode.new (.set "/f") with filesize := 3, storageType := some (.re 2 1), sub := [smallEntry] }

theorem served_threeBytes : Served smallExternal smallNet threeBytes [smallBlock] := by
  have hdecode : decodeOne smallExternal smallNet (.re 2 1) smallEntry = .ok smallBlock := by
    rw [decodeOne, decodeOneSub_smallEntry]
    simp [decodeLoop, smallPlaces, getFromDatanode, smallNet, smallExternal,
      StorageType.getDecodeBlocks, StorageType.decode]
  refine ⟨⟨by decide, rfl, fun i s block hs hblock => ?_, by decide⟩, fun block hblock => ?_⟩
  · cases i with
    | zero =>
      cases hs
      cases hblock
      exact hdecode
    | succ i => cases hs
  · have hbuffer : (List.replicate 1048576 (0 : UInt8)).length = 1048576 := List.length_replicate
    have hfits : [1, 2, 3].length ≤ (List.replicate 1048576 (0 : UInt8)).length := by
      rw [hbuffer]
      decide
    rw [List.mem_singleton.mp hblock, smallBlock, Chunks.length_overwrite hfits, hbuffer]
    rfl

/-- Nothing is on the disk, and more is asked for than there is. -/
theorem run_readData_threeBytes :
    ∃ st', (readData smallExternal smallNet "/f" 1 10).run
      ⟨KeyedMap.empty, fun _ => some threeBytes, fun _ => some .empty⟩ = .ok [2, 3] st' := by
  have hcached : Cached threeBytes [smallBlock]
      ⟨KeyedMap.empty, fun _ => some threeBytes, fun _ => some .empty⟩ :=
    ⟨⟨_, rfl⟩, fun i data block hdata => by cases hdata⟩
  obtain ⟨st', hrun, _⟩ := run_readData_window served_threeBytes hcached
    (show _ = some threeBytes from congrFun rfl "/f") 1 10
  refine ⟨st', hrun.trans ?_⟩
  have hbytes : fileBytes threeBytes [smallBlock] = [1, 2, 3] := by
    rw [fileBytes, List.flatten_singleton]
    rfl
  rw [hbytes]
  rfl

end Exact

end SDK

end Spkdfs
