import Spkdfs.Client.BlockCache
import Spkdfs.Client.Extent
import Spkdfs.Client.Opening
import Spkdfs.Client.Pending

/-!
# Copying a file into the file system

A program that copies a file makes `create`, writes the content piece by piece, each piece where
the one before ends, and then `close`.  `write_data` appends the pieces to the block files, and the
`fsync` in `close` uploads these and tells the namenode the entries and the length.

`Copying` adds to the state of the client what was written so far.  The module follows the content
from the writes to the block files (`Folder.Holds`), from there to the record (`IsCopy`), and back
to a client that reads (`Stores`).  The last block is as short as the content leaves it, so the
blocks of `Client.Window`, which are all of one length, do not fit here.
-/

namespace Spkdfs

open RocksDB Effects Windows

/-- The block files hold the blocks of this content, and `write` has all of them, unless nothing
was written. -/
structure Folder.Holds (folder : Folder) (bs : ℕ) (content : Bytes) : Prop where
  linked : SDK.Exact.Linked folder
  block : ∀ i, (folder.block i).getD [] = chunk bs content i
  dirty : folder.dirty = [] ∧ content = [] ∨ ∀ i, i ∈ folder.dirty ↔ i ≤ content.length / bs

namespace SDK

variable {x : External} {net : Net} {inode : Inode} {content : Bytes} {st : State}

/-! ## Writing -/

/-- A write at the end appends to the content. -/
theorem holds_append {folder : Folder} {bs : ℕ} (hbs : 0 < bs) (h : folder.Holds bs content)
    (s : Bytes) :
    (folder.appendAll (Exact.touched bs content.length s.length)
      (piece bs content.length s)).Holds bs (content ++ s) where
  linked := h.linked.appendAll _ _
  block i := by
    rw [Folder.block_appendAll Exact.nodup_touched]
    split
    · rename_i hi
      obtain ⟨hfirst, hlast⟩ := Exact.mem_touched.mp hi
      rw [Option.getD_some, h.block, chunk_append ((div_le_iff hbs).mp hfirst).le
        ((le_div_iff hbs).mp hlast)]
    · rename_i hi
      have hshare : share bs content.length (content.length + s.length) i = 0 := by
        rw [Exact.mem_touched, div_le_iff hbs, le_div_iff hbs] at hi
        rw [share]
        omega
      rw [h.block, ← overwriteAt_length, chunk_overwriteAt_of_share le_rfl hshare]
  dirty := by
    right
    intro i
    rw [Folder.mem_dirty_appendAll, Exact.mem_touched, List.length_append]
    have hmono : content.length / bs ≤ (content.length + s.length) / bs :=
      Nat.div_le_div_right (Nat.le_add_right _ _)
    rcases h.dirty with ⟨hdirty, hnil⟩ | hdirty
    · rw [hdirty, hnil, List.length_nil, Nat.zero_div]
      simp
    · rw [hdirty]
      omega

theorem blockSize_of_storageType {inode : Inode} (h : inode.storageType = some (.rs 7 5 16)) :
    inode.blockSize = 16777216 := by
  rw [Inode.blockSize, Inode.getBlockSize, h]
  rfl

theorem IsFresh.getBlockSize_pos (h : IsFresh inode) : 0 < inode.getBlockSize := by
  rw [Inode.getBlockSize, h.storageType]
  decide

/-- Nothing of a new file is fetched. -/
theorem run_prefetch_of_isFresh (h : IsFresh inode) (offset size : ℕ) :
    (Exact.prefetch x net inode offset size).run st = .ok () st := by
  have hsize : inode.filesize.toNat = 0 := by
    rw [h.filesize]
    rfl
  have hfirst : ¬ Exact.FetchesFirst inode offset := fun hfetch => by
    have hlt := hfetch.1
    omega
  have hlast : ¬ Exact.FetchesLast inode (offset + size)
      (Exact.getIndexs inode.blockSize offset size) := fun hfetch => by
    have hlt := hfetch.1
    omega
  rw [Exact.prefetch_eq, if_neg hfirst, if_neg hlast]
  rfl

/-- A `write_data` to a new file goes to the block files. -/
theorem run_writeData_of_isFresh {path : String} {folder : Folder} {offset : UInt64} {s : Bytes}
    (hopen : Exact.OpenFile st path inode folder) (hfresh : IsFresh inode)
    (hsum : offset.toNat + s.length < 2 ^ 31) :
    (writeData x net path offset s).run st =
      .ok () (st.setFolder path (folder.appendAll
        (Exact.touched inode.blockSize offset.toNat s.length)
        (piece inode.blockSize offset.toNat s))) := by
  have hpos := hfresh.getBlockSize_pos
  have hcover : inode.filesize.toNat ≤ inode.sub.length * inode.blockSize := by
    rw [hfresh.filesize]
    exact Nat.zero_le _
  have hsmall : Exact.SmallFiles inode st 0 := by
    intro i data _ hi
    rw [hfresh.sub] at hi
    exact absurd hi (Nat.not_lt_zero i)
  rw [Exact.run_writeData_exact hopen.cache hpos hcover hsum hsmall]
  exact Exact.run_writeData_of_prefetch hpos hopen.cache (run_prefetch_of_isFresh hfresh _ _)
    hopen.tmp hopen.write

/-- A `read_data` of a new file fetches nothing. -/
theorem after_readData_of_isFresh {path : String} (hcache : st.localInodeCache path = some inode)
    (hfresh : IsFresh inode) (offset size : UInt64) :
    after (readData x net path offset size) st = st := by
  have hblocks : ∀ indexs, Within Eq (readBlocks x net inode indexs) := by
    intro indexs
    refine within_readLoop (fun i s hs => ?_) _ _ _
    rw [hfresh.sub] at hs
    cases hs
  rw [readData, after_bind_of_ok (run_getInode_of_some hcache)]
  split
  · rfl
  · exact (((Within.lift _).bind fun indexs =>
      (hblocks indexs).bind fun _ => Within.lift _) st).symm

/-- After an `open`, what the block files hold is what they held before. -/
theorem block_of_run_openFile {path : String} {flags : Flags} {clock : ℕ → UInt64} {st' : State}
    (h : (openFile x path flags clock).run st = .ok () st') {i : ℕ} {data : Bytes}
    (hdata : st'.block path i = some data) (hne : data ≠ []) : st.block path i = some data := by
  rcases openFile_cases x path flags clock st with
    ⟨e, st₁, herror, _⟩ | ⟨e, st₁, herror, _⟩ | ⟨st₁, remote, hframe, _, _, hframe'⟩
  · cases h.symm.trans herror
  · cases h.symm.trans herror
  · rw [after_of_ok h] at hframe'
    have hopened := (hframe'.block path i data hdata hne).resolve_right id
    have hold := (block_removeOutdated hopened).1
    exact (hframe.block path i data hold hne).resolve_right id

/-! ## Runs -/

/-- The record of a path is as it was, but for its lock. -/
def KeepsRecord (p : FullPath) (db db' : Store) : Prop :=
  recordAt db' p = { recordAt db p with ddlLock := (recordAt db' p).ddlLock }

/-- The state of the client that copies, and what it has written so far. -/
structure Copying where
  st : State
  content : Bytes

namespace Copying

def step (x : External) (path : String) (c : Copying) (ev : Event) : Option Copying :=
  (SDK.step x path c.st ev).map fun st =>
    ⟨st, match ev with
      | .writeData _ _ s => c.content ++ s
      | _ => c.content⟩

/-- Each write starts where the one before has ended, and the file stays below 2 GiB.  Reads may
come in between, and everything of everybody else that leaves the record as it is, but for its
lock. -/
def Sequential (path : String) (c : Copying) : Event → Prop
  | .writeData _ offset s =>
    offset.toNat = c.content.length ∧ c.content.length + s.length < 2 ^ 31
  | .readData _ _ _ => True
  | .other st => KeepsRecord (.set path) c.st.db st.db
  | .openFile _ _ | .fsync _ | .closeFile _ | .putFile _ _ _ _ => False

/-- The file is open, new for the client and for the namenode, and its block files hold what was
written. -/
structure Invariant (path : String) (inode : Inode) (c : Copying) : Prop where
  opened : ∃ folder, Exact.OpenFile c.st path inode folder ∧
    folder.Holds inode.blockSize c.content
  fresh : IsFresh inode
  record : IsFresh (recordAt c.st.db (.set path))
  small : c.content.length < 2 ^ 31

variable {path : String} {c c' : Copying}

theorem invariant_create {st₀ st' : State} {clock : ℕ → UInt64} (hpath : path ≠ "")
    (hempty : ∀ i, (st₀.block path i).getD [] = [])
    (h : (create x path clock).run st₀ = .ok () st') :
    ∃ inode, Invariant path inode ⟨st', []⟩ := by
  obtain ⟨inode, folder, hopen, hwrite⟩ := Exact.openFile_of_run rfl h
  obtain ⟨st₁, st₂, hfresh, hsame, ⟨remote, hls, hcache⟩, hrun⟩ := run_openFile_eq_ok h
  cases hrun
  have hrecord : IsFresh (recordAt st'.db (.set path)) :=
    IsFresh.of_sameContent hfresh hsame.symm
  obtain rfl : inode = remote := Option.some.inj (hopen.cache.symm.trans hcache)
  rw [Namenode.ls, if_neg hpath] at hls
  have hinode := (ls_eq_ok.mp hls).2
  refine ⟨inode, ⟨folder, hopen, ⟨?_, ?_⟩, fun i => ?_, Or.inl ⟨?_, rfl⟩⟩, hinode ▸ hrecord,
    hrecord, Nat.two_pow_pos 31⟩
  · rw [hwrite]
    exact List.nodup_nil
  · rw [hwrite]
    intro p hp
    cases hp
  · rw [chunk_eq_nil (Nat.zero_le _), ← State.block_of_tmp hopen.tmp]
    cases hdata : st'.block path i with
    | none => rfl
    | some data =>
      by_contra hne
      have hold := block_of_run_openFile h hdata hne
      have hnil := hempty i
      rw [hold] at hnil
      exact hne hnil
  · rw [Folder.dirty, hwrite]
    rfl

theorem invariant_step {ev : Event} (hc : c.Invariant path inode) (hok : c.Sequential path ev)
    (h : c.step x path ev = some c') : c'.Invariant path inode := by
  obtain ⟨st', hst, rfl⟩ := Option.map_eq_some_iff.mp h
  obtain ⟨folder, hopen, hholds⟩ := hc.opened
  have hafter := settled_eq_some hst
  cases ev with
  | writeData net offset s =>
    obtain ⟨hoffset, hlength⟩ := hok
    have hrun : (writeData x net path offset s).run c.st = .ok () _ :=
      run_writeData_of_isFresh hopen hc.fresh (show offset.toNat + s.length < 2 ^ 31 by omega)
    rw [hoffset] at hrun
    obtain rfl := (after_of_ok hrun).symm.trans hafter
    refine ⟨⟨_, ⟨hopen.cache, State.tmp_setFolder _ _ _, ?_⟩,
      holds_append (Inode.blockSize_pos hc.fresh.getBlockSize_pos) hholds s⟩, hc.fresh,
      hc.record, ?_⟩
    · exact Folder.write_appendAll_ne_none hopen.write _ _
    · rw [List.length_append]
      exact hlength
  | readData net offset size =>
    have hsilent : after ((Event.readData net offset size).call x path) c.st =
        after (readData x net path offset size) c.st :=
      after_bind_of_silent (fun _ _ => rfl) _ _
    rw [hsilent, after_readData_of_isFresh hopen.cache hc.fresh] at hafter
    subst hafter
    exact hc
  | other st₁ =>
    obtain rfl : after ((Event.other st₁).call x path) c.st = st' := hafter
    refine ⟨⟨folder, ⟨?_, ?_, hopen.write⟩, hholds⟩, hc.fresh, ?_, hc.small⟩
    · exact (Function.update_self ..).trans hopen.cache
    · exact (Function.update_self ..).trans hopen.tmp
    · show IsFresh (recordAt st₁.db (.set path))
      rw [show recordAt st₁.db (.set path) = _ from hok]
      exact ⟨hc.record.sub, hc.record.filesize, hc.record.storageType⟩
  | openFile flags clock => exact hok.elim
  | fsync sync => exact hok.elim
  | closeFile sync => exact hok.elim
  | putFile file storageType clock ups => exact hok.elim

theorem invariant_of_reach (h₀ : c.Invariant path inode)
    (h : Runs.Reach (step x path) (Sequential path) c c') : c'.Invariant path inode :=
  h.invariant h₀ fun _ _ _ _ hc hok hstep => invariant_step hc hok hstep

end Copying

/-! ## The record -/

/-- The record of a file that has this content: each entry comes from the upload of its block. -/
structure IsCopy (x : External) (ups : List Uploads) (record : Inode) (content : Bytes) :
    Prop where
  valid : record.valid = true
  storageType : record.storageType = some (.rs 7 5 16)
  filesize : record.filesize.toNat = content.length
  cover : content.length ≤ record.sub.length * record.blockSize
  entry : ∀ i s, record.sub[i]? = some s → ∃ up ∈ ups,
    encodeOne x (.rs 7 5 16) (chunk record.blockSize content i) up = .ok s

/-- An `fsync` that returns has uploaded its blocks.  If then its `put_ok` comes through, it has
lost nothing. -/
theorem recorded_of_run_fsync {path : String} {st' : State} {last : ℕ} {sync : Sync}
    (hlast : (st.dirty path).getLast? = some last) (hint : last < 2 ^ 31)
    (hcache : st.localInodeCache path = some inode) (hdelivered : sync.delivered = true)
    (haccepts : Accepts st.db path) (h : (fsync x path sync).run st = .ok () st') :
    Recorded x path sync st st' := by
  have hnone : firstFailure x inode (st.folder path) (st.dirty path) sync.ups = none := by
    cases hfail : firstFailure x inode (st.folder path) (st.dirty path) sync.ups with
    | none => rfl
    | some p =>
      obtain ⟨_, st₁, hloop, _⟩ := run_fsyncLoop_of_some (tmp_of_getLast?_dirty hlast) hfail
        (startList inode last) 0
      rw [run_fsync_of_inode hlast hint hcache, run_bind_of_error hloop] at h
      cases h
  have hkeeps := (keepsPending_of_none hlast hint hcache hnone).mpr ⟨hdelivered, haccepts⟩
  unfold KeepsPending at hkeeps
  rw [h] at hkeeps
  exact hkeeps

/-- The last block of `write` is the last one of the content. -/
theorem getLast?_dirty {folder : Folder} {n : ℕ} (hdirty : ∀ i, i ∈ folder.dirty ↔ i ≤ n) :
    folder.dirty.getLast? = some n := by
  have htop : n ∈ folder.dirty := (hdirty n).mpr le_rfl
  have hlast := List.getLast?_eq_some_getLast (List.ne_nil_of_mem htop)
  rw [hlast]
  congr 1
  exact le_antisymm ((hdirty _).mp (List.getLast_mem _)) (le_of_mem_dirty hlast htop)

/-- What is read from `write` is the block of the content. -/
theorem readLink_of_holds {folder : Folder} {bs i : ℕ} (h : folder.Holds bs content)
    (hlength : content.length < 2 ^ 31) {data : Bytes} (hi : i ∈ folder.dirty)
    (hread : folder.readLink i = .ok data) : data = chunk bs content i := by
  rw [Folder.readLink, h.linked.link hi] at hread
  have hblock := h.block i
  cases hfile : folder.block i with
  | none =>
    rw [hfile] at hread
    cases hread
  | some block =>
    rw [hfile, Option.getD_some] at hblock
    have hsmall : block.length < 2 ^ 31 := by
      rw [hblock, length_chunk]
      omega
    rw [hfile] at hread
    have hok : readFile block = .ok data := hread
    rw [Exact.readFile_of_lt hsmall] at hok
    rw [← hblock]
    exact (Except.ok.inj hok).symm

theorem length_startList_of_isFresh (h : IsFresh inode) (last : ℕ) :
    (startList inode last).length = last + 1 := by
  have hle : inode.sub.length ≤ last := by
    rw [h.sub]
    exact Nat.zero_le _
  rw [startList, if_pos hle, h.sub, resizeSub]
  simp

/-- The length that `fsync` asks for is that of the content. -/
theorem toNat_fsyncSize_content (h : IsFresh inode) (hlength : content.length < 2 ^ 31) :
    (fsyncSize inode (content.length / inode.blockSize)
      (chunk inode.blockSize content (content.length / inode.blockSize)).length).toNat =
        content.length := by
  have hpos := Inode.blockSize_pos h.getBlockSize_pos
  have hsize : inode.filesize.toNat = 0 := by
    rw [h.filesize]
    rfl
  have hdiv := Nat.div_add_mod' content.length inode.blockSize
  have hmod := Nat.mod_lt content.length hpos
  have hexact : Exact.fsyncSize inode (content.length / inode.blockSize)
      (chunk inode.blockSize content (content.length / inode.blockSize)).length =
        content.length := by
    rw [Exact.fsyncSize, hsize, length_chunk]
    omega
  have hle : (chunk inode.blockSize content (content.length / inode.blockSize)).length <
      2 ^ 31 := by
    rw [length_chunk]
    omega
  have hlast : content.length / inode.blockSize < 2 ^ 31 :=
    lt_of_le_of_lt (Nat.div_le_self _ _) hlength
  have hint := (toNat_fsyncSize_iff h.getBlockSize_pos (by omega) hlast hle).mpr (by omega)
  rw [hint, hexact]

/-- What `fsync` has recorded is the content. -/
theorem isCopy_of_recorded {path : String} {folder : Folder} {sync : Sync} {st' : State}
    (hopen : Exact.OpenFile st path inode folder) (hfresh : IsFresh inode)
    (hrecord : IsFresh (recordAt st.db (.set path)))
    (hholds : folder.Holds inode.blockSize content)
    (hdirty : ∀ i, i ∈ folder.dirty ↔ i ≤ content.length / inode.blockSize)
    (hlength : content.length < 2 ^ 31) (h : Recorded x path sync st st') :
    IsCopy x sync.ups (recordAt st'.db (.set path)) content := by
  obtain ⟨_, inode', last, block, hcache, hlast, hread, hup, hrequest⟩ := h
  obtain rfl : inode = inode' := Option.some.inj (hopen.cache.symm.trans hcache)
  rw [State.dirty_of_tmp hopen.tmp] at hlast hup
  rw [State.folder_of_tmp hopen.tmp] at hread
  obtain rfl : content.length / inode.blockSize = last :=
    Option.some.inj ((getLast?_dirty hdirty).symm.trans hlast)
  obtain ⟨haccepts, hrec⟩ := request_putOk_eq_ok hrequest
  have hbs : (recordAt st'.db (.set path)).blockSize = inode.blockSize := by
    have htype : (recordAt st'.db (.set path)).storageType = some (.rs 7 5 16) := by
      rw [hrec]
      exact hrecord.storageType
    rw [blockSize_of_storageType htype, blockSize_of_storageType hfresh.storageType]
  have hlen : (recordAt st'.db (.set path)).sub.length = content.length / inode.blockSize + 1 := by
    rw [hrec]
    exact (length_setEntries _ _).trans (length_startList_of_isFresh hfresh _)
  have hblock := readLink_of_holds hholds hlength ((hdirty _).mpr le_rfl) hread
  have hpos := Inode.blockSize_pos hfresh.getBlockSize_pos
  refine ⟨?_, ?_, ?_, ?_, fun i s hs => ?_⟩
  · rw [hrec]
    exact haccepts.2.1
  · rw [hrec]
    exact hrecord.storageType
  · rw [hrec, hblock]
    exact toNat_fsyncSize_content hfresh hlength
  · rw [hlen, hbs, Nat.mul_comm]
    exact (Nat.lt_mul_div_succ _ hpos).le
  · obtain ⟨hi, _⟩ := List.getElem?_eq_some_iff.mp hs
    have hmem : i ∈ folder.dirty := (hdirty i).mpr (by omega)
    rw [hrec] at hs
    have hentry := mem_of_setEntries (hup ▸ hmem) hs
      (by rw [length_startList_of_isFresh hfresh]; omega)
    have hlt : ¬ 2 ^ 31 ≤ content.length / inode.blockSize := by
      have hle := Nat.div_le_self content.length inode.blockSize
      omega
    rw [uploaded, State.dirty_of_tmp hopen.tmp, hlast, hopen.cache] at hentry
    simp only [if_neg hlt] at hentry
    obtain ⟨data, up, hzip, hdata, hencode⟩ := exists_block_of_mem_encodeDirty hentry
    rw [State.folder_of_tmp hopen.tmp] at hdata
    have hchunk := readLink_of_holds hholds hlength hmem hdata
    rw [encodeEntry, hfresh.storageType, hchunk] at hencode
    exact ⟨up, (List.of_mem_zip hzip).2, hbs ▸ hencode⟩

namespace Copying

variable {path : String} {c : Copying}

/-- The `close` of a file that was copied leaves its record with the namenode. -/
theorem isCopy_of_closeFile (hc : c.Invariant path inode) {sync : Sync} {st' : State}
    (hdelivered : sync.delivered = true) (haccepts : Accepts c.st.db path)
    (h : (closeFile x path sync).run c.st = .ok () st') :
    IsCopy x sync.ups (recordAt st'.db (.set path)) c.content := by
  obtain ⟨_, st₁, hfsync, hrun⟩ := run_bind_eq_ok.mp h
  have hdb : st'.db = st₁.db := by
    cases hrun
    rfl
  rw [hdb]
  obtain ⟨folder, hopen, hholds⟩ := hc.opened
  have hdirty := State.dirty_of_tmp hopen.tmp
  rcases hholds.dirty with ⟨hnone, hnil⟩ | hall
  · -- Nothing was written, and nothing is sent.
    have hlast : (c.st.dirty path).getLast? = none := by
      rw [hdirty, hnone]
      rfl
    rw [run_fsync_of_none x hlast] at hfsync
    cases hfsync
    refine ⟨haccepts.2.1, hc.record.storageType, ?_, ?_, fun i s hs => ?_⟩
    · rw [hc.record.filesize, hnil]
      rfl
    · rw [hnil]
      exact Nat.zero_le _
    · rw [hc.record.sub] at hs
      cases hs
  · have hlast : (c.st.dirty path).getLast? = some (c.content.length / inode.blockSize) :=
      hdirty ▸ getLast?_dirty hall
    have hint : c.content.length / inode.blockSize < 2 ^ 31 :=
      lt_of_le_of_lt (Nat.div_le_self _ _) hc.small
    exact isCopy_of_recorded hopen hc.fresh hc.record hholds hall hc.small
      (recorded_of_run_fsync hlast hint hopen.cache hdelivered haccepts hfsync)

end Copying

/-! ## Reading -/

/-- The entries of the inode are decoded to the blocks of this content. -/
structure Stores (x : External) (net : Net) (inode : Inode) (content : Bytes) : Prop where
  positive : 0 < inode.getBlockSize
  filesize : inode.filesize.toNat = content.length
  cover : content.length ≤ inode.sub.length * inode.blockSize
  decode : ∀ i s, inode.sub[i]? = some s →
    decodeEntry x net inode s = .ok (chunk inode.blockSize content i)

/-- The file is open, and its block files hold blocks of this content, if anything. -/
structure Opened (st : State) (inode : Inode) (content : Bytes) : Prop where
  cache : st.localInodeCache inode.fullpath.text = some inode
  folder : ∃ folder, st.tmp inode.fullpath.text = some folder
  block : ∀ i data, st.block inode.fullpath.text i = some data → data ≠ [] →
    data = chunk inode.blockSize content i

theorem Opened.setBlock (h : Opened st inode content) {folder : Folder}
    (hfolder : st.tmp inode.fullpath.text = some folder) (i : ℕ) :
    Opened (st.setFolder inode.fullpath.text
      (folder.setBlock i (chunk inode.blockSize content i))) inode content where
  cache := h.cache
  folder := ⟨_, st.tmp_setFolder _ _⟩
  block := by
    intro j data hdata hne
    rw [State.block_setFolder] at hdata
    rcases block_setBlock hdata with hold | ⟨rfl, rfl⟩
    · rw [← State.block_of_tmp hfolder] at hold
      exact h.block j data hold hne
    · rfl

/-- A block is read from its file, or fetched. -/
theorem run_readBlock_chunk (hstores : Stores x net inode content) (h : Opened st inode content)
    {i : ℕ} {s : String} (hs : inode.sub[i]? = some s) :
    ∃ st', (Exact.readBlock x net inode i s).run st =
      .ok (chunk inode.blockSize content i) st' ∧ Opened st' inode content := by
  obtain ⟨folder, hfolder⟩ := h.folder
  have hfetch := run_fetchBlock x hfolder (hstores.decode i s hs) i
  rw [Exact.readBlock, run_get_bind]
  cases hfile : st.block inode.fullpath.text i with
  | none => exact ⟨_, hfetch, h.setBlock hfolder i⟩
  | some data =>
    cases data with
    | nil => exact ⟨_, hfetch, h.setBlock hfolder i⟩
    | cons byte bytes =>
      have hchunk := h.block i (byte :: bytes) hfile (List.cons_ne_nil _ _)
      rw [← hchunk]
      exact ⟨st, rfl, h⟩

/-- The loop answers the content from its first block on, and zeros behind the last entry. -/
theorem run_readLoop_content (hstores : Stores x net inode content) (h : Opened st inode content)
    {second n index : ℕ} (hn : index + n = second) :
    ∃ st', (Exact.readLoop x net inode second n index).run st =
      .ok ((content.drop (index * inode.blockSize)).take
          ((min second inode.sub.length - index) * inode.blockSize) ++
        List.replicate ((second - max index inode.sub.length) * inode.blockSize) 0) st' ∧
      Opened st' inode content := by
  induction n generalizing index st with
  | zero =>
    have hfront : min second inode.sub.length - index = 0 := by omega
    have hzeros : second - max index inode.sub.length = 0 := by omega
    rw [hfront, hzeros, Nat.zero_mul, List.take_zero]
    exact ⟨st, rfl, h⟩
  | succ n ih =>
    rw [Exact.readLoop]
    cases hs : inode.sub[index]? with
    | none =>
      have hlen : inode.sub.length ≤ index := List.getElem?_eq_none_iff.mp hs
      have hfront : min second inode.sub.length - index = 0 := by omega
      rw [hfront, Nat.zero_mul, List.take_zero, Nat.max_eq_left hlen]
      exact ⟨st, rfl, h⟩
    | some s =>
      obtain ⟨hindex, _⟩ := List.getElem?_eq_some_iff.mp hs
      obtain ⟨st₁, hread, h₁⟩ := run_readBlock_chunk hstores h hs
      obtain ⟨st', hrest, h'⟩ := ih h₁ (show index + 1 + n = second by omega)
      refine ⟨st', ?_, h'⟩
      have hcount : (min second inode.sub.length - index) * inode.blockSize =
          inode.blockSize + (min second inode.sub.length - (index + 1)) * inode.blockSize := by
        rw [Nat.add_comm inode.blockSize, ← Nat.succ_mul]
        congr 1
        omega
      have hmax : max (index + 1) inode.sub.length = max index inode.sub.length := by omega
      simp only
      rw [run_bind_of_ok hread, run_bind_of_ok hrest, hcount, ← chunk_append_take,
        List.append_assoc, hmax]
      rfl

/-- A window that ends inside of the content is cut out of the blocks that were read. -/
theorem slice_content {base n offset size : ℕ} (hbase : base ≤ offset)
    (hn : offset + size ≤ base + n) (h : offset + size ≤ content.length) (pad : Bytes) :
    slice ((content.drop base).take n ++ pad) (offset - base) size =
      .ok ((content.drop offset).take size) := by
  have hfront : offset - base + size ≤ ((content.drop base).take n).length := by
    rw [List.length_take, List.length_drop]
    omega
  have hstart : ((offset : Int) - base).toNat = offset - base := by omega
  rw [slice, if_pos ⟨by omega, by rw [List.length_append]; omega⟩, hstart,
    List.drop_append_of_le_length (by omega),
    List.take_append_of_le_length (by rw [List.length_drop]; omega), List.drop_take,
    List.drop_drop, List.take_take, Nat.add_sub_of_le hbase, Nat.min_eq_left (by omega)]

/-- `read_data` answers its window of the content. -/
theorem run_readData_exact_content (hstores : Stores x net inode content)
    (h : Opened st inode content) (offset size : ℕ) :
    ∃ st', (Exact.readData x net inode.fullpath.text offset size).run st =
      .ok ((content.drop offset).take size) st' ∧ Opened st' inode content := by
  have hfile := hstores.filesize
  rw [Exact.readData, run_bind_of_ok (run_getInode_of_some h.cache)]
  by_cases hoffset : inode.filesize.toNat < offset
  · rw [if_pos hoffset, List.drop_of_length_le (by omega), List.take_nil]
    exact ⟨st, rfl, h⟩
  · rw [if_neg hoffset]
    -- The size is clipped to the file, which does not change the answer.
    have hclip : ∃ size', (if inode.filesize.toNat < offset + size then
        inode.filesize.toNat - offset else size) = size' ∧ offset + size' ≤ content.length ∧
          (content.drop offset).take size = (content.drop offset).take size' := by
      refine ⟨_, rfl, ?_, ?_⟩
      · split <;> omega
      · split
        · rw [List.take_of_length_le (by rw [List.length_drop]; omega),
            List.take_of_length_le (by rw [List.length_drop]; omega)]
        · rfl
    obtain ⟨size', hsize, hwindow, hanswer⟩ := hclip
    simp only [hsize]
    rw [hanswer]
    have hcover : inode.filesize.toNat ≤ inode.sub.length * inode.blockSize := by
      rw [hfile]
      exact hstores.cover
    obtain ⟨hfirst, hle, _⟩ := Exact.getIndexs_le hcover
      (show offset + size' ≤ inode.filesize.toNat by omega)
    obtain ⟨st', hrun, h'⟩ := run_readLoop_content hstores h (Nat.add_sub_of_le hle)
    refine ⟨st', ?_, h'⟩
    rw [Exact.readBlocks, if_neg (Nat.not_lt.mpr hfirst), run_bind_of_ok hrun]
    have hpos := Inode.blockSize_pos hstores.positive
    have hend : offset + size' <
        (Exact.getIndexs inode.blockSize offset size').2 * inode.blockSize := by
      rw [Nat.mul_comm]
      exact Nat.lt_mul_div_succ _ hpos
    have hn : offset + size' ≤ (Exact.getIndexs inode.blockSize offset size').1 * inode.blockSize +
        (min (Exact.getIndexs inode.blockSize offset size').2 inode.sub.length -
          (Exact.getIndexs inode.blockSize offset size').1) * inode.blockSize := by
      rw [← Nat.add_mul, Nat.add_sub_of_le (by omega)]
      rcases Nat.le_total (Exact.getIndexs inode.blockSize offset size').2 inode.sub.length with
        hmin | hmin
      · rw [Nat.min_eq_left hmin]
        omega
      · rw [Nat.min_eq_right hmin]
        omega
    exact run_lift_eq_ok.mpr ⟨slice_content (Nat.div_mul_le_self _ _) hn hwindow _, rfl⟩

/-- In the arithmetic of the code as well, below 2 GiB. -/
theorem run_readData_content (hstores : Stores x net inode content) (h : Opened st inode content)
    (hlength : content.length < 2 ^ 31) {offset size : UInt64}
    (hsum : offset.toNat + size.toNat < 2 ^ 64) :
    ∃ st', (readData x net inode.fullpath.text offset size).run st =
      .ok ((content.drop offset.toNat).take size.toNat) st' ∧ Opened st' inode content := by
  have hsmall : Exact.SmallFiles inode st 0 := by
    intro i data _ _ hdata
    by_cases hne : data = []
    · rw [hne]
      exact Nat.two_pow_pos 31
    · rw [h.block i data hdata hne, length_chunk]
      omega
  have hfile := hstores.filesize
  have hcover := hstores.cover
  rw [Exact.run_readData_exact h.cache hstores.positive (by omega) (by omega) hsum hsmall]
  exact run_readData_exact_content hstores h _ _

/-- So do any reads one behind the other. -/
theorem run_reads_content (hstores : Stores x net inode content) (h : Opened st inode content)
    (hlength : content.length < 2 ^ 31) {reads : List (UInt64 × UInt64)}
    (hsum : ∀ r ∈ reads, r.1.toNat + r.2.toNat < 2 ^ 64) :
    ∃ st', (reads.mapM fun r => readData x net inode.fullpath.text r.1 r.2).run st =
      .ok (reads.map fun r => (content.drop r.1.toNat).take r.2.toNat) st' ∧
      Opened st' inode content := by
  induction reads generalizing st with
  | nil => exact ⟨st, rfl, h⟩
  | cons r reads ih =>
    obtain ⟨st₁, hread, h₁⟩ := run_readData_content hstores h hlength (hsum r List.mem_cons_self)
    obtain ⟨st', hreads, h'⟩ := ih h₁ fun r' hr' => hsum r' (List.mem_cons_of_mem _ hr')
    refine ⟨st', ?_, h'⟩
    rw [List.mapM_cons, run_bind_of_ok hread, run_bind_of_ok hreads]
    rfl

/-! ## The copy -/

theorem IsCopy.stores (hx : x.Lawful) {ups : List Uploads} (h : IsCopy x ups inode content)
    (hups : Endpoints ups) (havail : ∀ s ∈ inode.sub, 7 ≤ available x net s)
    (hcol : ∀ i, NoCollision x net (.rs 7 5 16) (chunk inode.blockSize content i)) :
    Stores x net inode content where
  positive := by
    rw [Inode.getBlockSize, h.storageType]
    decide
  filesize := h.filesize
  cover := h.cover
  decode := by
    intro i s hs
    obtain ⟨up, hup, hencode⟩ := h.entry i s hs
    have henough : (StorageType.rs 7 5 16).getDecodeBlocks ≤ available x net s := by
      have hseven := havail s (List.mem_of_getElem? hs)
      show (7 : Int) ≤ available x net s
      omega
    rw [decodeEntry, h.storageType]
    simp only
    rw [decodeOne_of_isEntry hx (isEntry_of_encodeOne hx (hups up hup) hencode) (hcol i),
      if_pos henough]

theorem IsCopy.keepsRecord {p : FullPath} {ups : List Uploads} {db db' : Store}
    (h : IsCopy x ups (recordAt db p) content) (hkeeps : KeepsRecord p db db') :
    IsCopy x ups (recordAt db' p) content := by
  rw [KeepsRecord] at hkeeps
  rw [hkeeps]
  exact ⟨h.valid, h.storageType, h.filesize, h.cover, h.entry⟩

theorem KeepsRecord.refl (p : FullPath) (db : Store) : KeepsRecord p db db := rfl

/-- No block file changes. -/
def SameBlocks (st st' : State) : Prop := ∀ path i, st'.block path i = st.block path i

instance : IsPreorder State SameBlocks where
  refl _ _ _ := rfl
  trans _ _ _ h₁ h₂ path i := (h₂ path i).trans (h₁ path i)

theorem sameBlocks_closeFile (path : String) (sync : Sync) :
    Within SameBlocks (closeFile x path sync) := by
  have hfsync : Within SameBlocks (fsync x path sync) := by
    refine within_fsync (fun st folder i hfolder p j => ?_) (fun _ _ _ _ => rfl) sync
    by_cases hp : p = path
    · rw [hp, State.block_setFolder, State.block_of_tmp hfolder]
      rfl
    · rw [State.block, State.tmp_setFolder_of_ne hp]
      rfl
  exact hfsync.bind fun _ st _ _ => rfl

/-- A client opens a file for reading.  It keeps the block files that it has, or removes them. -/
theorem run_openFile_opened {p : FullPath} (hpath : p.text ≠ "")
    (hvalid : (recordAt st.db p).valid = true)
    (hblocks : ∀ i, (st.block p.text i).getD [] = [] ∨
      (st.block p.text i).getD [] = chunk (recordAt st.db p).blockSize content i)
    (clock : ℕ → UInt64) :
    ∃ st', (openFile x p.text ⟨false, false, false⟩ clock).run st = .ok () st' ∧
      Opened st' (recordAt st.db p) content := by
  have hls : Namenode.ls st.db p.text = .ok (recordAt st.db p) := by
    rw [Namenode.ls, if_neg hpath, FullPath.set_text]
    exact ls_eq_ok.mpr ⟨hvalid, rfl⟩
  generalize hold : ((st.localInodeCache p.text).getD noInode).sub = old
  let st₁ := st.setFolder p.text (st.folder p.text)
  have hrun : (openFile x p.text ⟨false, false, false⟩ clock).run st =
      .ok () ((st₁.removeOutdated p.text old (recordAt st.db p).sub).setInode p.text
        (some (recordAt st.db p))) := by
    have hupdate := run_updateInode p.text st₁
    rw [show st₁.db = st.db from rfl, hls, show st₁.localInodeCache = st.localInodeCache from rfl,
      hold] at hupdate
    show (updateInode p.text >>= fun _ => pure ()).run st₁ = _
    rw [run_bind_of_ok hupdate]
    rfl
  refine ⟨_, hrun, ?_, ?_, fun i data hdata hne => ?_⟩
  · rw [recordAt_fullpath]
    exact State.localInodeCache_setInode _ _ _
  · rw [recordAt_fullpath]
    show ∃ folder, (st₁.removeOutdated p.text old (recordAt st.db p).sub).tmp p.text = some folder
    rw [State.removeOutdated, State.tmp_setFolder]
    exact ⟨_, State.tmp_setFolder _ _ _⟩
  · rw [recordAt_fullpath] at hdata
    have hdata' := block_of_run_openFile hrun hdata hne
    rcases hblocks i with hnil | hchunk
    · rw [hdata'] at hnil
      exact absurd hnil hne
    · rw [hdata'] at hchunk
      exact hchunk

/-- What was copied is read back.  A file is created, written piece by piece and closed, and the
namenode accepts the `put_ok`.  As long as the record stays, a client that opens the file reads
the content in all windows: whoever has no block files of the path, or has them as the copy has
left them, and gets seven fragments of each block. -/
theorem reads_of_copied (hx : x.Lawful) {p : FullPath} {st₀ st₁ st₂ : State}
    {clock clock' : ℕ → UInt64} {c : Copying} {sync : Sync}
    (hempty : ∀ i, (st₀.block p.text i).getD [] = [])
    (hcreate : (create x p.text clock).run st₀ = .ok () st₁)
    (hreach : Runs.Reach (Copying.step x p.text) (Copying.Sequential p.text) ⟨st₁, []⟩ c)
    (hups : Endpoints sync.ups) (hdelivered : sync.delivered = true)
    (haccepts : Accepts c.st.db p.text)
    (hclose : (closeFile x p.text sync).run c.st = .ok () st₂)
    (hrecord : KeepsRecord p st₂.db st.db)
    (hblocks : ∀ i, (st.block p.text i).getD [] = [] ∨
      (st.block p.text i).getD [] = (st₂.block p.text i).getD [])
    (havail : ∀ s ∈ (recordAt st.db p).sub, 7 ≤ available x net s)
    (hcol : ∀ i, NoCollision x net (.rs 7 5 16) (chunk (recordAt st.db p).blockSize c.content i))
    {reads : List (UInt64 × UInt64)} (hsum : ∀ r ∈ reads, r.1.toNat + r.2.toNat < 2 ^ 64) :
    ∃ st', (openFile x p.text ⟨false, false, false⟩ clock' >>= fun _ =>
        reads.mapM fun r => readData x net p.text r.1 r.2).run st =
      .ok (reads.map fun r => (c.content.drop r.1.toNat).take r.2.toNat) st' := by
  obtain ⟨inode, hstart⟩ := Copying.invariant_create haccepts.1 hempty hcreate
  have hc := Copying.invariant_of_reach hstart hreach
  have hcopy := (Copying.isCopy_of_closeFile hc hdelivered haccepts hclose)
  rw [FullPath.set_text] at hcopy
  have hcopy' := hcopy.keepsRecord hrecord
  -- The block files of the client that has copied.
  have hleft : ∀ i, (st₂.block p.text i).getD [] =
      chunk (recordAt st.db p).blockSize c.content i := by
    intro i
    obtain ⟨folder, hopen, hholds⟩ := hc.opened
    have hsame := sameBlocks_closeFile (x := x) p.text sync c.st p.text i
    rw [after_of_ok hclose] at hsame
    rw [hsame, State.block_of_tmp hopen.tmp, hholds.block,
      blockSize_of_storageType hc.fresh.storageType, blockSize_of_storageType hcopy'.storageType]
  have hblocks' : ∀ i, (st.block p.text i).getD [] = [] ∨
      (st.block p.text i).getD [] = chunk (recordAt st.db p).blockSize c.content i := by
    intro i
    rw [← hleft i]
    exact hblocks i
  obtain ⟨st₃, hopen, hopened⟩ :=
    run_openFile_opened (x := x) haccepts.1 hcopy'.valid hblocks' clock'
  obtain ⟨st', hreads, _⟩ :=
    run_reads_content (hcopy'.stores hx hups havail hcol) hopened hc.small hsum
  rw [recordAt_fullpath] at hreads
  exact ⟨st', (run_bind_of_ok hopen _).trans hreads⟩

/-- The digest of the block `[1, 2, 3]`, and the simplest code that gets the data back from any of
its fragments: each fragment is the data. -/
def mirrorExternal : External where
  sha256 := fun data => if data = [1, 2, 3] then
    "039058C6F2C0CB492C533B0A4D14EF77CC0F78ABCCCED5287D84A1A2011CFB81" else ""
  code :=
    ⟨fun k m data =>
        if 0 < k ∧ 0 ≤ m then .ok (List.replicate (k + m).toNat data) else .error (-1),
      fun _ _ vec => match vec with
        | [] => .error (-1)
        | data :: _ => .ok data⟩

theorem mirrorExternal_lawful : mirrorExternal.Lawful where
  digest := by
    intro data c hc
    show c ∉ (if data = [1, 2, 3] then _ else _ : String).toList
    split
    · rcases List.mem_cons.mp hc with rfl | hc
      · decide
      · obtain rfl := List.mem_singleton.mp hc
        decide
    · exact List.not_mem_nil
  code := by
    have hencode : ∀ {k m : Int} {d : Bytes} {frags : List Bytes},
        mirrorExternal.code.encode k m d = .ok frags →
          (0 < k ∧ 0 ≤ m) ∧ frags = List.replicate (k + m).toNat d := by
      intro k m d frags h
      have h' : (if 0 < k ∧ 0 ≤ m then Except.ok (List.replicate (k + m).toNat d)
        else Except.error (-1) : Except Int (List Bytes)) = .ok frags := h
      split at h'
      · rename_i hkm
        exact ⟨hkm, (Except.ok.inj h').symm⟩
      · cases h'
    refine ⟨fun h => (hencode h).1.1, ?_, ?_⟩
    · intro k m d frags h
      obtain ⟨⟨hk, hm⟩, rfl⟩ := hencode h
      rw [List.length_replicate]
      omega
    · intro k m d frags vec h hsub hlen
      obtain ⟨⟨hk, hm⟩, rfl⟩ := hencode h
      cases vec with
      | nil =>
        rw [List.length_nil] at hlen
        omega
      | cons data vec =>
        obtain rfl := List.eq_of_mem_replicate (hsub.subset List.mem_cons_self)
        rfl

/-- One datanode, which takes all fragments. -/
def mirrorUploads : Uploads := ⟨.ok [⟨"192.168.88.112", 10002, .online⟩], List.replicate 12 true⟩

def mirrorNet : Net := fun _ blkid =>
  if blkid = mirrorExternal.sha256 [1, 2, 3] then some [1, 2, 3] else none

/-- A new client, the file that it has created, and the one that it has written. -/
def beforeCopy : State := ⟨KeyedMap.empty, fun _ => none, fun path =>
  if path = "" then some .empty else none⟩

def createdCopy : State := after (create mirrorExternal "/f" fun _ => 100) beforeCopy

def writtenCopy : Copying :=
  ⟨after (writeData mirrorExternal mirrorNet "/f" 2 [3])
    (after (writeData mirrorExternal mirrorNet "/f" 0 [1, 2]) createdCopy), [1, 2, 3]⟩

def closedCopy : State :=
  after (closeFile mirrorExternal "/f" ⟨[mirrorUploads], true⟩) writtenCopy.st

theorem reach_writtenCopy :
    Runs.Reach (Copying.step mirrorExternal "/f") (Copying.Sequential "/f") ⟨createdCopy, []⟩
      writtenCopy := by
  have hfirst : Copying.step mirrorExternal "/f" ⟨createdCopy, []⟩ (.writeData mirrorNet 0 [1, 2]) =
      some ⟨after (writeData mirrorExternal mirrorNet "/f" 0 [1, 2]) createdCopy, [1, 2]⟩ := by
    rw [Copying.step, step_of_isSome (by decide +kernel)]
    rfl
  have hsecond : Copying.step mirrorExternal "/f"
      ⟨after (writeData mirrorExternal mirrorNet "/f" 0 [1, 2]) createdCopy, [1, 2]⟩
      (.writeData mirrorNet 2 [3]) = some writtenCopy := by
    rw [Copying.step, step_of_isSome (by decide +kernel)]
    rfl
  refine .tail (.tail .refl ?_ hfirst) ?_ hsecond
  · show (0 : UInt64).toNat = 0 ∧ 0 + 2 < 2 ^ 31
    decide
  · show (2 : UInt64).toNat = 2 ∧ 2 + 1 < 2 ^ 31
    decide

theorem endpoints_mirrorUploads : Endpoints [mirrorUploads] := by
  intro up hup nodes hnodes
  obtain rfl := List.mem_singleton.mp hup
  exact endpoints_byteUploads byteUploads List.mem_cons_self nodes hnodes

theorem noCollision_mirrorNet (block : Bytes) :
    NoCollision mirrorExternal mirrorNet (.rs 7 5 16) block := by
  intro frags _ f _ node blkid data hdata hsha
  rw [mirrorNet] at hdata
  split at hdata
  · obtain rfl := Option.some.inj hdata
    by_contra hne
    have hempty : mirrorExternal.sha256 f = "" := if_neg (Ne.symm hne)
    rw [hempty] at hsha
    exact absurd hsha (by decide)
  · cases hdata

/-- All places of the entry are with the datanode, and it has the fragment. -/
theorem available_mirrorNet {s : String}
    (h : encodeOne mirrorExternal (.rs 7 5 16) [1, 2, 3] mirrorUploads = .ok s) :
    available mirrorExternal mirrorNet s = 12 := by
  obtain ⟨frags, nodes, hencode, honline, hloop, _⟩ := exists_places_of_encodeOne
    mirrorExternal_lawful (endpoints_mirrorUploads _ List.mem_cons_self) h
  have hfrags : Except.ok (List.replicate 12 [1, 2, 3]) = Except.ok frags := hencode
  obtain rfl := Except.ok.inj hfrags
  obtain rfl := Except.ok.inj honline
  have hplaces : decodeOneSub s = List.replicate 12
      (Node.toText ⟨"192.168.88.112", 10002, .online⟩, mirrorExternal.sha256 [1, 2, 3]) :=
    (Except.ok.inj hloop).symm
  have hreturns : ∀ node, Returns mirrorExternal mirrorNet
      (node, mirrorExternal.sha256 [1, 2, 3]) = true := by
    intro node
    rw [Returns, mirrorNet]
    simp
  rw [available, hplaces, List.countP_replicate, if_pos (hreturns _)]

def copyPath : FullPath := ⟨"/f", by decide⟩

theorem run_createdCopy : (create mirrorExternal "/f" fun _ => 100).run beforeCopy =
    .ok () createdCopy :=
  run_of_returned (by decide +kernel)

theorem accepts_writtenCopy : Accepts writtenCopy.st.db "/f" := by
  refine ⟨by decide, ?_, ?_, ?_⟩ <;> decide +kernel

theorem run_closedCopy :
    (closeFile mirrorExternal "/f" ⟨[mirrorUploads], true⟩).run writtenCopy.st =
      .ok () closedCopy :=
  run_of_returned (by decide +kernel)

/-- The record has one entry, and all of its places answer. -/
theorem available_closedCopy {s : String} (h : s ∈ (recordAt closedCopy.db copyPath).sub) :
    7 ≤ available mirrorExternal mirrorNet s := by
  obtain ⟨inode, hstart⟩ :=
    Copying.invariant_create (by decide) (fun i => rfl) run_createdCopy
  have hcopy := Copying.isCopy_of_closeFile (Copying.invariant_of_reach hstart reach_writtenCopy)
    rfl accepts_writtenCopy run_closedCopy
  have hset : FullPath.set "/f" = copyPath := copyPath.set_text
  rw [hset] at hcopy
  have hone : (recordAt closedCopy.db copyPath).sub.length = 1 := by decide +kernel
  obtain ⟨i, hi, rfl⟩ := List.mem_iff_getElem.mp h
  obtain rfl : i = 0 := by omega
  obtain ⟨up, hup, hencode⟩ := hcopy.entry 0 _ (List.getElem?_eq_getElem hi)
  obtain rfl := List.mem_singleton.mp hup
  rw [blockSize_of_storageType hcopy.storageType] at hencode
  rw [available_mirrorNet hencode]
  decide

/-- Another client, which has no block files. -/
def reader : State := ⟨closedCopy.db, fun _ => none, fun _ => none⟩

theorem reads_of_copied_twoWrites :
    ∃ st', (openFile mirrorExternal "/f" ⟨false, false, false⟩ (fun _ => 300) >>= fun _ =>
        [((1 : UInt64), (10 : UInt64)), (0, 2)].mapM fun r =>
          readData mirrorExternal mirrorNet "/f" r.1 r.2).run reader =
      .ok [[2, 3], [1, 2]] st' := by
  have hempty : ∀ i, (beforeCopy.block copyPath.text i).getD [] = [] := fun i => rfl
  have hrecord : KeepsRecord copyPath closedCopy.db reader.db := .refl _ _
  have hblocks : ∀ i, (reader.block copyPath.text i).getD [] = [] ∨
      (reader.block copyPath.text i).getD [] = (closedCopy.block copyPath.text i).getD [] :=
    fun i => Or.inl rfl
  have hsum : ∀ r ∈ [((1 : UInt64), (10 : UInt64)), (0, 2)], r.1.toNat + r.2.toNat < 2 ^ 64 := by
    simp
  exact reads_of_copied mirrorExternal_lawful hempty run_createdCopy reach_writtenCopy
    endpoints_mirrorUploads rfl accepts_writtenCopy run_closedCopy hrecord hblocks
    (fun s hs => available_closedCopy hs) (fun i => noCollision_mirrorNet _) hsum

end SDK

end Spkdfs
