import Spkdfs.Client.Exact
import Spkdfs.Client.Fsync

/-!
# What an open does to the record

`open`, `create` and `truncate` of `client/sdk.cpp`.  With `O_CREAT`, `open` puts an empty file
under the path before it does anything else, also when there is a file already
(`keepsContent_iff`).  `truncate` opens with `O_TRUNC`, which cuts the file to nothing, whatever
the size is that it was called with (`truncates_iff`).

The locks are left aside as in `Client.Session`.
-/

namespace Spkdfs

open RocksDB Effects

/-- The list, the size and the storage type of the records agree. -/
structure Inode.SameContent (a b : Inode) : Prop where
  sub : a.sub = b.sub
  filesize : a.filesize = b.filesize
  storageType : a.storageType = b.storageType

namespace Inode.SameContent

variable {a b c : Inode}

theorem symm (h : a.SameContent b) : b.SameContent a :=
  ⟨h.sub.symm, h.filesize.symm, h.storageType.symm⟩

theorem trans (h : a.SameContent b) (h' : b.SameContent c) : a.SameContent c :=
  ⟨h.sub.trans h'.sub, h.filesize.trans h'.filesize, h.storageType.trans h'.storageType⟩

theorem getBlockSize (h : a.SameContent b) : a.getBlockSize = b.getBlockSize := by
  rw [Inode.getBlockSize, Inode.getBlockSize, h.storageType]

end Inode.SameContent

namespace SDK

variable (x : External)

/-- `SDK::create`. -/
def create (path : String) (clock : ℕ → UInt64) : Call Unit :=
  openFile x path ⟨true, true, false⟩ clock

/-- `SDK::truncate`.  The size is not passed on. -/
def truncate (path : String) (_size : UInt64) (clock : ℕ → UInt64) : Call Unit :=
  openFile x path ⟨false, true, true⟩ clock

variable {x} {path : String} {st st' : State} {clock : ℕ → UInt64} {k : FullPath}

/-! ## The record in each part of an open -/

theorem sameContent_of_updateLock {db db' : Store} {now : UInt64}
    (h : request db now (.updateLock path) = .ok db') :
    (recordAt db k).SameContent (recordAt db' k) := by
  rw [recordAt_of_updateLock h k]
  exact ⟨rfl, rfl, rfl⟩

theorem sameContent_of_lockFile {write : Bool} {now : UInt64} {u : Unit}
    (h : (lockFile path write now).run st = .ok u st') :
    (recordAt st.db k).SameContent (recordAt st'.db k) := by
  rw [lockFile, run_modify_bind] at h
  cases write with
  | false =>
    cases h
    exact ⟨rfl, rfl, rfl⟩
  | true =>
    obtain ⟨_, st₁, hsend, hclear⟩ := run_bind_eq_ok.mp h
    obtain ⟨db, hlock, rfl⟩ := run_send_eq_ok.mp hsend
    obtain ⟨folder, _, rfl⟩ := run_inFolder_eq_ok.mp hclear
    exact sameContent_of_updateLock hlock

theorem run_updateInode_eq_ok {u : Unit} (h : (updateInode path).run st = .ok u st') :
    ∃ remote, Namenode.ls st.db path = .ok remote ∧ st'.db = st.db ∧
      st'.localInodeCache path = some remote := by
  rw [run_updateInode] at h
  cases hls : Namenode.ls st.db path with
  | error e =>
    rw [hls] at h
    cases h
  | ok remote =>
    rw [hls] at h
    cases h
    have hdb := (st.removeOutdated_records path ((st.localInodeCache path).getD noInode).sub
      remote.sub).1
    exact ⟨remote, rfl, hdb, State.localInodeCache_setInode _ _ _⟩

/-- The record of a file that was just created. -/
structure IsFresh (inode : Inode) : Prop where
  sub : inode.sub = []
  filesize : inode.filesize = 0
  storageType : inode.storageType = some (.rs 7 5 16)

theorem IsFresh.sameContent {a b : Inode} (ha : IsFresh a) (hb : IsFresh b) : a.SameContent b :=
  ⟨ha.sub.trans hb.sub.symm, ha.filesize.trans hb.filesize.symm,
    ha.storageType.trans hb.storageType.symm⟩

theorem IsFresh.of_sameContent {a b : Inode} (hb : IsFresh b) (h : a.SameContent b) : IsFresh a :=
  ⟨h.sub.trans hb.sub, h.filesize.trans hb.filesize, h.storageType.trans hb.storageType⟩

/-- `_create` leaves such a record, whatever was there before. -/
theorem isFresh_of_createFile {u : Unit} (h : (createFile x path clock).run st = .ok u st') :
    IsFresh (recordAt st'.db (.set path)) := by
  rw [createFile, run_get_bind] at h
  split at h
  · cases h
  · rw [run_modify_bind] at h
    obtain ⟨db, hput, rfl⟩ := (run_putFile_eq_ok x).mp h
    obtain ⟨t, htype, _, _, _, ht, hsize, hsub⟩ := recordAt_put hput
    have hguess : StorageType.fromString guessStorageType = .ok (.rs 7 5 16) := by rfl
    have hnone : putBlocks t emptySource.val = [] := Chunks.bufferReads_nil _ _
    rw [hguess] at htype
    rw [hnone] at hsub
    exact ⟨(Except.ok.inj hsub).symm, hsize, ht.trans (congrArg some (Except.ok.inj htype).symm)⟩

/-- An `open` that returns: what `_create` leaves, and the lock in front of `update_inode`. -/
theorem run_openFile_eq_ok {flags : Flags} (h : (openFile x path flags clock).run st = .ok () st') :
    ∃ st₁ st₂, (if flags.create then IsFresh (recordAt st₁.db (.set path)) else st₁ = st) ∧
      (recordAt st₁.db (.set path)).SameContent (recordAt st₂.db (.set path)) ∧
      (∃ remote, Namenode.ls st₂.db path = .ok remote ∧
        st₂.localInodeCache path = some remote) ∧
      (if flags.trunc then truncateFile path 0 else pure () : Call Unit).run st₂ = .ok () st' := by
  rw [openFile_eq] at h
  obtain ⟨_, st₁, hcreate, h⟩ := run_bind_eq_ok.mp h
  obtain ⟨_, st₂, hlock, h⟩ := run_bind_eq_ok.mp h
  obtain ⟨_, st₃, hupdate, h⟩ := run_bind_eq_ok.mp h
  obtain ⟨remote, hls, hdb, hcache⟩ := run_updateInode_eq_ok hupdate
  refine ⟨st₁, st₃, ?_, hdb ▸ sameContent_of_lockFile hlock, ⟨remote, hdb ▸ hls, hcache⟩, h⟩
  cases hflag : flags.create with
  | false =>
    rw [hflag] at hcreate
    cases hcreate
    rfl
  | true =>
    rw [hflag] at hcreate
    exact isFresh_of_createFile hcreate

/-- Without `O_TRUNC`, an `open` leaves the content of the file alone exactly when it does not
create it, or when it finds the file that it creates. -/
theorem sameContent_iff {flags : Flags} (htrunc : flags.trunc = false)
    (h : (openFile x path flags clock).run st = .ok () st') :
    (recordAt st.db (.set path)).SameContent (recordAt st'.db (.set path)) ↔
      flags.create = false ∨ IsFresh (recordAt st.db (.set path)) := by
  obtain ⟨st₁, st₂, hcreate, hsame, _, hend⟩ := run_openFile_eq_ok h
  rw [htrunc] at hend
  cases hend
  cases hflag : flags.create with
  | false =>
    rw [hflag] at hcreate
    obtain rfl : st₁ = st := hcreate
    exact iff_of_true hsame (.inl rfl)
  | true =>
    rw [hflag] at hcreate
    have hfresh : IsFresh (recordAt st'.db (.set path)) := IsFresh.of_sameContent hcreate hsame.symm
    constructor
    · exact fun hkept => .inr (hfresh.of_sameContent hkept)
    · rintro (hno | hwas)
      · cases hno
      · exact hwas.sameContent hfresh

/-- The same for `create`, which always creates. -/
theorem keepsContent_iff :
    (∀ flags st', flags.trunc = false → (openFile x path flags clock).run st = .ok () st' →
      ((recordAt st.db (.set path)).SameContent (recordAt st'.db (.set path)) ↔
        flags.create = false ∨ IsFresh (recordAt st.db (.set path)))) ∧
    ∀ st', (create x path clock).run st = .ok () st' →
      ((recordAt st.db (.set path)).SameContent (recordAt st'.db (.set path)) ↔
        IsFresh (recordAt st.db (.set path))) := by
  refine ⟨fun flags st' => sameContent_iff, fun st' h => ?_⟩
  rw [sameContent_iff rfl h]
  exact or_iff_right (by decide)

/-- A file of one byte. -/
def oneByteFile : State := ⟨byteStore [7], fun _ => none, fun _ => none⟩

/-- It is opened with `O_WRONLY`, and it has its entry then. -/
theorem keepsContent_oneByte :
    ∃ st', (openFile byteExternal "/f" ⟨false, true, false⟩ fun _ => 200).run oneByteFile =
        .ok () st' ∧
      (recordAt oneByteFile.db (.set "/f")).SameContent (recordAt st'.db (.set "/f")) ∧
      (recordAt st'.db (.set "/f")).sub = [byteEntry [7]] := by
  have hrun := run_of_returned (show returned ((openFile byteExternal "/f" ⟨false, true, false⟩
    fun _ => 200).run oneByteFile) = true by decide)
  have hsame := (keepsContent_iff.1 _ _ rfl hrun).mpr (.inl rfl)
  have hsub : (recordAt oneByteFile.db (.set "/f")).sub = [byteEntry [7]] := by decide
  exact ⟨_, hrun, hsame, hsame.sub.symm.trans hsub⟩

/-- A file with a block is opened with `O_WRONLY | O_CREAT`, and the block is gone. -/
theorem not_keepsContent_create :
    ¬ ∀ (x : External) (path : String) (flags : Flags) (clock : ℕ → UInt64) (st st' : State),
      Served st.db → (recordAt st.db (.set path)).valid = true →
      (recordAt st.db (.set path)).isDirectory = false → flags.trunc = false →
      (openFile x path flags clock).run st = .ok () st' →
      (recordAt st.db (.set path)).SameContent (recordAt st'.db (.set path)) := by
  intro h
  obtain ⟨db, hserved, htest⟩ : ∃ db, Served db ∧ (let inode := recordAt db (.set "/f")
      inode.valid && !inode.isDirectory && inode.sub ≠ [] &&
        returned ((openFile byteExternal "/f" ⟨true, true, false⟩ fun _ => 200).run
          ⟨db, fun _ => none, fun _ => some .empty⟩)) = true :=
    Runs.exists_reachable_of_any [⟨.put "/f" "RE<1,1>", 100⟩, ⟨.updateLock "/f", 100⟩,
      ⟨.putOk "/f" 1 [byteEntry [7]], 101⟩] (by decide +kernel)
  simp only [Bool.and_eq_true, Bool.not_eq_true', decide_eq_true_eq] at htest
  obtain ⟨⟨⟨hvalid, hfile⟩, hsub⟩, hreturned⟩ := htest
  have hrun := run_of_returned hreturned
  have hsame := h byteExternal "/f" _ _ _ _ hserved hvalid hfile rfl hrun
  rcases (sameContent_iff rfl hrun).mp hsame with hno | hfresh
  · cases hno
  · exact hsub hfresh.sub

/-! ## Truncation -/

/-- The record has the new size and the first entries of the old one, and whoever opens the file
reads the first bytes of the old content. -/
structure Truncates (x : External) (net : Net) (path : String) (old : Inode) (c : Bytes)
    (n : UInt64) (db : Store) : Prop where
  filesize : (recordAt db (.set path)).filesize = n
  sub : (recordAt db (.set path)).sub =
    old.sub.take ((n.toNat + old.blockSize - 1) / old.blockSize)
  read : ∀ (st : State) (size : UInt64) (clock : ℕ → UInt64), st.db = db → n ≤ size →
    ∃ st', (openFile x path ⟨false, false, false⟩ clock >>= fun _ =>
      readData x net path 0 size).run st = .ok (c.take n.toNat) st'

theorem toInt32_getBlockSize (inode : Inode) : toInt32 inode.getBlockSize = inode.getBlockSize := by
  unfold Inode.getBlockSize
  split
  · rfl
  · exact Int.bmod_bmod ..

theorem zeros_eq_ok {inode : Inode} {bytes : Bytes} :
    zeros inode.getBlockSize = .ok bytes ↔
      0 ≤ inode.getBlockSize ∧ bytes = List.replicate inode.blockSize 0 := by
  rw [zeros, toInt32_getBlockSize]
  split
  · exact iff_of_false (fun h => by cases h) (by omega)
  · rename_i hle
    rw [Except.ok.injEq, eq_comm]
    exact (and_iff_right (by omega)).symm

/-- The only block of an empty file is one behind its end. -/
theorem getIndexs_zero {inode : Inode} {indexs : Int × Int} :
    getIndexs inode 0 0 = .ok indexs ↔ inode.getBlockSize ≠ 0 ∧ indexs = (0, 1) := by
  have hzero : toInt32 ((0 : UInt64).toNat) = 0 := toInt32_of_lt (by decide)
  rw [getIndexs, UInt64.add_zero, hzero, alignIndexDown, alignIndexUp, Int.zero_tdiv]
  split
  · rename_i hbs
    exact iff_of_false (fun h => by cases h) fun h => h.1 hbs
  · rename_i hbs
    show Except.ok ((0 : Int), (1 : Int)) = .ok indexs ↔ _
    rw [Except.ok.injEq, eq_comm]
    exact (and_iff_right hbs).symm

theorem readBlocks_nil (net : Net) {inode : Inode} (hsub : inode.sub = []) :
    readBlocks x net inode (0, 1) = lift (zeros inode.getBlockSize) := by
  show readLoop x net inode 1 1 0 = _
  have hnone : inode.sub[(0 : Int).toNat]? = none := by
    rw [hsub]
    rfl
  rw [readLoop, if_neg (by decide), hnone, Int.sub_zero, Int.one_mul]

/-- An empty file is read when its block size is positive, and only then. -/
theorem run_readData_empty {net : Net} {inode : Inode} {size : UInt64}
    (hcache : st.localInodeCache path = some inode) (hsize : inode.filesize = 0)
    (hsub : inode.sub = []) :
    (∃ st', (readData x net path 0 size).run st = .ok [] st') ↔ 0 < inode.getBlockSize := by
  have hclip : (if (0 : UInt64) < 0 + size then (0 : UInt64) - 0 else size) = 0 := by
    split
    · rfl
    · rename_i hle
      rw [UInt64.zero_add] at hle
      exact UInt64.le_zero_iff.mp (UInt64.not_lt.mp hle)
  have hslice : ∀ bytes : Bytes, slice bytes (((0 : UInt64).toNat : Int) -
      toInt32 (0 * inode.getBlockSize)) (0 : UInt64).toNat = .ok [] := by
    intro bytes
    have hzero : toInt32 (0 * inode.getBlockSize) = 0 := by
      rw [Int.zero_mul]
      exact toInt32_of_lt (n := 0) (by decide)
    rw [hzero]
    exact if_pos ⟨by decide, Int.natCast_nonneg _⟩
  rw [readData, run_bind_of_ok (run_getInode_of_some hcache), hsize, if_neg (by decide)]
  simp only [hclip, run_bind_eq_ok, run_lift_eq_ok, getIndexs_zero]
  constructor
  · rintro ⟨_, indexs, _, ⟨⟨hne, rfl⟩, rfl⟩, bytes, st₁, hblocks, _⟩
    rw [readBlocks_nil net hsub, run_lift_eq_ok, zeros_eq_ok] at hblocks
    have hle := hblocks.1.1
    omega
  · intro hpos
    refine ⟨st, (0, 1), st, ⟨⟨hpos.ne', rfl⟩, rfl⟩, List.replicate inode.blockSize 0, st, ?_,
      hslice _, rfl⟩
    rw [readBlocks_nil net hsub, run_lift_eq_ok, zeros_eq_ok]
    exact ⟨⟨hpos.le, rfl⟩, rfl⟩

/-- An `open` for reading takes what the namenode answers. -/
theorem run_openFile_readOnly {remote : Inode} (hls : Namenode.ls st.db path = .ok remote)
    (clock : ℕ → UInt64) :
    ∃ st₁, (openFile x path ⟨false, false, false⟩ clock).run st = .ok () st₁ ∧
      st₁.localInodeCache path = some remote := by
  have hupdate : ∃ st₁, (updateInode path).run (st.setFolder path (st.folder path)) = .ok () st₁ ∧
      st₁.localInodeCache path = some remote := by
    rw [run_updateInode, show (st.setFolder path (st.folder path)).db = st.db from rfl, hls]
    exact ⟨_, rfl, State.localInodeCache_setInode _ _ _⟩
  obtain ⟨st₁, hrun, hcache⟩ := hupdate
  refine ⟨st₁, ?_, hcache⟩
  show (updateInode path >>= fun _ => pure ()).run (st.setFolder path (st.folder path)) = _
  rw [run_bind_of_ok hrun]
  rfl

/-- Whoever opens an empty file reads it when its block size is positive, and only then. -/
theorem run_read_empty {net : Net} {inode : Inode} {size : UInt64}
    (hls : Namenode.ls st.db path = .ok inode) (hsize : inode.filesize = 0)
    (hsub : inode.sub = []) (clock : ℕ → UInt64) :
    (∃ st', (openFile x path ⟨false, false, false⟩ clock >>= fun _ =>
      readData x net path 0 size).run st = .ok [] st') ↔ 0 < inode.getBlockSize := by
  obtain ⟨st₁, hopen, hcache⟩ := run_openFile_readOnly hls clock
  rw [run_bind_of_ok hopen]
  exact run_readData_empty hcache hsize hsub

theorem alignUp_zero {alignment : Int} (hpos : 0 < alignment) (hlt : alignment < 2 ^ 31) :
    alignUp 0 alignment = .ok 0 := by
  have hsum : toInt32 (0 + alignment - 1) = alignment - 1 := by
    rw [toInt32, Int.bmod]
    omega
  rw [alignUp, if_neg hpos.ne', hsum, Int.tdiv_eq_zero_of_lt (by omega) (by omega)]

/-- `_truncate(path, 0)` of a file whose inode was just fetched. -/
theorem recordAt_truncateFile {u : Unit} (hpath : path ≠ "")
    (hls : Namenode.ls st.db path = .ok (recordAt st.db (.set path)))
    (hcache : st.localInodeCache path = some (recordAt st.db (.set path)))
    (h : (truncateFile path 0).run st = .ok u st') :
    Namenode.ls st'.db path = .ok (recordAt st'.db (.set path)) ∧
      (recordAt st'.db (.set path)).filesize = 0 ∧
      (recordAt st'.db (.set path)).storageType = (recordAt st.db (.set path)).storageType ∧
      if (recordAt st.db (.set path)).filesize = 0 then
        (recordAt st'.db (.set path)).sub = (recordAt st.db (.set path)).sub
      else
        ∃ n, alignUp 0 (recordAt st.db (.set path)).getBlockSize = .ok n ∧
          (recordAt st'.db (.set path)).sub = (recordAt st.db (.set path)).sub.take n.toNat := by
  have hzero : toInt32 ((0 : UInt64).toNat) = 0 := toInt32_of_lt (by decide)
  rw [truncateFile, run_bind_of_ok (run_getInode_of_some hcache)] at h
  split at h
  · rename_i hsize
    cases h
    exact ⟨hls, hsize, rfl, by rw [if_pos hsize]⟩
  · rename_i hsize
    rw [hzero] at h
    obtain ⟨n, st₁, halign, h⟩ := run_bind_eq_ok.mp h
    obtain ⟨halign, rfl⟩ := run_lift_eq_ok.mp halign
    split at h
    · cases h
    · obtain ⟨db, hreq, rfl⟩ := run_send_eq_ok.mp h
      obtain ⟨haccepts, hrec⟩ := request_putOk_eq_ok hreq
      have hvalid : (recordAt db (.set path)).valid = true := by
        rw [hrec]
        exact haccepts.2.1
      refine ⟨?_, by rw [hrec], by rw [hrec]; rfl, ?_⟩
      · rw [Namenode.ls, if_neg hpath, ls_eq_ok]
        exact ⟨hvalid, rfl⟩
      · rw [if_neg hsize, hrec]
        exact ⟨n, halign, rfl⟩

/-- The record after a `truncate`. -/
theorem recordAt_truncate {n : UInt64} (hpath : path ≠ "")
    (h : (truncate x path n clock).run st = .ok () st') :
    Namenode.ls st'.db path = .ok (recordAt st'.db (.set path)) ∧
      (recordAt st'.db (.set path)).filesize = 0 ∧
      (recordAt st'.db (.set path)).storageType = (recordAt st.db (.set path)).storageType ∧
      if (recordAt st.db (.set path)).filesize = 0 then
        (recordAt st'.db (.set path)).sub = (recordAt st.db (.set path)).sub
      else
        ∃ n, alignUp 0 (recordAt st.db (.set path)).getBlockSize = .ok n ∧
          (recordAt st'.db (.set path)).sub = (recordAt st.db (.set path)).sub.take n.toNat := by
  obtain ⟨_, st₂, rfl, hsame, ⟨remote, hls, hcache⟩, htruncate⟩ := run_openFile_eq_ok h
  have hremote : remote = recordAt st₂.db (.set path) := by
    rw [Namenode.ls, if_neg hpath] at hls
    exact (ls_eq_ok.mp hls).2
  rw [hremote] at hls hcache
  rw [hsame.storageType, hsame.sub, hsame.filesize, hsame.getBlockSize]
  exact recordAt_truncateFile hpath hls hcache htruncate

/-- `truncate` cuts every file to nothing.  So it does what it is asked for when that is the size
zero, and when no entry is left over: the size was not zero before, or there was no entry. -/
theorem truncates_iff {net : Net} {n : UInt64} (c : Bytes) (hpath : path ≠ "")
    (h : (truncate x path n clock).run st = .ok () st') :
    Truncates x net path (recordAt st.db (.set path)) c n st'.db ↔
      n = 0 ∧ 0 < (recordAt st.db (.set path)).getBlockSize ∧
        ((recordAt st.db (.set path)).filesize ≠ 0 ∨ (recordAt st.db (.set path)).sub = []) := by
  obtain ⟨hls, hsize, htype, hsub⟩ := recordAt_truncate hpath h
  have hbs : (recordAt st'.db (.set path)).getBlockSize =
      (recordAt st.db (.set path)).getBlockSize := by
    rw [Inode.getBlockSize, Inode.getBlockSize, htype]
  generalize recordAt st.db (.set path) = old at hsub hbs
  have hceil : ((0 : UInt64).toNat + old.blockSize - 1) / old.blockSize = 0 := by
    rw [UInt64.toNat_zero, Nat.zero_add]
    rcases Nat.eq_zero_or_pos old.blockSize with hzero | hpos
    · rw [hzero]
    · exact Nat.div_eq_of_lt (by omega)
  constructor
  · intro htrunc
    obtain rfl : n = 0 := htrunc.filesize.symm.trans hsize
    have hnil : (recordAt st'.db (.set path)).sub = [] := by
      rw [htrunc.sub, hceil, List.take_zero]
    have hread := htrunc.read st' 0 clock rfl (UInt64.le_refl 0)
    rw [UInt64.toNat_zero, List.take_zero, run_read_empty hls hsize hnil, hbs] at hread
    refine ⟨rfl, hread, ?_⟩
    split at hsub
    · exact .inr (hsub.symm.trans hnil)
    · rename_i hne
      exact .inl hne
  · rintro ⟨rfl, hpos, hold⟩
    have hnil : (recordAt st'.db (.set path)).sub = [] := by
      split at hsub
      · rename_i hzero
        rw [hsub]
        exact hold.resolve_left fun hne => hne hzero
      · obtain ⟨m, hm, hsub⟩ := hsub
        have hlt := old.blockSize_lt
        have hcoe := Inode.coe_blockSize hpos
        rw [alignUp_zero hpos (by omega)] at hm
        rw [hsub, ← Except.ok.inj hm]
        rfl
    refine ⟨hsize, by rw [hnil, hceil, List.take_zero], ?_⟩
    intro st₁ size clock hdb _
    rw [UInt64.toNat_zero, List.take_zero]
    rw [← hdb] at hls hsize hnil hbs
    exact (run_read_empty hls hsize hnil clock).mpr (hbs ▸ hpos)

theorem run_truncate_oneByteFile (n : UInt64) :
    (truncate byteExternal "/f" n fun _ => 200).run oneByteFile =
      .ok () (after (truncate byteExternal "/f" n fun _ => 200) oneByteFile) :=
  run_of_returned (show returned ((openFile byteExternal "/f" ⟨false, true, true⟩
    fun _ => 200).run oneByteFile) = true by decide)

theorem truncates_toZero :
    Truncates byteExternal byteNet "/f" (recordAt (byteStore [7]) (.set "/f")) [7] 0
      (after (truncate byteExternal "/f" 0 fun _ => 200) oneByteFile).db := by
  have hold : (recordAt (byteStore [7]) (.set "/f")).getBlockSize = 1048576 ∧
      (recordAt (byteStore [7]) (.set "/f")).filesize = 1 := by
    decide
  refine (truncates_iff [7] (by decide) (run_truncate_oneByteFile 0)).mpr ⟨rfl, ?_, ?_⟩
  · show 0 < (recordAt (byteStore [7]) (.set "/f")).getBlockSize
    rw [hold.1]
    decide
  · refine .inl ?_
    show (recordAt (byteStore [7]) (.set "/f")).filesize ≠ 0
    rw [hold.2]
    decide

/-- A file of one byte is truncated to one byte, and it is empty. -/
theorem not_truncates_oneByte :
    ¬ ∀ (x : External) (net : Net) (path : String) (clock : ℕ → UInt64) (st st' : State)
      (n : UInt64) (c : Bytes), path ≠ "" →
      getFile x net (recordAt st.db (.set path)) = .ok c → n.toNat ≤ c.length →
      (truncate x path n clock).run st = .ok () st' →
      Truncates x net path (recordAt st.db (.set path)) c n st'.db := by
  intro h
  have hcontent : getFile byteExternal byteNet (recordAt (byteStore [7]) (.set "/f")) =
      .ok [7] := by
    decide
  have hrun := run_truncate_oneByteFile 1
  have htrunc := h byteExternal byteNet "/f" _ oneByteFile _ 1 [7] (by decide) hcontent (by decide)
    hrun
  have hzero := (recordAt_truncate (by decide) hrun).2.1
  exact absurd (htrunc.filesize.symm.trans hzero) (by decide)

end SDK

end Spkdfs
