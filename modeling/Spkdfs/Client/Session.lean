import Mathlib.Algebra.Group.Int.Defs
import Mathlib.Data.List.Sort
import Spkdfs.Client.Roundtrip
import Spkdfs.Lib.Effects

/-!
# Open files of a client

`open`, `read_data`, `write_data`, `fsync` and `close` of `client/sdk.cpp`.  The SDK
keeps two things of an open file: the inode that `open` has fetched
(`local_inode_cache`), and under `/tmp/spkdfs/fuse` a directory with one file for
each block that was read or written.  A block that was written has a hard link in
the subdirectory `write`, until `fsync` has uploaded it.

A call is an `EStateM`: it changes the state (`State`) and leaves its effects also when
it throws.  The locks of `PathLocks` are added in `Client.Locking`; `remoteLocks`, which only
the timer reads, is left out.  The digest of a path names its directory; here the path stands
for its digest.
-/

namespace Spkdfs

open RocksDB Effects

/-- The conversion of an integer to `int`. -/
def toInt32 (n : Int) : Int := n.bmod (2 ^ 32)

/-- `Inode::get_block_size`. -/
def Inode.getBlockSize (inode : Inode) : Int :=
  match inode.storageType with
  | none => 0
  | some t => t.getBlockSize

/-- `align_index_down`.  The division by zero is undefined. -/
def alignIndexDown (n alignment : Int) : Except Abrupt Int :=
  if alignment = 0 then .error .undefined else .ok (n.tdiv alignment)

/-- `align_index_up`. -/
def alignIndexUp (n alignment : Int) : Except Abrupt Int :=
  if alignment = 0 then .error .undefined else .ok (n.tdiv alignment + 1)

/-- `align_up`. -/
def alignUp (n alignment : Int) : Except Abrupt Int :=
  if alignment = 0 then .error .undefined
  else .ok ((toInt32 (n + alignment - 1)).tdiv alignment)

/-- `read_file` on a file with this content.  The size is an `int`. -/
def readFile (data : Bytes) : Except Abrupt Bytes :=
  if toInt32 data.length < 0 then .error (.thrown (.runtime "basic_string::_M_replace_aux"))
  else .ok (data.take (toInt32 data.length).toNat)

/-! ## The directory of a path -/

/-- A name in the directory `write`.  It shares the block file of its index, until that
file is removed. -/
inductive Link
  | shared
  | own (data : Bytes)
  deriving DecidableEq

/-- The directory `get_tmp_path`: the block files, and the directory `write`, if it
exists. -/
structure Folder where
  block : ℕ → Option Bytes
  write : Option (List (ℕ × Link))

namespace Folder

def empty : Folder := ⟨fun _ => none, none⟩

/-- The content behind a name in `write`. -/
def link (folder : Folder) (i : ℕ) : Option Bytes :=
  match (folder.write.getD []).lookup i with
  | none => none
  | some .shared => folder.block i
  | some (.own data) => some data

/-- `read_file` of a name in `write`. -/
def readLink (folder : Folder) (i : ℕ) : Except Abrupt Bytes :=
  match folder.link i with
  | none => .error (.thrown (.runtime "filesystem error: cannot get file size"))
  | some data => readFile data

/-- `list_dir` of `write`, sorted. -/
def dirty (folder : Folder) : List ℕ :=
  ((folder.write.getD []).map Prod.fst).insertionSort (· ≤ ·)

def setBlock (folder : Folder) (i : ℕ) (data : Bytes) : Folder :=
  { folder with block := Function.update folder.block i (some data) }

/-- `fs::remove_all` of a block file.  A hard link keeps the content. -/
def removeBlock (folder : Folder) (i : ℕ) : Folder where
  block := Function.update folder.block i none
  write := folder.write.map fun links => links.map fun p =>
    match p.2, folder.block i with
    | .shared, some data => if p.1 = i then (i, .own data) else p
    | _, _ => p

def addLink (folder : Folder) (links : List (ℕ × Link)) (i : ℕ) : Folder :=
  { folder with write := some ((i, .shared) :: links.filter (·.1 ≠ i)) }

def removeLink (folder : Folder) (i : ℕ) : Folder :=
  { folder with write := folder.write.map fun links => links.filter (·.1 ≠ i) }

/-- `mkdir_f` and `clear_dir` of `write`. -/
def clearWrite (folder : Folder) : Folder := { folder with write := some [] }

end Folder

namespace SDK

/-- The records of the namenode, and what an SDK keeps. -/
structure State where
  db : Store
  localInodeCache : String → Option Inode
  tmp : String → Option Folder

abbrev Call := EStateM Abrupt State

namespace State

def setInode (st : State) (path : String) (inode : Option Inode) : State :=
  { st with localInodeCache := Function.update st.localInodeCache path inode }

@[simp] theorem localInodeCache_setInode (st : State) (path : String) (inode : Option Inode) :
    (st.setInode path inode).localInodeCache path = inode := Function.update_self ..

def setFolder (st : State) (path : String) (folder : Folder) : State :=
  { st with tmp := Function.update st.tmp path (some folder) }

/-- The directory of a path, or an empty one. -/
def folder (st : State) (path : String) : Folder := (st.tmp path).getD .empty

/-- The content of `get_tmp_index_path`, if that file exists. -/
def block (st : State) (path : String) (i : ℕ) : Option Bytes :=
  (st.tmp path).bind fun folder => folder.block i

@[simp] theorem tmp_setFolder (st : State) (path : String) (folder : Folder) :
    (st.setFolder path folder).tmp path = some folder := Function.update_self ..

theorem tmp_setFolder_of_ne {p path : String} (h : p ≠ path) (st : State) (folder : Folder) :
    (st.setFolder path folder).tmp p = st.tmp p := Function.update_of_ne h ..

theorem setFolder_setFolder (st : State) (path : String) (f g : Folder) :
    (st.setFolder path f).setFolder path g = st.setFolder path g := by
  simp [setFolder]

@[simp] theorem block_setFolder (st : State) (path : String) (folder : Folder) (i : ℕ) :
    (st.setFolder path folder).block path i = folder.block i := by
  rw [block, tmp_setFolder, Option.bind_some]

/-- The blocks that `fsync` is going to upload. -/
def dirty (st : State) (path : String) : List ℕ := (st.folder path).dirty

theorem folder_of_tmp {st : State} {path : String} {folder : Folder}
    (h : st.tmp path = some folder) : st.folder path = folder := by
  rw [State.folder, h, Option.getD_some]

theorem dirty_of_tmp {st : State} {path : String} {folder : Folder}
    (h : st.tmp path = some folder) : st.dirty path = folder.dirty := by
  rw [dirty, folder_of_tmp h]

end State

/-! ## Requests and files -/

/-- A request, and the check of its response. -/
def send (now : UInt64) (op : Op) : Call Unit := fun st =>
  match request st.db now op with
  | .error e => .error e st
  | .ok db => .ok () { st with db := db }

theorem run_send_of_error {now : UInt64} {op : Op} {st : State} {e : Abrupt}
    (h : request st.db now op = .error e) : (send now op).run st = .error e st := by
  show send now op st = _
  rw [send, h]

theorem run_send_of_ok {now : UInt64} {op : Op} {st : State} {db : Store}
    (h : request st.db now op = .ok db) : (send now op).run st = .ok () { st with db := db } := by
  show send now op st = _
  rw [send, h]

theorem after_send (now : UInt64) (op : Op) (st : State) :
    ∃ db, after (send now op) st = { st with db := db } := by
  cases h : request st.db now op with
  | error e => exact ⟨st.db, after_of_error (run_send_of_error h)⟩
  | ok db => exact ⟨db, after_of_ok (run_send_of_ok h)⟩

theorem run_send_eq_ok {now : UInt64} {op : Op} {st st' : State} {u : Unit} :
    (send now op).run st = .ok u st' ↔
      ∃ db, request st.db now op = .ok db ∧ st' = { st with db := db } := by
  show send now op st = .ok () st' ↔ _
  rw [send]
  cases request st.db now op <;> simp [eq_comm]

/-- Change the directory of a path.  If it does not exist, the call throws. -/
def inFolder (path what : String) (f : Folder → Folder) : Call Unit := fun st =>
  match st.tmp path with
  | none => .error (.thrown (.runtime what)) st
  | some folder => .ok () (st.setFolder path (f folder))

theorem run_inFolder {path : String} {st : State} {folder : Folder}
    (h : st.tmp path = some folder) (what : String) (f : Folder → Folder) :
    (inFolder path what f).run st = .ok () (st.setFolder path (f folder)) := by
  show inFolder path what f st = _
  rw [inFolder, h]

theorem run_inFolder_eq_ok {path what : String} {f : Folder → Folder} {st st' : State} {u : Unit} :
    (inFolder path what f).run st = .ok u st' ↔
      ∃ folder, st.tmp path = some folder ∧ st.setFolder path (f folder) = st' := by
  constructor
  · intro h
    cases hfolder : st.tmp path with
    | none =>
      have hfail : (inFolder path what f).run st = .error (.thrown (.runtime what)) st := by
        show inFolder path what f st = _
        rw [inFolder, hfolder]
      rw [hfail] at h
      cases h
    | some folder =>
      rw [run_inFolder hfolder] at h
      cases h
      exact ⟨folder, rfl, rfl⟩
  · rintro ⟨folder, hfolder, rfl⟩
    exact run_inFolder hfolder what f

theorem within_inFolder {R : State → State → Prop} [IsPreorder State R] {path : String}
    {f : Folder → Folder}
    (h : ∀ st folder, st.tmp path = some folder → R st (st.setFolder path (f folder)))
    (what : String) : Within R (inFolder path what f) := by
  intro st
  cases hfolder : st.tmp path with
  | none =>
    have hrun : (inFolder path what f).run st = .error (.thrown (.runtime what)) st := by
      show inFolder path what f st = _
      rw [inFolder, hfolder]
    rw [after_of_error hrun]
    exact refl_of R st
  | some folder =>
    rw [after_of_ok (run_inFolder hfolder what f)]
    exact h st folder hfolder

/-- `SDK::get_inode`. -/
def getInode (path : String) : Call Inode := do
  match (← getThe State).localInodeCache path with
  | none => throw (.thrown (.runtime "cannot find inode in local_inode_cache"))
  | some inode => return inode

theorem run_getInode_of_none {path : String} {st : State}
    (h : st.localInodeCache path = none) :
    (getInode path).run st =
      .error (.thrown (.runtime "cannot find inode in local_inode_cache")) st := by
  rw [getInode, run_get_bind, h]
  rfl

theorem run_getInode_of_some {path : String} {st : State} {inode : Inode}
    (h : st.localInodeCache path = some inode) : (getInode path).run st = .ok inode st := by
  rw [getInode, run_get_bind, h]
  rfl

theorem within_getInode {R : State → State → Prop} [IsPreorder State R] (path : String) :
    Within R (getInode path) := by
  intro st
  rw [getInode, after_get_bind]
  split
  · exact Within.throw _ st
  · exact Within.pure _ st

/-- `SDK::get_remote_inode`. -/
def getRemoteInode (path : String) : Call Inode := do
  lift (rethrow (Namenode.ls (← getThe State).db path))

/-- `SDK::ln_path_index`. -/
def lnPathIndex (path : String) (index : ℕ) : Call Unit := fun st =>
  match (st.folder path).write with
  | none => .error (.thrown (.runtime "filesystem error: cannot create hard link")) st
  | some links => .ok () (st.setFolder path ((st.folder path).addLink links index))

variable (x : External)

/-- `SDK::put` as a call, which leaves its first requests behind when it fails later. -/
def putFile (file : SourceFile) (dstFilePath storageType : String) (clock : ℕ → UInt64)
    (ups : List Uploads) : Call Unit := do
  let t ← lift (rethrow (StorageType.fromString storageType))
  send (clock 0) (.put dstFilePath storageType)
  send (clock 1) (.updateLock dstFilePath)
  let sub ← lift (encodeFile x t file.val ups)
  send (clock 2) (.putOk dstFilePath (.ofNat file.val.length) sub)

/-- The call returns if and only if `put` does. -/
theorem run_putFile_eq_ok {file : SourceFile} {path storageType : String} {clock : ℕ → UInt64}
    {ups : List Uploads} {st st' : State} :
    (putFile x file path storageType clock ups).run st = .ok () st' ↔
      ∃ db, put x st.db file path storageType (clock 0) (clock 1) (clock 2) ups = .ok db ∧
        st' = { st with db := db } := by
  simp only [putFile, put, run_bind_eq_ok, bind_eq_ok, run_lift_eq_ok, run_send_eq_ok]
  constructor
  · rintro ⟨t, _, ⟨ht, rfl⟩, _, _, ⟨db₁, h₁, rfl⟩, _, _, ⟨db₂, h₂, rfl⟩, sub, _, ⟨hsub, rfl⟩,
      db₃, h₃, rfl⟩
    exact ⟨db₃, ⟨t, ht, db₁, h₁, db₂, h₂, sub, hsub, h₃⟩, rfl⟩
  · rintro ⟨db₃, ⟨t, ht, db₁, h₁, db₂, h₂, sub, hsub, h₃⟩, rfl⟩
    exact ⟨t, _, ⟨ht, rfl⟩, (), _, ⟨db₁, h₁, rfl⟩, (), _, ⟨db₂, h₂, rfl⟩, sub, _, ⟨hsub, rfl⟩,
      db₃, h₃, rfl⟩

/-! ## Reading -/

/-- `SDK::get_indexs`. -/
def getIndexs (inode : Inode) (offset size : UInt64) : Except Abrupt (Int × Int) := do
  let first ← alignIndexDown (toInt32 offset.toNat) inode.getBlockSize
  let second ← alignIndexUp (toInt32 (offset + size).toNat) inode.getBlockSize
  return (first, second)

/-- `decode_one` with the storage type of the inode, which may be a null pointer. -/
def decodeEntry (net : Net) (inode : Inode) (s : String) : Except Abrupt Bytes :=
  match inode.storageType with
  | none => .error .undefined
  | some t => decodeOne x net t s

/-- A block that is not on the disk yet.  Its file is created before it is decoded. -/
def fetchBlock (net : Net) (inode : Inode) (index : ℕ) (s : String) : Call Bytes := do
  let path := inode.fullpath.text
  inFolder path "openfile error:" fun folder => folder.setBlock index []
  let block ← lift (decodeEntry x net inode s)
  inFolder path "openfile error:" fun folder => folder.setBlock index block
  return block

/-- One block in the loop of `read_data`: from its file, unless that is missing or
empty. -/
def readBlock (net : Net) (inode : Inode) (index : ℕ) (s : String) : Call Bytes := do
  match (← getThe State).block inode.fullpath.text index with
  | some (byte :: bytes) => lift (readFile (byte :: bytes))
  | none | some [] => fetchBlock x net inode index s

/-- A file that is missing or empty is not read. -/
theorem run_readBlock_of_empty {net : Net} {inode : Inode} {st : State} {index : ℕ} (s : String)
    (h : (st.block inode.fullpath.text index).getD [] = []) :
    (readBlock x net inode index s).run st = (fetchBlock x net inode index s).run st := by
  rw [readBlock, run_get_bind]
  cases hfile : st.block inode.fullpath.text index with
  | none => rfl
  | some data =>
    cases data with
    | nil => rfl
    | cons byte bytes =>
      rw [hfile] at h
      cases h

/-- A fetch leaves the block in its file. -/
theorem run_fetchBlock {net : Net} {inode : Inode} {st : State} {folder : Folder} {s : String}
    {block : Bytes} (hfolder : st.tmp inode.fullpath.text = some folder)
    (hdecode : decodeEntry x net inode s = .ok block) (index : ℕ) :
    (fetchBlock x net inode index s).run st =
      .ok block (st.setFolder inode.fullpath.text (folder.setBlock index block)) := by
  have hset : (folder.setBlock index []).setBlock index block = folder.setBlock index block := by
    simp [Folder.setBlock]
  rw [fetchBlock, run_bind_of_ok (run_inFolder hfolder _ _),
    run_bind_of_ok (run_lift_eq_ok.mpr ⟨hdecode, rfl⟩),
    run_bind_of_ok (run_inFolder (st.tmp_setFolder _ _) _ _), State.setFolder_setFolder, hset]
  rfl

/-- `string(n, '\0')`. -/
def zeros (n : Int) : Except Abrupt Bytes :=
  if toInt32 n < 0 then .error (.thrown (.runtime "basic_string::_M_create"))
  else .ok (List.replicate (toInt32 n).toNat 0)

/-- The loop of `read_data`, with the number of the rounds that are left. -/
def readLoop (net : Net) (inode : Inode) (second : Int) : ℕ → Int → Call Bytes
  | 0, _ => pure []
  | n + 1, index =>
    if index < 0 then throw .undefined
    else
      match inode.sub[index.toNat]? with
      | none => lift (zeros ((second - index) * inode.getBlockSize))
      | some s => do
        let block ← readBlock x net inode index.toNat s
        let rest ← readLoop net inode second n (index + 1)
        return block ++ rest

section Within

variable {x} {R : State → State → Prop} [IsPreorder State R] {net : Net} {inode : Inode}

theorem within_readBlock {i : ℕ} {s : String} (hfetch : Within R (fetchBlock x net inode i s)) :
    Within R (readBlock x net inode i s) := by
  intro st
  rw [readBlock, after_get_bind]
  split
  · exact Within.lift _ st
  · exact hfetch st
  · exact hfetch st

/-- The loop does what the fetches of its blocks do. -/
theorem within_readLoop
    (hfetch : ∀ i s, inode.sub[i]? = some s → Within R (fetchBlock x net inode i s))
    (second : Int) (n : ℕ) (index : Int) : Within R (readLoop x net inode second n index) := by
  induction n generalizing index with
  | zero => exact Within.pure []
  | succ n ih =>
    rw [readLoop]
    split
    · exact Within.throw _
    · split
      · exact Within.lift _
      · rename_i s hs
        exact (within_readBlock (hfetch _ s hs)).bind fun _ => (ih (index + 1)).bind fun _ =>
          Within.pure _

end Within

/-- `SDK::read_data(inode, indexs)`. -/
def readBlocks (net : Net) (inode : Inode) (indexs : Int × Int) : Call Bytes :=
  readLoop x net inode indexs.2 (indexs.2 - indexs.1).toNat indexs.1

/-- The bytes of a string between two of its iterators. -/
def slice (s : Bytes) (start : Int) (size : ℕ) : Except Abrupt Bytes :=
  if 0 ≤ start ∧ start + size ≤ s.length then .ok ((s.drop start.toNat).take size)
  else .error .undefined

/-- `SDK::read_data(path, offset, size)`. -/
def readData (net : Net) (path : String) (offset size : UInt64) : Call Bytes := do
  let inode ← getInode path
  if inode.filesize < offset then return []
  let size := if inode.filesize < offset + size then inode.filesize - offset else size
  let indexs ← lift (getIndexs inode offset size)
  let s ← readBlocks x net inode indexs
  lift (slice s (offset.toNat - toInt32 (indexs.1 * inode.getBlockSize)) size.toNat)

/-! ## Writing -/

/-- The number of bytes that `write_data` writes to the block of an index. -/
def localSize (blockSize offset last : UInt64) (indexs : Int × Int) (index : Int) : ℕ :=
  let left := if index = indexs.1 then offset % blockSize else 0
  let right := if index = indexs.2 - 1 then last % blockSize else blockSize
  (right - left).toNat

/-- The loop of `write_data`, with the number of the rounds that are left and the rest of
the text.  The stream is in append mode, so `seekp` has no effect. -/
def writeLoop (path : String) (blockSize offset last : UInt64) (indexs : Int × Int) :
    ℕ → Int → Bytes → Call Unit
  | 0, _, _ => pure ()
  | n + 1, index, rest => do
    let size := localSize blockSize offset last indexs index
    let i := (index % 2 ^ 32).toNat
    if rest.length < size then throw .undefined
    inFolder path "failed to write data to " fun folder =>
      folder.setBlock i ((folder.block i).getD [] ++ rest.take size)
    lnPathIndex path i
    writeLoop path blockSize offset last indexs n (index + 1) (rest.drop size)

/-- `SDK::write_data`.  The blocks at the two ends of the range are fetched first. -/
def writeData (net : Net) (path : String) (offset : UInt64) (s : Bytes) : Call Unit := do
  let inode ← getInode path
  let last := offset + .ofNat s.length
  let blockSize := UInt64.ofInt inode.getBlockSize
  let indexs ← lift (getIndexs inode offset (.ofNat s.length))
  if offset < inode.filesize ∧ offset % blockSize ≠ 0 then
    let _ ← readBlocks x net inode (indexs.1, indexs.1 + 1)
  if last < inode.filesize ∧ indexs.1 ≠ indexs.2 - 1 ∧ last % blockSize ≠ 0 then
    let _ ← readBlocks x net inode (indexs.2 - 1, indexs.2)
  writeLoop path blockSize offset last indexs (indexs.2 - indexs.1).toNat indexs.1 s

/-! ## Uploading -/

/-- `inode.sub.resize`. -/
def resizeSub (sub : List String) (n : ℕ) : List String :=
  sub.take n ++ List.replicate (n - sub.length) ""

/-- The list that `fsync` starts from. -/
def startList (inode : Inode) (last : ℕ) : List String :=
  if inode.sub.length ≤ last then resizeSub inode.sub (last + 1) else inode.sub

/-- `encode_one` with the storage type of the inode. -/
def encodeEntry (inode : Inode) (block : Bytes) (up : Uploads) : Except Abrupt String :=
  match inode.storageType with
  | none => .error .undefined
  | some t => encodeOne x t block up

/-- The loop of `fsync`: the list of the inode so far, and the size of the block
before. -/
def fsyncLoop (path : String) (inode : Inode) :
    List ℕ → List Uploads → List String → ℕ → Call (List String × ℕ)
  | [], _, sub, lastSize => return (sub, lastSize)
  | _ :: _, [], _, _ => throw .running
  | i :: res, up :: ups, sub, _ => do
    let block ← lift (((← getThe State).folder path).readLink i)
    let entry ← lift (encodeEntry x inode block up)
    inFolder path "" fun folder => folder.removeLink i
    fsyncLoop path inode res ups (sub.set i entry) block.length

/-- The `put_ok` of `fsync`, which may get lost.  Nobody looks at its response. -/
def sendUnchecked (delivered : Bool) (op : Op) : Call Unit := fun st =>
  match delivered, request st.db 0 op with
  | true, .ok db => .ok () { st with db := db }
  | _, _ => .ok () st

/-- The size that `fsync` asks for, an `int`. -/
def fsyncSize (inode : Inode) (last lastSize : ℕ) : UInt64 :=
  .ofInt (toInt32 (max inode.filesize
    (.ofNat last * .ofInt inode.getBlockSize + .ofNat lastSize)).toNat)

/-- What happens during an `fsync`. -/
structure Sync where
  ups : List Uploads
  delivered : Bool

/-- The part of `fsync` behind the listing of the directory. -/
def syncBlocks (path : String) (res : List ℕ) (last : ℕ) (sync : Sync) : Call Unit := do
  let inode ← getInode path
  let (sub, lastSize) ← fsyncLoop x path inode res sync.ups (startList inode last) 0
  sendUnchecked sync.delivered (.putOk path (fsyncSize inode last lastSize) sub)

/-- `SDK::fsync`.  `stoi` throws on an index that is not an `int`. -/
def fsync (path : String) (sync : Sync) : Call Unit := fun st =>
  match (st.dirty path).getLast? with
  | none => .ok () st
  | some last =>
    if 2 ^ 31 ≤ last then .error (.thrown (.runtime "stoi")) st
    else syncBlocks x path (st.dirty path) last sync st

/-- Without dirty blocks `fsync` does nothing. -/
theorem run_fsync_of_none {path : String} {st : State} (h : (st.dirty path).getLast? = none)
    (sync : Sync) : (fsync x path sync).run st = .ok () st := by
  show fsync x path sync st = _
  simp only [fsync, h]

theorem run_fsync_of_some {path : String} {st : State} {last : ℕ}
    (h : (st.dirty path).getLast? = some last) (sync : Sync) :
    (fsync x path sync).run st =
      if 2 ^ 31 ≤ last then .error (.thrown (.runtime "stoi")) st
      else (syncBlocks x path (st.dirty path) last sync).run st := by
  show fsync x path sync st = _
  simp only [fsync, h]
  rfl

/-! ## Opening and closing -/

/-- A default-constructed `Inode`. -/
def noInode : Inode := .new (.set "")

/-- The block files that `update_inode` removes. -/
def outdated (old new : List String) (i : ℕ) : Bool :=
  i < old.length && old[i]? != new[i]?

/-- The loops of `update_inode`. -/
def State.removeOutdated (st : State) (path : String) (old new : List String) : State :=
  match st.tmp path with
  | none => st
  | some folder =>
    st.setFolder path (((List.range old.length).filter (outdated old new)).foldl
      Folder.removeBlock folder)

/-- `SDK::update_inode`.  A path without an inode gets a new one, also when the request
fails. -/
def updateInode (path : String) : Call Unit := do
  let old := ((← getThe State).localInodeCache path).getD noInode
  modify fun st => st.setInode path (some old)
  let remote ← getRemoteInode path
  modify fun st => (st.removeOutdated path old.sub remote.sub).setInode path (some remote)

theorem State.setInode_setInode (st : State) (path : String) (a b : Option Inode) :
    (st.setInode path a).setInode path b = st.setInode path b := by
  simp [State.setInode]

theorem State.removeOutdated_setInode (st : State) (path : String) (inode : Option Inode)
    (old new : List String) :
    (st.setInode path inode).removeOutdated path old new =
      (st.removeOutdated path old new).setInode path inode := by
  unfold State.removeOutdated
  show (match st.tmp path with | none => _ | some folder => _) = _
  cases st.tmp path <;> rfl

theorem State.removeOutdated_records (st : State) (path : String) (old new : List String) :
    (st.removeOutdated path old new).db = st.db ∧
      (st.removeOutdated path old new).localInodeCache = st.localInodeCache := by
  unfold State.removeOutdated
  split <;> exact ⟨rfl, rfl⟩

theorem run_updateInode (path : String) (st : State) :
    (updateInode path).run st =
      match Namenode.ls st.db path with
      | .error e =>
        .error (.thrown e) (st.setInode path (some ((st.localInodeCache path).getD noInode)))
      | .ok remote =>
        .ok () ((st.removeOutdated path ((st.localInodeCache path).getD noInode).sub
          remote.sub).setInode path (some remote)) := by
  generalize hold : (st.localInodeCache path).getD noInode = old
  have hls : (getRemoteInode path).run (st.setInode path (some old)) =
      (lift (rethrow (Namenode.ls st.db path)) : Call Inode).run (st.setInode path (some old)) :=
    rfl
  rw [updateInode, run_get_bind, hold, run_modify_bind]
  cases h : Namenode.ls st.db path with
  | error e =>
    rw [h] at hls
    exact run_bind_of_error hls _
  | ok remote =>
    rw [h] at hls
    rw [run_bind_of_ok (hls.trans rfl)]
    have hst : ((st.setInode path (some old)).removeOutdated path old.sub remote.sub).setInode path
        (some remote) =
          (st.removeOutdated path old.sub remote.sub).setInode path (some remote) := by
      rw [State.removeOutdated_setInode, State.setInode_setInode]
    exact congrArg (EStateM.Result.ok ()) hst

/-- `SDK::_truncate`. -/
def truncateFile (path : String) (size : UInt64) : Call Unit := do
  let inode ← getInode path
  if inode.filesize = size then return ()
  let n ← lift (alignUp (toInt32 size.toNat) inode.getBlockSize)
  if (inode.sub.length : Int) < n then throw .undefined
  send 0 (.putOk path size (inode.sub.take n.toNat))

/-- `SDK::guess_storage_type`. -/
def guessStorageType : String := "RS<7,5,16>"

/-- The file that `_create` puts. -/
def emptySource : SourceFile := ⟨[], by decide⟩

@[simp] theorem val_emptySource : emptySource.val = [] := rfl

/-- `SDK::_create`: an empty file in the directory of the empty path. -/
def createFile (path : String) (clock : ℕ → UInt64) : Call Unit := do
  match (← getThe State).tmp "" with
  | none => throw (.thrown (.runtime "Failed to open file"))
  | some folder =>
    modify fun st => st.setFolder "" (folder.setBlock 0 [])
    putFile x emptySource path guessStorageType clock []

/-- The flags of an `open`: `O_CREAT`, an access mode other than `O_RDONLY`, and
`O_TRUNC`. -/
structure Flags where
  create : Bool
  write : Bool
  trunc : Bool
  deriving DecidableEq

/-- The directories and the remote lock of an open file. -/
def lockFile (path : String) (write : Bool) (now : UInt64) : Call Unit := do
  modify fun st => st.setFolder path (st.folder path)
  if write then
    send now (.updateLock path)
    inFolder path "" Folder.clearWrite

/-- `SDK::open`. -/
def openFile (path : String) (flags : Flags) (clock : ℕ → UInt64) : Call Unit := do
  if flags.create then createFile x path clock
  lockFile path flags.write (clock 3)
  updateInode path
  if flags.trunc then truncateFile path 0

theorem openFile_eq (path : String) (flags : Flags) (clock : ℕ → UInt64) :
    openFile x path flags clock =
      (if flags.create then createFile x path clock else pure ()) >>= fun _ =>
        lockFile path flags.write (clock 3) >>= fun _ => updateInode path >>= fun _ =>
          if flags.trunc then truncateFile path 0 else pure () := by
  rw [openFile]
  cases flags.create <;> rfl

/-- `SDK::close`. -/
def closeFile (path : String) (sync : Sync) : Call Unit := do
  fsync x path sync
  modify fun st => st.setInode path none

/-! ## Runs -/

/-- A call of a client on one path, or a step of everybody else: the records and the
other paths change, the inode and the directory of this path do not. -/
inductive Event
  | openFile (flags : Flags) (clock : ℕ → UInt64)
  | readData (net : Net) (offset size : UInt64)
  | writeData (net : Net) (offset : UInt64) (s : Bytes)
  | fsync (sync : Sync)
  | closeFile (sync : Sync)
  | putFile (file : SourceFile) (storageType : String) (clock : ℕ → UInt64) (ups : List Uploads)
  | other (st : State)

/-- The call of an event. -/
def Event.call (path : String) : Event → Call Unit
  | .openFile flags clock => SDK.openFile x path flags clock
  | .readData net offset size => do
    let _ ← SDK.readData x net path offset size
  | .writeData net offset s => SDK.writeData x net path offset s
  | .fsync sync => SDK.fsync x path sync
  | .closeFile sync => SDK.closeFile x path sync
  | .putFile file storageType clock ups => SDK.putFile x file path storageType clock ups
  | .other st' => modify fun st =>
    ⟨st'.db, Function.update st'.localInodeCache path (st.localInodeCache path),
      Function.update st'.tmp path (st.tmp path)⟩

/-- The state after a call that has returned or thrown. -/
def settled : EStateM.Result Abrupt State Unit → Option State
  | .ok () st => some st
  | .error (.thrown _) st => some st
  | .error .undefined _ | .error .running _ => none

/-- The call has returned. -/
def returned : EStateM.Result Abrupt State Unit → Bool
  | .ok () _ => true
  | .error _ _ => false

/-- One call of a run. -/
def step (path : String) (st : State) (ev : Event) : Option State :=
  settled ((ev.call x path).run st)

theorem settled_eq_some {m : Call Unit} {st st' : State} (h : settled (m.run st) = some st') :
    after m st = st' := by
  unfold settled at h
  split at h
  · rename_i hrun
    rw [after_of_ok hrun]
    exact Option.some.inj h
  · rename_i hrun
    rw [after_of_error hrun]
    exact Option.some.inj h
  · cases h
  · cases h

variable {x} in
theorem step_of_isSome {path : String} {st : State} {ev : Event}
    (h : (step x path st ev).isSome = true) :
    step x path st ev = some (after (ev.call x path) st) := by
  obtain ⟨st', hst⟩ := Option.isSome_iff_exists.mp h
  rw [hst, settled_eq_some hst]

theorem run_of_returned {m : Call Unit} {st : State} (h : returned (m.run st) = true) :
    m.run st = .ok () (after m st) := by
  cases hrun : m.run st with
  | ok u st' => rw [after_of_ok hrun]
  | error e st' =>
    rw [hrun] at h
    cases h

/-! ## Two small blocks -/

/-- The functions as they behave on the blocks `[7]`, `[8]` and `[7, 8]`.  With replicas nothing
is encoded. -/
def byteExternal : External where
  sha256 := fun data =>
    if data = [7] then "CA358758F6D27E6CF45272937977A748FD88391DB679CEDA7DC7BF1F005EE879"
    else if data = [8] then "BEEAD77994CF573341EC17B58BBF7EB34D2711C993C1D976B128B3188DC1829A"
    else if data = [7, 8] then "BD7C250566C6E99F47C174B589B7551F8B0E930ED056511D1E8F653BC71D3C4A"
    else ""
  code := ⟨fun _ _ _ => .error 0, fun _ _ _ => .error 0⟩

/-- The entry of such a block with one replica. -/
def byteEntry (block : Bytes) : String := "192.168.88.112:10002|" ++ byteExternal.sha256 block

def byteUploads : Uploads := ⟨.ok [⟨"192.168.88.112", 10002, .online⟩], [true]⟩

/-- The datanode that has these blocks. -/
def byteNet : Net := fun _ blkid =>
  if blkid = byteExternal.sha256 [7] then some [7]
  else if blkid = byteExternal.sha256 [8] then some [8]
  else if blkid = byteExternal.sha256 [7, 8] then some [7, 8]
  else none

/-- A file with one block. -/
def byteStore (block : Bytes) : Store :=
  match (do
    let db ← request KeyedMap.empty 100 (.put "/f" "RE<1,1>")
    let db ← request db 100 (.updateLock "/f")
    request db 101 (.putOk "/f" 1 [byteEntry block])) with
  | .ok db => db
  | .error _ => KeyedMap.empty

/-- The file is there, and it is empty. -/
def emptyFile : State :=
  after (putFile byteExternal emptySource "/f" "RE<1,1>" (fun _ => 100) [])
    ⟨KeyedMap.empty, fun _ => none, fun _ => none⟩

/-- It is open for writing. -/
def openedFile : State :=
  after (openFile byteExternal "/f" ⟨false, true, false⟩ fun _ => 200) emptyFile

theorem run_openFile_emptyFile :
    (openFile byteExternal "/f" ⟨false, true, false⟩ fun _ => 200).run emptyFile =
      .ok () openedFile :=
  run_of_returned (by decide +kernel)

end SDK

end Spkdfs
