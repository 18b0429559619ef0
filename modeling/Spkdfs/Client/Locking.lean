import Spkdfs.Client.Opening
import Spkdfs.Client.Writes
import Spkdfs.Common.PathLocks

/-!
# The local locks of open files

`open` locks the directory of its path until `close`, `read_data` locks a block file while it
fetches the block, and `fsync` locks a link while it uploads the block.  All of them use
`PathLocks`, and none of them has a guard that unlocks when something throws.

The calls are those of `Client.Session`, with the locks as a second part of the state.  A call
that has to wait does not return (`Abrupt.running`).  Without the locks they are the calls of
`Client.Session` (`erases_openFile` and the others), but for a request that fails on its way.

`Clean` is a condition on one call.  In a run of calls that all meet it, every lock that is not
that of an open file has been released, once for each time that it was taken
(`balanced_of_clean`).
-/

namespace Spkdfs

open RocksDB Effects

/-- What has a lock: the directory of a path, a block file in it, and a name in `write`. -/
inductive LockKey
  | file (path : String)
  | block (path : String) (i : ℕ)
  | link (path : String) (i : ℕ)
  deriving DecidableEq

namespace SDK

/-- A call that locks and unlocks. -/
abbrev LockedCall := EStateM Abrupt (State × PathLocks LockKey)

/-- What becomes of a request to the namenode: it is answered, or it fails and leaves these
records there. -/
inductive Fate
  | answered
  | failed (db : Store)

/-- A call that makes a request. -/
def Fate.call {α : Type} (fate : Fate) (m : Call α) : Call α :=
  match fate with
  | .answered => m
  | .failed db => do
    modify fun st => { st with db := db }
    throw (.thrown (.runtime "cntl failed"))

/-- The fates of the requests of an `open`. -/
structure Fates where
  create : Fate
  lock : Fate
  ls : Fate
  putOk : Fate

namespace Locked

def readLock (key : LockKey) : LockedCall Unit := fun s =>
  match s.2.readLock key with
  | none => .error .running s
  | some locks => .ok () (s.1, locks)

def writeLock (key : LockKey) : LockedCall Unit := fun s =>
  match s.2.writeLock key with
  | none => .error .running s
  | some locks => .ok () (s.1, locks)

def unlock (key : LockKey) : LockedCall Unit := fun s => .ok () (s.1, s.2.unlock key)

/-- A call between a lock and its release.  There is no release when it throws. -/
def under {α : Type} (lock : LockedCall Unit) (key : LockKey) (m : Call α) : LockedCall α := do
  lock
  let a ← onFst m
  unlock key
  return a

variable (x : External)

/-! ## The calls -/

/-- One block in the loop of `read_data`.  Under the lock the file is looked at again. -/
def readBlock (net : Net) (inode : Inode) (index : ℕ) (s : String) : LockedCall Bytes := do
  match (← onFst (getThe State)).block inode.fullpath.text index with
  | some (byte :: bytes) => onFst (lift (readFile (byte :: bytes)))
  | none | some [] =>
    under (writeLock (.block inode.fullpath.text index)) (.block inode.fullpath.text index)
      (SDK.readBlock x net inode index s)

/-- The loop of `read_data`. -/
def readLoop (net : Net) (inode : Inode) (second : Int) : ℕ → Int → LockedCall Bytes
  | 0, _ => pure []
  | n + 1, index =>
    if index < 0 then throw .undefined
    else
      match inode.sub[index.toNat]? with
      | none => onFst (lift (zeros ((second - index) * inode.getBlockSize)))
      | some s => do
        let block ← readBlock x net inode index.toNat s
        let rest ← readLoop net inode second n (index + 1)
        return block ++ rest

/-- `SDK::read_data(inode, indexs)`. -/
def readBlocks (net : Net) (inode : Inode) (indexs : Int × Int) : LockedCall Bytes :=
  readLoop x net inode indexs.2 (indexs.2 - indexs.1).toNat indexs.1

/-- `SDK::read_data(path, offset, size)`. -/
def readData (net : Net) (path : String) (offset size : UInt64) : LockedCall Bytes := do
  let inode ← onFst (getInode path)
  if inode.filesize < offset then return []
  let size := if inode.filesize < offset + size then inode.filesize - offset else size
  let indexs ← onFst (lift (getIndexs inode offset size))
  let s ← readBlocks x net inode indexs
  onFst (lift (slice s (offset.toNat - toInt32 (indexs.1 * inode.getBlockSize)) size.toNat))

/-- The part of `write_data` before its loop. -/
def prefetch (net : Net) (inode : Inode) (offset last : UInt64) (indexs : Int × Int) :
    LockedCall Unit := do
  if offset < inode.filesize ∧ offset % .ofInt inode.getBlockSize ≠ 0 then
    let _ ← readBlocks x net inode (indexs.1, indexs.1 + 1)
  if last < inode.filesize ∧ indexs.1 ≠ indexs.2 - 1 ∧
      last % .ofInt inode.getBlockSize ≠ 0 then
    let _ ← readBlocks x net inode (indexs.2 - 1, indexs.2)

/-- `SDK::write_data`. -/
def writeData (net : Net) (path : String) (offset : UInt64) (s : Bytes) : LockedCall Unit := do
  let inode ← onFst (getInode path)
  let last := offset + .ofNat s.length
  let indexs ← onFst (lift (getIndexs inode offset (.ofNat s.length)))
  prefetch x net inode offset last indexs
  onFst (writeLoop path (.ofInt inode.getBlockSize) offset last indexs
    (indexs.2 - indexs.1).toNat indexs.1 s)

/-- One block in the loop of `fsync`: its entry and its size. -/
def syncBlock (path : String) (inode : Inode) (i : ℕ) (up : Uploads) : Call (String × ℕ) := do
  let block ← lift (((← getThe State).folder path).readLink i)
  let entry ← lift (encodeEntry x inode block up)
  inFolder path "" fun folder => folder.removeLink i
  return (entry, block.length)

/-- The loop of `fsync`. -/
def fsyncLoop (path : String) (inode : Inode) :
    List ℕ → List Uploads → List String → ℕ → LockedCall (List String × ℕ)
  | [], _, sub, lastSize => return (sub, lastSize)
  | _ :: _, [], _, _ => throw .running
  | i :: res, up :: ups, sub, _ => do
    let (entry, size) ← under (readLock (.link path i)) (.link path i) (syncBlock x path inode i up)
    fsyncLoop path inode res ups (sub.set i entry) size

/-- The part of `fsync` behind the listing of the directory. -/
def syncBlocks (path : String) (res : List ℕ) (last : ℕ) (sync : Sync) : LockedCall Unit := do
  let inode ← onFst (getInode path)
  let (sub, lastSize) ← fsyncLoop x path inode res sync.ups (startList inode last) 0
  onFst (sendUnchecked sync.delivered (.putOk path (fsyncSize inode last lastSize) sub))

/-- `SDK::fsync`. -/
def fsync (path : String) (sync : Sync) : LockedCall Unit := do
  match ((← onFst (getThe State)).dirty path).getLast? with
  | none => return ()
  | some last =>
    if 2 ^ 31 ≤ last then throw (.thrown (.runtime "stoi"))
    else syncBlocks x path ((← onFst (getThe State)).dirty path) last sync

/-- `SDK::close`. -/
def closeFile (path : String) (sync : Sync) : LockedCall Unit := do
  fsync x path sync
  onFst (modify fun st => st.setInode path none)
  unlock (.file path)

/-- `SDK::update_inode`. -/
def updateInode (path : String) (fate : Fate) : Call Unit := do
  let old := ((← getThe State).localInodeCache path).getD noInode
  modify fun st => st.setInode path (some old)
  let remote ← fate.call (getRemoteInode path)
  modify fun st => (st.removeOutdated path old.sub remote.sub).setInode path (some remote)

/-- `SDK::_truncate`.  It unlocks the path when it has changed something. -/
def truncateFile (path : String) (size : UInt64) (fate : Fate) : LockedCall Unit := do
  let inode ← onFst (getInode path)
  if inode.filesize = size then return ()
  let n ← onFst (lift (alignUp (toInt32 size.toNat) inode.getBlockSize))
  if (inode.sub.length : Int) < n then throw .undefined
  onFst (fate.call (send 0 (.putOk path size (inode.sub.take n.toNat))))
  unlock (.file path)

/-- The part of `open` that locks. -/
def lockFile (path : String) (write : Bool) (now : UInt64) (fate : Fate) : LockedCall Unit := do
  onFst (modify fun st => st.setFolder path (st.folder path))
  if write then
    writeLock (.file path)
    onFst (fate.call (send now (.updateLock path)))
    onFst (inFolder path "" Folder.clearWrite)
  else readLock (.file path)

/-- `SDK::open`. -/
def openFile (path : String) (flags : Flags) (clock : ℕ → UInt64) (fates : Fates) :
    LockedCall Unit := do
  if flags.create then onFst (fates.create.call (createFile x path clock))
  lockFile path flags.write (clock 3) fates.lock
  onFst (updateInode path fates.ls)
  if flags.trunc then truncateFile path 0 fates.putOk

/-- `SDK::truncate`.  The size is not used. -/
def truncate (path : String) (clock : ℕ → UInt64) (fates : Fates) : LockedCall Unit := do
  openFile x path ⟨false, true, true⟩ clock fates
  unlock (.file path)

/-- A block file that is there is read without a lock. -/
theorem run_readBlock_of_file (net : Net) {inode : Inode} {index : ℕ} (s : String)
    {st : State × PathLocks LockKey}
    (h : (st.1.block inode.fullpath.text index).getD [] ≠ []) :
    (readBlock x net inode index s).run st =
      (onFst (SDK.readBlock x net inode index s) : LockedCall Bytes).run st := by
  rw [readBlock, run_onFst_get_bind]
  cases hfile : st.1.block inode.fullpath.text index with
  | none =>
    rw [hfile] at h
    exact absurd rfl h
  | some data =>
    cases data with
    | nil =>
      rw [hfile] at h
      exact absurd rfl h
    | cons byte bytes =>
      refine (run_onFst_congr ?_).symm
      rw [SDK.readBlock, run_get_bind, hfile]

theorem run_readBlock_of_empty (net : Net) {inode : Inode} {index : ℕ} (s : String)
    {st : State × PathLocks LockKey}
    (h : (st.1.block inode.fullpath.text index).getD [] = []) :
    (readBlock x net inode index s).run st =
      (under (writeLock (.block inode.fullpath.text index)) (.block inode.fullpath.text index)
        (SDK.readBlock x net inode index s)).run st := by
  rw [readBlock, run_onFst_get_bind]
  cases hfile : st.1.block inode.fullpath.text index with
  | none => rfl
  | some data =>
    cases data with
    | nil => rfl
    | cons byte bytes =>
      rw [hfile] at h
      cases h

/-- The file has dirty blocks. -/
theorem run_fsync_of_some {path : String} {s : State × PathLocks LockKey} {last : ℕ}
    (h : (s.1.dirty path).getLast? = some last) (sync : Sync) :
    (fsync x path sync).run s =
      (if 2 ^ 31 ≤ last then throw (.thrown (.runtime "stoi"))
      else syncBlocks x path (s.1.dirty path) last sync).run s := by
  rw [fsync, run_onFst_get_bind, h]
  simp only
  split
  · rfl
  · rw [run_onFst_get_bind]

/-! ## The calls without the locks -/

section Erasure

/-- The call does to the files what the call without locks does, unless it waits. -/
def ErasesTo {α : Type} (m : LockedCall α) (m' : Call α) : Prop := Erases (· = .running) m m'

theorem erases_readLock (key : LockKey) : ErasesTo (readLock key) (pure ()) := by
  intro s
  show Ensures (readLock key) s _ _
  rw [Ensures, EStateM.run, readLock]
  cases s.2.readLock key with
  | none => exact Or.inl rfl
  | some locks => rfl

theorem erases_writeLock (key : LockKey) : ErasesTo (writeLock key) (pure ()) := by
  intro s
  show Ensures (writeLock key) s _ _
  rw [Ensures, EStateM.run, writeLock]
  cases s.2.writeLock key with
  | none => exact Or.inl rfl
  | some locks => rfl

theorem erases_unlock (key : LockKey) : ErasesTo (unlock key) (pure ()) := fun _ => rfl

theorem erases_under {α : Type} {lock : LockedCall Unit} (hlock : ErasesTo lock (pure ()))
    (key : LockKey) (m : Call α) : ErasesTo (under lock key m) m := by
  have herases : ErasesTo (under lock key m) (m >>= fun a => pure a) :=
    hlock.silent_then ((erases_onFst m).bind fun a =>
      (erases_unlock key).silent_then (erases_pure a))
  rw [bind_pure] at herases
  exact herases

theorem erases_readBlock (net : Net) (inode : Inode) (index : ℕ) (s : String) :
    ErasesTo (readBlock x net inode index s) (SDK.readBlock x net inode index s) := by
  intro st
  by_cases h : (st.1.block inode.fullpath.text index).getD [] = []
  · exact (ensures_congr (run_readBlock_of_empty x net s h)).mpr
      (erases_under (erases_writeLock _) _ _ st)
  · exact (ensures_congr (run_readBlock_of_file x net s h)).mpr (erases_onFst _ st)

theorem erases_readLoop (net : Net) (inode : Inode) (second : Int) (n : ℕ) (index : Int) :
    ErasesTo (readLoop x net inode second n index) (SDK.readLoop x net inode second n index) := by
  induction n generalizing index with
  | zero => exact erases_pure []
  | succ n ih =>
    rw [readLoop, SDK.readLoop]
    by_cases hneg : index < 0
    · rw [if_pos hneg, if_pos hneg]
      exact erases_throw _
    · rw [if_neg hneg, if_neg hneg]
      cases inode.sub[index.toNat]? with
      | none => exact erases_onFst _
      | some s =>
        exact (erases_readBlock x net inode _ s).bind fun block => (ih (index + 1)).bind fun rest =>
          erases_pure _

theorem erases_readData (net : Net) (path : String) (offset size : UInt64) :
    ErasesTo (readData x net path offset size) (SDK.readData x net path offset size) := by
  refine (erases_onFst _).bind fun inode => ?_
  split
  · exact erases_pure _
  · exact (erases_onFst _).bind fun indexs => (erases_readLoop x net inode _ _ _).bind fun s =>
      erases_onFst _

theorem prefetch_eq (net : Net) (inode : Inode) (offset last : UInt64) (indexs : Int × Int) :
    prefetch x net inode offset last indexs =
      (if offset < inode.filesize ∧ offset % .ofInt inode.getBlockSize ≠ 0 then
        readBlocks x net inode (indexs.1, indexs.1 + 1) >>= fun _ => pure ()
      else pure ()) >>= fun _ =>
      if last < inode.filesize ∧ indexs.1 ≠ indexs.2 - 1 ∧ last % .ofInt inode.getBlockSize ≠ 0 then
        readBlocks x net inode (indexs.2 - 1, indexs.2) >>= fun _ => pure ()
      else pure () := by
  rw [prefetch]
  split <;> split <;> simp only [bind_assoc, pure_bind]

theorem erases_ite {α : Type} {c : Prop} [Decidable c] {m n : LockedCall α} {m' n' : Call α}
    (hm : ErasesTo m m') (hn : ErasesTo n n') :
    ErasesTo (if c then m else n) (if c then m' else n') := by
  split
  · exact hm
  · exact hn

theorem erases_writeData (net : Net) (path : String) (offset : UInt64) (s : Bytes) :
    ErasesTo (writeData x net path offset s) (SDK.writeData x net path offset s) := by
  have hfetch : ∀ (inode : Inode) (indexs : Int × Int),
      ErasesTo (readBlocks x net inode indexs >>= fun _ => pure ())
        (SDK.readBlocks x net inode indexs >>= fun _ => pure ()) :=
    fun inode indexs => (erases_readLoop x net inode _ _ _).bind fun _ => erases_pure ()
  rw [Exact.writeData_eq]
  refine (erases_onFst _).bind fun inode => (erases_onFst _).bind fun indexs => ?_
  rw [prefetch_eq, bind_assoc]
  exact (erases_ite (hfetch _ _) (erases_pure ())).bind fun _ =>
    (erases_ite (hfetch _ _) (erases_pure ())).bind fun _ => erases_onFst _

/-- The loop of `fsync` with the rounds as they are without locks. -/
theorem fsyncLoop_cons_eq (path : String) (inode : Inode) (i : ℕ) (res : List ℕ) (up : Uploads)
    (ups : List Uploads) (sub : List String) (size : ℕ) :
    SDK.fsyncLoop x path inode (i :: res) (up :: ups) sub size =
      syncBlock x path inode i up >>= fun p =>
        SDK.fsyncLoop x path inode res ups (sub.set i p.1) p.2 := by
  rw [SDK.fsyncLoop, syncBlock]
  simp only [bind_assoc, pure_bind]

theorem erases_fsyncLoop (path : String) (inode : Inode) (res : List ℕ) (ups : List Uploads)
    (sub : List String) (size : ℕ) :
    ErasesTo (fsyncLoop x path inode res ups sub size)
      (SDK.fsyncLoop x path inode res ups sub size) := by
  induction res generalizing ups sub size with
  | nil => exact erases_pure _
  | cons i res ih =>
    cases ups with
    | nil => exact erases_throw _
    | cons up ups =>
      rw [fsyncLoop_cons_eq]
      exact (erases_under (erases_readLock _) _ _).bind fun p => ih ups _ _

theorem erases_fsync (path : String) (sync : Sync) :
    ErasesTo (fsync x path sync) (SDK.fsync x path sync) := by
  intro s
  have hblocks : ∀ last, ErasesTo (syncBlocks x path (s.1.dirty path) last sync)
      (SDK.syncBlocks x path (s.1.dirty path) last sync) := fun last =>
    (erases_onFst _).bind fun inode => (erases_fsyncLoop x path inode _ _ _ _).bind fun p =>
      erases_onFst _
  cases hlast : (s.1.dirty path).getLast? with
  | none =>
    rw [run_fsync_of_none x hlast]
    refine ensures_of_ok ?_ rfl
    rw [fsync, run_onFst_get_bind, hlast]
    rfl
  | some last =>
    rw [SDK.run_fsync_of_some x hlast, ensures_congr (run_fsync_of_some x hlast sync)]
    by_cases hbig : 2 ^ 31 ≤ last
    · rw [if_pos hbig, if_pos hbig]
      exact ensures_of_error rfl (Or.inr rfl)
    · rw [if_neg hbig, if_neg hbig]
      exact hblocks last s

theorem erases_closeFile (path : String) (sync : Sync) :
    ErasesTo (closeFile x path sync) (SDK.closeFile x path sync) :=
  (erases_fsync x path sync).bind fun _ => (erases_onFst _).then_silent (erases_unlock _)

theorem erases_lockFile (path : String) (write : Bool) (now : UInt64) :
    ErasesTo (lockFile path write now .answered) (SDK.lockFile path write now) := by
  refine (erases_onFst _).bind fun _ => ?_
  cases write with
  | false => exact erases_readLock _
  | true =>
    exact (erases_writeLock _).silent_then ((erases_onFst _).bind fun _ => erases_onFst _)

theorem erases_truncateFile (path : String) (size : UInt64) :
    ErasesTo (truncateFile path size .answered) (SDK.truncateFile path size) := by
  refine (erases_onFst _).bind fun inode => ?_
  split
  · exact erases_pure _
  · refine (erases_onFst _).bind fun n => ?_
    split
    · exact (erases_throw _).bind fun _ => (erases_onFst _).then_silent (erases_unlock _)
    · exact (erases_onFst _).then_silent (erases_unlock _)

theorem openFile_eq (path : String) (flags : Flags) (clock : ℕ → UInt64) (fates : Fates) :
    openFile x path flags clock fates =
      (if flags.create then onFst (fates.create.call (createFile x path clock)) else pure ()) >>=
        fun _ => lockFile path flags.write (clock 3) fates.lock >>= fun _ =>
          onFst (updateInode path fates.ls) >>= fun _ =>
            if flags.trunc then truncateFile path 0 fates.putOk else pure () := by
  rw [openFile]
  cases flags.create <;> rfl

/-- Without failing requests, `open` is the one without locks. -/
theorem erases_openFile (path : String) (flags : Flags) (clock : ℕ → UInt64) :
    ErasesTo (openFile x path flags clock ⟨.answered, .answered, .answered, .answered⟩)
      (SDK.openFile x path flags clock) := by
  rw [openFile_eq, SDK.openFile_eq]
  exact (erases_ite (erases_onFst _) (erases_pure ())).bind fun _ =>
    (erases_lockFile path flags.write (clock 3)).bind fun _ => (erases_onFst _).bind fun _ =>
      erases_ite (erases_truncateFile path 0) (erases_pure ())

theorem erases_truncate (path : String) (size : UInt64) (clock : ℕ → UInt64) :
    ErasesTo (truncate x path clock ⟨.answered, .answered, .answered, .answered⟩)
      (SDK.truncate x path size clock) :=
  (erases_openFile x path ⟨false, true, true⟩ clock).then_silent (erases_unlock _)

end Erasure

/-! ## Calls that leave the locks as they were -/

section Good

/-- How often each lock is held between two calls. -/
def held (opens : String → ℕ) : LockKey → ℕ
  | .file path => opens path
  | .block _ _ | .link _ _ => 0

/-- Between two calls the open files are locked, and nothing else.  A block file is locked for
writing only, and a link for reading. -/
structure Good (opens : String → ℕ) (l : PathLocks LockKey) : Prop where
  balanced : l.Balanced (held opens)
  block : ∀ path i, l.mode (.block path i) ≠ some false
  link : ∀ path i, l.mode (.link path i) ≠ some true

/-- The call ends without an exception. -/
def Stops {σ : Type} (e : Abrupt) (_ : σ) : Prop := ∀ ex, e ≠ .thrown ex

/-- What holds if the call throws an exception. -/
def Thrown {σ : Type} (P : σ → Prop) (e : Abrupt) (s : σ) : Prop := ∀ ex, e = .thrown ex → P s

theorem Stops.thrown {σ : Type} {P : σ → Prop} {e : Abrupt} {s : σ} (h : Stops e s) :
    Thrown P e s := fun ex he => absurd he (h ex)

variable {x} {opens : String → ℕ} {l l' : PathLocks LockKey} {path : String}
  {s : State × PathLocks LockKey} {α : Type}

theorem held_update (opens : String → ℕ) (path : String) (n : ℕ) :
    held (Function.update opens path n) = Function.update (held opens) (.file path) n := by
  funext key
  cases key with
  | file p =>
    by_cases hp : p = path
    · subst hp
      rw [held, Function.update_self, Function.update_self]
    · have hne : LockKey.file p ≠ .file path := fun h => hp (LockKey.file.inj h)
      rw [held, Function.update_of_ne hp, Function.update_of_ne hne, held]
  | block p i => rw [Function.update_of_ne LockKey.noConfusion, held, held]
  | link p i => rw [Function.update_of_ne LockKey.noConfusion, held, held]

/-- A lock for writing does not touch the modes of the links. -/
theorem link_of_writeLock {key : LockKey} (hs : Good opens l) (hlock : l.writeLock key = some l')
    (hkey : ∀ p i, LockKey.link p i ≠ key) (p : String) (i : ℕ) :
    l'.mode (.link p i) ≠ some true := by
  rw [PathLocks.mode_writeLock hlock, if_neg (hkey p i)]
  exact hs.link p i

theorem block_of_readLock {key : LockKey} (hs : Good opens l) (hlock : l.readLock key = some l')
    (hkey : ∀ p i, LockKey.block p i ≠ key) (p : String) (i : ℕ) :
    l'.mode (.block p i) ≠ some false := by
  rw [PathLocks.mode_readLock hlock, if_neg (hkey p i)]
  exact hs.block p i

/-- A path is opened for writing. -/
theorem Good.writeLock (hs : Good opens l) (hmode : l.mode (.file path) ≠ some false)
    (hlock : l.writeLock (.file path) = some l') :
    Good (Function.update opens path (opens path + 1)) l' := by
  refine ⟨?_, fun p i => PathLocks.mode_writeLock_ne hlock (hs.block p i),
    link_of_writeLock hs hlock fun _ _ => LockKey.noConfusion⟩
  rw [held_update]
  exact hs.balanced.writeLock hmode hlock

/-- A path is opened for reading. -/
theorem Good.readLock (hs : Good opens l) (hmode : l.mode (.file path) ≠ some true)
    (hlock : l.readLock (.file path) = some l') :
    Good (Function.update opens path (opens path + 1)) l' := by
  refine ⟨?_, block_of_readLock hs hlock fun _ _ => LockKey.noConfusion,
    fun p i => PathLocks.mode_readLock_ne hlock (hs.link p i)⟩
  rw [held_update]
  exact hs.balanced.readLock hmode hlock

/-- An open path is unlocked. -/
theorem Good.unlock (hs : Good opens l) (hopen : 0 < opens path) :
    Good (Function.update opens path (opens path - 1)) (l.unlock (.file path)) := by
  refine ⟨?_, fun p i => ?_, fun p i => ?_⟩
  · rw [held_update]
    exact hs.balanced.unlock hopen
  · rw [PathLocks.mode_unlock]
    exact hs.block p i
  · rw [PathLocks.mode_unlock]
    exact hs.link p i

/-- A block file is locked and unlocked. -/
theorem Good.underBlock (hs : Good opens l) {i : ℕ}
    (hlock : l.writeLock (.block path i) = some l') : Good opens (l'.unlock (.block path i)) := by
  refine ⟨(hs.balanced.writeLock (hs.block path i) hlock).release, fun p j => ?_, fun p j => ?_⟩
  · rw [PathLocks.mode_unlock]
    exact PathLocks.mode_writeLock_ne hlock (hs.block p j)
  · rw [PathLocks.mode_unlock]
    exact link_of_writeLock hs hlock (fun _ _ => LockKey.noConfusion) p j

/-- A link is locked and unlocked. -/
theorem Good.underLink (hs : Good opens l) {i : ℕ}
    (hlock : l.readLock (.link path i) = some l') : Good opens (l'.unlock (.link path i)) := by
  refine ⟨(hs.balanced.readLock (hs.link path i) hlock).release, fun p j => ?_, fun p j => ?_⟩
  · rw [PathLocks.mode_unlock]
    exact block_of_readLock hs hlock (fun _ _ => LockKey.noConfusion) p j
  · rw [PathLocks.mode_unlock]
    exact PathLocks.mode_readLock_ne hlock (hs.link p j)

theorem stops_running {σ : Type} (s : σ) : Stops .running s := fun _ h => by cases h

theorem stops_undefined {σ : Type} (s : σ) : Stops .undefined s := fun _ h => by cases h

theorem ensures_writeLock_block (hs : Good opens s.2) (path : String) (i : ℕ) :
    Ensures (Locked.writeLock (.block path i)) s
      (fun _ s' => s'.1 = s.1 ∧ Good opens (s'.2.unlock (.block path i))) Stops := by
  rw [Ensures, EStateM.run, Locked.writeLock]
  cases hlock : s.2.writeLock (.block path i) with
  | none => exact stops_running s
  | some locks => exact ⟨rfl, hs.underBlock hlock⟩

theorem ensures_readLock_link (hs : Good opens s.2) (path : String) (i : ℕ) :
    Ensures (Locked.readLock (.link path i)) s
      (fun _ s' => s'.1 = s.1 ∧ Good opens (s'.2.unlock (.link path i))) Stops := by
  rw [Ensures, EStateM.run, Locked.readLock]
  cases hlock : s.2.readLock (.link path i) with
  | none => exact stops_running s
  | some locks => exact ⟨rfl, hs.underLink hlock⟩

/-- A call that does not throw under a lock. -/
theorem ensures_under {lock : LockedCall Unit} {key : LockKey} {m : Call α}
    {Q : α → State → Prop}
    (hlock : Ensures lock s (fun _ s' => s'.1 = s.1 ∧ Good opens (s'.2.unlock key)) Stops)
    (hm : Ensures m s.1 Q Stops) :
    Ensures (under lock key m) s (fun a s' => Q a s'.1 ∧ Good opens s'.2) Stops := by
  refine Ensures.bind (hlock.mono (fun _ s₁ h₁ => ?_) fun e s₁ he => he)
  refine Ensures.bind (Ensures.onFst ?_)
  rw [h₁.1]
  exact hm.mono (fun a st ha => ensures_of_ok rfl ⟨ha, h₁.2⟩) fun e st he => he

/-- A call without locks. -/
theorem ensures_onFst (hs : Good opens s.2) (m : Call α) :
    Ensures (onFst m) s (fun _ s' => Good opens s'.2) (Thrown (Good opens ·.2)) := by
  refine Ensures.onFst ?_
  cases hrun : m.run s.1 with
  | ok a st => exact ensures_of_ok hrun hs
  | error e st => exact ensures_of_error hrun fun _ _ => hs

/-! ### `read_data` -/

/-- No exception comes out of the fetches of `read_data` for these indices: the directory is
there, and the blocks are decoded. -/
def Fetches (x : External) (net : Net) (inode : Inode) (st : State) (first second : Int) : Prop :=
  ∀ (i : ℕ) s, first ≤ i → i < second → inode.sub[i]? = some s →
    (st.block inode.fullpath.text i).getD [] = [] →
      (∃ folder, st.tmp inode.fullpath.text = some folder) ∧
        ∀ e, decodeEntry x net inode s ≠ .error (.thrown e)

variable {net : Net} {inode : Inode}

theorem Fetches.of_onlyBlocks {st st' : State} {first second : Int} {is : ℕ → Prop}
    (h : Fetches x net inode st first second) (honly : Exact.OnlyBlocks is st st')
    (hout : ∀ i : ℕ, first ≤ i → i < second → ¬ is i) : Fetches x net inode st' first second := by
  intro i sub hfirst hsecond hsub hempty
  cases htmp : st.tmp inode.fullpath.text with
  | none =>
    have hnone : st.block inode.fullpath.text i = none := by
      rw [State.block, htmp, Option.bind_none]
    obtain ⟨⟨folder, hfolder⟩, _⟩ := h i sub hfirst hsecond hsub (by rw [hnone]; rfl)
    rw [htmp] at hfolder
    cases hfolder
  | some folder =>
    obtain ⟨folder', htmp', _, hblock⟩ := honly _ folder htmp
    rw [State.block_of_tmp htmp', hblock i (hout i hfirst hsecond),
      ← State.block_of_tmp htmp] at hempty
    exact ⟨⟨folder', htmp'⟩, (h i sub hfirst hsecond hsub hempty).2⟩

theorem ensures_fetchBlock {st : State} {folder : Folder} {i : ℕ} {sub : String}
    (hfolder : st.tmp inode.fullpath.text = some folder)
    (hdecode : ∀ e, decodeEntry x net inode sub ≠ .error (.thrown e)) :
    Ensures (fetchBlock x net inode i sub) st
      (fun _ st' => Exact.OnlyBlocks (· = i) st st') Stops := by
  cases hd : decodeEntry x net inode sub with
  | ok block =>
    have hrun := run_fetchBlock x hfolder hd i
    exact ensures_of_ok hrun (after_of_ok hrun ▸ Exact.onlyBlocks_fetchBlock net inode i sub st)
  | error e =>
    rw [hd] at hdecode
    refine Ensures.bind (ensures_of_ok (run_inFolder hfolder _ _) ?_)
    rw [hd]
    exact Ensures.bind (ensures_of_error rfl fun ex he => hdecode ex (he ▸ rfl))

theorem ensures_readBlock {i : ℕ} {sub : String} (hs : Good opens s.2)
    (hfetch : (s.1.block inode.fullpath.text i).getD [] = [] →
      (∃ folder, s.1.tmp inode.fullpath.text = some folder) ∧
        ∀ e, decodeEntry x net inode sub ≠ .error (.thrown e)) :
    Ensures (readBlock x net inode i sub) s
      (fun _ s' => Exact.OnlyBlocks (· = i) s.1 s'.1 ∧ Good opens s'.2)
      (Thrown (Good opens ·.2)) := by
  by_cases hempty : (s.1.block inode.fullpath.text i).getD [] = []
  · obtain ⟨⟨folder, hfolder⟩, hdecode⟩ := hfetch hempty
    rw [ensures_congr (run_readBlock_of_empty x net sub hempty)]
    have hread : Ensures (SDK.readBlock x net inode i sub) s.1
        (fun _ st' => Exact.OnlyBlocks (· = i) s.1 st') Stops :=
      (ensures_congr (SDK.run_readBlock_of_empty x sub hempty)).mpr
        (ensures_fetchBlock hfolder hdecode)
    exact (ensures_under (ensures_writeLock_block hs _ _) hread).mono (fun _ _ h => h)
      fun _ _ h => h.thrown
  · rw [ensures_congr (run_readBlock_of_file x net sub hempty)]
    have hwithin := within_readBlock (Exact.onlyBlocks_fetchBlock (x := x) net inode i sub)
    exact Ensures.onFst ((hwithin.ensures s.1).mono (fun _ _ h => ⟨h, hs⟩) fun _ _ _ _ _ => hs)

theorem ensures_readLoop {second index : Int} {n : ℕ} (hs : Good opens s.2)
    (hfetch : Fetches x net inode s.1 index (index + n)) :
    Ensures (readLoop x net inode second n index) s
      (fun _ s' => Exact.OnlyBlocks (fun i => index ≤ i ∧ i < index + n) s.1 s'.1 ∧
        Good opens s'.2)
      (Thrown (Good opens ·.2)) := by
  induction n generalizing index s with
  | zero => exact ensures_of_ok rfl ⟨refl_of _ s.1, hs⟩
  | succ n ih =>
    rw [readLoop]
    by_cases hneg : index < 0
    · rw [if_pos hneg]
      exact ensures_of_error rfl (stops_undefined s).thrown
    rw [if_neg hneg]
    cases hsub : inode.sub[index.toNat]? with
    | none =>
      refine Ensures.onFst (((Within.lift _).ensures s.1).mono (fun _ _ h => ⟨h, hs⟩) ?_)
      exact fun _ _ _ _ _ => hs
    | some sub =>
      have hindex : (index.toNat : Int) = index := by omega
      have hblock := hfetch index.toNat sub (by omega) (by omega) hsub
      refine Ensures.bind ((ensures_readBlock hs hblock).mono (fun block s₁ h₁ => ?_)
        fun _ _ h => h)
      have hrest : Fetches x net inode s₁.1 (index + 1) (index + 1 + n) :=
        Fetches.of_onlyBlocks (fun i s hfirst hsecond => hfetch i s (by omega) (by omega)) h₁.1
          fun i hfirst _ => by omega
      refine Ensures.bind ((ih h₁.2 hrest).mono (fun rest s₂ h₂ => ?_) fun _ _ h => h)
      refine ensures_of_ok rfl ⟨?_, h₂.2⟩
      exact trans_of _ (h₁.1.mono fun i hi => by omega) (h₂.1.mono fun i hi => by omega)

theorem ensures_readBlocks {indexs : Int × Int} (hs : Good opens s.2)
    (hfetch : Fetches x net inode s.1 indexs.1 indexs.2) :
    Ensures (readBlocks x net inode indexs) s
      (fun _ s' => Exact.OnlyBlocks (fun i => indexs.1 ≤ i ∧ i < indexs.2) s.1 s'.1 ∧
        Good opens s'.2)
      (Thrown (Good opens ·.2)) := by
  refine (ensures_readLoop hs fun i sub hfirst hsecond => hfetch i sub hfirst (by omega)).mono
    (fun _ s' h => ⟨h.1.mono fun i hi => by omega, h.2⟩) fun _ _ h => h

/-- No exception comes out of the fetches of a `read_data`. -/
def ReadClean (x : External) (net : Net) (path : String) (offset size : UInt64) (st : State) :
    Prop :=
  ∀ inode indexs, st.localInodeCache path = some inode → ¬ inode.filesize < offset →
    getIndexs inode offset
      (if inode.filesize < offset + size then inode.filesize - offset else size) = .ok indexs →
    Fetches x net inode st indexs.1 indexs.2

/-- A call that needs the inode throws without one, with the locks as they are. -/
theorem ensures_getInode {f : Inode → LockedCall α}
    {Q : α → State × PathLocks LockKey → Prop} (hs : Good opens s.2)
    (h : ∀ inode, s.1.localInodeCache path = some inode →
      Ensures (f inode) s Q (Thrown (Good opens ·.2))) :
    Ensures (onFst (getInode path) >>= f) s Q (Thrown (Good opens ·.2)) := by
  cases hcache : s.1.localInodeCache path with
  | none =>
    exact Ensures.bind (ensures_of_error (run_onFst_of_error (run_getInode_of_none hcache))
      fun _ _ => hs)
  | some inode =>
    exact Ensures.bind (ensures_of_ok (run_onFst_of_ok (run_getInode_of_some hcache))
      (h inode hcache))

theorem ensures_readData {offset size : UInt64} (hs : Good opens s.2)
    (hclean : ReadClean x net path offset size s.1) :
    Ensures (readData x net path offset size) s (fun _ s' => Good opens s'.2)
      (Thrown (Good opens ·.2)) := by
  refine ensures_getInode hs fun inode hcache => ?_
  by_cases hoffset : inode.filesize < offset
  · rw [if_pos hoffset]
    exact ensures_of_ok rfl hs
  rw [if_neg hoffset]
  cases hindexs : getIndexs inode offset
      (if inode.filesize < offset + size then inode.filesize - offset else size) with
  | error e =>
    exact Ensures.bind (ensures_of_error
      (run_onFst_of_error (run_lift_of_error hindexs _)) fun _ _ => hs)
  | ok indexs =>
    refine Ensures.bind (ensures_of_ok
      (run_onFst_of_ok (run_lift_eq_ok.mpr ⟨hindexs, rfl⟩)) ?_)
    refine Ensures.bind ((ensures_readBlocks hs (hclean inode indexs hcache hoffset hindexs)).mono
      (fun _ s₁ h₁ => ?_) fun _ _ h => h)
    exact ensures_onFst h₁.2 _

/-! ### `write_data` -/

/-- No exception comes out of the fetches of a `write_data`. -/
def WriteClean (x : External) (net : Net) (path : String) (offset : UInt64) (s : Bytes)
    (st : State) : Prop :=
  ∀ inode indexs, st.localInodeCache path = some inode →
    getIndexs inode offset (.ofNat s.length) = .ok indexs →
    (offset < inode.filesize ∧ offset % .ofInt inode.getBlockSize ≠ 0 →
      Fetches x net inode st indexs.1 (indexs.1 + 1)) ∧
    (offset + .ofNat s.length < inode.filesize ∧ indexs.1 ≠ indexs.2 - 1 ∧
        (offset + .ofNat s.length) % .ofInt inode.getBlockSize ≠ 0 →
      Fetches x net inode st (indexs.2 - 1) indexs.2)

/-- A fetch that is made on a condition. -/
theorem ensures_fetch {c : Prop} [Decidable c] {indexs : Int × Int} (hs : Good opens s.2)
    (hfetch : c → Fetches x net inode s.1 indexs.1 indexs.2) :
    Ensures (if c then readBlocks x net inode indexs >>= fun _ => pure () else pure ()) s
      (fun _ s' => Exact.OnlyBlocks (fun i => indexs.1 ≤ i ∧ i < indexs.2) s.1 s'.1 ∧
        Good opens s'.2)
      (Thrown (Good opens ·.2)) := by
  split
  · rename_i hc
    exact Ensures.bind ((ensures_readBlocks hs (hfetch hc)).mono
      (fun _ _ h => ensures_of_ok rfl h) fun _ _ h => h)
  · exact ensures_of_ok rfl ⟨refl_of _ s.1, hs⟩

theorem ensures_writeData {offset : UInt64} {bytes : Bytes} (hs : Good opens s.2)
    (hclean : WriteClean x net path offset bytes s.1) :
    Ensures (writeData x net path offset bytes) s (fun _ s' => Good opens s'.2)
      (Thrown (Good opens ·.2)) := by
  refine ensures_getInode hs fun inode hcache => ?_
  cases hindexs : getIndexs inode offset (.ofNat bytes.length) with
  | error e =>
    exact Ensures.bind (ensures_of_error
      (run_onFst_of_error (run_lift_of_error rfl _)) fun _ _ => hs)
  | ok indexs =>
    refine Ensures.bind (ensures_of_ok
      (run_onFst_of_ok (run_lift_eq_ok.mpr ⟨rfl, rfl⟩)) ?_)
    obtain ⟨hfirst, hlast⟩ := hclean inode indexs hcache hindexs
    rw [prefetch_eq, bind_assoc]
    refine Ensures.bind ((ensures_fetch hs hfirst).mono (fun _ s₁ h₁ => ?_) fun _ _ h => h)
    refine Ensures.bind ((ensures_fetch h₁.2 fun hc => ?_).mono (fun _ s₂ h₂ => ?_)
      fun _ _ h => h)
    · -- The first fetch has changed another file.
      refine (hlast hc).of_onlyBlocks h₁.1 fun i hi hi' hsame => hc.2.1 ?_
      simp only at hsame
      omega
    · exact ensures_onFst h₂.2 _

/-! ### `fsync` and `close` -/

/-- No exception comes out of the uploads of `fsync`: each link can be read, and its content is
encoded. -/
def Uploaded (x : External) (inode : Inode) (folder : Folder) : List ℕ → List Uploads → Prop
  | [], _ => True
  | _ :: _, [] => True
  | i :: res, up :: ups =>
    (∃ data, folder.readLink i = .ok data ∧ ∀ e, encodeEntry x inode data up ≠ .error (.thrown e)) ∧
      Uploaded x inode (folder.removeLink i) res ups

theorem ensures_syncBlock {st : State} {folder : Folder} {i : ℕ} {up : Uploads} {data : Bytes}
    (hfolder : st.tmp path = some folder) (hdata : folder.readLink i = .ok data)
    (hencode : ∀ e, encodeEntry x inode data up ≠ .error (.thrown e)) :
    Ensures (syncBlock x path inode i up) st
      (fun _ st' => st'.tmp path = some (folder.removeLink i)) Stops := by
  rw [syncBlock, ensures_congr (run_get_bind _ _), State.folder_of_tmp hfolder, hdata]
  refine Ensures.bind (ensures_of_ok rfl ?_)
  cases hentry : encodeEntry x inode data up with
  | error e =>
    rw [hentry] at hencode
    exact Ensures.bind (ensures_of_error (run_lift_of_error rfl _)
      fun ex he => hencode ex (he ▸ rfl))
  | ok entry =>
    refine Ensures.bind (ensures_of_ok (run_lift_eq_ok.mpr ⟨rfl, rfl⟩) ?_)
    refine Ensures.bind (ensures_of_ok (run_inFolder hfolder _ _) ?_)
    exact ensures_of_ok rfl (State.tmp_setFolder _ _ _)

theorem ensures_fsyncLoop {folder : Folder} {res : List ℕ} {ups : List Uploads}
    (hs : Good opens s.2) (hfolder : s.1.tmp path = some folder)
    (hups : Uploaded x inode folder res ups) (sub : List String) (size : ℕ) :
    Ensures (fsyncLoop x path inode res ups sub size) s (fun _ s' => Good opens s'.2) Stops := by
  induction res generalizing ups sub size s folder with
  | nil => exact ensures_of_ok rfl hs
  | cons i res ih =>
    cases ups with
    | nil => exact ensures_of_error rfl (stops_running s)
    | cons up ups =>
      obtain ⟨⟨data, hdata, hencode⟩, hrest⟩ := hups
      refine Ensures.bind ((ensures_under (ensures_readLock_link hs path i)
        (ensures_syncBlock hfolder hdata hencode)).mono (fun p s₁ h₁ => ?_) fun _ _ h => h)
      exact ih h₁.2 h₁.1 hrest _ _

theorem exists_run_sendUnchecked (delivered : Bool) (op : Op) (st : State) :
    ∃ st', (sendUnchecked delivered op).run st = .ok () st' := by
  show ∃ st', sendUnchecked delivered op st = _
  unfold sendUnchecked
  split <;> exact ⟨_, rfl⟩

theorem ensures_syncBlocks {last : ℕ} {sync : Sync} (hs : Good opens s.2)
    (hcache : s.1.localInodeCache path = some inode)
    (hlast : (s.1.dirty path).getLast? = some last)
    (hups : Uploaded x inode (s.1.folder path) (s.1.dirty path) sync.ups) :
    Ensures (syncBlocks x path (s.1.dirty path) last sync) s (fun _ s' => Good opens s'.2)
      Stops := by
  have hfolder := tmp_of_getLast?_dirty hlast
  refine Ensures.bind (ensures_of_ok (run_onFst_of_ok (run_getInode_of_some hcache)) ?_)
  refine Ensures.bind ((ensures_fsyncLoop hs hfolder hups _ _).mono (fun p s₁ h₁ => ?_)
    fun _ _ h => h)
  obtain ⟨st', hsend⟩ := exists_run_sendUnchecked sync.delivered
    (.putOk path (fsyncSize inode last p.2) p.1) s₁.1
  exact Ensures.onFst (ensures_of_ok hsend h₁)

/-- No exception comes out of the uploads of an `fsync`. -/
def FsyncClean (x : External) (path : String) (sync : Sync) (st : State) : Prop :=
  ∀ inode last, st.localInodeCache path = some inode → (st.dirty path).getLast? = some last →
    last < 2 ^ 31 → Uploaded x inode (st.folder path) (st.dirty path) sync.ups

/-- No exception comes out of the `fsync` of a `close`. -/
def CloseClean (x : External) (path : String) (sync : Sync) (st : State) : Prop :=
  ∀ last, (st.dirty path).getLast? = some last → last < 2 ^ 31 ∧
    ∃ inode, st.localInodeCache path = some inode ∧
      Uploaded x inode (st.folder path) (st.dirty path) sync.ups

theorem run_fsync_of_none {sync : Sync} (h : (s.1.dirty path).getLast? = none) :
    (fsync x path sync).run s = .ok () s := by
  rw [fsync, run_onFst_get_bind, h]
  rfl

theorem ensures_fsync {sync : Sync} (hs : Good opens s.2) (hclean : FsyncClean x path sync s.1) :
    Ensures (fsync x path sync) s (fun _ s' => Good opens s'.2) (Thrown (Good opens ·.2)) := by
  cases hlast : (s.1.dirty path).getLast? with
  | none => exact ensures_of_ok (run_fsync_of_none hlast) hs
  | some last =>
    rw [ensures_congr (run_fsync_of_some x hlast sync)]
    by_cases hbig : 2 ^ 31 ≤ last
    · rw [if_pos hbig]
      exact ensures_of_error rfl fun _ _ => hs
    rw [if_neg hbig]
    cases hcache : s.1.localInodeCache path with
    | none =>
      exact Ensures.bind (ensures_of_error (run_onFst_of_error (run_getInode_of_none hcache))
        fun _ _ => hs)
    | some inode =>
      exact (ensures_syncBlocks hs hcache hlast
        (hclean inode last hcache hlast (Nat.not_le.mp hbig))).mono (fun _ _ h => h)
          fun _ _ h => h.thrown

/-- Such a `close` returns, and it unlocks the path. -/
theorem ensures_closeFile {sync : Sync} (hs : Good opens s.2) (hopen : 0 < opens path)
    (hclean : CloseClean x path sync s.1) :
    Ensures (closeFile x path sync) s
      (fun _ s' => Good (Function.update opens path (opens path - 1)) s'.2) Stops := by
  have hfsync : Ensures (fsync x path sync) s (fun _ s' => Good opens s'.2) Stops := by
    cases hlast : (s.1.dirty path).getLast? with
    | none => exact ensures_of_ok (run_fsync_of_none hlast) hs
    | some last =>
      obtain ⟨hbig, inode, hcache, hups⟩ := hclean last hlast
      rw [ensures_congr (run_fsync_of_some x hlast sync), if_neg (Nat.not_le.mpr hbig)]
      exact ensures_syncBlocks hs hcache hlast hups
  refine Ensures.bind (hfsync.mono (fun _ s₁ h₁ => ?_) fun _ _ h => h)
  refine Ensures.bind (ensures_of_ok (run_onFst_of_ok rfl) ?_)
  exact ensures_of_ok rfl (h₁.unlock hopen)

/-! ### `open` and `truncate` -/

/-- The first part of an `open`. -/
def create (x : External) (path : String) (flags : Flags) (clock : ℕ → UInt64) (fate : Fate) :
    Call Unit :=
  if flags.create then fate.call (createFile x path clock) else pure ()

/-- Behind its lock the `open` does not throw: the requests are answered, and there is a file.
The path was locked in the same way at first, and a file that is truncated is empty. -/
def OpenClean (x : External) (path : String) (flags : Flags) (clock : ℕ → UInt64) (fates : Fates)
    (s : State × PathLocks LockKey) : Prop :=
  ∀ st, (create x path flags clock fates.create).run s.1 = .ok () st →
    s.2.mode (.file path) ≠ some (!flags.write) ∧
    ∃ db remote,
      (if flags.write then
        fates.lock = .answered ∧ request st.db (clock 3) (.updateLock path) = .ok db
      else db = st.db) ∧
      fates.ls = .answered ∧ Namenode.ls db path = .ok remote ∧
      (flags.trunc = true → remote.filesize = 0)

theorem ensures_lockFile {write : Bool} {now : UInt64} {fate : Fate} {db : Store}
    (hs : Good opens s.2) (hmode : s.2.mode (.file path) ≠ some (!write))
    (hdb : if write then fate = .answered ∧ request s.1.db now (.updateLock path) = .ok db
      else db = s.1.db) :
    Ensures (lockFile path write now fate) s
      (fun _ s' => s'.1.db = db ∧ Good (Function.update opens path (opens path + 1)) s'.2)
      Stops := by
  refine Ensures.bind (ensures_of_ok (run_onFst_of_ok rfl) ?_)
  cases write with
  | false =>
    show Ensures (Locked.readLock (.file path)) (s.1.setFolder path (s.1.folder path), s.2) _ _
    rw [Ensures, EStateM.run, Locked.readLock]
    cases hlock : s.2.readLock (.file path) with
    | none => exact stops_running _
    | some locks => exact ⟨Eq.symm hdb, hs.readLock hmode hlock⟩
  | true =>
    obtain ⟨rfl, hreq⟩ := hdb
    refine Ensures.bind (f := fun _ => _) ?_
    rw [Ensures, EStateM.run, Locked.writeLock]
    cases hlock : s.2.writeLock (.file path) with
    | none => exact stops_running _
    | some locks =>
      have hsend : (send now (.updateLock path)).run (s.1.setFolder path (s.1.folder path)) =
          .ok () { s.1.setFolder path (s.1.folder path) with db := db } :=
        run_send_eq_ok.mpr ⟨db, hreq, rfl⟩
      refine Ensures.bind (ensures_of_ok (run_onFst_of_ok hsend) (Ensures.onFst ?_))
      have hfolder : ({ s.1.setFolder path (s.1.folder path) with db := db } : State).tmp path =
          some (s.1.folder path) := State.tmp_setFolder s.1 path _
      exact ensures_of_ok (run_inFolder hfolder _ _) ⟨rfl, hs.writeLock hmode hlock⟩

/-- The last parts of an `open`, when the namenode knows the path. -/
theorem run_updateInode_answered (st : State) {remote : Inode}
    (hls : Namenode.ls st.db path = .ok remote) :
    ∃ st', (Locked.updateInode path .answered).run st = .ok () st' ∧
      st'.localInodeCache path = some remote := by
  refine ⟨_, ((run_updateInode path st).trans (by rw [hls])), ?_⟩
  exact Function.update_self _ _ _

theorem run_truncateFile_of_empty {size : UInt64} {fate : Fate}
    (hcache : s.1.localInodeCache path = some inode) (hsize : inode.filesize = size) :
    (Locked.truncateFile path size fate).run s = .ok () s := by
  rw [Locked.truncateFile, run_bind_of_ok (run_onFst_of_ok (run_getInode_of_some hcache)),
    if_pos hsize]
  rfl

theorem ensures_openFile {flags : Flags} {clock : ℕ → UInt64} {fates : Fates}
    (hs : Good opens s.2) (hclean : OpenClean x path flags clock fates s) :
    Ensures (openFile x path flags clock fates) s
      (fun _ s' => Good (Function.update opens path (opens path + 1)) s'.2)
      (Thrown (Good opens ·.2)) := by
  have hcreate : (if flags.create then onFst (fates.create.call (createFile x path clock))
      else pure () : LockedCall Unit) = onFst (create x path flags clock fates.create) := by
    rw [create]
    split <;> rfl
  rw [openFile_eq, hcreate]
  cases hrun : (create x path flags clock fates.create).run s.1 with
  | error e st =>
    exact Ensures.bind (ensures_of_error (run_onFst_of_error hrun) fun _ _ => hs)
  | ok u st =>
    obtain ⟨hmode, db, remote, hdb, hls, hremote, htrunc⟩ := hclean st hrun
    refine Ensures.bind (ensures_of_ok (run_onFst_of_ok hrun) ?_)
    refine Ensures.bind ((ensures_lockFile (s := (st, s.2)) hs hmode hdb).mono
      (fun _ s₁ h₁ => ?_) fun _ _ h => h.thrown)
    obtain ⟨st', hupdate, hcache⟩ := run_updateInode_answered s₁.1 (h₁.1 ▸ hremote)
    rw [hls]
    refine Ensures.bind (ensures_of_ok (run_onFst_of_ok hupdate) ?_)
    split
    · rename_i hflag
      exact ensures_of_ok (run_truncateFile_of_empty hcache (htrunc hflag)) h₁.2
    · exact ensures_of_ok rfl h₁.2

/-- A `truncate` of an empty file. -/
theorem ensures_truncate {clock : ℕ → UInt64} {fates : Fates} (hs : Good opens s.2)
    (hclean : OpenClean x path ⟨false, true, true⟩ clock fates s) :
    Ensures (truncate x path clock fates) s (fun _ s' => Good opens s'.2)
      (Thrown (Good opens ·.2)) := by
  refine Ensures.bind ((ensures_openFile hs hclean).mono (fun _ s₁ h₁ => ?_) fun _ _ h => h)
  have hpos : 0 < Function.update opens path (opens path + 1) path := by
    rw [Function.update_self]
    exact Nat.succ_pos _
  have hunlock := h₁.unlock hpos
  rw [Function.update_self, Nat.add_sub_cancel, Function.update_idem,
    Function.update_eq_self] at hunlock
  exact ensures_of_ok rfl hunlock

end Good

/-! ## Runs -/

/-- A call, or a change of the records by somebody else. -/
inductive Event
  | openFile (path : String) (flags : Flags) (clock : ℕ → UInt64) (fates : Fates)
  | readData (net : Net) (path : String) (offset size : UInt64)
  | writeData (net : Net) (path : String) (offset : UInt64) (s : Bytes)
  | fsync (path : String) (sync : Sync)
  | closeFile (path : String) (sync : Sync)
  | truncate (path : String) (clock : ℕ → UInt64) (fates : Fates)
  | other (db : Store)

def Event.call : Event → LockedCall Unit
  | .openFile path flags clock fates => Locked.openFile x path flags clock fates
  | .readData net path offset size => do
    let _ ← Locked.readData x net path offset size
  | .writeData net path offset s => Locked.writeData x net path offset s
  | .fsync path sync => Locked.fsync x path sync
  | .closeFile path sync => Locked.closeFile x path sync
  | .truncate path clock fates => Locked.truncate x path clock fates
  | .other db => onFst (modify fun st => { st with db := db })

/-- A client, and how many of the `open` calls of a path that have returned were not followed
by a `close`. -/
structure World where
  s : State × PathLocks LockKey
  opens : String → ℕ

/-- A client that has locked nothing yet. -/
structure World.Start (w : World) : Prop where
  locks : w.s.2 = PathLocks.empty
  opens : w.opens = fun _ => 0

/-- What is open when the call has returned or thrown. -/
def Event.opens (opens : String → ℕ) (returned : Bool) : Event → String → ℕ
  | .openFile path _ _ _ =>
    if returned then Function.update opens path (opens path + 1) else opens
  | .closeFile path _ => Function.update opens path (opens path - 1)
  | _ => opens

/-- One call of a run. -/
def step (w : World) (ev : Event) : Option World :=
  match (ev.call x).run w.s with
  | .ok _ s => some ⟨s, ev.opens w.opens true⟩
  | .error (.thrown _) s => some ⟨s, ev.opens w.opens false⟩
  | .error .undefined _ | .error .running _ => none

/-- The call throws an exception. -/
def Event.Throws (w : World) (ev : Event) : Prop :=
  ∃ e s, (ev.call x).run w.s = .error (.thrown e) s

/-- Only a path that is open is closed. -/
def Event.Paired (w : World) : Event → Prop
  | .closeFile path _ => 0 < w.opens path
  | _ => True

/-- No exception comes out of the call while it holds a lock, and it unlocks what it has locked
in the way in which it has locked it. -/
def Event.Clean (w : World) : Event → Prop
  | .openFile path flags clock fates => OpenClean x path flags clock fates w.s
  | .readData net path offset size => ReadClean x net path offset size w.s.1
  | .writeData net path offset s => WriteClean x net path offset s w.s.1
  | .fsync path sync => FsyncClean x path sync w.s.1
  | .closeFile path sync => CloseClean x path sync w.s.1
  | .truncate path clock fates => OpenClean x path ⟨false, true, true⟩ clock fates w.s
  | .other _ => True

section Runs

variable {x} {w w' : World} {ev : Event}

theorem ensures_call (hs : Good w.opens w.s.2) (hpaired : ev.Paired w) (hclean : ev.Clean x w) :
    Ensures (ev.call x) w.s (fun _ s' => Good (ev.opens w.opens true) s'.2)
      (Thrown fun s' => ev.opens w.opens false = w.opens ∧ Good w.opens s'.2) := by
  have hthrown : ∀ (e : Abrupt) (s' : State × PathLocks LockKey),
      Thrown (Good w.opens ·.2) e s' →
      Thrown (fun s' => w.opens = w.opens ∧ Good w.opens s'.2) e s' :=
    fun _ _ h ex he => ⟨rfl, h ex he⟩
  cases ev with
  | openFile path flags clock fates =>
    exact (ensures_openFile hs hclean).mono (fun _ _ h => h) hthrown
  | readData net path offset size =>
    exact Ensures.bind ((ensures_readData hs hclean).mono (fun _ _ h => ensures_of_ok rfl h)
      hthrown)
  | writeData net path offset s =>
    exact (ensures_writeData hs hclean).mono (fun _ _ h => h) hthrown
  | fsync path sync => exact (ensures_fsync hs hclean).mono (fun _ _ h => h) hthrown
  | closeFile path sync =>
    exact (ensures_closeFile hs hpaired hclean).mono (fun _ _ h => h) fun _ _ h => h.thrown
  | truncate path clock fates =>
    exact (ensures_truncate hs hclean).mono (fun _ _ h => h) hthrown
  | other db =>
    exact (ensures_onFst hs (modify fun st => { st with db := db })).mono (fun _ _ h => h) hthrown

theorem good_of_step (hs : Good w.opens w.s.2) (hpaired : ev.Paired w) (hclean : ev.Clean x w)
    (hstep : step x w ev = some w') : Good w'.opens w'.s.2 := by
  have hcall := ensures_call hs hpaired hclean
  rw [Ensures] at hcall
  rw [step] at hstep
  split at hstep
  · rename_i hrun
    rw [hrun] at hcall
    cases hstep
    exact hcall
  · rename_i hrun
    rw [hrun] at hcall
    obtain ⟨hopens, hgood⟩ := hcall _ rfl
    cases hstep
    rw [hopens]
    exact hgood
  · cases hstep
  · cases hstep

/-- A call that throws leaves as many files open as there were. -/
theorem opens_of_throws (hs : Good w.opens w.s.2) (hpaired : ev.Paired w) (hclean : ev.Clean x w)
    (hstep : step x w ev = some w') (hthrows : ev.Throws x w) : w'.opens = w.opens := by
  obtain ⟨e, s, hrun⟩ := hthrows
  have hcall := ensures_call hs hpaired hclean
  rw [Ensures, hrun] at hcall
  rw [step, hrun] at hstep
  cases hstep
  exact (hcall e rfl).1

theorem good_start (h : w.Start) : Good w.opens w.s.2 := by
  have hheld : held (fun _ => 0) = fun _ => 0 := by
    funext key
    cases key <;> rfl
  have hmode : ∀ (key : LockKey) (exclusive : Bool),
      (PathLocks.empty : PathLocks LockKey).mode key ≠ some exclusive :=
    fun key exclusive => by simp [PathLocks.mode, PathLocks.empty]
  rw [h.locks, h.opens]
  refine ⟨?_, fun path i => hmode _ _, fun path i => hmode _ _⟩
  rw [hheld]
  exact PathLocks.balanced_empty

/-- In every run in which each call meets the condition, a path is locked once for each `open`
of it that was not followed by a `close`, and everything else that was locked is unlocked.
Nothing was unlocked that was not held, and a call that throws leaves no lock behind. -/
theorem balanced_of_clean {w₀ w : World} (hstart : w₀.Start)
    (h : Runs.Reach (step x) (fun w ev => ev.Paired w ∧ ev.Clean x w) w₀ w) :
    (∀ key, w.s.2.acquired key = w.s.2.released key + held w.opens key) ∧
      w.s.2.misused = false ∧
      ∀ ev w', ev.Paired w → ev.Clean x w → step x w ev = some w' → ev.Throws x w →
        ∀ key, w'.s.2.holders key = w.s.2.holders key := by
  have hgood : Good w.opens w.s.2 :=
    h.invariant (I := fun w => Good w.opens w.s.2) (good_start hstart)
      fun _ _ _ _ hs hok hstep => good_of_step hs hok.1 hok.2 hstep
  refine ⟨hgood.balanced.count, hgood.balanced.clean, fun ev w' hpaired hclean hstep hthrows => ?_⟩
  intro key
  rw [hgood.balanced.holders_eq, ← opens_of_throws hgood hpaired hclean hstep hthrows]
  exact (good_of_step hgood hpaired hclean hstep).balanced.holders_eq key

/-- Decides more than the condition on the fetches of a file asks for. -/
def fetchesCheck (x : External) (net : Net) (inode : Inode) (st : State) : Bool :=
  (st.tmp inode.fullpath.text).isSome && inode.sub.all fun s =>
    match decodeEntry x net inode s with
    | .error (.thrown _) => false
    | _ => true

theorem fetches_of_check {net : Net} {inode : Inode} {st : State} {first second : Int}
    (h : fetchesCheck x net inode st = true) : Fetches x net inode st first second := by
  obtain ⟨hfolder, hsub⟩ := Bool.and_eq_true_iff.mp h
  intro i s _ _ hs _
  refine ⟨Option.isSome_iff_exists.mp hfolder, fun e he => ?_⟩
  have hdecode := List.all_eq_true.mp hsub s (List.mem_of_getElem? hs)
  rw [he] at hdecode
  cases hdecode

/-- Decides more than `Clean` asks for, in a run of reads. -/
def cleanCheck (x : External) (w : World) : Event → Bool
  | .openFile path flags _ ⟨_, _, .answered, _⟩ =>
    flags = ⟨false, false, false⟩ && w.s.2.mode (.file path) ≠ some true &&
      (Namenode.ls w.s.1.db path).isOk
  | .readData net path _ _ =>
    (w.s.1.localInodeCache path).all fun inode => fetchesCheck x net inode w.s.1
  | .closeFile path _ => 0 < w.opens path && w.s.1.dirty path = []
  | _ => false

theorem clean_of_check (h : cleanCheck x w ev = true) : ev.Paired w ∧ ev.Clean x w := by
  cases ev with
  | openFile path flags clock fates =>
    obtain ⟨create, lock, ls, putOk⟩ := fates
    cases ls with
    | failed db => cases h
    | answered =>
      simp only [cleanCheck, Bool.and_eq_true, decide_eq_true_eq] at h
      obtain ⟨⟨rfl, hmode⟩, hls⟩ := h
      cases hremote : Namenode.ls w.s.1.db path with
      | error e =>
        rw [hremote] at hls
        cases hls
      | ok remote =>
        refine ⟨trivial, fun st hst => ⟨hmode, w.s.1.db, remote, ?_, rfl, hremote, ?_⟩⟩
        · cases hst
          rfl
        · exact fun htrunc => Bool.noConfusion htrunc
  | readData net path offset size =>
    refine ⟨trivial, fun inode indexs hcache _ _ => fetches_of_check ?_⟩
    simp only [cleanCheck, hcache, Option.all_some] at h
    exact h
  | closeFile path sync =>
    simp only [cleanCheck, Bool.and_eq_true, decide_eq_true_eq] at h
    refine ⟨h.1, fun last hlast => ?_⟩
    rw [h.2] at hlast
    cases hlast
  | _ => cases h

/-- A client of a namenode with a file of one block. -/
def byteWorld : World :=
  ⟨(⟨byteStore [7], fun _ => none, fun _ => none⟩, PathLocks.empty), fun _ => 0⟩

/-- The file is opened, read and closed. -/
def readEvents : List Event :=
  [.openFile "/f" ⟨false, false, false⟩ (fun _ => 200) ⟨.answered, .answered, .answered, .answered⟩,
    .readData byteNet "/f" 0 1, .closeFile "/f" ⟨[], true⟩]

/-- The directory was locked for the `open`, and the block for the fetch. -/
theorem balanced_readEvents :
    ∃ w, Runs.Reach (step byteExternal) (fun w ev => ev.Paired w ∧ ev.Clean byteExternal w)
        byteWorld w ∧
      w.s.2.released (.file "/f") = 1 ∧ w.s.2.released (.block "/f" 0) = 1 ∧
      w.s.2.misused = false := by
  have hrun : ∃ w, Runs.Reach (step byteExternal) (fun w ev => cleanCheck byteExternal w ev = true)
      byteWorld w ∧
      decide (w.opens "/f" = 0 ∧ w.s.2.acquired (.file "/f") = 1 ∧
        w.s.2.acquired (.block "/f" 0) = 1) = true :=
    Runs.exists_reach_of_any_guarded readEvents (by decide +kernel)
  obtain ⟨w, hcheck, htest⟩ := hrun
  obtain ⟨hopens, hfile, hblock⟩ := of_decide_eq_true htest
  have hreach : Runs.Reach (step byteExternal)
      (fun w ev => ev.Paired w ∧ ev.Clean byteExternal w) byteWorld w :=
    hcheck.mono fun _ _ => clean_of_check
  obtain ⟨hcount, hclean, _⟩ := balanced_of_clean ⟨rfl, rfl⟩ hreach
  have hfile' := hcount (.file "/f")
  have hblock' := hcount (.block "/f" 0)
  rw [hfile, held, hopens] at hfile'
  rw [hblock, held] at hblock'
  exact ⟨w, hreach, hfile'.symm, hblock'.symm, hclean⟩

/-- The request of `update_inode` fails, behind the lock. -/
def failedOpen : Event :=
  .openFile "/f" ⟨false, false, false⟩ (fun _ => 200)
    ⟨.answered, .answered, .failed (byteStore [7]), .answered⟩

/-- The path stays locked, and nobody has opened it. -/
theorem not_balanced_failedOpen :
    ¬ ∀ (x : External) (w₀ w : World), w₀.Start →
      Runs.Reach (step x) (fun w ev => ev.Paired w) w₀ w →
      (∀ key, w.s.2.acquired key = w.s.2.released key + held w.opens key) ∧
        w.s.2.misused = false ∧
        ∀ ev w', ev.Paired w → step x w ev = some w' → ev.Throws x w →
          ∀ key, w'.s.2.holders key = w.s.2.holders key := by
  intro h
  have hany : (step byteExternal byteWorld failedOpen).any (fun w => decide
      (w.opens "/f" = 0 ∧ w.s.2.acquired (.file "/f") = 1 ∧ w.s.2.released (.file "/f") = 0)) =
      true := by decide +kernel
  obtain ⟨w, hstep, htest⟩ := (Option.any_eq_true _ _).mp hany
  obtain ⟨hopens, hacquired, hreleased⟩ := of_decide_eq_true htest
  have hreach : Runs.Reach (step byteExternal) (fun w ev => ev.Paired w) byteWorld w :=
    Runs.Reach.refl.tail (e := failedOpen) trivial hstep
  have hcount := (h byteExternal byteWorld w ⟨rfl, rfl⟩ hreach).1 (.file "/f")
  rw [hacquired, hreleased, held, hopens] at hcount
  cases hcount

end Runs

end Locked

end SDK

end Spkdfs
