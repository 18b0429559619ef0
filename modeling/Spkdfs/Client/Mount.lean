import Spkdfs.Client.BlockCache
import Spkdfs.Client.Fuse
import Spkdfs.Client.Locking

/-!
# A mounted file system

The class `FUSE` and the callbacks of `client/fuse.cpp`, one callback after the other.

Each method of `FUSE` makes one call of the SDK.  When that throws something other than a
`MessageException`, the SDK is deleted, a new one is made and the call is made once more.  The
SDK is one for all files: with it go the inodes of the open files and the locks, while the
records at the namenode and the directories under `/tmp/spkdfs/fuse` stay.

`open_iff_of_reachable` says which files are open in a run, and `read_closes_all` what a read
of any other file does.
-/

namespace Spkdfs

open RocksDB Effects SDK

/-- `FUSE`: the inodes and the locks behind the pointer `sdk`, or a null pointer, and what
outlives an SDK. -/
structure Mount where
  db : Store
  tmp : String → Option Folder
  sdk : Option ((String → Option Inode) × PathLocks LockKey)

namespace Mount

abbrev MountCall := EStateM Abrupt Mount

/-- What the SDK works on. -/
def view (s : Mount) (sdk : (String → Option Inode) × PathLocks LockKey) :
    State × PathLocks LockKey := (⟨s.db, sdk.1, s.tmp⟩, sdk.2)

def ofView (v : State × PathLocks LockKey) : Mount :=
  ⟨v.1.db, v.1.tmp, some (v.1.localInodeCache, v.2)⟩

/-- A call through the pointer.  A null pointer is undefined. -/
def onSdk {α : Type} (m : LockedCall α) : MountCall α := fun s =>
  match s.sdk with
  | none => .error .undefined s
  | some sdk =>
    match m.run (s.view sdk) with
    | .ok a v => .ok a (ofView v)
    | .error e v => .error e (ofView v)

/-! ## The class `FUSE` -/

/-- What one call of the SDK meets.  `fate` is that of the only request of an `ls`, a `mkdir`
or an `rm`. -/
structure Attempt where
  fate : Fate
  clock : ℕ → UInt64
  fates : Fates
  net : Net
  sync : Sync

/-- What a method meets: its two calls of the SDK, and the outcome of `init` between them. -/
structure Attempts where
  first : Attempt
  init : Except Exception Unit
  second : Attempt

/-- `FUSE::deinit`. -/
def deinit : MountCall Unit := modify fun s => { s with sdk := none }

/-- A new SDK. -/
def renew (s : Mount) : Mount := { s with sdk := some (fun _ => none, .empty) }

/-- `FUSE::init`, with its outcome. -/
def init (outcome : Except Exception Unit) : MountCall Unit := fun s =>
  match outcome with
  | .error e => .error (.thrown e) s
  | .ok () => .ok () s.renew

/-- `FUSE::reinit`. -/
def reinit (outcome : Except Exception Unit) : MountCall Unit := do
  deinit
  init outcome

/-- An exception that is no `MessageException`. -/
def isRuntime : Abrupt → Bool
  | .thrown (.runtime _) => true
  | _ => false

/-- The call with a new SDK. -/
def retry {α : Type} (m : Attempt → LockedCall α) (t : Attempts) : MountCall α := do
  reinit t.init
  onSdk (m t.second)

/-- The methods that throw a `MessageException` again. -/
def passing {α : Type} (m : Attempt → LockedCall α) (t : Attempts) : MountCall α :=
  orElse isRuntime (onSdk (m t.first)) (retry m t)

/-- A `MessageException` is printed. -/
def dropMessage : Abrupt → Option Unit
  | .thrown (.message _) => some ()
  | _ => none

/-- The methods that drop a `MessageException` of the first call. -/
def dropping (m : Attempt → LockedCall Unit) (t : Attempts) : MountCall Unit :=
  orElse isRuntime (recover dropMessage (onSdk (m t.first))) (retry m t)

/-- `SDK::ls`. -/
def sdkLs (path : String) (a : Attempt) : LockedCall Inode :=
  onFst (a.fate.call (getRemoteInode path))

/-- `SDK::mkdir` and `SDK::rm`. -/
def sdkSend (op : Op) (a : Attempt) : LockedCall Unit :=
  onFst (a.fate.call (send (a.clock 0) op))

variable (x : External)

/-- `FUSE::open`. -/
def openFile (dst : String) (flags : Flags) : Attempts → MountCall Unit :=
  dropping fun a => Locked.openFile x dst flags a.clock a.fates

/-- `FUSE::mkdir`. -/
def mkdir (dst : String) : Attempts → MountCall Unit := dropping (sdkSend (.mkdir dst))

/-- `FUSE::rm`. -/
def rm (dst : String) : Attempts → MountCall Unit := dropping (sdkSend (.rm dst))

/-- `FUSE::truncate`. -/
def truncate (dst : String) : Attempts → MountCall Unit :=
  dropping fun a => Locked.truncate x dst a.clock a.fates

/-- `FUSE::ls`. -/
def ls (dst : String) : Attempts → MountCall Inode := passing (sdkLs dst)

/-- `FUSE::read`. -/
def read (dst : String) (offset size : UInt64) : Attempts → MountCall Bytes :=
  passing fun a => Locked.readData x a.net dst offset size

/-- `FUSE::create`, with the flags of `SDK::create`. -/
def create (dst : String) : Attempts → MountCall Unit :=
  passing fun a => Locked.openFile x dst ⟨true, true, false⟩ a.clock a.fates

/-- `FUSE::write`. -/
def write (dst : String) (offset : UInt64) (data : Bytes) : Attempts → MountCall Unit :=
  passing fun a => Locked.writeData x a.net dst offset data

/-- `FUSE::close`. -/
def close (dst : String) : Attempts → MountCall Unit :=
  passing fun a => Locked.closeFile x dst a.sync

/-- `FUSE::fsync`. -/
def fsync (dst : String) : Attempts → MountCall Unit :=
  passing fun a => Locked.fsync x dst a.sync

/-! ## The callbacks -/

def enoent : Int := 2
def eio : Int := 5
def eexist : Int := 17

/-- The fields of `struct stat` that are set. -/
structure Stat where
  mode : ℕ
  nlink : ℕ
  size : Int64
  deriving DecidableEq

def sIfDir : ℕ := 0o40000
def sIfReg : ℕ := 0o100000

/-- What `spkdfs_getattr` writes to the buffer. -/
def stat (inode : Inode) : Stat :=
  if inode.isDirectory then ⟨sIfDir + 0o755, 2, 0⟩
  else ⟨sIfReg + 0o644, 1, inode.filesize.toInt64⟩

/-- `S_ISDIR`. -/
def Stat.isDir (st : Stat) : Bool := st.mode / sIfDir % 16 = 1

/-- A name as `filler` gets it.  `back` of an empty string is undefined. -/
def fillName (str : String) : Except Abrupt String :=
  match str.toList.getLast? with
  | none => .error .undefined
  | some c => .ok (if c = '/' then .ofList str.toList.dropLast else str)

/-- Every exception gets one code. -/
def always {α : Type} (a : α) : Abrupt → Option α
  | .thrown _ => some a
  | _ => none

/-- The code of `spkdfs_getattr` for a `MessageException`. -/
def getattrCode : Abrupt → Option (Option Stat × Int)
  | .thrown (.message _) => some (none, -enoent)
  | _ => none

/-- `spkdfs_getattr`. -/
def spkdfsGetattr (path : String) (t : Attempts) : MountCall (Option Stat × Int) :=
  recover getattrCode do
    let inode ← ls path t
    return (some (stat inode), 0)

/-- `spkdfs_readdir`. -/
def spkdfsReaddir (path : String) (t : Attempts) : MountCall (List String × Int) := do
  let inode ← ls path t
  if inode.isDirectory = false then throw (.thrown (.runtime "not directory error"))
  let names ← lift (inode.sub.mapM fillName)
  return ("." :: ".." :: names, 0)

/-- The codes of `spkdfs_mkdir`. -/
def mkdirCode : Abrupt → Option Int
  | .thrown (.message e) =>
    match e.code with
    | .pathExistsException => some eexist
    | .pathNotExistsException => some enoent
    | _ => some eio
  | .thrown (.runtime _) => some eio
  | _ => none

/-- `spkdfs_mkdir`. -/
def spkdfsMkdir (path : String) (t : Attempts) : MountCall Int :=
  recover mkdirCode do
    mkdir path t
    return 0

/-- The codes of `spkdfs_rm`.  The `throw` of one handler does not reach the next one. -/
def rmCode : Abrupt → Option Int
  | .thrown (.message e) =>
    match e.code with
    | .pathExistsException => some eexist
    | .pathNotExistsException => some enoent
    | _ => none
  | .thrown (.runtime _) => some eio
  | _ => none

/-- `spkdfs_rm`. -/
def spkdfsRm (path : String) (t : Attempts) : MountCall Int :=
  recover rmCode do
    rm path t
    return 0

/-- `spkdfs_truncate`. -/
def spkdfsTruncate (path : String) (t : Attempts) : MountCall Int :=
  recover (always (-enoent)) do
    truncate x path t
    return 0

/-- `spkdfs_open`. -/
def spkdfsOpen (path : String) (flags : Flags) (t : Attempts) : MountCall Int := do
  openFile x path flags t
  return 0

/-- `spkdfs_read`. -/
def spkdfsRead (path : String) (size offset : UInt64) (t : Attempts) : MountCall (Bytes × Int) :=
  recover (always ([], -enoent)) do
    let s ← read x path offset size t
    let copied ← lift (FUSE.memcpy s size.toNat)
    return (copied, toInt32 size.toNat)

/-- `spkdfs_write`. -/
def spkdfsWrite (path : String) (data : Bytes) (offset : UInt64) (t : Attempts) : MountCall Int :=
  recover (always (-eio)) do
    write x path offset data t
    return toInt32 data.length

/-- `spkdfs_close`. -/
def spkdfsClose (path : String) (t : Attempts) : MountCall Int :=
  recover (always (-eio)) do
    close x path t
    return 0

/-- `spkdfs_fsync`. -/
def spkdfsFsync (path : String) (t : Attempts) : MountCall Int :=
  recover (always (-eio)) do
    fsync x path t
    return 0

/-- `spkdfs_create`. -/
def spkdfsCreate (path : String) (t : Attempts) : MountCall Int :=
  recover (always (-eio)) do
    create x path t
    return 0

/-- A callback of the kernel. -/
inductive Callback
  | getattr
  | readdir
  | mkdir
  | rm
  | truncate
  | openFile (flags : Flags)
  | read (size offset : UInt64)
  | write (data : Bytes) (offset : UInt64)
  | close
  | fsync
  | create
  deriving DecidableEq

/-- `spkdfs_oper`: the callback on a path, and the value that it returns. -/
def Callback.run (path : String) (t : Attempts) : Callback → MountCall Int
  | .getattr => do return (← spkdfsGetattr path t).2
  | .readdir => do return (← spkdfsReaddir path t).2
  | .mkdir => spkdfsMkdir path t
  | .rm => spkdfsRm path t
  | .truncate => spkdfsTruncate x path t
  | .openFile flags => spkdfsOpen x path flags t
  | .read size offset => do return (← spkdfsRead x path size offset t).2
  | .write data offset => spkdfsWrite x path data offset t
  | .close => spkdfsClose x path t
  | .fsync => spkdfsFsync x path t
  | .create => spkdfsCreate x path t

/-- A callback, or a change of the records by somebody else. -/
inductive MountEvent
  | callback (c : Callback) (path : String) (t : Attempts)
  | other (db : Store)

/-- One step.  An exception that leaves a callback ends the process. -/
def step (s : Mount) : MountEvent → Option Mount
  | .callback c path t =>
    match (c.run x path t).run s with
    | .ok _ s' => some s'
    | .error _ _ => none
  | .other db => some { s with db := db }

variable {x}

/-! ## The inodes of the SDK -/

/-- The inodes stay. -/
def SameInodes (st st' : State) : Prop := st'.localInodeCache = st.localInodeCache

instance : IsPreorder State SameInodes where
  refl _ := rfl
  trans _ _ _ h₁ h₂ := h₂.trans h₁

/-- The inodes of the other paths stay, and this one is not lost. -/
def KeepsInodes (path : String) (st st' : State) : Prop :=
  (∀ p, p ≠ path → st'.localInodeCache p = st.localInodeCache p) ∧
    ((st.localInodeCache path).isSome = true → (st'.localInodeCache path).isSome = true)

instance (path : String) : IsPreorder State (KeepsInodes path) where
  refl _ := ⟨fun _ _ => rfl, id⟩
  trans _ _ _ h₁ h₂ := ⟨fun p hp => (h₂.1 p hp).trans (h₁.1 p hp), h₂.2 ∘ h₁.2⟩

theorem SameInodes.keeps {st st' : State} (h : SameInodes st st') (path : String) :
    KeepsInodes path st st' := ⟨fun p _ => congrFun h p, fun hs => by rw [h]; exact hs⟩

theorem sameInodes_send (now : UInt64) (op : Op) : Within SameInodes (send now op) := by
  intro st
  obtain ⟨db, hdb⟩ := after_send now op st
  rw [hdb]
  exact rfl

theorem sameInodes_call {α : Type} {m : Call α} (h : Within SameInodes m) (fate : Fate) :
    Within SameInodes (fate.call m) := by
  cases fate with
  | answered => exact h
  | failed db => exact fun st => rfl

theorem sameInodes_getRemoteInode (path : String) : Within SameInodes (getRemoteInode path) := by
  intro st
  rw [getRemoteInode, after_get_bind, after_lift]
  exact rfl

theorem sameInodes_fsync (path : String) (sync : Sync) :
    Within SameInodes (SDK.fsync x path sync) :=
  within_fsync (fun _ _ _ _ => rfl) (fun _ _ => rfl) sync

theorem keepsInodes_setInode (st : State) (path : String) (inode : Inode) :
    KeepsInodes path st (st.setInode path (some inode)) :=
  ⟨fun _ hp => Function.update_of_ne hp .., fun _ => by
    rw [State.localInodeCache_setInode]
    rfl⟩

theorem keepsInodes_updateInode (path : String) (fate : Fate) :
    Within (KeepsInodes path) (Locked.updateInode path fate) := by
  intro st
  rw [Locked.updateInode, after_get_bind, after_modify_bind]
  generalize (st.localInodeCache path).getD noInode = old
  refine trans_of (KeepsInodes path) (keepsInodes_setInode st path old) (Within.bind
    (fun st => (sameInodes_call (sameInodes_getRemoteInode path) fate st).keeps path)
    (fun remote st => ?_) _)
  have hkeeps := keepsInodes_setInode (st.removeOutdated path old.sub remote.sub) path remote
  unfold KeepsInodes at hkeeps
  rw [(st.removeOutdated_records path old.sub remote.sub).2] at hkeeps
  exact hkeeps

/-- A call of the SDK changes the inodes by `R` at most, unless it waits. -/
def Inodes {α : Type} (R : State → State → Prop) (m : LockedCall α) : Prop :=
  WithinFst (· = .running) R m

theorem Inodes.onFst {α : Type} {R : State → State → Prop} {m : Call α} (h : Within R m) :
    Inodes R (onFst m) := (erases_onFst m).within h

theorem Inodes.silent {R : State → State → Prop} [IsPreorder State R] {m : LockedCall Unit}
    (h : Locked.ErasesTo m (pure ())) : Inodes R m := h.within (Within.pure ())

section Opening

variable {path : String}

theorem SameInodes.within {α : Type} {m : Call α} (h : Within SameInodes m) :
    Within (KeepsInodes path) m := fun st => (h st).keeps path

theorem sameInodes_inFolder (what : String) (f : Folder → Folder) :
    Within SameInodes (inFolder path what f) := fun st => (sameRecords_inFolder path what f st).2

theorem inodes_lockFile (write : Bool) (now : UInt64) (fate : Fate) :
    Inodes (KeepsInodes path) (Locked.lockFile path write now fate) := by
  refine WithinFst.bind (Inodes.onFst fun st => ⟨fun _ _ => rfl, id⟩) fun _ => ?_
  cases write with
  | false => exact Inodes.silent (Locked.erases_readLock _)
  | true =>
    exact (Inodes.silent (Locked.erases_writeLock _)).bind fun _ =>
      (Inodes.onFst
        (SameInodes.within (sameInodes_call (sameInodes_send now _) fate))).bind fun _ =>
        Inodes.onFst (SameInodes.within (sameInodes_inFolder _ _))

theorem inodes_truncateFile (size : UInt64) (fate : Fate) :
    Inodes (KeepsInodes path) (Locked.truncateFile path size fate) := by
  have hsend : ∀ op, Inodes (KeepsInodes path)
      (onFst (fate.call (send 0 op)) >>= fun _ => Locked.unlock (.file path)) := fun op =>
    (Inodes.onFst (SameInodes.within (sameInodes_call (sameInodes_send 0 op) fate))).bind fun _ =>
      Inodes.silent (Locked.erases_unlock _)
  refine (Inodes.onFst (within_getInode path)).bind fun inode => ?_
  split
  · exact Inodes.silent (erases_pure ())
  · refine (Inodes.onFst (Within.lift _)).bind fun n => ?_
    split
    · exact (Erases.within (erases_throw _) (Within.throw _)).bind fun _ => hsend _
    · exact hsend _

theorem inodes_openFile (flags : Flags) (clock : ℕ → UInt64) (fates : Fates) :
    Inodes (KeepsInodes path) (Locked.openFile x path flags clock fates) := by
  have hcreate : Within SameInodes (createFile x path clock) := by
    intro st
    have hframe : Frame (fun _ _ => False) st (after (createFile x path clock) st) :=
      within_createFile path clock st
    exact hframe.cache
  rw [Locked.openFile_eq]
  refine WithinFst.bind ?_ fun _ => (inodes_lockFile _ _ _).bind fun _ =>
    (Inodes.onFst (keepsInodes_updateInode path fates.ls)).bind fun _ => ?_
  · split
    · exact Inodes.onFst (SameInodes.within (sameInodes_call hcreate fates.create))
    · exact Inodes.silent (erases_pure ())
  · split
    · exact inodes_truncateFile 0 fates.putOk
    · exact Inodes.silent (erases_pure ())

theorem inodes_truncate (clock : ℕ → UInt64) (fates : Fates) :
    Inodes (KeepsInodes path) (Locked.truncate x path clock fates) :=
  (inodes_openFile _ _ _).bind fun _ => Inodes.silent (Locked.erases_unlock _)

/-- A `close` that returns has erased the inode. -/
theorem ensures_closeFile (sync : Sync) (v : State × PathLocks LockKey) :
    Ensures (Locked.closeFile x path sync) v
      (fun _ v' => v'.1.localInodeCache = Function.update v.1.localInodeCache path none)
      fun e v' => e = .running ∨ SameInodes v.1 v'.1 := by
  have hfsync := (Locked.erases_fsync x path sync).within (sameInodes_fsync path sync) v
  refine Ensures.bind (hfsync.mono (fun _ v₁ h₁ => ?_) fun e v' he => he)
  refine ensures_of_ok rfl ?_
  show Function.update v₁.1.localInodeCache path none = _
  rw [h₁]

end Opening

/-! ## The calls of the callbacks -/

/-- The call of the SDK that a callback makes. -/
def Callback.call (x : External) (path : String) : Callback → Attempt → LockedCall Unit
  | .getattr | .readdir => fun a => sdkLs path a >>= fun _ => pure ()
  | .mkdir => sdkSend (.mkdir path)
  | .rm => sdkSend (.rm path)
  | .truncate => fun a => Locked.truncate x path a.clock a.fates
  | .openFile flags => fun a => Locked.openFile x path flags a.clock a.fates
  | .read size offset => fun a => Locked.readData x a.net path offset size >>= fun _ => pure ()
  | .write data offset => fun a => Locked.writeData x a.net path offset data
  | .close => fun a => Locked.closeFile x path a.sync
  | .fsync => fun a => Locked.fsync x path a.sync
  | .create => fun a => Locked.openFile x path ⟨true, true, false⟩ a.clock a.fates

/-- The callbacks that open a file. -/
def Callback.opens : Callback → Bool
  | .truncate | .openFile _ | .create => true
  | _ => false

/-- What a call of the SDK does to the inodes. -/
structure InodeFrame (c : Callback) (path : String) (returned : Bool)
    (old new : String → Option Inode) : Prop where
  other : ∀ p, p ≠ path → new p = old p
  kept : c.opens = false → (c = .close → returned = false) → new path = old path
  closed : c = .close → returned = true → new path = none
  opened : c.opens = true → (old path).isSome = true → (new path).isSome = true

theorem InodeFrame.of_same {c : Callback} {path : String} {returned : Bool} {st st' : State}
    (h : SameInodes st st') (hc : c = .close → returned = false) :
    InodeFrame c path returned st.localInodeCache st'.localInodeCache where
  other p _ := congrFun h p
  kept _ _ := congrFun h path
  closed hclose hreturned := by
    rw [hc hclose] at hreturned
    cases hreturned
  opened _ hs := by
    rw [h]
    exact hs

theorem InodeFrame.of_keeps {c : Callback} {path : String} {returned : Bool} {st st' : State}
    (h : KeepsInodes path st st') (hc : c.opens = true) :
    InodeFrame c path returned st.localInodeCache st'.localInodeCache where
  other := h.1
  kept hopens := by
    rw [hc] at hopens
    cases hopens
  closed hclose := by
    rw [hclose] at hc
    cases hc
  opened _ := h.2

/-- Each call of the SDK, unless it waits. -/
theorem inodeFrame_call (c : Callback) (path : String) (a : Attempt)
    (v : State × PathLocks LockKey) :
    Ensures (c.call x path a) v
      (fun _ v' => InodeFrame c path true v.1.localInodeCache v'.1.localInodeCache)
      fun e v' => e = .running ∨
        InodeFrame c path false v.1.localInodeCache v'.1.localInodeCache := by
  have hsame : ∀ {m : LockedCall Unit}, c ≠ .close → Inodes SameInodes m → Ensures m v
      (fun _ v' => InodeFrame c path true v.1.localInodeCache v'.1.localInodeCache)
      fun e v' => e = .running ∨
        InodeFrame c path false v.1.localInodeCache v'.1.localInodeCache := fun hc h =>
    (h v).mono (fun _ _ hv => .of_same hv fun hclose => absurd hclose hc)
      fun _ _ he => he.imp_right fun hv => .of_same hv fun _ => rfl
  have hkeeps : ∀ {m : LockedCall Unit}, c.opens = true → Inodes (KeepsInodes path) m → Ensures m v
      (fun _ v' => InodeFrame c path true v.1.localInodeCache v'.1.localInodeCache)
      fun e v' => e = .running ∨
        InodeFrame c path false v.1.localInodeCache v'.1.localInodeCache := fun hc h =>
    (h v).mono (fun _ _ hv => .of_keeps hv hc) fun _ _ he => he.imp_right fun hv => .of_keeps hv hc
  have hls : Inodes SameInodes (sdkLs path a >>= fun _ => pure ()) :=
    (Inodes.onFst (sameInodes_call (sameInodes_getRemoteInode path) a.fate)).bind fun _ =>
      Inodes.silent (erases_pure ())
  have hsend : ∀ op, Inodes SameInodes (sdkSend op a) := fun op =>
    Inodes.onFst (sameInodes_call (sameInodes_send _ op) a.fate)
  cases c with
  | getattr => exact hsame Callback.noConfusion hls
  | readdir => exact hsame Callback.noConfusion hls
  | mkdir => exact hsame Callback.noConfusion (hsend _)
  | rm => exact hsame Callback.noConfusion (hsend _)
  | truncate => exact hkeeps rfl (inodes_truncate _ _)
  | openFile flags => exact hkeeps rfl (inodes_openFile _ _ _)
  | read size offset =>
    exact hsame Callback.noConfusion (((Locked.erases_readData x a.net path offset size).within
      fun st => (within_readData a.net path offset size st).2).bind fun _ =>
        Inodes.silent (erases_pure ()))
  | write data offset =>
    exact hsame Callback.noConfusion ((Locked.erases_writeData x a.net path offset data).within
      fun st => (within_writeData a.net path offset data st).2)
  | close =>
    refine (ensures_closeFile a.sync v).mono (fun _ v' hv => ?_) fun _ _ he =>
      he.imp_right fun hv => .of_same hv fun _ => rfl
    rw [hv]
    exact ⟨fun p hp => Function.update_of_ne hp ..,
      fun _ hreturned => absurd (hreturned rfl) (by simp),
      fun _ _ => Function.update_self .., fun hopens => by cases hopens⟩
  | fsync =>
    exact hsame Callback.noConfusion ((Locked.erases_fsync x path a.sync).within
      (sameInodes_fsync path a.sync))
  | create => exact hkeeps rfl (inodes_openFile ⟨true, true, false⟩ a.clock a.fates)

/-! ## What a callback does -/

section Callbacks

variable {α β : Type} {s s' : Mount} {t : Attempts}

/-- The call ends without an exception and without an answer. -/
def Halts (m : MountCall α) (s : Mount) : Prop :=
  ∃ e s', m.run s = .error e s' ∧ ∀ ex, e ≠ .thrown ex

theorem Halts.bind {m : MountCall α} (h : Halts m s) (f : α → MountCall β) :
    Halts (m >>= f) s := by
  obtain ⟨e, s', hrun, he⟩ := h
  exact ⟨e, s', run_bind_of_error hrun f, he⟩

theorem Halts.recover {m : MountCall α} (h : Halts m s) {code : Abrupt → Option α}
    (hundefined : code .undefined = none) (hrunning : code .running = none) :
    Halts (recover code m) s := by
  obtain ⟨e, s', hrun, he⟩ := h
  refine ⟨e, s', ?_, he⟩
  rw [run_recover_of_error hrun]
  cases e with
  | thrown ex => exact absurd rfl (he ex)
  | undefined => rw [hundefined]
  | running => rw [hrunning]

theorem not_halts_of_ok {m : MountCall α} {a : α} (h : m.run s = .ok a s') : ¬ Halts m s := by
  rintro ⟨e, s₁, hrun, -⟩
  rw [h] at hrun
  cases hrun

theorem run_onSdk_of_ok {sdk} {m : LockedCall α} {a : α} {v} (hsdk : s.sdk = some sdk)
    (h : m.run (s.view sdk) = .ok a v) : (onSdk m).run s = .ok a (ofView v) := by
  show onSdk m s = _
  simp only [onSdk, hsdk, h]

theorem run_onSdk_of_error {sdk} {m : LockedCall α} {e : Abrupt} {v} (hsdk : s.sdk = some sdk)
    (h : m.run (s.view sdk) = .error e v) : (onSdk m).run s = .error e (ofView v) := by
  show onSdk m s = _
  simp only [onSdk, hsdk, h]

theorem halts_or_after {m m' : MountCall α} {P : Mount → Prop} (h : m.run s = m'.run s')
    (hm : Halts m' s' ∨ P (after m' s')) : Halts m s ∨ P (after m s) := by
  unfold Halts after at *
  rw [h]
  exact hm

/-- What the call of the second attempt works on. -/
def renewed (v : State × PathLocks LockKey) : State × PathLocks LockKey :=
  (⟨v.1.db, fun _ => none, v.1.tmp⟩, .empty)

/-- How a method of `FUSE` ends that makes this call. -/
inductive Ends (m : Attempt → LockedCall α) (t : Attempts) (s : Mount) : Mount → Prop
  | returned {sdk} {a : α} {v} (hsdk : s.sdk = some sdk)
      (hrun : (m t.first).run (s.view sdk) = .ok a v) : Ends m t s (ofView v)
  | refused {sdk e v} (hsdk : s.sdk = some sdk)
      (hrun : (m t.first).run (s.view sdk) = .error (.thrown (.message e)) v) :
      Ends m t s (ofView v)
  | lost {sdk what v e} (hsdk : s.sdk = some sdk)
      (hrun : (m t.first).run (s.view sdk) = .error (.thrown (.runtime what)) v)
      (hinit : t.init = .error e) : Ends m t s { ofView v with sdk := none }
  | again {sdk what v a v'} (hsdk : s.sdk = some sdk)
      (hrun : (m t.first).run (s.view sdk) = .error (.thrown (.runtime what)) v)
      (hinit : t.init = .ok ()) (hagain : (m t.second).run (renewed v) = .ok a v') :
      Ends m t s (ofView v')
  | failed {sdk what v e v'} (hsdk : s.sdk = some sdk)
      (hrun : (m t.first).run (s.view sdk) = .error (.thrown (.runtime what)) v)
      (hinit : t.init = .ok ())
      (hagain : (m t.second).run (renewed v) = .error (.thrown e) v') : Ends m t s (ofView v')

/-- The second call, behind a new SDK. -/
theorem ends_retry {m : Attempt → LockedCall α} {sdk what v} (hsdk : s.sdk = some sdk)
    (hrun : (m t.first).run (s.view sdk) = .error (.thrown (.runtime what)) v) :
    Halts (retry m t) (ofView v) ∨ Ends m t s (after (retry m t) (ofView v)) := by
  cases hinit : t.init with
  | error e =>
    have hlost : (retry m t).run (ofView v) =
        .error (.thrown e) { ofView v with sdk := none } := by
      rw [retry, hinit]
      rfl
    rw [after_of_error hlost]
    exact Or.inr (.lost hsdk hrun hinit)
  | ok u =>
    have hnew : (retry m t).run (ofView v) = (onSdk (m t.second)).run (ofView v).renew := by
      rw [retry, hinit]
      rfl
    cases hagain : (m t.second).run (renewed v) with
    | ok a v' =>
      rw [after_of_ok (hnew.trans (run_onSdk_of_ok rfl hagain))]
      exact Or.inr (.again hsdk hrun hinit hagain)
    | error e v' =>
      have herror := hnew.trans (run_onSdk_of_error rfl hagain)
      cases e with
      | thrown e =>
        rw [after_of_error herror]
        exact Or.inr (.failed hsdk hrun hinit hagain)
      | undefined => exact Or.inl ⟨_, _, herror, fun _ => Abrupt.noConfusion⟩
      | running => exact Or.inl ⟨_, _, herror, fun _ => Abrupt.noConfusion⟩

/-- Both kinds of methods, which differ in what they do with a `MessageException`. -/
theorem ends_orElse {m : Attempt → LockedCall α} {f : MountCall α}
    (hok : ∀ a s', (onSdk (m t.first)).run s = .ok a s' → f.run s = .ok a s')
    (hmessage : ∀ e s', (onSdk (m t.first)).run s = .error (.thrown (.message e)) s' →
      (∃ a, f.run s = .ok a s') ∨ f.run s = .error (.thrown (.message e)) s')
    (herror : ∀ e s', (∀ e', e ≠ .thrown (.message e')) →
      (onSdk (m t.first)).run s = .error e s' → f.run s = .error e s') :
    Halts (orElse isRuntime f (retry m t)) s ∨
      Ends m t s (after (orElse isRuntime f (retry m t)) s) := by
  have hhalt : ∀ e s', (∀ ex, e ≠ .thrown ex) → isRuntime e = false →
      (onSdk (m t.first)).run s = .error e s' → Halts (orElse isRuntime f (retry m t)) s := by
    intro e s' he hruntime hrun
    have hf := herror e s' (fun e' => he _) hrun
    refine ⟨e, s', ?_, he⟩
    rw [run_orElse_of_error hf, hruntime]
    rfl
  cases hsdk : s.sdk with
  | none =>
    have hnull : (onSdk (m t.first)).run s = .error .undefined s := by
      show onSdk (m t.first) s = _
      rw [onSdk, hsdk]
    exact Or.inl (hhalt _ _ (fun _ => Abrupt.noConfusion) rfl hnull)
  | some sdk =>
    cases hrun : (m t.first).run (s.view sdk) with
    | ok a v =>
      have hfirst := hok a _ (run_onSdk_of_ok hsdk hrun)
      rw [after_of_ok (run_orElse_of_ok hfirst)]
      exact Or.inr (.returned hsdk hrun)
    | error e v =>
      have hfirst := run_onSdk_of_error hsdk hrun
      cases e with
      | undefined => exact Or.inl (hhalt _ _ (fun _ => Abrupt.noConfusion) rfl hfirst)
      | running => exact Or.inl (hhalt _ _ (fun _ => Abrupt.noConfusion) rfl hfirst)
      | thrown e =>
        cases e with
        | runtime what =>
          have hf := herror _ _ (fun e' h => by cases h) hfirst
          exact halts_or_after (run_orElse_of_error hf) (ends_retry hsdk hrun)
        | message e =>
          right
          rcases hmessage e _ hfirst with ⟨a, hf⟩ | hf
          · rw [after_of_ok (run_orElse_of_ok hf)]
            exact .refused hsdk hrun
          · rw [after_of_error (run_orElse_of_error hf)]
            exact .refused hsdk hrun

theorem ends_passing (m : Attempt → LockedCall α) (t : Attempts) (s : Mount) :
    Halts (passing m t) s ∨ Ends m t s (after (passing m t) s) :=
  ends_orElse (fun _ _ h => h) (fun _ _ h => Or.inr h) fun _ _ _ h => h

theorem ends_dropping (m : Attempt → LockedCall Unit) (t : Attempts) (s : Mount) :
    Halts (dropping m t) s ∨ Ends m t s (after (dropping m t) s) := by
  refine ends_orElse (fun a s' h => run_recover_of_ok h) (fun e s' h => Or.inl ⟨(), ?_⟩)
    fun e s' he h => ?_
  · rw [run_recover_of_error h]
    rfl
  · rw [run_recover_of_error h]
    cases e with
    | undefined => rfl
    | running => rfl
    | thrown e =>
      cases e with
      | message e => exact absurd rfl (he e)
      | runtime what => rfl

theorem Ends.discard {m : Attempt → LockedCall α} (h : Ends m t s s') :
    Ends (fun a => m a >>= fun _ => pure ()) t s s' := by
  cases h with
  | returned hsdk hrun => exact .returned hsdk ((run_bind_of_ok hrun _).trans rfl)
  | refused hsdk hrun => exact .refused hsdk (run_bind_of_error hrun _)
  | lost hsdk hrun hinit => exact .lost hsdk (run_bind_of_error hrun _) hinit
  | again hsdk hrun hinit hagain =>
    exact .again hsdk (run_bind_of_error hrun _) hinit ((run_bind_of_ok hagain _).trans rfl)
  | failed hsdk hrun hinit hagain =>
    exact .failed hsdk (run_bind_of_error hrun _) hinit (run_bind_of_error hagain _)

/-- A callback that returns a code has done what its method does. -/
theorem ends_of_ok {m : Attempt → LockedCall α} {method : MountCall β} {n : MountCall Int}
    {code : Int} (hmethod : Halts method s ∨ Ends m t s (after method s))
    (hhalts : Halts method s → Halts n s) (hafter : after n s = after method s)
    (h : n.run s = .ok code s') : Ends m t s s' := by
  rcases hmethod with hhalt | hends
  · exact absurd (hhalts hhalt) (not_halts_of_ok h)
  · rw [← after_of_ok h, hafter]
    exact hends

end Callbacks

theorem after_readdir (inode : Inode) (s : Mount) :
    after (do
      if inode.isDirectory = false then throw (.thrown (.runtime "not directory error"))
      let names ← lift (inode.sub.mapM fillName)
      return ("." :: ".." :: names, 0) : MountCall (List String × Int)) s = s := by
  have hnames : after (lift (inode.sub.mapM fillName) >>= fun names =>
      pure ("." :: ".." :: names, 0) : MountCall (List String × Int)) s = s := by
    rw [after_bind_of_silent fun _ _ => rfl, after_lift]
  cases hdir : inode.isDirectory with
  | false => rfl
  | true => exact hnames

/-- What a callback can do. -/
theorem ends_of_step {s s' : Mount} {c : Callback} {path : String} {t : Attempts}
    (h : step x s (.callback c path t) = some s') : Ends (c.call x path) t s s' := by
  obtain ⟨code, hrun⟩ : ∃ code, (c.run x path t).run s = .ok code s' := by
    simp only [step] at h
    split at h
    · rename_i code s₁ hrun
      exact ⟨code, Option.some.inj h ▸ hrun⟩
    · cases h
  have hcode : ∀ {m : Attempt → LockedCall Unit} {method : MountCall Unit} {n : MountCall Int}
      {answer : Abrupt → Option Int} {value : Int},
      Halts method s ∨ Ends m t s (after method s) →
      answer .undefined = none → answer .running = none →
      n = recover answer (method >>= fun _ => pure value) → n.run s = .ok code s' →
      Ends m t s s' := by
    intro m method n answer value hmethod hundefined hrunning hn hrun
    subst hn
    refine ends_of_ok hmethod (fun hs => (hs.bind _).recover hundefined hrunning) ?_ hrun
    rw [after_recover, after_bind_of_silent fun _ _ => rfl]
  cases c with
  | getattr =>
    refine (ends_of_ok (ends_passing (sdkLs path) t s)
      (fun hs => ((hs.bind _).recover rfl rfl).bind _) ?_ hrun).discard
    show after (spkdfsGetattr path t >>= fun answer => pure answer.2) s = _
    rw [after_bind_of_silent fun _ _ => rfl, spkdfsGetattr, after_recover,
      after_bind_of_silent fun _ _ => rfl]
    rfl
  | readdir =>
    refine (ends_of_ok (ends_passing (sdkLs path) t s) (fun hs => (hs.bind _).bind _) ?_
      hrun).discard
    show after (spkdfsReaddir path t >>= fun answer => pure answer.2) s = _
    rw [after_bind_of_silent fun _ _ => rfl, spkdfsReaddir, after_bind_of_silent after_readdir]
    rfl
  | mkdir => exact hcode (ends_dropping _ t s) rfl rfl rfl hrun
  | rm => exact hcode (ends_dropping _ t s) rfl rfl rfl hrun
  | truncate => exact hcode (ends_dropping _ t s) rfl rfl rfl hrun
  | openFile flags =>
    refine ends_of_ok (ends_dropping _ t s) (fun hs => hs.bind _) ?_ hrun
    exact after_bind_of_silent (fun _ _ => rfl) _ s
  | read size offset =>
    refine (ends_of_ok (ends_passing (fun a => Locked.readData x a.net path offset size) t s)
      (fun hs => ((hs.bind _).recover rfl rfl).bind _) ?_ hrun).discard
    show after (spkdfsRead x path size offset t >>= fun answer => pure answer.2) s = _
    rw [after_bind_of_silent fun _ _ => rfl, spkdfsRead, after_recover,
      after_bind_of_silent fun bytes s => ?_]
    · rfl
    · rw [after_bind_of_silent fun _ _ => rfl, after_lift]
  | write data offset => exact hcode (ends_passing _ t s) rfl rfl rfl hrun
  | close => exact hcode (ends_passing _ t s) rfl rfl rfl hrun
  | fsync => exact hcode (ends_passing _ t s) rfl rfl rfl hrun
  | create => exact hcode (ends_passing _ t s) rfl rfl rfl hrun

/-! ## Which files are open -/

/-- The SDK has the inode of the path. -/
def Open (s : Mount) (path : String) : Prop :=
  ∃ sdk, s.sdk = some sdk ∧ (sdk.1 path).isSome = true

/-- The callback is one that opens the path. -/
def MountEvent.Opens (path : String) : MountEvent → Prop
  | .callback c p _ => c.opens = true ∧ p = path
  | .other _ => False

/-- The SDK is not replaced, and it does not close the path. -/
def Keeping (x : External) (path : String) (s : Mount) : MountEvent → Prop
  | .callback c p t => ∀ sdk, s.sdk = some sdk →
      (∀ what v, (c.call x p t.first).run (s.view sdk) ≠ .error (.thrown (.runtime what)) v) ∧
        (c = .close → p = path → ∀ v, (c.call x p t.first).run (s.view sdk) ≠ .ok () v)
  | .other _ => True

/-- The mount behind the constructor of `FUSE`. -/
def mounted (db : Store) (tmp : String → Option Folder) : Mount :=
  ⟨db, tmp, some (fun _ => none, .empty)⟩

section Runs

variable {s s' : Mount} {path : String}

theorem not_open_mounted (db : Store) (tmp : String → Option Folder) :
    ¬ (mounted db tmp).Open path := by
  rintro ⟨sdk, hsdk, hopen⟩
  cases hsdk
  cases hopen

theorem open_ofView {v : State × PathLocks LockKey} :
    (ofView v).Open path ↔ (v.1.localInodeCache path).isSome = true := by
  constructor
  · rintro ⟨sdk, hsdk, hopen⟩
    cases hsdk
    exact hopen
  · intro hopen
    exact ⟨_, rfl, hopen⟩

section Frame

variable {c : Callback} {p : String} {returned : Bool} {old new : String → Option Inode}

/-- A call that leaves a path open has opened it, or has not closed it. -/
theorem InodeFrame.open_of_new (h : InodeFrame c p returned old new)
    (hopen : (new path).isSome = true) :
    (c.opens = true ∧ p = path) ∨
      (old path).isSome = true ∧ (c = .close → p = path → returned = false) := by
  by_cases hp : path = p
  · subst hp
    cases hopens : c.opens with
    | true => exact Or.inl ⟨rfl, rfl⟩
    | false =>
      right
      have hclose : c = .close → returned = false := by
        intro hc
        cases hreturned : returned with
        | false => rfl
        | true =>
          rw [h.closed hc hreturned] at hopen
          cases hopen
      rw [h.kept hopens hclose] at hopen
      exact ⟨hopen, fun hc _ => hclose hc⟩
  · rw [h.other path hp] at hopen
    exact Or.inr ⟨hopen, fun _ heq => absurd heq.symm hp⟩

theorem InodeFrame.open_of_old (h : InodeFrame c p returned old new)
    (hopen : (old path).isSome = true) (hclose : c = .close → p = path → returned = false) :
    (new path).isSome = true := by
  by_cases hp : path = p
  · subst hp
    cases hopens : c.opens with
    | true => exact h.opened hopens hopen
    | false =>
      rw [h.kept hopens fun hc => hclose hc rfl]
      exact hopen
  · rw [h.other path hp]
    exact hopen

/-- A call behind a new SDK can open its own path only. -/
theorem InodeFrame.opens_of_renewed (h : InodeFrame c p returned (fun _ => none) new)
    (hopen : (new path).isSome = true) : c.opens = true ∧ p = path :=
  (h.open_of_new hopen).resolve_right fun hold => by cases hold.1

end Frame

theorem open_iff_of_sdk {sdk : (String → Option Inode) × PathLocks LockKey}
    (hsdk : s.sdk = some sdk) : s.Open path ↔ (sdk.1 path).isSome = true := by
  constructor
  · rintro ⟨sdk', hsdk', hopen⟩
    rw [hsdk] at hsdk'
    cases hsdk'
    exact hopen
  · intro hopen
    exact ⟨sdk, hsdk, hopen⟩

theorem keeping_of_run {c : Callback} {p : String} {t : Attempts} {sdk}
    (hsdk : s.sdk = some sdk)
    (hruntime : ∀ what v, (c.call x p t.first).run (s.view sdk) ≠
      .error (.thrown (.runtime what)) v)
    (hclose : c = .close → p = path → ∀ v, (c.call x p t.first).run (s.view sdk) ≠ .ok () v) :
    Keeping x path s (.callback c p t) := by
  intro sdk' hsdk'
  rw [hsdk] at hsdk'
  cases hsdk'
  exact ⟨hruntime, hclose⟩

/-- A path that is open after a step was open before it and was kept, or was opened by it. -/
theorem open_of_step {ev : MountEvent} (h : step x s ev = some s') (hopen : s'.Open path) :
    (s.Open path ∧ Keeping x path s ev) ∨ ev.Opens path := by
  cases ev with
  | other db =>
    cases h
    exact Or.inl ⟨hopen, trivial⟩
  | callback c p t =>
    have hframe := fun a v => inodeFrame_call (x := x) c p a v
    cases ends_of_step h with
    | returned hsdk hrun =>
      refine (((hframe t.first _).of_ok hrun).open_of_new (open_ofView.mp hopen)).symm.imp_left ?_
      rintro ⟨hold, hclose⟩
      refine ⟨(open_iff_of_sdk hsdk).mpr hold, keeping_of_run hsdk ?_ fun hc hp v => ?_⟩
      · intro what v hthrown
        rw [hrun] at hthrown
        cases hthrown
      · exact absurd (hclose hc hp) (by simp)
    | refused hsdk hrun =>
      rcases (hframe t.first _).of_error hrun with hwait | hf
      · cases hwait
      refine (hf.open_of_new (open_ofView.mp hopen)).symm.imp_left ?_
      rintro ⟨hold, -⟩
      refine ⟨(open_iff_of_sdk hsdk).mpr hold, keeping_of_run hsdk ?_ fun _ _ v hok => ?_⟩
      · intro what v hthrown
        rw [hrun] at hthrown
        cases hthrown
      · rw [hrun] at hok
        cases hok
    | lost hsdk hrun hinit =>
      obtain ⟨sdk, hsdk', -⟩ := hopen
      cases hsdk'
    | again hsdk hrun hinit hagain =>
      exact Or.inr (((hframe t.second _).of_ok hagain).opens_of_renewed (open_ofView.mp hopen))
    | failed hsdk hrun hinit hagain =>
      rcases (hframe t.second _).of_error hagain with hwait | hf
      · cases hwait
      · exact Or.inr (hf.opens_of_renewed (open_ofView.mp hopen))

/-- An open path stays open. -/
theorem open_of_keeping {ev : MountEvent} (h : step x s ev = some s') (hopen : s.Open path)
    (hkeep : Keeping x path s ev) : s'.Open path := by
  cases ev with
  | other db =>
    cases h
    exact hopen
  | callback c p t =>
    have hframe := fun a v => inodeFrame_call (x := x) c p a v
    cases ends_of_step h with
    | returned hsdk hrun =>
      have hf := (hframe t.first _).of_ok hrun
      exact open_ofView.mpr (hf.open_of_old ((open_iff_of_sdk hsdk).mp hopen)
        fun hc hp => absurd hrun ((hkeep _ hsdk).2 hc hp _))
    | refused hsdk hrun =>
      rcases (hframe t.first _).of_error hrun with hwait | hf
      · cases hwait
      · exact open_ofView.mpr (hf.open_of_old ((open_iff_of_sdk hsdk).mp hopen) fun _ _ => rfl)
    | lost hsdk hrun _ => exact absurd hrun ((hkeep _ hsdk).1 _ _)
    | again hsdk hrun _ _ => exact absurd hrun ((hkeep _ hsdk).1 _ _)
    | failed hsdk hrun _ _ => exact absurd hrun ((hkeep _ hsdk).1 _ _)

/-- In every run: a path is open if and only if a callback that opens it has left it open,
and since then no call of the SDK, on whatever path, has thrown anything but a
`MessageException`, and no `close` of the path has returned. -/
theorem open_iff_of_reachable {db : Store} {tmp : String → Option Folder}
    (h : Runs.Reachable (step x) (mounted db tmp) s) (path : String) :
    s.Open path ↔ ∃ s₁ ev s₂, Runs.Reachable (step x) (mounted db tmp) s₁ ∧
      step x s₁ ev = some s₂ ∧ ev.Opens path ∧ s₂.Open path ∧
      Runs.Reach (step x) (Keeping x path) s₂ s := by
  constructor
  · intro hopen
    induction h with
    | refl => exact absurd hopen (not_open_mounted db tmp)
    | @tail s s' ev hs _ hstep ih =>
      rcases open_of_step hstep hopen with ⟨hbefore, hkeep⟩ | hopens
      · obtain ⟨s₁, ev₁, s₂, hs₁, hstep₁, hopens, hopen₂, hrest⟩ := ih hbefore
        exact ⟨s₁, ev₁, s₂, hs₁, hstep₁, hopens, hopen₂, hrest.tail hkeep hstep⟩
      · exact ⟨s, ev, s', hs, hstep, hopens, hopen, .refl⟩
  · rintro ⟨_, _, s₂, _, _, _, hopen, hrest⟩
    exact hrest.invariant (I := fun s => s.Open path) hopen fun _ _ _ _ hopen hkeep hstep =>
      open_of_keeping hstep hopen hkeep

/-- A path that is not open, and that no callback has opened since, is not open. -/
theorem not_open_of_reach {s₁ : Mount}
    (h : Runs.Reach (step x) (fun _ ev => ¬ ev.Opens path) s₁ s) (hclosed : ¬ s₁.Open path) :
    ¬ s.Open path :=
  h.invariant (I := fun s => ¬ s.Open path) hclosed fun _ _ _ _ hclosed hok hstep hopen =>
    (open_of_step hstep hopen).elim (fun hkept => hclosed hkept.1) hok

theorem ofView_view {sdk} (hsdk : s.sdk = some sdk) : ofView (s.view sdk) = s := by
  obtain ⟨db, tmp, sdk'⟩ := s
  cases hsdk
  rfl

/-- A call that needs the inode of a path that is not open, with both SDKs. -/
theorem run_passing_of_absent {α : Type} {f : Attempt → Inode → LockedCall α} {t : Attempts}
    (hopen : ¬ s.Open path) (hsdk : s.sdk ≠ none) (hinit : t.init = .ok ()) :
    (passing (fun a => onFst (getInode path) >>= f a) t).run s =
      .error (.thrown (.runtime "cannot find inode in local_inode_cache")) s.renew := by
  have habsent : ∀ (a : Attempt) (v : State × PathLocks LockKey),
      v.1.localInodeCache path = none → (onFst (getInode path) >>= f a).run v =
        .error (.thrown (.runtime "cannot find inode in local_inode_cache")) v := fun a v hv =>
    run_bind_of_error (run_onFst_of_error (run_getInode_of_none hv)) _
  obtain ⟨sdk, hsome⟩ := Option.ne_none_iff_exists'.mp hsdk
  have hnone : sdk.1 path = none :=
    Option.not_isSome_iff_eq_none.mp fun h => hopen ((open_iff_of_sdk hsome).mpr h)
  have hfirst := run_onSdk_of_error hsome (habsent t.first (s.view sdk) hnone)
  have hretry : (retry (fun a => onFst (getInode path) >>= f a) t).run s =
      (onSdk (onFst (getInode path) >>= f t.second)).run s.renew := by
    rw [retry, hinit]
    rfl
  have hsecond := run_onSdk_of_error (s := s.renew) rfl
    (habsent t.second (renewed (s.view sdk)) rfl)
  rw [ofView_view hsome] at hfirst
  exact (run_orElse_of_error hfirst).trans (hretry.trans hsecond)

theorem not_open_renew : ¬ s.renew.Open path := not_open_mounted s.db s.tmp

/-- In every run: a path that is not open, because of a failed call for another path or
because it was never opened, is refused until a callback opens it again, and each `read` and
each `write` of it closes all files, if there is an `SDK` and a new one can be made. -/
theorem read_closes_all {s₁ : Mount} {t : Attempts}
    (h : Runs.Reach (step x) (fun _ ev => ¬ ev.Opens path) s₁ s) (hclosed : ¬ s₁.Open path)
    (hsdk : s.sdk ≠ none) (hinit : t.init = .ok ()) :
    ∃ s', (∀ p, ¬ s'.Open p) ∧
      (∀ size offset, (spkdfsRead x path size offset t).run s = .ok ([], -enoent) s') ∧
      ∀ data offset, (spkdfsWrite x path data offset t).run s = .ok (-eio) s' := by
  have hopen := not_open_of_reach h hclosed
  refine ⟨s.renew, fun _ => not_open_renew, fun size offset => ?_, fun data offset => ?_⟩
  · have hread : (read x path offset size t).run s = _ := run_passing_of_absent hopen hsdk hinit
    exact run_recover_of_error (run_bind_of_error hread _)
  · have hwrite : (write x path offset data t).run s = _ := run_passing_of_absent hopen hsdk hinit
    exact run_recover_of_error (run_bind_of_error hwrite _)

end Runs

/-! ## A file and a path that is not open -/

/-- Every request is answered, and every fetch fails. -/
def answered : Attempt :=
  ⟨.answered, fun _ => 200, ⟨.answered, .answered, .answered, .answered⟩, fun _ _ => none,
    ⟨[], true⟩⟩

/-- A file is opened. -/
def openEvent : MountEvent :=
  .callback (.openFile ⟨false, false, false⟩) "/f" ⟨answered, .ok (), answered⟩

theorem exists_openedMount :
    ∃ s, Runs.Reach (step byteExternal) (fun _ ev => ¬ ev.Opens "/g")
        (mounted (byteStore [7]) fun _ => none) s ∧ s.Open "/f" := by
  have hstep : (step byteExternal (mounted (byteStore [7]) fun _ => none) openEvent).any
      (fun s => (s.sdk.bind fun sdk => sdk.1 "/f").isSome) = true := by decide +kernel
  have hopens : ¬ openEvent.Opens "/g" := by
    rintro ⟨-, hpath⟩
    exact absurd hpath (by decide)
  obtain ⟨s, hs, htest⟩ := (Option.any_eq_true _ _).mp hstep
  refine ⟨s, Runs.Reach.refl.tail hopens hs, ?_⟩
  cases hsdk : s.sdk with
  | none =>
    rw [hsdk] at htest
    cases htest
  | some sdk =>
    rw [hsdk] at htest
    exact ⟨sdk, hsdk, htest⟩

theorem open_iff_of_openedMount :
    ∃ s, s.Open "/f" ∧ (s.Open "/f" ↔ ∃ s₁ ev s₂,
      Runs.Reachable (step byteExternal) (mounted (byteStore [7]) fun _ => none) s₁ ∧
        step byteExternal s₁ ev = some s₂ ∧ ev.Opens "/f" ∧ s₂.Open "/f" ∧
        Runs.Reach (step byteExternal) (Keeping byteExternal "/f") s₂ s) := by
  obtain ⟨s, hs, hopen⟩ := exists_openedMount
  exact ⟨s, hopen, open_iff_of_reachable (hs.mono fun _ _ _ => trivial) "/f"⟩

/-- A read of another path closes the file. -/
theorem read_closes_openedMount :
    ∃ s s', s.Open "/f" ∧ ¬ s'.Open "/f" ∧
      (spkdfsRead byteExternal "/g" 1 0 ⟨answered, .ok (), answered⟩).run s =
        .ok ([], -enoent) s' := by
  obtain ⟨s, hs, hopen⟩ := exists_openedMount
  have hsdk : s.sdk ≠ none := by
    obtain ⟨sdk, hsome, -⟩ := hopen
    rw [hsome]
    exact Option.some_ne_none sdk
  obtain ⟨s', hclosed, hread, -⟩ := read_closes_all hs (not_open_mounted _ _) hsdk
    (show (⟨answered, .ok (), answered⟩ : Attempts).init = .ok () from rfl)
  exact ⟨s, s', hopen, hclosed "/f", hread 1 0⟩

end Mount

end Spkdfs
