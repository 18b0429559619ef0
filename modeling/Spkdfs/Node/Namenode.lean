import Spkdfs.Node.RaftNN

/-!
# The namenode requests

The handlers of `node/namenode.cpp`, from the request to the entry that they
propose.  A handler reads the local store and the clock; it either throws, and
then nothing is proposed, or it proposes one entry.  An `update_lock` request
does this once for each of its paths, so one `Op.updateLock` is one round of
its loop.

The handlers run on the leader: a request to another replica is refused by
`check_leader` before anything is read.

`prepare_mkdir_eq_ok` and its four siblings say when a handler proposes, and
what.  `prepare_spec` is the part of it that does not depend on the operation:
the entry has a known type, and its path is the canonical path of the request.

`serve` is one request on its own: prepared, and applied at once.
-/

namespace Spkdfs

open RocksDB

/-- A mutating request of a client. -/
inductive Op
  | mkdir (path : String)
  | rm (path : String)
  | put (path storageType : String)
  | putOk (path : String) (filesize : UInt64) (sub : List String)
  | updateLock (path : String)
  deriving DecidableEq

namespace Namenode

/-- The check that every handler but `update_lock` starts with. -/
def requirePath (path : String) : Except Exception Unit :=
  if path = "" then .error (.runtime "parameter path required") else .ok ()

/-- `mkdir` makes its path absolute. -/
def absolutePath (path : String) : String :=
  if path.toList.head? = some '/' then path else "/" ++ path

/-- `NamenodeServiceImpl::ls`, which reads the root when no path is given. -/
def ls (db : Store) (path : String) : Except Exception Inode :=
  RocksDB.ls db (.new (.set (if path = "" then "/" else path)))

/-- `NamenodeServiceImpl::mkdir`. -/
def mkdir (db : Store) (path : String) : Except Exception Entry := do
  requirePath path
  let inode ← prepareMkdir db (.getDefaultDir (.set (absolutePath path)))
  return ⟨.opMkdir, inode⟩

/-- `NamenodeServiceImpl::rm`. -/
def rm (db : Store) (path : String) : Except Exception Entry := do
  requirePath path
  let inode ← prepareRm db (.new (.set path))
  return ⟨.opRm, inode⟩

/-- `NamenodeServiceImpl::put`. -/
def put (db : Store) (now : UInt64) (path storageType : String) : Except Exception Entry := do
  requirePath path
  let inode ← preparePut db now (.new (.set path))
  let storageType ← StorageType.fromString storageType
  return ⟨.opPut, { inode with storageType := some storageType }⟩

/-- `NamenodeServiceImpl::put_ok`. -/
def putOk (db : Store) (path : String) (filesize : UInt64) (sub : List String) :
    Except Exception Entry := do
  requirePath path
  let inode ← preparePutOk db (.new (.set path))
  return ⟨.opPutok, { inode with sub := sub, filesize := filesize }⟩

/-- One round of the loop of `NamenodeServiceImpl::update_lock`. -/
def updateLock (db : Store) (now : UInt64) (path : String) : Except Exception Entry := do
  let inode ← RocksDB.ls db (.new (.set path))
  return ⟨.opPut, inode.updateDdlLock now⟩

end Namenode

/-- The handler of a request, up to the entry that it proposes. -/
def prepare (db : Store) (now : UInt64) : Op → Except Exception Entry
  | .mkdir path => Namenode.mkdir db path
  | .rm path => Namenode.rm db path
  | .put path storageType => Namenode.put db now path storageType
  | .putOk path filesize sub => Namenode.putOk db path filesize sub
  | .updateLock path => Namenode.updateLock db now path

namespace Op

/-- The canonical path that the handler of the request works on. -/
def target : Op → FullPath
  | .mkdir path => .set (Namenode.absolutePath path)
  | .rm path | .put path _ | .putOk path _ _ | .updateLock path => .set path

/-- The path as the request spells it. -/
def path : Op → String
  | .mkdir path | .rm path | .put path _ | .putOk path _ _ | .updateLock path => path

/-- The request is a `put`. -/
def isPut : Op → Bool
  | .put _ _ => true
  | .mkdir _ | .rm _ | .putOk _ _ _ | .updateLock _ => false

/-- The request is an `rm`. -/
def isRm : Op → Bool
  | .rm _ => true
  | .mkdir _ | .put _ _ | .putOk _ _ _ | .updateLock _ => false

/-- The request is an `update_lock`. -/
def isUpdateLock : Op → Bool
  | .updateLock _ => true
  | .mkdir _ | .rm _ | .put _ _ | .putOk _ _ _ => false

/-- The type of the entry that the handler proposes. -/
def opType : Op → OpType
  | .mkdir _ => .opMkdir
  | .rm _ => .opRm
  | .put _ _ => .opPut
  | .putOk _ _ _ => .opPutok
  | .updateLock _ => .opPut

end Op

/-! ## What a handler proposes -/

theorem requirePath_eq_ok {path : String} : Namenode.requirePath path = .ok () ↔ path ≠ "" := by
  unfold Namenode.requirePath
  split <;> simp_all

/-- `mkdir` checks that the parent exists, and that the path does not. -/
theorem prepare_mkdir_eq_ok {db : Store} {now : UInt64} {path : String} {e : Entry} :
    prepare db now (.mkdir path) = .ok e ↔
      path ≠ "" ∧ pathExists db (Op.mkdir path).target.parentPath = true ∧
        pathExists db (Op.mkdir path).target = false ∧
        e = ⟨.opMkdir, .getDefaultDir (Op.mkdir path).target⟩ := by
  rw [prepare, Namenode.mkdir, check_bind_eq_ok, requirePath_eq_ok, bind_eq_ok]
  constructor
  · rintro ⟨hpath, inode, hprep, he⟩
    rw [prepareMkdir, check_bind_eq_ok, tryToAdd_eq_ok] at hprep
    obtain ⟨⟨hparent, hself⟩, hinode⟩ := hprep
    obtain rfl := Except.ok.inj hinode
    obtain rfl := Except.ok.inj he
    exact ⟨hpath, hparent, hself, rfl⟩
  · rintro ⟨hpath, hparent, hself, rfl⟩
    refine ⟨hpath, _, ?_, rfl⟩
    rw [prepareMkdir, check_bind_eq_ok, tryToAdd_eq_ok]
    exact ⟨⟨hparent, hself⟩, rfl⟩

/-- An admitted `mkdir` is not about the root, and its path is not its own
parent. -/
theorem target_of_prepare_mkdir {db : Store} {now : UInt64} {path : String} {e : Entry}
    (h : prepare db now (.mkdir path) = .ok e) :
    (Op.mkdir path).target ≠ .root ∧
      (Op.mkdir path).target.parentPath ≠ (Op.mkdir path).target := by
  obtain ⟨_, hparent, hself, _⟩ := prepare_mkdir_eq_ok.mp h
  constructor
  · intro heq
    rw [heq, pathExists, if_pos rfl] at hself
    cases hself
  · intro heq
    rw [heq, hself] at hparent
    cases hparent

/-- `rm` checks only that the path exists. -/
theorem prepare_rm_eq_ok {db : Store} {now : UInt64} {path : String} {e : Entry} :
    prepare db now (.rm path) = .ok e ↔
      path ≠ "" ∧ pathExists db (Op.rm path).target = true ∧
        e = ⟨.opRm, .new (Op.rm path).target⟩ := by
  rw [prepare, Namenode.rm, check_bind_eq_ok, requirePath_eq_ok, bind_eq_ok]
  constructor
  · rintro ⟨hpath, inode, hprep, he⟩
    rw [prepareRm, check_bind_eq_ok, tryToRm_eq_ok] at hprep
    obtain ⟨hself, hinode⟩ := hprep
    obtain rfl := Except.ok.inj hinode
    obtain rfl := Except.ok.inj he
    exact ⟨hpath, hself, rfl⟩
  · rintro ⟨hpath, hself, rfl⟩
    refine ⟨hpath, _, ?_, rfl⟩
    rw [prepareRm, check_bind_eq_ok, tryToRm_eq_ok]
    exact ⟨hself, rfl⟩

/-- `put` checks that the path is no directory, that its lock has expired, and
that the storage type can be read.  It does not look at the parent. -/
theorem prepare_put_eq_ok {db : Store} {now : UInt64} {path storageType : String} {e : Entry} :
    prepare db now (.put path storageType) = .ok e ↔
      path ≠ "" ∧
        ((recordAt db (Op.put path storageType).target).valid &&
          (recordAt db (Op.put path storageType).target).isDirectory) = false ∧
        (recordAt db (Op.put path storageType).target).ddlLock < now ∧
        ∃ t, StorageType.fromString storageType = .ok t ∧
          e = ⟨.opPut, { recordAt db (Op.put path storageType).target with
            isDirectory := false, valid := true,
            ddlLock := now + lockRefreshInterval, storageType := some t }⟩ := by
  rw [prepare, Namenode.put, check_bind_eq_ok, requirePath_eq_ok, preparePut]
  have hr : getInode db (.new (.set path)) = recordAt db (Op.put path storageType).target := rfl
  rw [hr]
  generalize recordAt db (Op.put path storageType).target = r
  cases r.valid && r.isDirectory with
  | true => simp [bind, Except.bind]
  | false =>
    by_cases hlock : r.ddlLock < now
    · have hlock' : ¬ r.ddlLock ≥ now := UInt64.not_le.mpr hlock
      cases StorageType.fromString storageType with
      | error x => simp [Inode.lock, hlock', bind, Except.bind]
      | ok t => simp [Inode.lock, hlock', hlock, bind, Except.bind, pure, Except.pure, eq_comm]
    · have hlock' : r.ddlLock ≥ now := UInt64.not_lt.mp hlock
      simp [Inode.lock, hlock', hlock, bind, Except.bind]

/-- `put_ok` checks that the path is a valid file.  It does not look at the
lock. -/
theorem prepare_putOk_eq_ok {db : Store} {now : UInt64} {path : String} {filesize : UInt64}
    {sub : List String} {e : Entry} :
    prepare db now (.putOk path filesize sub) = .ok e ↔
      path ≠ "" ∧ (recordAt db (Op.putOk path filesize sub).target).valid = true ∧
        (recordAt db (Op.putOk path filesize sub).target).isDirectory = false ∧
        e = ⟨.opPutok, { recordAt db (Op.putOk path filesize sub).target with
          sub := sub, filesize := filesize }⟩ := by
  rw [prepare, Namenode.putOk, check_bind_eq_ok, requirePath_eq_ok, preparePutOk]
  have hr : getInode db (.new (.set path)) = recordAt db (Op.putOk path filesize sub).target := rfl
  rw [hr]
  generalize recordAt db (Op.putOk path filesize sub).target = r
  cases hv : r.valid <;> cases hd : r.isDirectory <;>
    simp [hv, hd, bind, Except.bind, pure, Except.pure, eq_comm]

/-- `update_lock` checks only that the path is valid. -/
theorem prepare_updateLock_eq_ok {db : Store} {now : UInt64} {path : String} {e : Entry} :
    prepare db now (.updateLock path) = .ok e ↔
      (recordAt db (Op.updateLock path).target).valid = true ∧
        e = ⟨.opPut, (recordAt db (Op.updateLock path).target).updateDdlLock now⟩ := by
  rw [prepare, Namenode.updateLock, RocksDB.ls]
  have hr : getInode db (.new (.set path)) = recordAt db (Op.updateLock path).target := rfl
  rw [hr]
  generalize recordAt db (Op.updateLock path).target = r
  cases r.valid <;> simp [bind, Except.bind, pure, Except.pure, eq_comm]

/-- The entry of a request is about the path of the request. -/
theorem prepare_spec {db : Store} {now : UInt64} {op : Op} {e : Entry}
    (h : prepare db now op = .ok e) : e.type = op.opType ∧ e.path = op.target := by
  cases op with
  | mkdir path =>
    obtain ⟨_, _, _, rfl⟩ := prepare_mkdir_eq_ok.mp h
    exact ⟨rfl, rfl⟩
  | rm path =>
    obtain ⟨_, _, rfl⟩ := prepare_rm_eq_ok.mp h
    exact ⟨rfl, rfl⟩
  | put path storageType =>
    obtain ⟨_, _, _, t, _, rfl⟩ := prepare_put_eq_ok.mp h
    exact ⟨rfl, by simp [Entry.path]⟩
  | putOk path filesize sub =>
    obtain ⟨_, _, _, rfl⟩ := prepare_putOk_eq_ok.mp h
    exact ⟨rfl, by simp [Entry.path]⟩
  | updateLock path =>
    obtain ⟨_, rfl⟩ := prepare_updateLock_eq_ok.mp h
    exact ⟨rfl, by simp [Entry.path, Inode.updateDdlLock]⟩

/-! ## One request at a time -/

/-- A request with the reading of the clock that its handler makes. -/
structure Request where
  op : Op
  now : UInt64
  deriving DecidableEq

/-- One request on its own: a refused request changes nothing, an admitted one
is applied before the next request starts. -/
def serve (db : Store) (r : Request) : Option Store :=
  match prepare db r.now r.op with
  | .error _ => some db
  | .ok e => applyEntry db e

/-- One request on its own that has to be admitted. -/
def acceptOne (db : Store) (r : Request) : Option Store :=
  match prepare db r.now r.op with
  | .error _ => none
  | .ok e => applyEntry db e

/-- The stores that a namenode reaches when it serves one request after
another, from the empty store. -/
abbrev Served : Store → Prop := Runs.Reachable serve KeyedMap.empty

/-- A request is refused and changes nothing, or it is admitted and its entry is
applied. -/
theorem serve_cases {db db' : Store} {r : Request} (h : serve db r = some db') :
    ((¬ ∃ e, prepare db r.now r.op = .ok e) ∧ db' = db) ∨
      ∃ e, prepare db r.now r.op = .ok e ∧ applyEntry db e = some db' := by
  unfold serve at h
  cases hp : prepare db r.now r.op with
  | error x =>
    rw [hp] at h
    exact Or.inl ⟨by simp, (Option.some.inj h).symm⟩
  | ok e =>
    rw [hp] at h
    exact Or.inr ⟨e, rfl, h⟩

theorem acceptOne_eq_some {db db' : Store} {r : Request} :
    acceptOne db r = some db' ↔
      ∃ e, prepare db r.now r.op = .ok e ∧ applyEntry db e = some db' := by
  unfold acceptOne
  cases prepare db r.now r.op <;> simp

end Spkdfs
